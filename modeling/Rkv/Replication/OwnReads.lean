import Rkv.Replication.Provenance
import Rkv.Replication.StrongRead

/-!
# Reads that cannot miss a put

Two cases in which a read returns the last put without any quorum.  Where the put
reached every replica, one answer is enough.  Where a key is only ever put
through one of its replicas, reading through the same replica is enough: all its
versions carry the same counts, so the younger one wins, and the node's own copy
is the youngest.
-/

namespace Rkv.Replication

open Rkv.Foundation
open Rkv.Grpc
open Rkv.Ring (Node HashRing)
open Rkv.Storage (Codecs StorageEngine VectorClock VersionedValue)

/-- The read gets something from a replica: its own, or one that answers. -/
def GetCall.hears (read : GetCall) (node : Node) : Prop :=
  node.id = read.coordinator ∨ read.reply node.id = .answers

namespace Cluster

variable {hash : String → UInt64} {c : Codecs} {ring : HashRing}
  {quorum : QuorumConfig}

theorem seen_of_hears {cluster : Cluster} {read : GetCall} {node : Node}
    {v : VersionedValue}
    (hv : (cluster.engines node.id).getRaw read.key = some v)
    (hlive : v.deleted = false) (hhears : read.hears node) :
    cluster.seen read node = some v := by
  unfold seen
  split
  · exact hv
  · rename_i hne
    rw [if_pos (hhears.resolve_left hne), hv, Option.map_some, ← hlive]

end Cluster

open Cluster in
/-- A put that reached every replica is what every later read of the key returns
that hears any of them, through whatever node and whatever the cluster held and
does with other keys, until it expires. -/
theorem get_after_full_put (hash : String → UInt64) (c : Codecs)
    (ring : HashRing) (quorum : QuorumConfig) (cluster : Cluster)
    (call : PutCall)
    (happlied : ∀ node ∈ ring.getNodes hash call.key,
      reaches call.coordinator call.delivery node.id = true)
    (read : GetCall) (hkey : read.key = call.key)
    (hunexpired : (cluster.version call).isExpired read.now = false)
    (later : List ClusterOp)
    (hlater : ∀ op ∈ later, op.Avoids call.key read.now) :
    let after := (cluster.put hash c ring quorum call).run hash c ring quorum
      later
    ((∃ node ∈ ring.getNodes hash call.key, read.hears node) →
      (after.get hash ring quorum read).value = some (cluster.version call)) ∧
    ((∀ node ∈ ring.getNodes hash call.key, ¬read.hears node) →
      (after.get hash ring quorum read).value = none) := by
  intro after
  have hstored : ∀ node ∈ ring.getNodes hash call.key,
      (after.engines node.id).getRaw read.key = some (cluster.version call) := by
    intro node hnode
    have hput : ((cluster.put hash c ring quorum call).engines
        node.id).getRaw call.key = some (cluster.version call) := by
      rw [engines_put_of_mem cluster call hnode, if_pos (happlied node hnode),
        StorageEngine.getRaw_put, if_pos rfl]
    rw [hkey]
    exact getRaw_run hput hunexpired hlater
  constructor
  · rintro ⟨node, hnode, hhears⟩
    rw [get_value]
    apply resolveConflicts_eq_some ⟨rfl, hunexpired⟩
    · exact (mem_responses_iff after read).mpr ⟨node, hkey ▸ hnode,
        seen_of_hears (hstored node hnode) rfl hhears⟩
    · intro v hv
      obtain ⟨other, hother, hseen⟩ := (mem_responses_iff after read).mp hv
      rw [hkey] at hother
      left
      unfold seen at hseen
      rw [hstored other hother] at hseen
      split at hseen
      · exact (Option.some.inj hseen).symm
      · split at hseen
        · exact (Option.some.inj hseen).symm
        · contradiction
  · intro hsilent
    cases hvalue : (after.get hash ring quorum read).value with
    | none => rfl
    | some v =>
        obtain ⟨-, node, hnode, hseen⟩ := seen_of_get hvalue
        have hnot := hsilent node (hkey ▸ hnode)
        rw [GetCall.hears, not_or] at hnot
        rw [seen, if_neg hnot.1, if_neg hnot.2] at hseen
        contradiction

open Cluster in
theorem get_after_full_put_two_silent :
    let call := putByte "node1" 7 1700000000000 []
    let read : GetCall := ⟨"node4", "k", 0, 1700000000001,
      fun id => if id = "node2" then .answers else .timeout⟩
    ((((fresh Storage.referenceCodecs 1048576 3).put Ring.sha256Labels
        Storage.referenceCodecs Ring.threeNodes .defaultStrong call).run
        Ring.sha256Labels Storage.referenceCodecs Ring.threeNodes
        .defaultStrong [.evict "node2" 1700000000001]).get Ring.sha256Labels
        Ring.threeNodes .defaultStrong read).value =
      some ((fresh Storage.referenceCodecs 1048576 3).version call) := by
  intro call read
  refine (get_after_full_put Ring.sha256Labels Storage.referenceCodecs
    Ring.threeNodes .defaultStrong (fresh Storage.referenceCodecs 1048576 3)
    call (by decide +kernel) read rfl (by decide +kernel)
    [.evict "node2" 1700000000001] ?_).1 ?_
  · simp [ClusterOp.Avoids, read]
  · exact ⟨⟨"node2", "10.0.0.2:50051"⟩, by decide +kernel, .inr rfl⟩

/-! ## One coordinator for a key -/

/-- The key is put through this node only and not deleted. -/
def ClusterOp.Through (x key : String) : ClusterOp → Prop
  | .put call => call.key = key → call.coordinator = x
  | .delete call => call.key ≠ key
  | .evict _ _ => True

/-- The key is not written, and the node evicts nothing that a read at this
reading would show. -/
def ClusterOp.Spares (x key : String) (now : Int64) : ClusterOp → Prop
  | .put call => call.key ≠ key
  | .delete call => call.key ≠ key
  | .evict node reading => node = x → reading ≤ now

def ClusterOp.putReading (key : String) : ClusterOp → Option Int64
  | .put call => if call.key = key then some call.now else none
  | _ => none

/-- Live, with the counts of a put through this node, and no younger than the
bound. -/
structure Stamped (x : String) (bound : Int64) (v : VersionedValue) : Prop where
  live : v.deleted = false
  counts : ∀ node, v.vectorClock.count node = if x = node then 1 else 0
  timestamp_le : v.timestampMs ≤ bound

theorem dominates_of_same_counts {clock other : VectorClock}
    (h : ∀ node, clock.count node = other.count node) :
    clock.dominates other = false := by
  rw [Bool.eq_false_iff, Ne, VectorClock.dominates_iff]
  rintro ⟨-, node, hlt⟩
  rw [h node] at hlt
  exact UInt64.lt_irrefl _ hlt

/-- A put through a node that stores nothing of the key, or an earlier put of its
own, counts one. -/
theorem count_newVersion {cluster : Cluster} {x key : String}
    (hstored : ∀ v, (cluster.engines x).getRaw key = some v →
      ∀ node, v.vectorClock.count node = if x = node then 1 else 0)
    (value : Storage.Bytes) (ttlMs now : Int64) (node : String) :
    ((cluster.engines x).newVersion key value ttlMs now).vectorClock.count node =
      if x = node then 1 else 0 := by
  have hclock : ((cluster.engines x).storedClock key).count node = 0 ∨
      ((cluster.engines x).storedClock key).count node =
        if x = node then 1 else 0 := by
    rw [StorageEngine.storedClock]
    cases hv : (cluster.engines x).getRaw key with
    | none => exact .inl (by simp [VectorClock.count, VectorClock.new])
    | some v => exact .inr (hstored v hv node)
  have hmerge : ((cluster.engines x).newVersion key value ttlMs
      now).vectorClock = (VectorClock.new.increment x).merge
        ((cluster.engines x).storedClock key) := by
    unfold StorageEngine.newVersion
    rw [cluster.nodeId_eq]
    rfl
  rw [hmerge, VectorClock.count_merge, VectorClock.count_increment]
  rcases hclock with hzero | hequal
  · rw [hzero]
    split <;> rfl
  · rw [hequal]
    split <;> rfl

/-- A version with the same counts that is not younger does not replace it. -/
theorem prefer_stamped {x : String} {best v : VersionedValue} {bound : Int64}
    (hbest : Stamped x bound best) (hyoungest : best.timestampMs = bound)
    (hv : Stamped x bound v) : prefer best v = best := by
  have hequal : ∀ a b : VersionedValue, Stamped x bound a → Stamped x bound b →
      a.vectorClock.dominates b.vectorClock = false := fun a b ha hb =>
    dominates_of_same_counts fun node => (ha.counts node).trans (hb.counts node).symm
  unfold prefer
  rw [if_neg (by simp [hequal v best hv hbest]),
    if_neg (by simp [hequal best v hbest hv]), hyoungest,
    if_neg (Int64.not_lt.mpr hv.timestamp_le)]

theorem resolveLoop_kept {now : Int64} {best : VersionedValue}
    {values : List (Option VersionedValue)}
    (hvalues : ∀ v, some v ∈ values → prefer best v = best) :
    resolveLoop now (some best) values = some best := by
  induction values with
  | nil => rfl
  | cons value values ih =>
      have hrest := ih fun v hv => hvalues v (List.mem_cons_of_mem _ hv)
      cases value with
      | none => exact hrest
      | some v =>
          rw [resolveLoop]
          split
          · exact hrest
          · split
            · exact hrest
            · rw [pickBest, hvalues v (by simp)]
              exact hrest

namespace Cluster

variable {hash : String → UInt64} {c : Codecs} {ring : HashRing}
  {quorum : QuorumConfig} {x key : String} {bound : Int64}

def AllStamped (hash : String → UInt64) (ring : HashRing) (x key : String)
    (bound : Int64) (cluster : Cluster) : Prop :=
  ∀ node ∈ ring.getNodes hash key, ∀ v,
    (cluster.engines node.id).getRaw key = some v → Stamped x bound v

theorem stamped_version {cluster : Cluster}
    (h : cluster.AllStamped hash ring x key bound)
    (hreplica : x ∈ (ring.getNodes hash key).map Node.id) {call : PutCall}
    (hkey : call.key = key) (hcoordinator : call.coordinator = x)
    (hnow : call.now ≤ bound) : Stamped x bound (cluster.version call) := by
  obtain ⟨replica, hmem, rfl⟩ := List.mem_map.mp hreplica
  subst hkey
  refine ⟨rfl, ?_, hnow⟩
  rw [← hcoordinator]
  refine count_newVersion (fun v hv => ?_) call.value call.ttlMs call.now
  rw [hcoordinator] at hv ⊢
  exact (h replica hmem v hv).counts

theorem AllStamped.step {cluster : Cluster}
    (h : cluster.AllStamped hash ring x key bound)
    (hreplica : x ∈ (ring.getNodes hash key).map Node.id) {op : ClusterOp}
    (hop : op.Through x key) (hreading : ∀ now ∈ op.putReading key, now ≤ bound) :
    (cluster.step hash c ring quorum op).AllStamped hash ring x key bound := by
  intro node hnode v hv
  cases op with
  | put call =>
      rcases cluster.putEngines_eq hash c ring quorum call node.id with
        hsame | hput
      · exact h node hnode v ((congrArg (·.getRaw key) hsame).symm.trans hv)
      · have hfound := (congrArg (·.getRaw key) hput).symm.trans hv
        rw [StorageEngine.getRaw_put] at hfound
        split at hfound
        · rename_i hkey
          obtain rfl := Option.some.inj hfound
          exact stamped_version h hreplica hkey (hop hkey)
            (hreading call.now (by simp [ClusterOp.putReading, hkey]))
        · exact h node hnode v hfound
  | delete call =>
      rcases cluster.deleteEngines_eq hash c ring quorum call node.id with
        hsame | hdelete
      · exact h node hnode v ((congrArg (·.getRaw key) hsame).symm.trans hv)
      · have hfound := (congrArg (·.getRaw key) hdelete).symm.trans hv
        rw [StorageEngine.getRaw_delete, if_neg hop] at hfound
        exact h node hnode v hfound
  | evict other now =>
      refine h node hnode v ?_
      change (if node.id = other then _ else _ : StorageEngine).getRaw key =
        some v at hv
      split at hv
      · exact (Option.filter_eq_some_iff.mp
          ((Storage.MemTable.getRaw_evictExpired _ _ _).symm.trans hv)).1
      · exact hv

theorem AllStamped.run {cluster : Cluster}
    (h : cluster.AllStamped hash ring x key bound)
    (hreplica : x ∈ (ring.getNodes hash key).map Node.id) {ops : List ClusterOp}
    (hops : ∀ op ∈ ops, op.Through x key)
    (hreadings : ∀ now ∈ ops.filterMap (·.putReading key), now ≤ bound) :
    (cluster.run hash c ring quorum ops).AllStamped hash ring x key bound := by
  induction ops using List.reverseRecOn with
  | nil => exact h
  | append_singleton ops op ih =>
      rw [Cluster.run, List.foldl_append]
      refine (ih (fun other hmem => hops other (List.mem_append_left _ hmem))
        fun now hmem => hreadings now ?_).step hreplica (hops op (by simp))
        fun now hmem => hreadings now ?_
      · rw [List.filterMap_append]
        exact List.mem_append_left _ hmem
      · rw [List.filterMap_append]
        exact List.mem_append_right _ (by simpa using hmem)

/-- The node's copy stays while nothing writes the key or evicts it there. -/
theorem getRaw_run_of_spares {cluster : Cluster} {now : Int64}
    {v : VersionedValue} (hv : (cluster.engines x).getRaw key = some v)
    (hlive : v.isExpired now = false) {ops : List ClusterOp}
    (hops : ∀ op ∈ ops, op.Spares x key now) :
    ((cluster.run hash c ring quorum ops).engines x).getRaw key = some v := by
  induction ops generalizing cluster with
  | nil => exact hv
  | cons op ops ih =>
      refine ih ?_ fun other hother => hops other (by simp [hother])
      have hop := hops op (by simp)
      cases op with
      | put call => exact getRaw_step hv hlive hop
      | delete call => exact getRaw_step hv hlive hop
      | evict node reading =>
          by_cases hnode : node = x
          · exact getRaw_step hv hlive
              (show ClusterOp.Avoids key now (.evict node reading) from hop hnode)
          · change (if x = node then _ else _ : StorageEngine).getRaw key = some v
            rw [if_neg (Ne.symm hnode)]
            exact hv

theorem through_of_spares {op : ClusterOp} {now : Int64}
    (h : op.Spares x key now) : op.Through x key ∧ op.putReading key = none := by
  cases op with
  | put call => exact ⟨fun hkey => absurd hkey h, if_neg h⟩
  | delete call => exact ⟨h, rfl⟩
  | evict node reading => exact ⟨trivial, rfl⟩

/-- A read through a replica looks at its own copy first. -/
theorem responses_of_replica (quorum : QuorumConfig) (cluster : Cluster)
    (read : GetCall)
    (hreplica : read.coordinator ∈ (ring.getNodes hash read.key).map Node.id) :
    ∃ rest, (cluster.coordinatorAt ring quorum read.coordinator).responses hash
        read.key (fun node req => (read.reply node.id).outcome
          (InternalService.getInternal (cluster.engines node.id) req)) =
      (cluster.engines read.coordinator).getRaw read.key :: rest := by
  rw [ReplicationCoordinator.responses, responsible_coordinatorAt,
    HashRing.isResponsible_iff.mpr hreplica, if_pos rfl, engine_coordinatorAt]
  exact ⟨_, rfl⟩

end Cluster

open Cluster in
/-- Where a key that no replica stored is put through one replica only, at
readings that do not go back, and not deleted, a read through that replica
returns the last put until it expires: whatever the deliveries and the quorums
were, whoever answers, and whatever happens to other keys. -/
theorem get_own_put (hash : String → UInt64) (c : Codecs) (ring : HashRing)
    (quorum : QuorumConfig) (cluster : Cluster) (x key : String)
    (hreplica : x ∈ (ring.getNodes hash key).map Node.id)
    (hfresh : ∀ node ∈ ring.getNodes hash key,
      (cluster.engines node.id).getRaw key = none)
    (before after : List ClusterOp) (last : PutCall) (hlast : last.key = key)
    (hthrough : ∀ op ∈ before ++ [.put last], op.Through x key)
    (hreadings : ∀ now ∈ before.filterMap (·.putReading key), now ≤ last.now)
    (read : GetCall) (hread : read.coordinator = x) (hkey : read.key = key)
    (hafter : ∀ op ∈ after, op.Spares x key read.now)
    (hunexpired : ((cluster.run hash c ring quorum before).version
      last).isExpired read.now = false) :
    ((cluster.run hash c ring quorum (before ++ .put last :: after)).get hash
        ring quorum read).value =
      some ((cluster.run hash c ring quorum before).version last) := by
  obtain ⟨hbefore, hput⟩ := List.forall_mem_append.mp hthrough
  have hcoordinator : last.coordinator = x :=
    List.forall_mem_singleton.mp hput hlast
  have hstamped : (cluster.run hash c ring quorum before).AllStamped hash ring x
      key last.now :=
    AllStamped.run (fun node hnode v hv => by simp [hfresh node hnode] at hv)
      hreplica hbefore hreadings
  have hversion := stamped_version hstamped hreplica hlast hcoordinator
    (Int64.le_refl _)
  have hsplit : cluster.run hash c ring quorum (before ++ .put last :: after) =
      ((cluster.run hash c ring quorum before).put hash c ring quorum last).run
        hash c ring quorum after := by
    rw [run, List.foldl_append]
    rfl
  -- the put and what follows leave every replica's version stamped
  have hfinal : (cluster.run hash c ring quorum
      (before ++ .put last :: after)).AllStamped hash ring x key last.now := by
    rw [hsplit]
    refine AllStamped.run (hstamped.step hreplica
      (List.forall_mem_singleton.mp hput) ?_) hreplica
      (fun op hop => (through_of_spares (hafter op hop)).1) ?_
    · intro now hnow
      simp only [ClusterOp.putReading, hlast, if_true, Option.mem_some] at hnow
      exact hnow ▸ Int64.le_refl _
    · intro now hnow
      obtain ⟨op, hop, hreading⟩ := List.mem_filterMap.mp hnow
      rw [(through_of_spares (hafter op hop)).2] at hreading
      contradiction
  have hown : ((cluster.run hash c ring quorum
      (before ++ .put last :: after)).engines x).getRaw key =
        some ((cluster.run hash c ring quorum before).version last) := by
    rw [hsplit]
    refine getRaw_run_of_spares ?_ hunexpired hafter
    obtain ⟨replica, hmem, rfl⟩ := List.mem_map.mp hreplica
    rw [engines_put_of_mem _ last (hlast ▸ hmem), if_pos (by
      simp [reaches, hcoordinator]), StorageEngine.getRaw_put, if_pos hlast]
  subst hread hkey
  obtain ⟨rest, hresponses⟩ := responses_of_replica quorum
    (cluster.run hash c ring quorum (before ++ .put last :: after)) read hreplica
  rw [get_value, hresponses, hown, resolveConflicts, resolveLoop,
    if_neg (by simp [hversion.live]), if_neg (by simp [hunexpired]), pickBest]
  refine resolveLoop_kept fun v hv => ?_
  have hmem := hresponses ▸ List.mem_cons_of_mem _ hv
  obtain ⟨node, hnode, hseen⟩ := (mem_responses_iff _ read).mp hmem
  refine prefer_stamped hversion rfl ?_
  unfold seen at hseen
  split at hseen
  · exact hfinal node hnode v hseen
  · split at hseen
    · obtain ⟨w, hw, rfl⟩ := Option.map_eq_some_iff.mp hseen
      have hfound := hfinal node hnode w hw
      exact ⟨rfl, hfound.counts, hfound.timestamp_le⟩
    · contradiction

open Cluster in
/-- The second put reaches no other replica, and an older version answers. -/
theorem get_own_put_undelivered :
    let first := putByte "node1" 1 1700000000000 []
    let last := putByte "node1" 2 1700000000000 ["node2", "node3"]
    (((fresh Storage.referenceCodecs 1048576 3).run Ring.sha256Labels
        Storage.referenceCodecs Ring.threeNodes .defaultStrong
        ([.put first] ++ .put last :: [.evict "node2" 1700000099999])).get
          Ring.sha256Labels Ring.threeNodes .defaultStrong
          (readAfterDelete fun _ => .answers)).value =
      some (((fresh Storage.referenceCodecs 1048576 3).run Ring.sha256Labels
        Storage.referenceCodecs Ring.threeNodes .defaultStrong
        [.put first]).version last) := by
  intro first last
  refine get_own_put Ring.sha256Labels Storage.referenceCodecs Ring.threeNodes
    .defaultStrong (fresh Storage.referenceCodecs 1048576 3) "node1" "k"
    (by decide +kernel) (fun _ _ => by simp [fresh]) [.put first]
    [.evict "node2" 1700000099999] last rfl ?_ ?_
    (readAfterDelete fun _ => .answers) rfl rfl ?_
    (Storage.VersionedValue.isExpired_of_ttl_zero rfl _)
  · simp [ClusterOp.Through, first, last, putByte]
  · simp [ClusterOp.putReading, first, last, putByte]
  · simp [ClusterOp.Spares]

end Rkv.Replication
