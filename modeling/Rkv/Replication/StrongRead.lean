import Rkv.Replication.Cluster
import Rkv.Storage.ReferenceCodec

/-!
# Reading the last acknowledged write

With `R + W > N` a read quorum meets the write quorum of the last put, so the
last version is among the answers.  Whether it is returned is up to the clocks.
A put stamps its version with the coordinator's own copy of the key, and a
version the coordinator has missed can cover all that it has and more.  If no
replica that the last put does not reach stores such a version, the read returns
what was put.
-/

namespace Rkv.Replication

open Rkv.Foundation
open Rkv.Grpc
open Rkv.Ring (Node HashRing)
open Rkv.Storage (Codecs StorageEngine VectorClock VersionedValue)

/-- The puts of a run, all on one key and each through a replica of it, with
neither expiry nor quorum override, at strictly increasing readings. -/
structure PutRun (hash : String → UInt64) (ring : HashRing) (key : String)
    (calls : List PutCall) : Prop where
  onKey : ∀ call ∈ calls, call.key = key
  throughReplica : ∀ call ∈ calls,
    ring.isResponsible hash call.coordinator key = true
  noExpiry : ∀ call ∈ calls, call.ttlMs = 0
  noOverride : ∀ call ∈ calls, call.writeQuorum = 0
  increasing : calls.Pairwise fun earlier later => earlier.now < later.now

theorem PutRun.front {hash : String → UInt64} {ring : HashRing} {key : String}
    {calls : List PutCall} {last : PutCall}
    (h : PutRun hash ring key (calls ++ [last])) : PutRun hash ring key calls where
  onKey := fun call hcall => h.onKey call (by simp [hcall])
  throughReplica := fun call hcall => h.throughReplica call (by simp [hcall])
  noExpiry := fun call hcall => h.noExpiry call (by simp [hcall])
  noOverride := fun call hcall => h.noOverride call (by simp [hcall])
  increasing := (List.pairwise_append.mp h.increasing).1

/-- A clock counts a put of the coordinator, covers what the coordinator has
stored, and exceeds it in some count, other than by a first put of the
coordinator. -/
def Ahead (coordinator : String) (stored clock : VectorClock) : Prop :=
  1 ≤ clock.count coordinator ∧
    (∀ node, stored.count node ≤ clock.count node) ∧
    ∃ node, stored.count node < clock.count node ∧
      (node = coordinator → 1 < clock.count node)

/-- The clocks that dominate the one a put stamps are those ahead of it. -/
theorem dominates_stamped_iff (coordinator : String)
    (stored clock : VectorClock) :
    clock.dominates ((VectorClock.new.increment coordinator).merge stored) =
      true ↔ Ahead coordinator stored clock := by
  have hcount : ∀ node, ((VectorClock.new.increment coordinator).merge
      stored).count node = max (if coordinator = node then 1 else 0)
        (stored.count node) := by
    intro node
    simp [VectorClock.count_merge, VectorClock.count_increment]
  simp only [VectorClock.dominates_iff, hcount, counter_max_le_iff,
    counter_max_lt_iff]
  constructor
  · rintro ⟨hle, node, htick, hstored⟩
    refine ⟨by simpa using (hle coordinator).1, fun other => (hle other).2, node,
      hstored, ?_⟩
    rintro rfl
    simpa using htick
  · rintro ⟨hcoordinator, hle, node, hstored, htick⟩
    refine ⟨fun other => ⟨?_, hle other⟩, node, ?_, hstored⟩
    · split
      · rename_i heq
        exact heq ▸ hcoordinator
      · simp
    · split
      · rename_i heq
        exact htick heq.symm
      · rw [UInt64.lt_iff_toNat_lt] at hstored ⊢
        exact Nat.lt_of_le_of_lt (Nat.zero_le _) hstored

namespace Cluster

section

variable (hash : String → UInt64) (c : Codecs) (ring : HashRing)
  (quorum : QuorumConfig)

def runPuts (cluster : Cluster) (calls : List PutCall) : Cluster :=
  calls.foldl (put hash c ring quorum) cluster

/-- No replica that a put misses stores a version that is ahead of what its
coordinator stores. -/
def NoneAhead (cluster : Cluster) (call : PutCall) : Prop :=
  ∀ node ∈ ring.getNodes hash call.key,
    reaches call.coordinator call.delivery node.id = false →
      ∀ w, (cluster.engines node.id).getRaw call.key = some w →
        ¬Ahead call.coordinator
          ((cluster.engines call.coordinator).storedClock call.key)
          w.vectorClock

end

variable {hash : String → UInt64} {c : Codecs} {ring : HashRing}
  {quorum : QuorumConfig} {key : String}

theorem vectorClock_version (cluster : Cluster) (call : PutCall) :
    (cluster.version call).vectorClock =
      (VectorClock.new.increment call.coordinator).merge
        ((cluster.engines call.coordinator).storedClock call.key) := by
  unfold version StorageEngine.newVersion
  rw [cluster.nodeId_eq]
  rfl

/-- What a run of puts stores is live and bears the reading of one of them. -/
theorem stored_of_runPuts {cluster : Cluster} {calls : List PutCall}
    (hfresh : ∀ node ∈ ring.getNodes hash key,
      (cluster.engines node.id).getRaw key = none)
    (hrun : PutRun hash ring key calls) {node : Node}
    (hnode : node ∈ ring.getNodes hash key) {v : VersionedValue}
    (hv : ((cluster.runPuts hash c ring quorum calls).engines
      node.id).getRaw key = some v) :
    v.deleted = false ∧ v.ttlMs = 0 ∧ ∃ call ∈ calls,
      v.timestampMs = call.now := by
  induction calls using List.reverseRecOn with
  | nil =>
      rw [runPuts, List.foldl_nil, hfresh node hnode] at hv
      contradiction
  | append_singleton calls last ih =>
      obtain rfl : last.key = key := hrun.onKey last (by simp)
      rw [runPuts, List.foldl_append, List.foldl_cons, List.foldl_nil,
        engines_put_of_mem _ last hnode] at hv
      split at hv
      · rw [StorageEngine.getRaw_put, if_pos rfl] at hv
        cases hv
        exact ⟨rfl, hrun.noExpiry last (by simp), last, by simp, rfl⟩
      · obtain ⟨hlive, httl, call, hcall, htime⟩ := ih hrun.front hv
        exact ⟨hlive, httl, call, by simp [hcall], htime⟩

theorem successes_put_le (cluster : Cluster) (call : PutCall) :
    (cluster.coordinatePut hash c ring quorum call).2.successes ≤
      (ring.getNodes hash call.key).countP fun n =>
        reaches call.coordinator call.delivery n.id := by
  have hacked : ∀ node : Node, (cluster.replicateTo c call node
      (ReplicationCoordinator.replicateRequest call.key
        (cluster.version call))).succeeded (·.success) = true →
      reaches call.coordinator call.delivery node.id = true := by
    intro node
    cases h : call.delivery node.id <;>
      simp [replicateTo, InternalService.replicate,
        ReplicationCoordinator.replicateRequest, Delivery.outcome,
        RpcResult.succeeded, Delivery.applied, reaches, h]
  have hself : (if ring.isResponsible hash call.coordinator call.key then 1
      else 0) ≤ ((ring.getNodes hash call.key).filter fun n =>
        n.id == call.coordinator).countP fun n =>
          reaches call.coordinator call.delivery n.id := by
    rw [← HashRing.countP_id_eq, List.countP_eq_length_filter]
    refine (List.countP_eq_length.mpr fun n hn => ?_).ge
    simp only [List.mem_filter] at hn
    simp [reaches, hn.2]
  have hrest := List.countP_mono_left
    (l := (cluster.coordinatorAt ring quorum call.coordinator).peers hash
      call.key) fun node _ => hacked node
  have hsplit := List.countP_eq_countP_filter_add (ring.getNodes hash call.key)
    (fun n => reaches call.coordinator call.delivery n.id)
    fun n => n.id == call.coordinator
  rw [peers_coordinatorAt] at hrest
  rw [coordinatePut, ReplicationCoordinator.successes_put, hsplit,
    responsible_coordinatorAt, peers_coordinatorAt]
  exact Nat.add_le_add hself hrest

theorem writeQuorum_le_of_isSuccess {cluster : Cluster} {call : PutCall}
    (hoverride : call.writeQuorum = 0)
    (hacked : (cluster.coordinatePut hash c ring quorum call).2.isSuccess =
      true) :
    quorum.writeQuorum ≤ (ring.getNodes hash call.key).countP fun n =>
      reaches call.coordinator call.delivery n.id := by
  have hrequired : (cluster.coordinatePut hash c ring quorum call).2.required =
      quorum.writeQuorum := by
    change quorum.effectiveWriteQuorum call.writeQuorum = _
    simp [hoverride, QuorumConfig.effectiveWriteQuorum]
  rw [QuorumResult.isSuccess, decide_eq_true_eq, hrequired] at hacked
  exact hacked.trans (successes_put_le cluster call)

theorem seen_eq_of_live (cluster : Cluster) (read : GetCall) (node : Node)
    (hlive : ∀ w, (cluster.engines node.id).getRaw read.key = some w →
      w.deleted = false) :
    cluster.seen read node =
      if node.id == read.coordinator || read.reply node.id == .answers then
        (cluster.engines node.id).getRaw read.key
      else none := by
  have hunmarked : (((cluster.engines node.id).getRaw read.key).map fun v =>
      { v with deleted := false }) = (cluster.engines node.id).getRaw read.key := by
    cases hw : (cluster.engines node.id).getRaw read.key with
    | none => rfl
    | some w => rw [Option.map_some, ← hlive w hw]
  unfold seen
  by_cases hself : node.id = read.coordinator
  · simp [hself]
  · by_cases hanswers : read.reply node.id = .answers
    · simp [hself, hanswers, hunmarked]
    · simp [hself, hanswers]

/-- After a put a replica stores the new version, or it was missed and stores an
older one that does not dominate it. -/
theorem stored_after_put {cluster : Cluster} {calls : List PutCall}
    {last : PutCall}
    (hfresh : ∀ node ∈ ring.getNodes hash key,
      (cluster.engines node.id).getRaw key = none)
    (hrun : PutRun hash ring key (calls ++ [last]))
    (hahead : (cluster.runPuts hash c ring quorum calls).NoneAhead hash ring
      last)
    {node : Node} (hnode : node ∈ ring.getNodes hash key) {v : VersionedValue}
    (hv : ((cluster.runPuts hash c ring quorum (calls ++ [last])).engines
      node.id).getRaw key = some v) :
    v = (cluster.runPuts hash c ring quorum calls).version last ∨
      Below v ((cluster.runPuts hash c ring quorum calls).version last) := by
  obtain rfl : last.key = key := hrun.onKey last (by simp)
  rw [runPuts, List.foldl_append, List.foldl_cons, List.foldl_nil,
    engines_put_of_mem _ last hnode] at hv
  split at hv
  · left
    rw [StorageEngine.getRaw_put, if_pos rfl] at hv
    exact (Option.some.inj hv).symm
  · rename_i hmissed
    right
    obtain ⟨-, -, call, hcall, htime⟩ :=
      stored_of_runPuts hfresh hrun.front hnode hv
    refine ⟨?_, ?_⟩
    · rw [vectorClock_version, Bool.eq_false_iff]
      intro hdominates
      exact hahead node hnode (Bool.eq_false_iff.mpr hmissed) v hv
        ((dominates_stamped_iff _ _ _).mp hdominates)
    · rw [htime]
      exact (List.pairwise_append.mp hrun.increasing).2.2 call hcall last
        (by simp)

end Cluster

open Cluster in
/-- In every run of puts from a key no replica stores, a read quorum that
answers after an acknowledged put returns its value, if no replica the put
missed was ahead of its coordinator. -/
theorem get_after_acked_put (hash : String → UInt64) (c : Codecs)
    (ring : HashRing) (quorum : QuorumConfig) (key : String)
    (hreplicas : (ring.getNodes hash key).length = quorum.replicationFactor)
    (hquorum : quorum.replicationFactor <
      quorum.readQuorum + quorum.writeQuorum)
    (cluster : Cluster)
    (hfresh : ∀ node ∈ ring.getNodes hash key,
      (cluster.engines node.id).getRaw key = none)
    (earlier : List PutCall) (last : PutCall)
    (hrun : PutRun hash ring key (earlier ++ [last]))
    (hahead : (cluster.runPuts hash c ring quorum earlier).NoneAhead hash ring
      last)
    (hacked : ((cluster.runPuts hash c ring quorum earlier).coordinatePut hash c
      ring quorum last).2.isSuccess = true)
    (read : GetCall) (hkey : read.key = key)
    (hanswered : quorum.readQuorum ≤ (ring.getNodes hash key).countP fun n =>
      n.id == read.coordinator || read.reply n.id == .answers) :
    ∃ v, ((cluster.runPuts hash c ring quorum (earlier ++ [last])).get hash ring
      quorum read).value = some v ∧ v.value = last.value := by
  subst hkey
  have hlastKey : last.key = read.key := hrun.onKey last (by simp)
  have hseen : ∀ node ∈ ring.getNodes hash read.key,
      (cluster.runPuts hash c ring quorum (earlier ++ [last])).seen read node =
        if node.id == read.coordinator || read.reply node.id == .answers then
          ((cluster.runPuts hash c ring quorum (earlier ++ [last])).engines
            node.id).getRaw read.key
        else none := fun node hnode =>
    seen_eq_of_live _ read node fun w hw =>
      (stored_of_runPuts hfresh hrun hnode hw).1
  -- the read quorum meets the write quorum in a replica with the new version
  have hwritten := writeQuorum_le_of_isSuccess
    (hrun.noOverride last (by simp)) hacked
  rw [hlastKey] at hwritten
  obtain ⟨node, hnode, hread, hreached⟩ :=
    exists_mem_of_length_lt_countP (l := ring.getNodes hash read.key)
      (p := fun n => n.id == read.coordinator || read.reply n.id == .answers)
      (q := fun n => reaches last.coordinator last.delivery n.id) (by omega)
  have hfound : ((cluster.runPuts hash c ring quorum (earlier ++ [last])).engines
      node.id).getRaw read.key =
        some ((cluster.runPuts hash c ring quorum earlier).version last) := by
    rw [runPuts, List.foldl_append, List.foldl_cons, List.foldl_nil,
      engines_put_of_mem _ last (hlastKey ▸ hnode), if_pos hreached,
      StorageEngine.getRaw_put, if_pos hlastKey]
    rfl
  refine ⟨(cluster.runPuts hash c ring quorum earlier).version last, ?_, rfl⟩
  rw [get_value]
  apply resolveConflicts_eq_some
  · refine ⟨rfl, VersionedValue.isExpired_of_ttl_zero ?_ _⟩
    exact hrun.noExpiry last (by simp)
  · refine (mem_responses_iff _ read).mpr ⟨node, hnode, ?_⟩
    rw [hseen node hnode, if_pos hread, hfound]
  · intro v hv
    obtain ⟨other, hother, hv⟩ := (mem_responses_iff _ read).mp hv
    rw [hseen other hother] at hv
    split at hv
    · exact stored_after_put hfresh hrun hahead hother hv
    · contradiction

/-! ## Three puts on three nodes -/

def putByte (coordinator : String) (byte : UInt8) (now : Int64)
    (lostTo : List String) : PutCall where
  coordinator := coordinator
  key := "k"
  value := [byte]
  ttlMs := 0
  writeQuorum := 0
  now := now
  delivery := fun id => if id ∈ lostTo then .lost else .acked

def readThroughNode1 : GetCall where
  coordinator := "node1"
  key := "k"
  readQuorum := 0
  now := 1700000000003
  reply := fun id => if id = "node3" then .timeout else .answers

open Cluster in
/-- Through an up to date coordinator the read returns the last put, although one
replica missed it and another did not answer. -/
theorem get_after_acked_put_of_two :
    ∃ v, (((fresh Storage.referenceCodecs 1048576 3).runPuts Ring.sha256Labels
      Storage.referenceCodecs Ring.threeNodes .defaultStrong
      ([putByte "node1" 1 1700000000000 []] ++
        [putByte "node1" 3 1700000000002 ["node2"]])).get Ring.sha256Labels
      Ring.threeNodes .defaultStrong readThroughNode1).value = some v ∧
        v.value = [3] := by
  refine get_after_acked_put Ring.sha256Labels Storage.referenceCodecs
    Ring.threeNodes .defaultStrong "k" (by decide +kernel) (by decide)
    (fresh Storage.referenceCodecs 1048576 3) (fun _ _ => by simp [fresh])
    [putByte "node1" 1 1700000000000 []]
    (putByte "node1" 3 1700000000002 ["node2"]) ?_ ?_ (by decide +kernel)
    readThroughNode1 rfl (by decide +kernel)
  · refine ⟨by simp [putByte], ?_, by simp [putByte], by simp [putByte], ?_⟩
    · decide +kernel
    · decide +kernel
  · simp only [NoneAhead, ← dominates_stamped_iff]
    decide +kernel

open Cluster in
/-- `node2` alone takes the second put, and its clock covers the one that `node1`
stamps on the third, so the read through `node1` returns the second. -/
theorem get_returns_overwritten_put :
    let earlier := [putByte "node1" 1 1700000000000 [],
      putByte "node2" 2 1700000000001 ["node1", "node3"]]
    let last := putByte "node1" 3 1700000000002 ["node2"]
    let cluster := fresh Storage.referenceCodecs 1048576 3
    let nodes := Ring.threeNodes.getNodes Ring.sha256Labels "k"
    nodes.length = QuorumConfig.defaultStrong.replicationFactor ∧
      QuorumConfig.defaultStrong.isStronglyConsistent = true ∧
      (∀ node ∈ nodes, (cluster.engines node.id).getRaw "k" = none) ∧
      PutRun Ring.sha256Labels Ring.threeNodes "k" (earlier ++ [last]) ∧
      ((cluster.runPuts Ring.sha256Labels Storage.referenceCodecs
        Ring.threeNodes .defaultStrong earlier).coordinatePut Ring.sha256Labels
        Storage.referenceCodecs Ring.threeNodes .defaultStrong
        last).2.isSuccess = true ∧
      QuorumConfig.defaultStrong.readQuorum ≤ nodes.countP (fun n =>
        n.id == readThroughNode1.coordinator ||
          readThroughNode1.reply n.id == .answers) ∧
      last.value = [3] ∧
      (((cluster.runPuts Ring.sha256Labels Storage.referenceCodecs
        Ring.threeNodes .defaultStrong (earlier ++ [last])).get
        Ring.sha256Labels Ring.threeNodes .defaultStrong
        readThroughNode1).value.map (·.value)) = some [2] := by
  refine ⟨by decide +kernel, by decide, fun _ _ => by simp [fresh], ?_,
    by decide +kernel, by decide +kernel, rfl, by decide +kernel⟩
  refine ⟨by simp [putByte], ?_, by simp [putByte], by simp [putByte], ?_⟩
  · decide +kernel
  · decide +kernel

end Rkv.Replication
