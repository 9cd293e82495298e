import Rkv.Replication.DeleteVisibility

/-!
# Where stored versions come from

Every version a node stores was written by a call of the run: a put with its
value, lifetime and reading, or a delete.  Clocks are as poor as the calls make
them.  A put sets its coordinator's counter to 1 where it was 0 and leaves it
otherwise, so only deletes count.
-/

namespace Rkv.Replication

open Rkv.Foundation
open Rkv.Ring (Node HashRing)
open Rkv.Storage (Codecs StorageEngine VectorClock VersionedValue)

def ClusterOp.isDeleteOf (key : String) : ClusterOp → Bool
  | .delete call => call.key = key
  | _ => false

def deletesOf (key : String) (ops : List ClusterOp) : Nat :=
  ops.countP (·.isDeleteOf key)

/-- A put of the run wrote this version. -/
def PutBy (ops : List ClusterOp) (key : String) (v : VersionedValue) : Prop :=
  ∃ call, ClusterOp.put call ∈ ops ∧ call.key = key ∧ v.value = call.value ∧
    v.ttlMs = call.ttlMs ∧ v.timestampMs = call.now

def Deleted (ops : List ClusterOp) (key : String) : Prop :=
  ∃ call, ClusterOp.delete call ∈ ops ∧ call.key = key

def CoordinatedBy (ops : List ClusterOp) (key node : String) : Prop :=
  ∃ call, ClusterOp.put call ∈ ops ∧ call.key = key ∧ call.coordinator = node

/-- The clock counts deletes only, and names only nodes that put the key or may
have deleted it. -/
structure ClockTraced (ops : List ClusterOp) (key : String)
    (clock : VectorClock) : Prop where
  count_le : ∀ node, (clock.count node).toNat ≤ 1 + deletesOf key ops
  named : ∀ node, clock.count node ≠ 0 →
    CoordinatedBy ops key node ∨ Deleted ops key

structure Traced (ops : List ClusterOp) (key : String) (v : VersionedValue) :
    Prop where
  origin : (v.deleted = false ∧ PutBy ops key v) ∨
    (v.deleted = true ∧ v.value = [] ∧ Deleted ops key)
  clock : ClockTraced ops key v.vectorClock

/-! ## One call -/

section

variable {ops : List ClusterOp} {key : String}

theorem deletesOf_concat (key : String) (ops : List ClusterOp)
    (op : ClusterOp) :
    deletesOf key (ops ++ [op]) =
      deletesOf key ops + if op.isDeleteOf key then 1 else 0 := by
  simp only [deletesOf, List.countP_append, List.countP_singleton]

theorem ClockTraced.new (ops : List ClusterOp) (key : String) :
    ClockTraced ops key VectorClock.new where
  count_le := fun node => by simp [VectorClock.count, VectorClock.new]
  named := fun node hcount => absurd (by simp [VectorClock.count,
    VectorClock.new]) hcount

theorem ClockTraced.concat {clock : VectorClock} (h : ClockTraced ops key clock)
    (op : ClusterOp) : ClockTraced (ops ++ [op]) key clock where
  count_le := fun node => by
    have hle := h.count_le node
    rw [deletesOf_concat]
    omega
  named := fun node hcount => by
    rcases h.named node hcount with ⟨call, hmem, hcall⟩ | ⟨call, hmem, hcall⟩
    · exact .inl ⟨call, List.mem_append_left _ hmem, hcall⟩
    · exact .inr ⟨call, List.mem_append_left _ hmem, hcall⟩

theorem Traced.concat {v : VersionedValue} (h : Traced ops key v)
    (op : ClusterOp) : Traced (ops ++ [op]) key v where
  origin := by
    rcases h.origin with ⟨hlive, call, hmem, hcall⟩ |
      ⟨hdeleted, hvalue, call, hmem, hcall⟩
    · exact .inl ⟨hlive, call, List.mem_append_left _ hmem, hcall⟩
    · exact .inr ⟨hdeleted, hvalue, call, List.mem_append_left _ hmem, hcall⟩
  clock := h.clock.concat op

theorem ClockTraced.put {clock : VectorClock} (h : ClockTraced ops key clock)
    {call : PutCall} (hkey : call.key = key) :
    ClockTraced (ops ++ [.put call]) key
      ((VectorClock.new.increment call.coordinator).merge clock) := by
  have hcount : ∀ node, ((VectorClock.new.increment call.coordinator).merge
      clock).count node =
        max (if call.coordinator = node then 1 else 0) (clock.count node) := by
    intro node
    simp [VectorClock.count_merge, VectorClock.count_increment]
  have hold := h.concat (.put call)
  refine ⟨fun node => ?_, fun node hne => ?_⟩
  · rw [hcount]
    rcases counter_max_eq_or (if call.coordinator = node then 1 else 0)
        (clock.count node) with heq | heq
    · rw [heq]
      split <;> simp
    · rw [heq]
      exact hold.count_le node
  · by_cases hself : call.coordinator = node
    · exact .inl ⟨call, by simp, hkey, hself⟩
    · refine hold.named node fun hzero => hne ?_
      rw [hcount, if_neg hself, hzero]
      rfl

theorem ClockTraced.delete {clock : VectorClock} (h : ClockTraced ops key clock)
    {call : DeleteCall} (hkey : call.key = key) (node : String) :
    ClockTraced (ops ++ [.delete call]) key (clock.increment node) where
  count_le := fun other => by
    have hle := h.count_le other
    rw [deletesOf_concat, show (ClusterOp.delete call).isDeleteOf key = true by
      simp [ClusterOp.isDeleteOf, hkey], if_pos rfl, VectorClock.count_increment]
    split
    · rename_i heq
      subst heq
      rw [UInt64.toNat_add, UInt64.toNat_one]
      omega
    · omega
  named := fun other _ => .inr ⟨call, by simp, hkey⟩

end

namespace Cluster

variable {hash : String → UInt64} {c : Codecs} {ring : HashRing}
  {quorum : QuorumConfig} {ops : List ClusterOp}

/-- Everything the cluster stores is traced to the run. -/
def AllTraced (ops : List ClusterOp) (cluster : Cluster) : Prop :=
  ∀ id key v, (cluster.engines id).getRaw key = some v → Traced ops key v

theorem AllTraced.storedClock {cluster : Cluster} (h : cluster.AllTraced ops)
    (id key : String) :
    ClockTraced ops key ((cluster.engines id).storedClock key) := by
  rw [StorageEngine.storedClock]
  cases hv : (cluster.engines id).getRaw key with
  | none => exact .new ops key
  | some v => exact (h id key v hv).clock

theorem AllTraced.step {cluster : Cluster} (h : cluster.AllTraced ops)
    (op : ClusterOp) :
    (cluster.step hash c ring quorum op).AllTraced (ops ++ [op]) := by
  intro id key v hv
  cases op with
  | put call =>
      have hold := fun hv => (h id key v hv).concat (.put call)
      rcases cluster.putEngines_eq hash c ring quorum call id with hsame | hput
      · exact hold ((congrArg (·.getRaw key) hsame).symm.trans hv)
      · have hfound := (congrArg (·.getRaw key) hput).symm.trans hv
        rw [StorageEngine.getRaw_put] at hfound
        split at hfound
        · rename_i hkey
          obtain rfl := Option.some.inj hfound
          refine ⟨.inl ⟨rfl, call, by simp, hkey, rfl, rfl, rfl⟩, ?_⟩
          have hclock := (h.storedClock call.coordinator key).put hkey
          unfold version StorageEngine.newVersion
          rw [cluster.nodeId_eq, hkey]
          exact hclock
        · exact hold hfound
  | delete call =>
      have hold := fun hv => (h id key v hv).concat (.delete call)
      rcases cluster.deleteEngines_eq hash c ring quorum call id with
        hsame | hdelete
      · exact hold ((congrArg (·.getRaw key) hsame).symm.trans hv)
      · have hfound := (congrArg (·.getRaw key) hdelete).symm.trans hv
        rw [StorageEngine.getRaw_delete] at hfound
        split at hfound
        · rename_i hkey
          obtain rfl := Option.some.inj hfound
          refine ⟨.inr ⟨rfl, rfl, call, by simp, hkey⟩, ?_⟩
          rw [hkey]
          exact (h.storedClock id key).delete hkey _
        · exact hold hfound
  | evict node now =>
      refine (h id key v ?_).concat _
      change (if id = node then _ else _ : StorageEngine).getRaw key = some v at hv
      split at hv
      · exact (Option.filter_eq_some_iff.mp
          ((Storage.MemTable.getRaw_evictExpired _ _ _).symm.trans hv)).1
      · exact hv

theorem allTraced_run {cluster : Cluster}
    (hfresh : ∀ id key, (cluster.engines id).getRaw key = none)
    (ops : List ClusterOp) :
    (cluster.run hash c ring quorum ops).AllTraced ops := by
  induction ops using List.reverseRecOn with
  | nil =>
      intro id key v hv
      rw [run, List.foldl_nil, hfresh] at hv
      contradiction
  | append_singleton ops op ih =>
      rw [run, List.foldl_append]
      exact ih.step op

theorem seen_of_get {cluster : Cluster} {read : GetCall} {v : VersionedValue}
    (hv : (cluster.get hash ring quorum read).value = some v) :
    Live read.now v ∧ ∃ node ∈ ring.getNodes hash read.key,
      cluster.seen read node = some v := by
  rw [get_value, resolveConflicts_eq] at hv
  obtain ⟨hmem, hlive⟩ := mem_liveAnswers.mp (mem_of_contest hv)
  exact ⟨hlive, (mem_responses_iff cluster read).mp hmem⟩

end Cluster

/-- In every run on an empty cluster, whatever the network did, a read returns
nothing that was not written: its version was put by a call of the run on this
key, or it is the empty value of a tombstone and the key was deleted. -/
theorem read_from_run (hash : String → UInt64) (c : Codecs) (ring : HashRing)
    (quorum : QuorumConfig) (cluster : Cluster)
    (hfresh : ∀ id key, (cluster.engines id).getRaw key = none)
    (ops : List ClusterOp) (read : GetCall) {v : VersionedValue}
    (hv : ((cluster.run hash c ring quorum ops).get hash ring quorum
      read).value = some v) :
    v.deleted = false ∧ v.isExpired read.now = false ∧
      (PutBy ops read.key v ∨ v.value = [] ∧ Deleted ops read.key) := by
  obtain ⟨⟨hlive, hunexpired⟩, node, -, hseen⟩ := Cluster.seen_of_get hv
  refine ⟨hlive, hunexpired, ?_⟩
  obtain ⟨w, hw, hsame⟩ : ∃ w : VersionedValue,
      ((cluster.run hash c ring quorum ops).engines node.id).getRaw read.key =
        some w ∧ { w with deleted := false } = v := by
    unfold Cluster.seen at hseen
    split at hseen
    · exact ⟨v, hseen, by rw [← hlive]⟩
    · split at hseen
      · exact Option.map_eq_some_iff.mp hseen
      · contradiction
  subst hsame
  rcases (Cluster.allTraced_run hfresh ops _ _ _ hw).origin with
    ⟨-, hput⟩ | ⟨-, hvalue, hdeleted⟩
  · exact .inl hput
  · exact .inr ⟨hvalue, hdeleted⟩

/-- In every run on an empty cluster, no counter of a stored clock passes 1 by
more than the deletes of the key.  Without any, a clock says which nodes
coordinated a put of the key and not how often. -/
theorem clocks_count_deletes (hash : String → UInt64) (c : Codecs)
    (ring : HashRing) (quorum : QuorumConfig) (cluster : Cluster)
    (hfresh : ∀ id key, (cluster.engines id).getRaw key = none)
    (ops : List ClusterOp) {id key : String} {v : VersionedValue}
    (hv : ((cluster.run hash c ring quorum ops).engines id).getRaw key =
      some v) (node : String) :
    (v.vectorClock.count node).toNat ≤ 1 + deletesOf key ops ∧
      (¬Deleted ops key → v.vectorClock.count node ≠ 0 →
        v.vectorClock.count node = 1 ∧ CoordinatedBy ops key node) := by
  have hclock := (Cluster.allTraced_run hfresh ops id key v hv).clock
  refine ⟨hclock.count_le node, fun hnone hcount => ⟨?_, ?_⟩⟩
  · have hzero : deletesOf key ops = 0 := by
      rw [deletesOf, List.countP_eq_zero]
      intro op hop hdelete
      cases op with
      | delete call =>
          exact hnone ⟨call, hop, by simpa [ClusterOp.isDeleteOf] using hdelete⟩
      | put call => contradiction
      | evict other now => contradiction
    have hle := hclock.count_le node
    apply UInt64.toNat_inj.mp
    have hpos : (v.vectorClock.count node).toNat ≠ 0 := fun h =>
      hcount (UInt64.toNat_inj.mp h)
    rw [UInt64.toNat_one]
    omega
  · exact (hclock.named node hcount).resolve_right hnone

/-! ## Two puts -/

/-- The acknowledgements of the second put are lost. -/
def putTwice : List ClusterOp :=
  [.put ⟨"node1", "k", [1], 0, 0, 1700000000000, fun _ => .acked⟩,
    .put ⟨"node1", "k", [2], 0, 0, 1700000000001, fun _ => .ackLost⟩]

def afterPutTwice (c : Codecs) : Cluster :=
  (Cluster.fresh c 1048576 3).run Ring.sha256Labels c Ring.threeNodes
    .defaultStrong putTwice

theorem read_from_run_of_two_puts :
    ∃ v, ((afterPutTwice Storage.referenceCodecs).get Ring.sha256Labels
        Ring.threeNodes .defaultStrong (readAfterDelete fun _ => .answers)).value =
          some v ∧ v.value = [2] ∧ PutBy putTwice "k" v := by
  have hvalue : (((afterPutTwice Storage.referenceCodecs).get Ring.sha256Labels
      Ring.threeNodes .defaultStrong
      (readAfterDelete fun _ => .answers)).value.map (·.value)) = some [2] := by
    decide +kernel
  obtain ⟨v, hv, hbytes⟩ := Option.map_eq_some_iff.mp hvalue
  obtain ⟨-, -, hput | ⟨hempty, -⟩⟩ := read_from_run Ring.sha256Labels
    Storage.referenceCodecs Ring.threeNodes .defaultStrong
    (Cluster.fresh Storage.referenceCodecs 1048576 3)
    (fun _ _ => by simp [Cluster.fresh]) putTwice
    (readAfterDelete fun _ => .answers) hv
  · exact ⟨v, hv, hbytes, hput⟩
  · rw [hbytes] at hempty
    contradiction

/-- After two puts through `node1` its counter is still 1. -/
theorem clocks_count_deletes_of_two_puts :
    ∃ v, ((afterPutTwice Storage.referenceCodecs).engines "node2").getRaw "k" =
        some v ∧ v.value = [2] ∧ v.vectorClock.count "node1" = 1 ∧
      CoordinatedBy putTwice "k" "node1" := by
  have hstored : ((((afterPutTwice Storage.referenceCodecs).engines
      "node2").getRaw "k").map fun v =>
        (v.value, decide (v.vectorClock.count "node1" = 0))) =
          some ([2], false) := by
    decide +kernel
  obtain ⟨v, hv, hfields⟩ := Option.map_eq_some_iff.mp hstored
  rw [Prod.mk.injEq, decide_eq_false_iff_not] at hfields
  have hcounts := (clocks_count_deletes Ring.sha256Labels
    Storage.referenceCodecs Ring.threeNodes .defaultStrong
    (Cluster.fresh Storage.referenceCodecs 1048576 3)
    (fun _ _ => by simp [Cluster.fresh]) putTwice hv "node1").2
    (by simp [Deleted, putTwice]) hfields.2
  exact ⟨v, hv, hfields.1, hcounts⟩

end Rkv.Replication
