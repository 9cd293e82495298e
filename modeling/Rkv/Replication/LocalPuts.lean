import Rkv.Replication.Coordinator
import Rkv.Storage.ReferenceCodec

/-!
# The clocks of local puts

`put_raw` and a coordinated put stamp a new clock that counts one for the node
and merge the stored clock into it.  The stored clock is not counted on, so the
result goes beyond it only where the node had no count yet: the second local put
of a key bears the clock of the first.
-/

namespace Rkv.Replication

open Rkv.Foundation
open Rkv.Grpc
open Rkv.Ring (Node)
open Rkv.Storage (Bytes Codecs StorageEngine VectorClock referenceCodecs)

structure LocalPut where
  key : String
  value : Bytes
  ttlMs : Int64
  now : Int64

namespace LocalPut

def clock (engine : StorageEngine) (put : LocalPut) : VectorClock :=
  (engine.newVersion put.key put.value put.ttlMs put.now).vectorClock

def run (c : Codecs) (engine : StorageEngine) (puts : List LocalPut) :
    StorageEngine :=
  puts.foldl
    (fun engine put => engine.putRaw c put.key put.value put.ttlMs put.now) engine

def AllAdvance (c : Codecs) (engine : StorageEngine) (puts : List LocalPut) :
    Prop :=
  ∀ pre put post, puts = pre ++ put :: post →
    (put.clock (run c engine pre)).dominates
      ((run c engine pre).storedClock put.key) = true

variable {c : Codecs} {engine : StorageEngine}

theorem clock_dominates_iff (engine : StorageEngine) (put : LocalPut) :
    (put.clock engine).dominates (engine.storedClock put.key) = true ↔
      (engine.storedClock put.key).count engine.nodeId = 0 :=
  VectorClock.merge_dominates_iff _ _

theorem storedClock_putRaw (engine : StorageEngine) (put : LocalPut)
    (key : String) :
    (engine.putRaw c put.key put.value put.ttlMs put.now).storedClock key =
      if put.key = key then put.clock engine else engine.storedClock key := by
  unfold StorageEngine.storedClock StorageEngine.putRaw
  rw [StorageEngine.getRaw_put]
  split
  · rfl
  · rfl

theorem count_clock_ne_zero (engine : StorageEngine) (put : LocalPut) :
    (put.clock engine).count engine.nodeId ≠ 0 := by
  have hcount : (put.clock engine).count engine.nodeId =
      max 1 ((engine.storedClock put.key).count engine.nodeId) := by
    change ((VectorClock.new.increment engine.nodeId).merge _).count _ = _
    rw [VectorClock.count_merge, VectorClock.count_increment, if_pos rfl,
      VectorClock.count_new]
    rfl
  intro hzero
  have hle : (1 : UInt64) ≤ (put.clock engine).count engine.nodeId := by
    rw [hcount]
    exact (counter_max_le_iff.mp (UInt64.le_refl _)).1
  rw [hzero] at hle
  exact absurd hle (by decide)

theorem allAdvance_cons (put : LocalPut) (puts : List LocalPut) :
    AllAdvance c engine (put :: puts) ↔
      (put.clock engine).dominates (engine.storedClock put.key) = true ∧
        AllAdvance c
          (engine.putRaw c put.key put.value put.ttlMs put.now) puts := by
  constructor
  · intro h
    refine ⟨h [] put puts rfl, fun pre next post hsplit => ?_⟩
    exact h (put :: pre) next post (by rw [hsplit, List.cons_append])
  · rintro ⟨hfirst, hrest⟩ pre next post hsplit
    cases pre with
    | nil =>
        obtain ⟨rfl, -⟩ := List.cons.inj hsplit
        exact hfirst
    | cons head pre =>
        obtain ⟨rfl, htail⟩ := List.cons.inj hsplit
        exact hrest pre next post htail

theorem allAdvance_iff (c : Codecs) (engine : StorageEngine)
    (puts : List LocalPut) :
    AllAdvance c engine puts ↔
      (puts.map LocalPut.key).Nodup ∧
        ∀ put ∈ puts,
          (engine.storedClock put.key).count engine.nodeId = 0 := by
  induction puts generalizing engine with
  | nil => simp [AllAdvance]
  | cons put puts ih =>
      have hnode : (engine.putRaw c put.key put.value put.ttlMs put.now).nodeId =
          engine.nodeId := rfl
      have hcounts : (∀ next ∈ puts,
          ((engine.putRaw c put.key put.value put.ttlMs put.now).storedClock
            next.key).count engine.nodeId = 0) ↔
          put.key ∉ puts.map LocalPut.key ∧
            ∀ next ∈ puts,
              (engine.storedClock next.key).count engine.nodeId = 0 := by
        simp only [storedClock_putRaw]
        constructor
        · intro h
          have hfresh : put.key ∉ puts.map LocalPut.key := by
            intro hmem
            obtain ⟨next, hnext, hkey⟩ := List.mem_map.mp hmem
            have hzero := h next hnext
            rw [if_pos hkey.symm] at hzero
            exact count_clock_ne_zero engine put hzero
          refine ⟨hfresh, fun next hnext => ?_⟩
          have hzero := h next hnext
          rwa [if_neg fun heq : put.key = next.key =>
            hfresh (heq ▸ List.mem_map_of_mem hnext)] at hzero
        · rintro ⟨hfresh, hzero⟩ next hnext
          rw [if_neg fun heq : put.key = next.key =>
            hfresh (heq ▸ List.mem_map_of_mem hnext)]
          exact hzero next hnext
      rw [allAdvance_cons, clock_dominates_iff, ih, hnode, hcounts,
        List.map_cons, List.nodup_cons, List.forall_mem_cons]
      tauto

end LocalPut

/-- A local put advances the stored clock exactly when the node has no count in
it, and a sequence of local puts exactly when no key is put twice. -/
theorem local_put_advances_iff (hash : String → UInt64) (c : Codecs) :
    (∀ (engine : StorageEngine) (put : LocalPut),
      ((engine.putRaw c put.key put.value put.ttlMs put.now).storedClock
          put.key).dominates (engine.storedClock put.key) = true ↔
        (engine.storedClock put.key).count engine.nodeId = 0) ∧
    (∀ (co : ReplicationCoordinator) (put : LocalPut) (writeQuorum : Nat)
      (localFailure : Option StorageEngine)
      (rpc : Node → Proto.ReplicateRequest → RpcResult Proto.ReplicateResponse),
      (∃ clock, (co.put hash c put.key put.value put.ttlMs writeQuorum put.now
          localFailure rpc).2.value = some clock ∧
        clock.dominates (co.engine.storedClock put.key) = true) ↔
          (co.engine.storedClock put.key).count co.engine.nodeId = 0) ∧
    ∀ (engine : StorageEngine) (puts : List LocalPut),
      LocalPut.AllAdvance c engine puts ↔
        (puts.map LocalPut.key).Nodup ∧
          ∀ put ∈ puts,
            (engine.storedClock put.key).count engine.nodeId = 0 := by
  refine ⟨fun engine put => ?_, fun co put writeQuorum localFailure rpc => ?_,
    LocalPut.allAdvance_iff c⟩
  · rw [LocalPut.storedClock_putRaw, if_pos rfl, LocalPut.clock_dominates_iff]
  · have hvalue : (co.put hash c put.key put.value put.ttlMs writeQuorum put.now
        localFailure rpc).2.value = some (put.clock co.engine) := rfl
    rw [hvalue, ← LocalPut.clock_dominates_iff]
    simp only [Option.some.injEq, exists_eq_left']

/-- The second put of a key through `node1` is written with the clock of the
first. -/
theorem second_put_keeps_clock :
    let first := (StorageEngine.fresh referenceCodecs ⟨1048576, 3, "node1"⟩).putRaw
      referenceCodecs "k" [1] 0 1700000000000
    let second := first.putRaw referenceCodecs "k" [2] 0 1700000000001
    first.storedClock "k" = second.storedClock "k" ∧
      (second.storedClock "k").dominates (first.storedClock "k") = false := by
  have hstored : ∀ (engine : StorageEngine) (value : Bytes) (now : Int64),
      (engine.putRaw referenceCodecs "k" value 0 now).storedClock "k" =
        (engine.newVersion "k" value 0 now).vectorClock := by
    intro engine value now
    simp [StorageEngine.storedClock, StorageEngine.putRaw]
  have hfresh : (StorageEngine.fresh referenceCodecs
      ⟨1048576, 3, "node1"⟩).storedClock "k" = VectorClock.new := by
    simp [StorageEngine.storedClock]
  intro first second
  have hfirst : first.storedClock "k" =
      (VectorClock.new.increment "node1").merge VectorClock.new := by
    rw [show first.storedClock "k" = _ from hstored _ _ _]
    change (VectorClock.new.increment "node1").merge
      ((StorageEngine.fresh referenceCodecs _).storedClock "k") = _
    rw [hfresh]
  have hsecond : second.storedClock "k" =
      (VectorClock.new.increment "node1").merge
        ((VectorClock.new.increment "node1").merge VectorClock.new) := by
    rw [← hfirst]
    exact hstored _ _ _
  rw [hfirst, hsecond]
  decide +kernel

end Rkv.Replication
