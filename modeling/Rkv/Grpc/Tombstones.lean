import Rkv.Foundation.Run
import Rkv.Grpc.Internal
import Rkv.Storage.ReferenceCodec

/-!
# Tombstones and the clocks they replace

A delete stores a tombstone whose clock is the stored one with the node's own
counter counted on.  Counters come from the wire as they are: a version that
arrives with the greatest counter for the node makes the next delete wrap it to
0, and the tombstone no longer dominates what it deletes.
-/

namespace Rkv.Grpc

open Rkv.Foundation
open Rkv.Storage (Bytes Codecs StorageEngine VectorClock referenceCodecs)

/-- What changes a node's engine: an arriving version or deletion (its own
clients' deletions among them), a put of its own, eviction, a flush, and a crash
with a reopening. -/
inductive EngineAction where
  | arrive (key : String) (arrived : InternalService.Arrival)
  | putRaw (key : String) (value : Bytes) (ttlMs now : Int64)
  | evict (now : Int64)
  | flush (reading : Nat)
  | reopen

namespace EngineAction

def next (c : Codecs) (engine : StorageEngine) :
    EngineAction → Option StorageEngine
  | .arrive key arrived => some (InternalService.arrive c engine (key, arrived))
  | .putRaw key value ttlMs now => some (engine.putRaw c key value ttlMs now)
  | .evict now => some (engine.evictExpired now)
  | .flush reading => some (engine.flush c reading)
  | .reopen =>
      match StorageEngine.openEngine c engine.config engine.disk with
      | .ok opened => some opened
      | .error _ => none

def Supersedes (engine : StorageEngine) : EngineAction → Prop
  | .arrive key (.delete now) =>
      (engine.tombstoneFor key now).vectorClock.dominates
        (engine.storedClock key) = true
  | _ => True

/-- A deletion finds the node's own counter below the greatest `u64`. -/
def CounterLeft (engine : StorageEngine) : EngineAction → Prop
  | .arrive key (.delete _) =>
      ((engine.storedClock key).count engine.nodeId).toNat + 1 < 2 ^ 64
  | _ => True

theorem supersedes_iff (engine : StorageEngine) (action : EngineAction) :
    Supersedes engine action ↔ CounterLeft engine action := by
  cases action with
  | arrive key arrived =>
      cases arrived with
      | version value => exact Iff.rfl
      | delete now => exact VectorClock.increment_dominates_iff _ _
  | putRaw key value ttlMs now => exact Iff.rfl
  | evict now => exact Iff.rfl
  | flush reading => exact Iff.rfl
  | reopen => exact Iff.rfl

/-- The requests of other nodes are runs of arrivals. -/
theorem run_handle (c : Codecs) (engine : StorageEngine)
    (req : InternalService.Request) (now : Int64) :
    Run (next c) anyAction engine
      ((InternalService.arrivals (req, now)).map fun p => .arrive p.1 p.2)
      (InternalService.handle c engine now req) := by
  rw [InternalService.handle_eq]
  induction InternalService.arrivals (req, now) generalizing engine with
  | nil => exact .nil engine
  | cons head arrived ih => exact .cons trivial rfl (ih _)

end EngineAction

/-- In a run every tombstone dominates what it replaces exactly when every
deletion of the run finds its own counter below the greatest. -/
theorem tombstone_supersedes_iff {c : Codecs} {engine reached : StorageEngine}
    {actions : List EngineAction}
    (hrun : Run (EngineAction.next c) anyAction engine actions reached) :
    (∀ pre key now post s, actions = pre ++ .arrive key (.delete now) :: post →
      Run (EngineAction.next c) anyAction engine pre s →
        (s.tombstoneFor key now).vectorClock.dominates (s.storedClock key) =
          true) ↔
      Run (EngineAction.next c) EngineAction.CounterLeft engine actions
        reached := by
  rw [Run.guarded_iff hrun]
  constructor
  · intro hall pre action post s hsplit hpre
    rw [← EngineAction.supersedes_iff]
    cases action with
    | arrive key arrived =>
        cases arrived with
        | version value => trivial
        | delete now => exact hall pre key now post s hsplit hpre
    | putRaw key value ttlMs now => trivial
    | evict now => trivial
    | flush reading => trivial
    | reopen => trivial
  · intro hall pre key now post s hsplit hpre
    exact (EngineAction.supersedes_iff s (.arrive key (.delete now))).mpr
      (hall pre _ post s hsplit hpre)

/-! ## A counter from the wire -/

def replicatedCounter (counter : UInt64) : Proto.ReplicateRequest :=
  ⟨"k", some ⟨[1], some ⟨{("node1", counter)}⟩, 1700000000000, 0⟩, false⟩

def afterReplicate (c : Codecs) (counter : UInt64) : StorageEngine :=
  InternalService.handle c (.fresh c ⟨1048576, 3, "node1"⟩) 1700000000000
    (.replicate (replicatedCounter counter))

theorem storedClock_afterReplicate (c : Codecs) (counter : UInt64) :
    (afterReplicate c counter).storedClock "k" = ⟨{("node1", counter)}⟩ := by
  simp [afterReplicate, InternalService.handle, InternalService.replicate,
    replicatedCounter, StorageEngine.storedClock, fromProtoVersioned,
    fromProtoVectorClock]

theorem tombstone_supersedes_after_replicate :
    let engine := afterReplicate referenceCodecs 41
    ∃ reached, Run (EngineAction.next referenceCodecs) anyAction engine
        [.arrive "k" (.delete 1700000000001)] reached ∧
      (engine.tombstoneFor "k" 1700000000001).vectorClock.dominates
        (engine.storedClock "k") = true := by
  intro engine
  have hrun : Run (EngineAction.next referenceCodecs) anyAction engine
      [.arrive "k" (.delete 1700000000001)] _ :=
    .cons trivial rfl (.nil _)
  have hroom : EngineAction.CounterLeft engine
      (.arrive "k" (.delete 1700000000001)) := by
    change ((engine.storedClock "k").count "node1").toNat + 1 < 2 ^ 64
    rw [storedClock_afterReplicate]
    decide +kernel
  exact ⟨_, hrun, (tombstone_supersedes_iff hrun).mpr
    (.cons hroom rfl (.nil _)) [] "k" 1700000000001 [] _ rfl (.nil _)⟩

/-- A version that counts 2^64 - 1 for `node1` is deleted there by a tombstone
that counts 0. -/
theorem wrapped_tombstone_dominated :
    let engine := afterReplicate referenceCodecs 18446744073709551615
    let tombstone := engine.tombstoneFor "k" 1700000000001
    tombstone.vectorClock.count "node1" = 0 ∧
      tombstone.vectorClock.dominates (engine.storedClock "k") = false ∧
      (engine.storedClock "k").dominates tombstone.vectorClock = true := by
  intro engine tombstone
  have hclock : tombstone.vectorClock =
      (engine.storedClock "k").increment "node1" := rfl
  rw [hclock, storedClock_afterReplicate]
  decide +kernel

end Rkv.Grpc
