import Rkv.Grpc.Internal
import Rkv.Replication.Quorum
import Rkv.Ring.ConsistentHash

/-!
# The replication coordinator

`replication/coordinator.rs`, and the client-facing `get` of `grpc/service.rs`.
What the peers answer is a function from ring nodes, given by the environment.
A failed local write leaves an engine of its own, also given.
-/

namespace Rkv.Replication

open Rkv.Grpc
open Rkv.Ring (Node HashRing)
open Rkv.Storage (Bytes Codecs StorageEngine VectorClock VersionedValue)

/-- How a call to a peer ends: an answer, a connection or RPC error, or the
timeout. -/
inductive RpcResult (α : Type) where
  | ok (response : α)
  | error
  | timeout

def RpcResult.answered {α : Type} : RpcResult α → Bool
  | .ok _ => true
  | .error | .timeout => false

/-- An RPC counts as a success when it came back and its answer says so. -/
def RpcResult.succeeded {α : Type} (success : α → Bool) : RpcResult α → Bool
  | .ok response => success response
  | .error => false
  | .timeout => false

structure ReplicationCoordinator where
  engine : StorageEngine
  ring : HashRing
  quorum : QuorumConfig

def tally (successes failures : Nat) : List Bool → Nat × Nat
  | [] => (successes, failures)
  | success :: rest =>
      if success then tally (successes + 1) failures rest
      else tally successes (failures + 1) rest

/-! ## Conflict resolution -/

/-- The dominating version, or the younger one of two that do not compare. -/
def prefer (current val : VersionedValue) : VersionedValue :=
  if val.vectorClock.dominates current.vectorClock then val
  else if current.vectorClock.dominates val.vectorClock then current
  else if current.timestampMs < val.timestampMs then val
  else current

def pickBest : Option VersionedValue → VersionedValue → VersionedValue
  | none, val => val
  | some current, val => prefer current val

def resolveLoop (now : Int64) :
    Option VersionedValue → List (Option VersionedValue) → Option VersionedValue
  | best, [] => best
  | best, none :: rest => resolveLoop now best rest
  | best, some val :: rest =>
      if val.deleted then resolveLoop now best rest
      else if val.isExpired now then resolveLoop now best rest
      else resolveLoop now (some (pickBest best val)) rest

def resolveConflicts (now : Int64) (values : List (Option VersionedValue)) :
    Option VersionedValue :=
  resolveLoop now none values

/-! ## Coordinated operations -/

def gather (successes : Nat) (responses : List (Option VersionedValue)) :
    List (Option VersionedValue) → Nat × List (Option VersionedValue)
  | [] => (successes, responses)
  | result :: rest => gather (successes + 1) (responses ++ [result]) rest

def readResult : RpcResult Proto.GetInternalResponse → Option VersionedValue
  | .ok resp => if resp.found then resp.value.map fromProtoVersioned else none
  | .error => none
  | .timeout => none

namespace ReplicationCoordinator

variable (hash : String → UInt64)

def peers (co : ReplicationCoordinator) (key : String) : List Node :=
  (co.ring.getNodes hash key).filter fun n => n.id ≠ co.engine.nodeId

def responsible (co : ReplicationCoordinator) (key : String) : Bool :=
  co.ring.isResponsible hash co.engine.nodeId key

def replicateRequest (key : String) (versioned : VersionedValue) :
    Proto.ReplicateRequest :=
  ⟨key, some (toProtoVersioned versioned), false⟩

def put (c : Codecs) (co : ReplicationCoordinator) (key : String)
    (value : Bytes) (ttlMs : Int64) (writeQuorumOverride : Nat) (now : Int64)
    (localFailure : Option StorageEngine)
    (rpc : Node → Proto.ReplicateRequest → RpcResult Proto.ReplicateResponse) :
    StorageEngine × QuorumResult VectorClock :=
  let required := co.quorum.effectiveWriteQuorum writeQuorumOverride
  let versioned := co.engine.newVersion key value ttlMs now
  let (engine, successes, failures) :=
    if co.responsible hash key then
      match localFailure with
      | none => (co.engine.put c key versioned, 1, 0)
      | some failed => (failed, 0, 1)
    else (co.engine, 0, 0)
  let results := (co.peers hash key).map fun node =>
    (rpc node (replicateRequest key versioned)).succeeded (·.success)
  let (successes, failures) := tally successes failures results
  (engine, ⟨some versioned.vectorClock, successes, failures, required⟩)

def get (co : ReplicationCoordinator) (key : String)
    (readQuorumOverride : Nat) (now : Int64)
    (rpc : Node → Proto.GetInternalRequest →
      RpcResult Proto.GetInternalResponse) :
    QuorumResult VersionedValue :=
  let required := co.quorum.effectiveReadQuorum readQuorumOverride
  let failures := 0
  let (successes, responses) :=
    if co.responsible hash key then (1, [co.engine.getRaw key]) else (0, [])
  let peerResults := (co.peers hash key).map fun node =>
    readResult (rpc node ⟨key⟩)
  let (successes, responses) := gather successes responses peerResults
  ⟨resolveConflicts now responses, successes, failures, required⟩

/-- The local delete comes first, so the peers are sent the tombstone's clock. -/
def deleteRequest (key : String) (engine : StorageEngine) :
    Proto.DeleteInternalRequest :=
  ⟨key, some (toProtoVectorClock (engine.storedClock key))⟩

def delete (c : Codecs) (co : ReplicationCoordinator) (key : String)
    (writeQuorumOverride : Nat) (now : Int64)
    (localFailure : Option StorageEngine)
    (rpc : Node → Proto.DeleteInternalRequest →
      RpcResult Proto.DeleteInternalResponse) :
    StorageEngine × QuorumResult Unit :=
  let required := co.quorum.effectiveWriteQuorum writeQuorumOverride
  let (engine, successes, failures) :=
    if co.responsible hash key then
      match localFailure with
      | none => (co.engine.delete c key now, 1, 0)
      | some failed => (failed, 0, 1)
    else (co.engine, 0, 0)
  let results := (co.peers hash key).map fun node =>
    (rpc node (deleteRequest key engine)).succeeded (·.success)
  let (successes, failures) := tally successes failures results
  (engine, ⟨some (), successes, failures, required⟩)

end ReplicationCoordinator

/-- `KvService.get`: the coordinated read behind its quorum check. -/
def kvGet (hash : String → UInt64) (co : ReplicationCoordinator)
    (req : Proto.GetRequest) (now : Int64)
    (rpc : Node → Proto.GetInternalRequest →
      RpcResult Proto.GetInternalResponse) :
    Except Status Proto.GetResponse :=
  let result := co.get hash req.key req.readQuorum now rpc
  if !result.isSuccess then
    .error (.unavailable ("Read quorum not met: got " ++ result.successes.repr ++
      "/" ++ result.required.repr ++ " successes"))
  else
    match result.value with
    | some val =>
        .ok ⟨true, val.value, some (toProtoVectorClock val.vectorClock)⟩
    | none => .ok ⟨false, [], none⟩

/-! ## Counting and collecting -/

theorem tally_eq (successes failures : Nat) (results : List Bool) :
    tally successes failures results =
      (successes + results.count true, failures + results.count false) := by
  induction results generalizing successes failures with
  | nil => rfl
  | cons success results ih =>
      cases success
      · simp [tally, ih]
        omega
      · simp [tally, ih]
        omega

theorem gather_eq (successes : Nat)
    (responses results : List (Option VersionedValue)) :
    gather successes responses results =
      (successes + results.length, responses ++ results) := by
  induction results generalizing successes responses with
  | nil => simp [gather]
  | cons result results ih =>
      simp only [gather, ih, List.length_cons, Prod.mk.injEq,
        List.append_assoc, List.singleton_append, and_true]
      omega

namespace ReplicationCoordinator

variable {hash : String → UInt64}

def responses (hash : String → UInt64) (co : ReplicationCoordinator)
    (key : String)
    (rpc : Node → Proto.GetInternalRequest →
      RpcResult Proto.GetInternalResponse) : List (Option VersionedValue) :=
  (if co.responsible hash key then [co.engine.getRaw key] else []) ++
    (co.peers hash key).map fun node => readResult (rpc node ⟨key⟩)

theorem get_eq (co : ReplicationCoordinator) (key : String)
    (readQuorumOverride : Nat) (now : Int64)
    (rpc : Node → Proto.GetInternalRequest →
      RpcResult Proto.GetInternalResponse) :
    co.get hash key readQuorumOverride now rpc =
      { value := resolveConflicts now (co.responses hash key rpc)
        successes := (if co.responsible hash key then 1 else 0) +
          (co.peers hash key).length
        failures := 0
        required := co.quorum.effectiveReadQuorum readQuorumOverride } := by
  unfold get responses
  by_cases hresponsible : co.responsible hash key = true
  · simp [hresponsible, gather_eq]
  · simp [hresponsible, gather_eq]

/-- A put counts its local write and the peers whose RPC succeeded. -/
theorem successes_put (c : Codecs) (co : ReplicationCoordinator) (key : String)
    (value : Bytes) (ttlMs : Int64) (writeQuorumOverride : Nat) (now : Int64)
    (rpc : Node → Proto.ReplicateRequest → RpcResult Proto.ReplicateResponse) :
    (co.put hash c key value ttlMs writeQuorumOverride now none
        rpc).2.successes =
      (if co.responsible hash key then 1 else 0) +
        (co.peers hash key).countP fun node =>
          (rpc node (replicateRequest key
            (co.engine.newVersion key value ttlMs now))).succeeded
              (·.success) := by
  unfold put
  simp only [tally_eq, List.count, List.countP_map]
  congr 1
  · split <;> rfl
  · exact List.countP_congr (by simp)

theorem length_getNodes (co : ReplicationCoordinator) (key : String) :
    (co.ring.getNodes hash key).length =
      (if co.responsible hash key then 1 else 0) +
        (co.peers hash key).length := by
  have hsplit := List.length_eq_countP_add_countP
    (fun n : Node => n.id == co.engine.nodeId)
    (l := co.ring.getNodes hash key)
  rw [hsplit, HashRing.countP_id_eq, peers, ← List.countP_eq_length_filter]
  congr 1
  exact List.countP_congr (by simp)

end ReplicationCoordinator

end Rkv.Replication
