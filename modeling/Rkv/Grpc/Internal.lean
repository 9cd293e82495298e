import Rkv.Grpc.Proto
import Rkv.Storage.VectorClock

/-!
# The inter-node service

The handlers of `grpc/service.rs` through which a node's engine is written by
its peers.  All of them end in the engine's `put` or `delete`, and neither
compares the arriving version with the stored one: the last arrival wins.
-/

namespace Rkv.Grpc

open Rkv.Foundation
open Rkv.Storage (Codecs StorageEngine)

namespace InternalService

def replicate (c : Codecs) (engine : StorageEngine)
    (req : Proto.ReplicateRequest) (now : Int64) :
    Except Status (StorageEngine × Proto.ReplicateResponse) :=
  match req.value.map fromProtoVersioned with
  | none => .error (.invalidArgument "missing value")
  | some versioned =>
      if req.isDelete then .ok (engine.delete c req.key now, ⟨true⟩)
      else .ok (engine.put c req.key versioned, ⟨true⟩)

def getInternal (engine : StorageEngine) (req : Proto.GetInternalRequest) :
    Proto.GetInternalResponse :=
  match engine.getRaw req.key with
  | some val => ⟨true, some (toProtoVersioned val)⟩
  | none => ⟨false, none⟩

/-- The request's clock is not looked at. -/
def deleteInternal (c : Codecs) (engine : StorageEngine)
    (req : Proto.DeleteInternalRequest) (now : Int64) :
    StorageEngine × Proto.DeleteInternalResponse :=
  (engine.delete c req.key now, ⟨true⟩)

def acceptHints (c : Codecs) (now : Int64) (engine : StorageEngine)
    (accepted : Nat) : List Proto.HintedWrite → StorageEngine × Nat
  | [] => (engine, accepted)
  | hint :: rest =>
      match hint.value with
      | none => acceptHints c now engine accepted rest
      | some value =>
          let versioned := fromProtoVersioned value
          if hint.isDelete then
            acceptHints c now (engine.delete c hint.key now) (accepted + 1) rest
          else
            acceptHints c now (engine.put c hint.key versioned) (accepted + 1)
              rest

def hintedHandoff (c : Codecs) (engine : StorageEngine)
    (req : Proto.HandoffRequest) (now : Int64) :
    StorageEngine × Proto.HandoffResponse :=
  let (engine, accepted) := acceptHints c now engine 0 req.hints
  (engine, ⟨accepted⟩)

def transferred (now : Int64) (kv : Proto.KeyValue) :
    Storage.VersionedValue where
  value := kv.value
  vectorClock := (kv.vectorClock.map fromProtoVectorClock).getD
    Storage.VectorClock.new
  timestampMs := now
  ttlMs := 0
  deleted := false

def acceptPairs (c : Codecs) (now : Int64) (engine : StorageEngine)
    (accepted : Nat) : List Proto.KeyValue → StorageEngine × Nat
  | [] => (engine, accepted)
  | kv :: rest =>
      acceptPairs c now (engine.put c kv.key (transferred now kv))
        (accepted + 1) rest

def transferKeys (c : Codecs) (engine : StorageEngine)
    (req : Proto.TransferRequest) (now : Int64) :
    StorageEngine × Proto.TransferResponse :=
  let (engine, accepted) := acceptPairs c now engine 0 req.pairs
  (engine, ⟨accepted⟩)

/-! ## Requests as arrivals

What a request does to the engine is a list of arrivals, each a version to store
or a deletion at a clock reading. -/

inductive Request where
  | replicate (req : Proto.ReplicateRequest)
  | hintedHandoff (req : Proto.HandoffRequest)
  | transferKeys (req : Proto.TransferRequest)

inductive Arrival where
  | version (value : Storage.VersionedValue)
  | delete (now : Int64)

/-- The engine after a request; a refused one leaves it as it is. -/
def handle (c : Codecs) (engine : StorageEngine) (now : Int64) :
    Request → StorageEngine
  | .replicate req =>
      match replicate c engine req now with
      | .ok (engine, _) => engine
      | .error _ => engine
  | .hintedHandoff req => (hintedHandoff c engine req now).1
  | .transferKeys req => (transferKeys c engine req now).1

def handleAll (c : Codecs) : StorageEngine → List (Request × Int64) →
    StorageEngine
  | engine, [] => engine
  | engine, (req, now) :: rest => handleAll c (handle c engine now req) rest

def arrival (now : Int64) (value : Proto.VersionedValue) (isDelete : Bool) :
    Arrival :=
  if isDelete then .delete now else .version (fromProtoVersioned value)

def arrivals : Request × Int64 → List (String × Arrival)
  | (.replicate req, now) =>
      (req.value.map fun value =>
        (req.key, arrival now value req.isDelete)).toList
  | (.hintedHandoff req, now) =>
      req.hints.filterMap fun hint =>
        hint.value.map fun value => (hint.key, arrival now value hint.isDelete)
  | (.transferKeys req, now) =>
      req.pairs.map fun kv => (kv.key, .version (transferred now kv))

def arrive (c : Codecs) (engine : StorageEngine) :
    String × Arrival → StorageEngine
  | (key, .version value) => engine.put c key value
  | (key, .delete now) => engine.delete c key now

variable {c : Codecs}

theorem acceptHints_eq (now : Int64) (engine : StorageEngine) (accepted : Nat)
    (hints : List Proto.HintedWrite) :
    (acceptHints c now engine accepted hints).1 =
      (hints.filterMap fun hint => hint.value.map fun value =>
        (hint.key, arrival now value hint.isDelete)).foldl (arrive c) engine := by
  induction hints generalizing engine accepted with
  | nil => rfl
  | cons hint hints ih =>
      rw [acceptHints]
      cases hvalue : hint.value with
      | none => simp [hvalue, ih]
      | some value =>
          cases hdelete : hint.isDelete <;>
            simp [hvalue, hdelete, ih, arrival, arrive]

theorem acceptPairs_eq (now : Int64) (engine : StorageEngine) (accepted : Nat)
    (pairs : List Proto.KeyValue) :
    (acceptPairs c now engine accepted pairs).1 =
      (pairs.map fun kv => (kv.key, Arrival.version (transferred now kv))).foldl
        (arrive c) engine := by
  induction pairs generalizing engine accepted with
  | nil => rfl
  | cons kv pairs ih =>
      rw [acceptPairs, ih]
      rfl

theorem handle_eq (engine : StorageEngine) (req : Request) (now : Int64) :
    handle c engine now req = (arrivals (req, now)).foldl (arrive c) engine := by
  cases req with
  | replicate req =>
      cases hvalue : req.value with
      | none => simp [handle, replicate, arrivals, hvalue]
      | some value =>
          cases hdelete : req.isDelete <;>
            simp [handle, replicate, arrivals, hvalue, hdelete, arrival, arrive]
  | hintedHandoff req => exact acceptHints_eq now engine 0 req.hints
  | transferKeys req => exact acceptPairs_eq now engine 0 req.pairs

theorem getRaw_arrive_of_ne {engine : StorageEngine} {key other : String}
    (hne : other ≠ key) (arrived : Arrival) :
    (arrive c engine (other, arrived)).getRaw key = engine.getRaw key := by
  cases arrived <;> simp [arrive, hne]

/-- A key holds the last version to arrive for it, and without one what it held. -/
theorem getRaw_foldl_arrive (engine : StorageEngine)
    (arrived : List (String × Arrival)) (key : String) :
    (∀ v, lastWrite key arrived = some (.version v) →
      (arrived.foldl (arrive c) engine).getRaw key = some v) ∧
      (lastWrite key arrived = none →
        (arrived.foldl (arrive c) engine).getRaw key = engine.getRaw key) := by
  induction arrived using List.reverseRecOn with
  | nil => simp
  | append_singleton arrived last ih =>
      obtain ⟨k, arrival⟩ := last
      simp only [List.foldl_append, List.foldl_cons, List.foldl_nil,
        lastWrite_append, lastWrite, Option.none_or]
      by_cases hk : k = key
      · subst hk
        refine ⟨fun v hv => ?_, by simp⟩
        simp only [if_true, Option.some_or, Option.some.injEq] at hv
        subst hv
        simp [arrive]
      · rw [if_neg hk, Option.none_or, getRaw_arrive_of_ne hk]
        exact ih

end InternalService

end Rkv.Grpc
