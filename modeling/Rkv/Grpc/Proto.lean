import Rkv.Storage.Engine

/-!
# Messages between nodes

The protobuf messages of `proto/` that the replication code exchanges, and the
conversions of `replication/coordinator.rs`.  A message field that proto3 may
leave out is an `Option`.  The wire form of a value has no deletion marker.
-/

namespace Rkv.Grpc

namespace Proto

structure VectorClock where
  clocks : Storage.ClockMap
  deriving DecidableEq

structure VersionedValue where
  value : Storage.Bytes
  vectorClock : Option VectorClock
  timestampMs : Int64
  ttlMs : Int64
  deriving DecidableEq

structure GetRequest where
  key : String
  readQuorum : Nat

structure GetResponse where
  found : Bool
  value : Storage.Bytes
  vectorClock : Option VectorClock
  deriving DecidableEq

structure PutRequest where
  key : String
  value : Storage.Bytes
  ttlMs : Int64
  writeQuorum : Nat

structure PutResponse where
  success : Bool
  vectorClock : Option VectorClock
  deriving DecidableEq

structure DeleteRequest where
  key : String
  writeQuorum : Nat

structure DeleteResponse where
  success : Bool
  deriving DecidableEq

structure KeyValue where
  key : String
  value : Storage.Bytes
  vectorClock : Option VectorClock

structure ScanRequest where
  startKey : String
  endKey : String
  limit : Nat

structure ScanResponse where
  pairs : List KeyValue

structure ReplicateRequest where
  key : String
  value : Option VersionedValue
  isDelete : Bool

structure ReplicateResponse where
  success : Bool

structure GetInternalRequest where
  key : String

structure GetInternalResponse where
  found : Bool
  value : Option VersionedValue

structure DeleteInternalRequest where
  key : String
  vectorClock : Option VectorClock

structure DeleteInternalResponse where
  success : Bool

structure HintedWrite where
  key : String
  value : Option VersionedValue
  isDelete : Bool

structure HandoffRequest where
  targetNodeId : String
  hints : List HintedWrite

structure HandoffResponse where
  accepted : Nat

structure TransferRequest where
  pairs : List KeyValue

structure TransferResponse where
  accepted : Nat

end Proto

/-- The `tonic` status codes the services answer with. -/
inductive Status where
  | invalidArgument (message : String)
  | unavailable (message : String)
  deriving DecidableEq, Repr

def toProtoVectorClock (vc : Storage.VectorClock) : Proto.VectorClock :=
  ⟨vc.clocks⟩

def fromProtoVectorClock (p : Proto.VectorClock) : Storage.VectorClock :=
  ⟨p.clocks⟩

def toProtoVersioned (v : Storage.VersionedValue) : Proto.VersionedValue where
  value := v.value
  vectorClock := some (toProtoVectorClock v.vectorClock)
  timestampMs := v.timestampMs
  ttlMs := v.ttlMs

def fromProtoVersioned (p : Proto.VersionedValue) : Storage.VersionedValue where
  value := p.value
  vectorClock := (p.vectorClock.map fromProtoVectorClock).getD
    Storage.VectorClock.new
  timestampMs := p.timestampMs
  ttlMs := p.ttlMs
  deleted := false

/-- What arrives is what was sent, undeleted. -/
theorem fromProto_toProto (v : Storage.VersionedValue) :
    fromProtoVersioned (toProtoVersioned v) = { v with deleted := false } := rfl

theorem fromProto_toProto_of_live {v : Storage.VersionedValue}
    (h : v.deleted = false) : fromProtoVersioned (toProtoVersioned v) = v := by
  rw [fromProto_toProto, ← h]

end Rkv.Grpc
