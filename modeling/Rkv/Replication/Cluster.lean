import Rkv.Replication.Resolve

/-!
# A cluster with a static ring

Every node runs its own engine under its own id, and an RPC to a ring node is
handled by the engine of that node's id.  All nodes share one ring and one
quorum configuration, and no local write fails.  Coordinated calls do not
overlap, so a call takes the cluster from one state to the next; what the
network did with its RPCs is part of the call.
-/

namespace Rkv.Replication

open Rkv.Grpc
open Rkv.Ring (Node HashRing)
open Rkv.Storage (Bytes Codecs StorageEngine VectorClock VersionedValue)

structure Cluster where
  engines : String → StorageEngine
  nodeId_eq : ∀ id, (engines id).nodeId = id

/-- What becomes of a write RPC: applied and acknowledged, applied with the
acknowledgement lost, or not applied. -/
inductive Delivery where
  | acked
  | ackLost
  | lost
  deriving DecidableEq

def Delivery.applied : Delivery → Bool
  | .acked | .ackLost => true
  | .lost => false

inductive Reply where
  | answers
  | error
  | timeout
  deriving DecidableEq

structure PutCall where
  coordinator : String
  key : String
  value : Bytes
  ttlMs : Int64
  writeQuorum : Nat
  now : Int64
  delivery : String → Delivery

/-- Every node builds its own tombstone at its own clock reading. -/
structure DeleteCall where
  coordinator : String
  key : String
  writeQuorum : Nat
  now : String → Int64
  delivery : String → Delivery

structure GetCall where
  coordinator : String
  key : String
  readQuorum : Nat
  now : Int64
  reply : String → Reply

def Delivery.outcome {α : Type} (delivery : Delivery) (response : α) :
    RpcResult α :=
  match delivery with
  | .acked => .ok response
  | .ackLost => .timeout
  | .lost => .error

def Reply.outcome {α : Type} (reply : Reply) (response : α) : RpcResult α :=
  match reply with
  | .answers => .ok response
  | .error => .error
  | .timeout => .timeout

namespace Cluster

def fresh (c : Codecs) (memtableMaxBytes : UInt64) (maxSnapshots : Nat) :
    Cluster where
  engines := fun id => .fresh c ⟨memtableMaxBytes, maxSnapshots, id⟩
  nodeId_eq := fun _ => rfl

section

variable (hash : String → UInt64) (c : Codecs) (ring : HashRing)
  (quorum : QuorumConfig)

def coordinatorAt (cluster : Cluster) (id : String) : ReplicationCoordinator :=
  ⟨cluster.engines id, ring, quorum⟩

def version (cluster : Cluster) (call : PutCall) : VersionedValue :=
  (cluster.engines call.coordinator).newVersion call.key call.value call.ttlMs
    call.now

def replicateTo (cluster : Cluster) (call : PutCall) (node : Node)
    (req : Proto.ReplicateRequest) : RpcResult Proto.ReplicateResponse :=
  match InternalService.replicate c (cluster.engines node.id) req call.now with
  | .ok (_, resp) => (call.delivery node.id).outcome resp
  | .error _ => .error

def coordinatePut (cluster : Cluster) (call : PutCall) :
    StorageEngine × QuorumResult VectorClock :=
  (cluster.coordinatorAt ring quorum call.coordinator).put hash c call.key
    call.value call.ttlMs call.writeQuorum call.now none
    (cluster.replicateTo c call)

def coordinateDelete (cluster : Cluster) (call : DeleteCall) :
    StorageEngine × QuorumResult Unit :=
  (cluster.coordinatorAt ring quorum call.coordinator).delete hash c call.key
    call.writeQuorum (call.now call.coordinator) none
    fun node req => (call.delivery node.id).outcome
      (InternalService.deleteInternal c (cluster.engines node.id) req
        (call.now node.id)).2

def get (cluster : Cluster) (call : GetCall) : QuorumResult VersionedValue :=
  (cluster.coordinatorAt ring quorum call.coordinator).get hash call.key
    call.readQuorum call.now
    fun node req => (call.reply node.id).outcome
      (InternalService.getInternal (cluster.engines node.id) req)

def rpcApplied (cluster : Cluster) (coordinator key : String)
    (delivery : String → Delivery) (id : String) : Bool :=
  ((cluster.coordinatorAt ring quorum coordinator).peers hash key).any
      (fun n => n.id == id) &&
    (delivery id).applied

def putEngines (cluster : Cluster) (call : PutCall) (id : String) :
    StorageEngine :=
  if id = call.coordinator then
    (cluster.coordinatePut hash c ring quorum call).1
  else if cluster.rpcApplied hash ring quorum call.coordinator call.key
      call.delivery id then
    InternalService.handle c (cluster.engines id) call.now
      (.replicate (ReplicationCoordinator.replicateRequest call.key
        (cluster.version call)))
  else cluster.engines id

def deleteEngines (cluster : Cluster) (call : DeleteCall) (id : String) :
    StorageEngine :=
  if id = call.coordinator then
    (cluster.coordinateDelete hash c ring quorum call).1
  else if cluster.rpcApplied hash ring quorum call.coordinator call.key
      call.delivery id then
    (InternalService.deleteInternal c (cluster.engines id)
      (ReplicationCoordinator.deleteRequest call.key
        (cluster.coordinateDelete hash c ring quorum call).1)
      (call.now id)).1
  else cluster.engines id

end

section

variable {hash : String → UInt64} {c : Codecs} {ring : HashRing}
  {quorum : QuorumConfig}

theorem coordinatePut_engine (cluster : Cluster) (call : PutCall) :
    (cluster.coordinatePut hash c ring quorum call).1 =
      if ring.isResponsible hash call.coordinator call.key then
        (cluster.engines call.coordinator).put c call.key (cluster.version call)
      else cluster.engines call.coordinator := by
  unfold coordinatePut ReplicationCoordinator.put
    ReplicationCoordinator.responsible coordinatorAt
  dsimp only
  rw [cluster.nodeId_eq]
  split <;> rfl

theorem coordinateDelete_engine (cluster : Cluster) (call : DeleteCall) :
    (cluster.coordinateDelete hash c ring quorum call).1 =
      if ring.isResponsible hash call.coordinator call.key then
        (cluster.engines call.coordinator).delete c call.key
          (call.now call.coordinator)
      else cluster.engines call.coordinator := by
  unfold coordinateDelete ReplicationCoordinator.delete
    ReplicationCoordinator.responsible coordinatorAt
  dsimp only
  rw [cluster.nodeId_eq]
  split <;> rfl

theorem handle_replicateRequest (engine : StorageEngine) (key : String)
    {versioned : VersionedValue} (hlive : versioned.deleted = false)
    (now : Int64) :
    InternalService.handle c engine now
        (.replicate (ReplicationCoordinator.replicateRequest key versioned)) =
      engine.put c key versioned := by
  simp [InternalService.handle, InternalService.replicate,
    ReplicationCoordinator.replicateRequest, fromProto_toProto_of_live hlive]

variable (hash c ring quorum)

theorem putEngines_eq (cluster : Cluster) (call : PutCall) (id : String) :
    cluster.putEngines hash c ring quorum call id = cluster.engines id ∨
      cluster.putEngines hash c ring quorum call id =
        (cluster.engines id).put c call.key (cluster.version call) := by
  unfold putEngines
  split
  · rename_i heq
    rw [coordinatePut_engine, ← heq]
    split
    · exact .inr rfl
    · exact .inl rfl
  · split
    · right
      exact handle_replicateRequest _ _ rfl _
    · exact .inl rfl

theorem deleteEngines_eq (cluster : Cluster) (call : DeleteCall)
    (id : String) :
    cluster.deleteEngines hash c ring quorum call id = cluster.engines id ∨
      cluster.deleteEngines hash c ring quorum call id =
        (cluster.engines id).delete c call.key (call.now id) := by
  unfold deleteEngines
  split
  · rename_i heq
    rw [coordinateDelete_engine, ← heq]
    split
    · exact .inr rfl
    · exact .inl rfl
  · split
    · exact .inr rfl
    · exact .inl rfl

end

variable (hash : String → UInt64) (c : Codecs) (ring : HashRing)
  (quorum : QuorumConfig)

def put (cluster : Cluster) (call : PutCall) : Cluster where
  engines := cluster.putEngines hash c ring quorum call
  nodeId_eq := fun id => by
    rcases cluster.putEngines_eq hash c ring quorum call id with h | h
    · rw [h, cluster.nodeId_eq]
    · rw [h]
      exact cluster.nodeId_eq id

def delete (cluster : Cluster) (call : DeleteCall) : Cluster where
  engines := cluster.deleteEngines hash c ring quorum call
  nodeId_eq := fun id => by
    rcases cluster.deleteEngines_eq hash c ring quorum call id with h | h
    · rw [h, cluster.nodeId_eq]
    · rw [h]
      exact cluster.nodeId_eq id

def evict (cluster : Cluster) (node : String) (now : Int64) : Cluster where
  engines := fun id =>
    if id = node then (cluster.engines id).evictExpired now
    else cluster.engines id
  nodeId_eq := fun id => by
    split
    · exact cluster.nodeId_eq id
    · exact cluster.nodeId_eq id

variable {hash c ring quorum}

theorem engine_coordinatorAt (cluster : Cluster) (coordinator : String) :
    (cluster.coordinatorAt ring quorum coordinator).engine =
      cluster.engines coordinator := rfl

theorem responsible_coordinatorAt (cluster : Cluster)
    (coordinator key : String) :
    (cluster.coordinatorAt ring quorum coordinator).responsible hash key =
      ring.isResponsible hash coordinator key := by
  rw [ReplicationCoordinator.responsible, coordinatorAt, cluster.nodeId_eq]

/-- The replicas of a key that are not the coordinator are its peers. -/
theorem peers_coordinatorAt (cluster : Cluster) (coordinator key : String) :
    (cluster.coordinatorAt ring quorum coordinator).peers hash key =
      (ring.getNodes hash key).filter fun n => !(n.id == coordinator) := by
  rw [ReplicationCoordinator.peers, coordinatorAt, cluster.nodeId_eq]
  apply List.filter_congr
  intro n hn
  simp [Bool.beq_eq_decide_eq]

theorem peers_any (cluster : Cluster) (coordinator key : String) {node : Node}
    (hnode : node ∈ ring.getNodes hash key) (hne : node.id ≠ coordinator) :
    ((cluster.coordinatorAt ring quorum coordinator).peers hash key).any
      (fun n => n.id == node.id) = true := by
  rw [List.any_eq_true]
  refine ⟨node, ?_, by simp⟩
  rw [peers_coordinatorAt, List.mem_filter]
  exact ⟨hnode, by simp [hne]⟩

theorem responsible_of_mem {key : String} {node : Node}
    (hnode : node ∈ ring.getNodes hash key) :
    ring.isResponsible hash node.id key = true :=
  HashRing.isResponsible_iff.mpr (List.mem_map_of_mem hnode)

/-- A call through a replica reaches it, and every other replica whose RPC was
applied. -/
def reaches (coordinator : String) (delivery : String → Delivery)
    (id : String) : Bool :=
  id == coordinator || (delivery id).applied

theorem engines_put_of_mem (cluster : Cluster) (call : PutCall) {node : Node}
    (hnode : node ∈ ring.getNodes hash call.key) :
    (cluster.put hash c ring quorum call).engines node.id =
      if reaches call.coordinator call.delivery node.id then
        (cluster.engines node.id).put c call.key (cluster.version call)
      else cluster.engines node.id := by
  change cluster.putEngines hash c ring quorum call node.id = _
  unfold putEngines
  by_cases hself : node.id = call.coordinator
  · have hresponsible := responsible_of_mem hnode
    rw [hself] at hresponsible
    simp [hself, coordinatePut_engine, hresponsible, reaches]
  · simp [hself, rpcApplied, peers_any cluster _ _ hnode hself, reaches,
      handle_replicateRequest _ _ (show (cluster.version call).deleted = false
        from rfl)]

theorem engines_delete_of_mem (cluster : Cluster) (call : DeleteCall)
    {node : Node} (hnode : node ∈ ring.getNodes hash call.key) :
    (cluster.delete hash c ring quorum call).engines node.id =
      if reaches call.coordinator call.delivery node.id then
        (cluster.engines node.id).delete c call.key (call.now node.id)
      else cluster.engines node.id := by
  change cluster.deleteEngines hash c ring quorum call node.id = _
  unfold deleteEngines
  by_cases hself : node.id = call.coordinator
  · have hresponsible := responsible_of_mem hnode
    rw [hself] at hresponsible
    simp [hself, coordinateDelete_engine, hresponsible, reaches]
  · simp [hself, rpcApplied, peers_any cluster _ _ hnode hself, reaches,
      InternalService.deleteInternal, ReplicationCoordinator.deleteRequest]

/-! ## What a read sees -/

/-- What a read through `reader` gets from a replica: its own entry as it is, a
peer's without the deletion marker, and nothing from a peer that is silent. -/
def seen (cluster : Cluster) (call : GetCall) (node : Node) :
    Option VersionedValue :=
  if node.id = call.coordinator then (cluster.engines node.id).getRaw call.key
  else if call.reply node.id = .answers then
    ((cluster.engines node.id).getRaw call.key).map fun v =>
      { v with deleted := false }
  else none

theorem readResult_getInternal (engine : StorageEngine) (key : String)
    (reply : Reply) :
    readResult (reply.outcome (InternalService.getInternal engine ⟨key⟩)) =
      if reply = .answers then
        (engine.getRaw key).map fun v => { v with deleted := false }
      else none := by
  cases reply with
  | answers =>
      cases h : engine.getRaw key with
      | none => simp [Reply.outcome, readResult, InternalService.getInternal, h]
      | some v =>
          simp [Reply.outcome, readResult, InternalService.getInternal, h,
            fromProto_toProto]
  | error => simp [Reply.outcome, readResult]
  | timeout => simp [Reply.outcome, readResult]

theorem get_value (cluster : Cluster) (call : GetCall) :
    (cluster.get hash ring quorum call).value =
      resolveConflicts call.now
        ((cluster.coordinatorAt ring quorum call.coordinator).responses hash
          call.key fun node req => (call.reply node.id).outcome
            (InternalService.getInternal (cluster.engines node.id) req)) :=
  congrArg QuorumResult.value (ReplicationCoordinator.get_eq ..)

theorem mem_responses_iff (cluster : Cluster) (call : GetCall)
    {v : VersionedValue} :
    some v ∈ (cluster.coordinatorAt ring quorum call.coordinator).responses hash
        call.key (fun node req => (call.reply node.id).outcome
          (InternalService.getInternal (cluster.engines node.id) req)) ↔
      ∃ node ∈ ring.getNodes hash call.key,
        cluster.seen call node = some v := by
  simp only [ReplicationCoordinator.responses, responsible_coordinatorAt,
    peers_coordinatorAt, engine_coordinatorAt, readResult_getInternal,
    List.mem_append, List.mem_map, List.mem_filter, Bool.not_eq_true',
    beq_eq_false_iff_ne]
  constructor
  · rintro (hself | ⟨node, ⟨hnode, hne⟩, hv⟩)
    · split at hself
      · rename_i hresponsible
        obtain ⟨node, hnode, hid⟩ := List.mem_map.mp
          (HashRing.isResponsible_iff.mp hresponsible)
        refine ⟨node, hnode, ?_⟩
        rw [seen, if_pos hid, hid]
        exact (List.mem_singleton.mp hself).symm
      · simp at hself
    · refine ⟨node, hnode, ?_⟩
      rw [seen, if_neg hne]
      exact hv
  · rintro ⟨node, hnode, hv⟩
    unfold seen at hv
    split at hv
    · rename_i hid
      left
      rw [if_pos (hid ▸ responsible_of_mem hnode), ← hid, hv]
      exact List.mem_singleton_self _
    · rename_i hne
      exact .inr ⟨node, ⟨hnode, hne⟩, hv⟩

end Cluster

end Rkv.Replication
