import Rkv.Replication.Cluster
import Rkv.Storage.ReferenceCodec

/-!
# What a write quorum counts

A coordinated write looks at the ring twice: for the list of peers, and again to
decide whether it writes locally.  The ring may change in between, and here it
does.  The peers are distinct nodes other than the coordinator, so every success
stands for another node that applied the write.
-/

namespace Rkv.Replication

open Rkv.Foundation
open Rkv.Grpc
open Rkv.Ring (Node HashRing)
open Rkv.Storage (Bytes Codecs StorageEngine VectorClock VersionedValue WalEntry
  WriteAheadLog)

namespace ReplicationCoordinator

variable (hash : String → UInt64)

/-- `put` on a ring that is `later` when `is_responsible` looks at it. -/
def putAcross (c : Codecs) (co : ReplicationCoordinator) (later : HashRing)
    (key : String) (value : Bytes) (ttlMs : Int64) (writeQuorumOverride : Nat)
    (now : Int64) (localFailure : Option StorageEngine)
    (rpc : Node → Proto.ReplicateRequest → RpcResult Proto.ReplicateResponse) :
    StorageEngine × QuorumResult VectorClock :=
  let required := co.quorum.effectiveWriteQuorum writeQuorumOverride
  let versioned := co.engine.newVersion key value ttlMs now
  let (engine, successes, failures) :=
    if later.isResponsible hash co.engine.nodeId key then
      match localFailure with
      | none => (co.engine.put c key versioned, 1, 0)
      | some failed => (failed, 0, 1)
    else (co.engine, 0, 0)
  let results := (co.peers hash key).map fun node =>
    (rpc node (replicateRequest key versioned)).succeeded (·.success)
  let (successes, failures) := tally successes failures results
  (engine, ⟨some versioned.vectorClock, successes, failures, required⟩)

theorem put_eq_putAcross (c : Codecs) (co : ReplicationCoordinator) :
    co.put hash c = co.putAcross hash c co.ring := rfl

def deleteAcross (c : Codecs) (co : ReplicationCoordinator) (later : HashRing)
    (key : String) (writeQuorumOverride : Nat) (now : Int64)
    (localFailure : Option StorageEngine)
    (rpc : Node → Proto.DeleteInternalRequest →
      RpcResult Proto.DeleteInternalResponse) :
    StorageEngine × QuorumResult Unit :=
  let required := co.quorum.effectiveWriteQuorum writeQuorumOverride
  let (engine, successes, failures) :=
    if later.isResponsible hash co.engine.nodeId key then
      match localFailure with
      | none => (co.engine.delete c key now, 1, 0)
      | some failed => (failed, 0, 1)
    else (co.engine, 0, 0)
  let results := (co.peers hash key).map fun node =>
    (rpc node (deleteRequest key engine)).succeeded (·.success)
  let (successes, failures) := tally successes failures results
  (engine, ⟨some (), successes, failures, required⟩)

theorem delete_eq_deleteAcross (c : Codecs) (co : ReplicationCoordinator) :
    co.delete hash c = co.deleteAcross hash c co.ring := rfl

end ReplicationCoordinator

/-- `KvService.put`: the coordinated write behind its quorum check. -/
def kvPut (hash : String → UInt64) (c : Codecs) (co : ReplicationCoordinator)
    (later : HashRing) (req : Proto.PutRequest) (now : Int64)
    (localFailure : Option StorageEngine)
    (rpc : Node → Proto.ReplicateRequest → RpcResult Proto.ReplicateResponse) :
    Except Status Proto.PutResponse :=
  let result := (co.putAcross hash c later req.key req.value req.ttlMs
    req.writeQuorum now localFailure rpc).2
  if !result.isSuccess then
    .error (.unavailable ("Write quorum not met: got " ++ result.successes.repr ++
      "/" ++ result.required.repr ++ " successes"))
  else .ok ⟨true, result.value.map toProtoVectorClock⟩

/-- `KvService.delete` answers without an error, whatever the count. -/
def kvDelete (hash : String → UInt64) (c : Codecs)
    (co : ReplicationCoordinator) (later : HashRing) (req : Proto.DeleteRequest)
    (now : Int64) (localFailure : Option StorageEngine)
    (rpc : Node → Proto.DeleteInternalRequest →
      RpcResult Proto.DeleteInternalResponse) : Proto.DeleteResponse :=
  let result := (co.deleteAcross hash c later req.key req.writeQuorum now
    localFailure rpc).2
  ⟨result.isSuccess⟩

/-! ## Counts -/

def localCounts (responsible : Bool) (localFailure : Option StorageEngine) :
    Nat × Nat :=
  if responsible then
    match localFailure with
    | none => (1, 0)
    | some _ => (0, 1)
  else (0, 0)

theorem localCounts_sum (responsible : Bool)
    (localFailure : Option StorageEngine) :
    (localCounts responsible localFailure).1 +
      (localCounts responsible localFailure).2 =
        if responsible then 1 else 0 := by
  cases responsible <;> cases localFailure <;> rfl

/-- A local success is the only thing the local write counts for, and means that
it went through. -/
theorem localCounts_success (responsible : Bool)
    (localFailure : Option StorageEngine) :
    (localCounts responsible localFailure).1 ≤ 1 ∧
      ((localCounts responsible localFailure).1 = 1 →
        responsible = true ∧ localFailure = none) := by
  cases responsible <;> cases localFailure <;> simp [localCounts]

theorem tally_map {α : Type} (successes failures : Nat) (peers : List α)
    (succeeded : α → Bool) :
    tally successes failures (peers.map succeeded) =
      (successes + peers.countP succeeded,
        failures + peers.countP fun peer => !succeeded peer) := by
  rw [tally_eq, List.count, List.count, List.countP_map, List.countP_map]
  congr 2
  · exact List.countP_congr (by simp)
  · exact List.countP_congr (by simp)

namespace ReplicationCoordinator

variable {hash : String → UInt64}

theorem counts_putAcross (c : Codecs) (co : ReplicationCoordinator)
    (later : HashRing) (key : String) (value : Bytes) (ttlMs : Int64)
    (writeQuorumOverride : Nat) (now : Int64)
    (localFailure : Option StorageEngine)
    (rpc : Node → Proto.ReplicateRequest → RpcResult Proto.ReplicateResponse) :
    let result := (co.putAcross hash c later key value ttlMs writeQuorumOverride
      now localFailure rpc).2
    let counts := localCounts (later.isResponsible hash co.engine.nodeId key)
      localFailure
    let succeeded := fun node => (rpc node (replicateRequest key
      (co.engine.newVersion key value ttlMs now))).succeeded (·.success)
    result.successes = counts.1 + (co.peers hash key).countP succeeded ∧
      result.failures = counts.2 +
        (co.peers hash key).countP fun node => !succeeded node := by
  intro result counts succeeded
  have htally := tally_map counts.1 counts.2 (co.peers hash key) succeeded
  have hresult : (result.successes, result.failures) =
      tally counts.1 counts.2 ((co.peers hash key).map succeeded) := by
    simp only [result, counts, putAcross, localCounts, succeeded]
    cases later.isResponsible hash co.engine.nodeId key <;>
      cases localFailure <;> rfl
  rw [htally, Prod.mk.injEq] at hresult
  exact hresult

theorem counts_deleteAcross (c : Codecs) (co : ReplicationCoordinator)
    (later : HashRing) (key : String) (writeQuorumOverride : Nat) (now : Int64)
    (localFailure : Option StorageEngine)
    (rpc : Node → Proto.DeleteInternalRequest →
      RpcResult Proto.DeleteInternalResponse) :
    let outcome := co.deleteAcross hash c later key writeQuorumOverride now
      localFailure rpc
    let counts := localCounts (later.isResponsible hash co.engine.nodeId key)
      localFailure
    let succeeded := fun node =>
      (rpc node (deleteRequest key outcome.1)).succeeded (·.success)
    outcome.2.successes = counts.1 + (co.peers hash key).countP succeeded ∧
      outcome.2.failures = counts.2 +
        (co.peers hash key).countP fun node => !succeeded node := by
  intro outcome counts succeeded
  have htally := tally_map counts.1 counts.2 (co.peers hash key) succeeded
  have hresult : (outcome.2.successes, outcome.2.failures) =
      tally counts.1 counts.2 ((co.peers hash key).map succeeded) := by
    simp only [outcome, counts, deleteAcross, localCounts, succeeded]
    cases later.isResponsible hash co.engine.nodeId key <;>
      cases localFailure <;> rfl
  rw [htally, Prod.mk.injEq] at hresult
  exact hresult

theorem counts_add_eq_length (co : ReplicationCoordinator) (key : String)
    (localFailure : Option StorageEngine) (succeeded : Node → Bool) :
    let counts := localCounts (co.ring.isResponsible hash co.engine.nodeId key)
      localFailure
    (counts.1 + (co.peers hash key).countP succeeded) +
        (counts.2 + (co.peers hash key).countP fun node => !succeeded node) =
      (co.ring.getNodes hash key).length := by
  intro counts
  have hlocal : counts.1 + counts.2 = _ := localCounts_sum _ localFailure
  have hpeers := List.length_eq_countP_add_countP succeeded
    (l := co.peers hash key)
  have hnot : (co.peers hash key).countP (fun node => !succeeded node) =
      (co.peers hash key).countP fun node => decide ¬succeeded node = true :=
    List.countP_congr (by simp)
  have hlength : (co.ring.getNodes hash key).length = _ := co.length_getNodes key
  rw [responsible] at hlength
  omega

end ReplicationCoordinator

/-- Successes of distinct nodes that applied a write are covered by these nodes. -/
theorem exists_applied_of_counts {peers : List Node} {own : String}
    (hnodup : (peers.map Node.id).Nodup) (hown : own ∉ peers.map Node.id)
    {applied : String → Prop} {localSuccesses : Nat} (hle : localSuccesses ≤ 1)
    (hlocal : localSuccesses = 1 → applied own) {succeeded : Node → Bool}
    (hpeers : ∀ node ∈ peers, succeeded node = true → applied node.id) :
    ∃ ids : Finset String, (∀ id ∈ ids, applied id) ∧
      localSuccesses + peers.countP succeeded ≤ ids.card := by
  have hacked : ((peers.filter succeeded).map Node.id).Nodup :=
    hnodup.sublist (List.filter_sublist.map _)
  have hmem : ∀ id ∈ (peers.filter succeeded).map Node.id, applied id := by
    intro id hid
    obtain ⟨node, hnode, rfl⟩ := List.mem_map.mp hid
    obtain ⟨hpeer, hsucceeded⟩ := List.mem_filter.mp hnode
    exact hpeers node hpeer hsucceeded
  have hcard : ((peers.filter succeeded).map Node.id).toFinset.card =
      peers.countP succeeded := by
    rw [List.toFinset_card_of_nodup hacked, List.length_map,
      List.countP_eq_length_filter]
  rcases Nat.le_one_iff_eq_zero_or_eq_one.mp hle with hzero | hone
  · refine ⟨((peers.filter succeeded).map Node.id).toFinset, ?_, ?_⟩
    · exact fun id hid => hmem id (List.mem_toFinset.mp hid)
    · rw [hzero, hcard, Nat.zero_add]
  · have hfresh : own ∉ ((peers.filter succeeded).map Node.id).toFinset := by
      intro hid
      obtain ⟨node, hnode, heq⟩ := List.mem_map.mp (List.mem_toFinset.mp hid)
      exact hown (heq ▸ List.mem_map_of_mem (List.mem_filter.mp hnode).1)
    refine ⟨insert own ((peers.filter succeeded).map Node.id).toFinset, ?_, ?_⟩
    · intro id hid
      rcases Finset.mem_insert.mp hid with rfl | hid
      · exact hlocal hone
      · exact hmem id (List.mem_toFinset.mp hid)
    · rw [Finset.card_insert_of_notMem hfresh, hcard, hone, Nat.add_comm]

/-- A write is at a node: the entry is stored and its line ends the log, which
replays to one write more. -/
structure Took (c : Codecs) (before after : StorageEngine) (key : String)
    (entry : VersionedValue) : Prop where
  stored : after.getRaw key = some entry
  frame : ∀ other, other ≠ key → after.getRaw other = before.getRaw other
  line : ∃ sequence, after.disk.wal = before.disk.wal ++
    WriteAheadLog.encodeLine c (WalEntry.new c sequence key entry)
  replayed : (∀ entry, c.Emits entry) → Terminated 10 before.disk.wal →
    Storage.logWrites c after.disk.wal =
      Storage.logWrites c before.disk.wal ++ [(key, entry)]

theorem took_put (c : Codecs) (engine : StorageEngine) (key : String)
    (entry : VersionedValue) :
    Took c engine (engine.put c key entry) key entry where
  stored := by rw [StorageEngine.getRaw_put, if_pos rfl]
  frame := fun other hne => by
    rw [StorageEngine.getRaw_put, if_neg (Ne.symm hne)]
  line := ⟨engine.wal.sequence + 1, rfl⟩
  replayed := fun hemits hterminated =>
    Storage.logWrites_append hemits hterminated key entry

/-! ## In a cluster -/

namespace Cluster

section

variable (hash : String → UInt64) (c : Codecs) (ring later : HashRing)
  (quorum : QuorumConfig)

def putAcross (cluster : Cluster) (call : PutCall)
    (localFailure : Option StorageEngine) :
    StorageEngine × QuorumResult VectorClock :=
  (cluster.coordinatorAt ring quorum call.coordinator).putAcross hash c later
    call.key call.value call.ttlMs call.writeQuorum call.now localFailure
    (cluster.replicateTo c call)

def enginesAfterPut (cluster : Cluster) (call : PutCall)
    (localFailure : Option StorageEngine) (id : String) : StorageEngine :=
  if id = call.coordinator then
    (cluster.putAcross hash c ring later quorum call localFailure).1
  else if cluster.rpcApplied hash ring quorum call.coordinator call.key
      call.delivery id then
    InternalService.handle c (cluster.engines id) call.now
      (.replicate (ReplicationCoordinator.replicateRequest call.key
        (cluster.version call)))
  else cluster.engines id

def deleteOn (cluster : Cluster) (call : DeleteCall) (node : Node)
    (req : Proto.DeleteInternalRequest) :
    RpcResult Proto.DeleteInternalResponse :=
  (call.delivery node.id).outcome
    (InternalService.deleteInternal c (cluster.engines node.id) req
      (call.now node.id)).2

def deleteAcross (cluster : Cluster) (call : DeleteCall)
    (localFailure : Option StorageEngine) : StorageEngine × QuorumResult Unit :=
  (cluster.coordinatorAt ring quorum call.coordinator).deleteAcross hash c later
    call.key call.writeQuorum (call.now call.coordinator) localFailure
    (cluster.deleteOn c call)

def enginesAfterDelete (cluster : Cluster) (call : DeleteCall)
    (localFailure : Option StorageEngine) (id : String) : StorageEngine :=
  let engine := (cluster.deleteAcross hash c ring later quorum call
    localFailure).1
  if id = call.coordinator then engine
  else if cluster.rpcApplied hash ring quorum call.coordinator call.key
      call.delivery id then
    (InternalService.deleteInternal c (cluster.engines id)
      (ReplicationCoordinator.deleteRequest call.key engine) (call.now id)).1
  else cluster.engines id

end

variable {hash : String → UInt64} {c : Codecs} {ring later : HashRing}
  {quorum : QuorumConfig}

theorem peers_distinct (hash : String → UInt64) (ring : HashRing)
    (quorum : QuorumConfig) (cluster : Cluster) (coordinator key : String) :
    let peers := (cluster.coordinatorAt ring quorum coordinator).peers hash key
    (peers.map Node.id).Nodup ∧ coordinator ∉ peers.map Node.id := by
  intro peers
  have hpeers : peers = (ring.getNodes hash key).filter
      fun n => !(n.id == coordinator) :=
    cluster.peers_coordinatorAt coordinator key
  rw [hpeers]
  constructor
  · exact (HashRing.nodup_getNodes hash ring key).sublist
      (List.filter_sublist.map _)
  · intro hmem
    obtain ⟨node, hnode, hid⟩ := List.mem_map.mp hmem
    simpa [hid] using (List.mem_filter.mp hnode).2

theorem rpcApplied_of_acked {cluster : Cluster} {coordinator key : String}
    {delivery : String → Delivery} {node : Node}
    (hnode : node ∈ (cluster.coordinatorAt ring quorum coordinator).peers hash
      key) (hacked : delivery node.id = .acked) :
    cluster.rpcApplied hash ring quorum coordinator key delivery node.id =
      true := by
  rw [rpcApplied, hacked, Bool.and_eq_true, List.any_eq_true]
  exact ⟨⟨node, hnode, by simp⟩, rfl⟩

theorem acked_of_outcome {α : Type} {delivery : Delivery} {response : α}
    {success : α → Bool}
    (h : (delivery.outcome response).succeeded success = true) :
    delivery = .acked := by
  cases delivery with
  | acked => rfl
  | ackLost => contradiction
  | lost => contradiction

theorem ne_coordinator_of_mem_peers {cluster : Cluster}
    {coordinator key : String} {node : Node}
    (hnode : node ∈ (cluster.coordinatorAt ring quorum coordinator).peers hash
      key) : node.id ≠ coordinator := by
  intro heq
  have hmem := List.mem_map_of_mem (f := Node.id) hnode
  rw [heq] at hmem
  exact (cluster.peers_distinct hash ring quorum coordinator key).2 hmem

theorem exists_applied_put (cluster : Cluster) (call : PutCall)
    (localFailure : Option StorageEngine) :
    ∃ ids : Finset String,
      (∀ id ∈ ids, cluster.enginesAfterPut hash c ring later quorum call
        localFailure id =
          (cluster.engines id).put c call.key (cluster.version call)) ∧
      (cluster.putAcross hash c ring later quorum call
        localFailure).2.successes ≤ ids.card := by
  obtain ⟨hnodup, hown⟩ :=
    cluster.peers_distinct hash ring quorum call.coordinator call.key
  rw [putAcross, (ReplicationCoordinator.counts_putAcross ..).1]
  obtain ⟨hle, hsuccess⟩ := localCounts_success (later.isResponsible hash
    (cluster.coordinatorAt ring quorum call.coordinator).engine.nodeId call.key)
    localFailure
  refine exists_applied_of_counts hnodup hown hle (fun hone => ?_)
    fun node hnode hsucceeded => ?_
  · obtain ⟨hresponsible, rfl⟩ := hsuccess hone
    rw [enginesAfterPut, if_pos rfl, putAcross, ReplicationCoordinator.putAcross,
      if_pos hresponsible]
    rfl
  · have hacked : call.delivery node.id = .acked := acked_of_outcome hsucceeded
    rw [enginesAfterPut, if_neg (ne_coordinator_of_mem_peers hnode),
      if_pos (rpcApplied_of_acked hnode hacked)]
    exact handle_replicateRequest _ _ rfl _

theorem exists_applied_delete (cluster : Cluster) (call : DeleteCall)
    (localFailure : Option StorageEngine) :
    ∃ ids : Finset String,
      (∀ id ∈ ids, cluster.enginesAfterDelete hash c ring later quorum call
        localFailure id =
          (cluster.engines id).delete c call.key (call.now id)) ∧
      (cluster.deleteAcross hash c ring later quorum call
        localFailure).2.successes ≤ ids.card := by
  obtain ⟨hnodup, hown⟩ :=
    cluster.peers_distinct hash ring quorum call.coordinator call.key
  rw [deleteAcross, (ReplicationCoordinator.counts_deleteAcross ..).1]
  obtain ⟨hle, hsuccess⟩ := localCounts_success (later.isResponsible hash
    (cluster.coordinatorAt ring quorum call.coordinator).engine.nodeId call.key)
    localFailure
  refine exists_applied_of_counts hnodup hown hle (fun hone => ?_)
    fun node hnode hsucceeded => ?_
  · obtain ⟨hresponsible, rfl⟩ := hsuccess hone
    rw [enginesAfterDelete, if_pos rfl, deleteAcross,
      ReplicationCoordinator.deleteAcross, if_pos hresponsible]
    rfl
  · have hacked : call.delivery node.id = .acked := acked_of_outcome hsucceeded
    rw [enginesAfterDelete, if_neg (ne_coordinator_of_mem_peers hnode),
      if_pos (rpcApplied_of_acked hnode hacked)]
    rfl

theorem required_le_of_kvPut_ok {cluster : Cluster} {call : PutCall}
    {localFailure : Option StorageEngine} {resp : Proto.PutResponse}
    (h : kvPut hash c (cluster.coordinatorAt ring quorum call.coordinator) later
      ⟨call.key, call.value, call.ttlMs, call.writeQuorum⟩ call.now localFailure
      (cluster.replicateTo c call) = .ok resp) :
    quorum.effectiveWriteQuorum call.writeQuorum ≤
      (cluster.putAcross hash c ring later quorum call
        localFailure).2.successes := by
  unfold kvPut at h
  dsimp only at h
  split at h
  · contradiction
  · rename_i hsuccess
    rw [Bool.not_eq_true', Bool.not_eq_false] at hsuccess
    exact of_decide_eq_true hsuccess

theorem required_le_of_kvDelete {cluster : Cluster} {call : DeleteCall}
    {localFailure : Option StorageEngine}
    (h : (kvDelete hash c (cluster.coordinatorAt ring quorum call.coordinator)
      later ⟨call.key, call.writeQuorum⟩ (call.now call.coordinator) localFailure
      (cluster.deleteOn c call)).success = true) :
    quorum.effectiveWriteQuorum call.writeQuorum ≤
      (cluster.deleteAcross hash c ring later quorum call
        localFailure).2.successes :=
  of_decide_eq_true h

end Cluster

open ReplicationCoordinator in
/-- Whatever becomes of the RPCs, and even if the ring changes during the call,
the successes of a put or a delete are at most the number of nodes whose engine
applied it, so an acknowledged write is stored and logged on a write quorum of
nodes. -/
theorem acked_write_on_quorum (hash : String → UInt64) (c : Codecs)
    (cluster : Cluster) (ring later : HashRing) (quorum : QuorumConfig)
    (localFailure : Option StorageEngine) :
    (∀ call : PutCall,
      let co := cluster.coordinatorAt ring quorum call.coordinator
      let after := cluster.enginesAfterPut hash c ring later quorum call
        localFailure
      let result := (cluster.putAcross hash c ring later quorum call
        localFailure).2
      (∃ applied : Finset String,
        (∀ id ∈ applied,
          after id =
            (cluster.engines id).put c call.key (cluster.version call) ∧
          Took c (cluster.engines id) (after id) call.key ⟨call.value,
            (cluster.version call).vectorClock, call.now, call.ttlMs, false⟩) ∧
        result.successes ≤ applied.card ∧
        ∀ resp, kvPut hash c co later
            ⟨call.key, call.value, call.ttlMs, call.writeQuorum⟩ call.now
            localFailure (cluster.replicateTo c call) = .ok resp →
          quorum.effectiveWriteQuorum call.writeQuorum ≤ applied.card) ∧
      (later = ring → result.successes + result.failures =
        (ring.getNodes hash call.key).length)) ∧
    ∀ call : DeleteCall,
      let co := cluster.coordinatorAt ring quorum call.coordinator
      let after := cluster.enginesAfterDelete hash c ring later quorum call
        localFailure
      let result := (cluster.deleteAcross hash c ring later quorum call
        localFailure).2
      (∃ applied : Finset String,
        (∀ id ∈ applied,
          after id = (cluster.engines id).delete c call.key (call.now id) ∧
          Took c (cluster.engines id) (after id) call.key ⟨[],
            ((cluster.engines id).storedClock call.key).increment id,
            call.now id, 300000, true⟩) ∧
        result.successes ≤ applied.card ∧
        ((kvDelete hash c co later ⟨call.key, call.writeQuorum⟩
            (call.now call.coordinator) localFailure
            (cluster.deleteOn c call)).success = true →
          quorum.effectiveWriteQuorum call.writeQuorum ≤ applied.card)) ∧
      (later = ring → result.successes + result.failures =
        (ring.getNodes hash call.key).length) := by
  constructor
  · intro call co after result
    constructor
    · obtain ⟨applied, happlied, hle⟩ :=
        cluster.exists_applied_put call localFailure
      refine ⟨applied, fun id hid => ⟨happlied id hid, ?_⟩, hle,
        fun resp hresp => (Cluster.required_le_of_kvPut_ok hresp).trans hle⟩
      rw [show after id = _ from happlied id hid]
      exact took_put c (cluster.engines id) call.key (cluster.version call)
    · rintro rfl
      obtain ⟨hsuccesses, hfailures⟩ := counts_putAcross c co later call.key
        call.value call.ttlMs call.writeQuorum call.now localFailure
        (cluster.replicateTo c call)
      change result.successes = _ at hsuccesses
      change result.failures = _ at hfailures
      rw [hsuccesses, hfailures]
      exact co.counts_add_eq_length call.key localFailure _
  · intro call co after result
    constructor
    · obtain ⟨applied, happlied, hle⟩ :=
        cluster.exists_applied_delete call localFailure
      refine ⟨applied, fun id hid => ⟨happlied id hid, ?_⟩, hle,
        fun hresp => (Cluster.required_le_of_kvDelete hresp).trans hle⟩
      have htook := took_put c (cluster.engines id) call.key
        ((cluster.engines id).tombstoneFor call.key (call.now id))
      rw [StorageEngine.tombstoneFor, cluster.nodeId_eq] at htook
      rw [show after id = _ from happlied id hid, StorageEngine.delete,
        StorageEngine.tombstoneFor, cluster.nodeId_eq]
      exact htook
    · rintro rfl
      obtain ⟨hsuccesses, hfailures⟩ := counts_deleteAcross c co later call.key
        call.writeQuorum (call.now call.coordinator) localFailure
        (cluster.deleteOn c call)
      change result.successes = _ at hsuccesses
      change result.failures = _ at hfailures
      rw [hsuccesses, hfailures]
      exact co.counts_add_eq_length call.key localFailure _

/-- A put of `k` through `node1`: `node2` acknowledges, the answer of `node3` is
lost, and `node1` has left the ring by the time it looks again. -/
def putThroughNode1 : PutCall where
  coordinator := "node1"
  key := "k"
  value := [1]
  ttlMs := 0
  writeQuorum := 1
  now := 1700000000000
  delivery := fun id => if id = "node2" then .acked else .ackLost

theorem acked_write_on_quorum_ring_changed :
    let cluster := Cluster.fresh Storage.referenceCodecs 1048576 3
    let later := Ring.threeNodes.removeNode "node1"
    let co := cluster.coordinatorAt Ring.threeNodes .defaultStrong "node1"
    (kvPut Ring.sha256Labels Storage.referenceCodecs co later
        ⟨"k", [1], 0, 1⟩ 1700000000000 none
        (cluster.replicateTo Storage.referenceCodecs putThroughNode1)).isOk =
          true ∧
      ∃ applied : Finset String,
        (∀ id ∈ applied, Took Storage.referenceCodecs (cluster.engines id)
          (cluster.enginesAfterPut Ring.sha256Labels Storage.referenceCodecs
            Ring.threeNodes later .defaultStrong putThroughNode1 none id) "k"
          ⟨[1], (cluster.version putThroughNode1).vectorClock, 1700000000000, 0,
            false⟩) ∧
        1 ≤ applied.card := by
  intro cluster later co
  have hok : (kvPut Ring.sha256Labels Storage.referenceCodecs co later
      ⟨"k", [1], 0, 1⟩ 1700000000000 none
      (cluster.replicateTo Storage.referenceCodecs putThroughNode1)).isOk =
        true := by
    decide +kernel
  obtain ⟨⟨applied, happlied, -, hquorum⟩, -⟩ := (acked_write_on_quorum
    Ring.sha256Labels Storage.referenceCodecs cluster Ring.threeNodes later
    .defaultStrong none).1 putThroughNode1
  refine ⟨hok, applied, fun id hid => (happlied id hid).2, ?_⟩
  cases hresp : kvPut Ring.sha256Labels Storage.referenceCodecs co later
      ⟨"k", [1], 0, 1⟩ 1700000000000 none
      (cluster.replicateTo Storage.referenceCodecs putThroughNode1) with
  | error status =>
      rw [hresp] at hok
      contradiction
  | ok resp => exact hquorum resp hresp

end Rkv.Replication
