import Rkv.Replication.CallReads

/-!
# A write as a single step

What has become of a write so far, the nodes that have applied it and the RPCs
that have ended, determines a call of the cluster in which calls are single
steps.  That call leaves and returns what the write does, on every cluster that
holds of the key what the write's own node read.
-/

namespace Rkv.Replication

open Rkv.Foundation
open Rkv.Grpc
open Rkv.Ring (Node HashRing)
open Rkv.Storage (Bytes Codecs StorageEngine VectorClock VersionedValue)

namespace Write

def delivery (w : Write) (id : String) : Delivery :=
  if id ∈ w.appliedAt then
    if w.results id = some true then .acked else .ackLost
  else .lost

/-- The reading at which a node applied the write. -/
def reading (w : Write) (id : String) : Int64 :=
  (w.applied.lookup id).getD 0

@[simps] def putCall (w : Write) (value : Bytes) (ttlMs now : Int64) : PutCall :=
  ⟨w.coordinator, w.key, value, ttlMs, w.writeQuorum, now, w.delivery⟩

@[simps] def deleteCall (w : Write) : DeleteCall :=
  ⟨w.coordinator, w.key, w.writeQuorum, w.reading, w.delivery⟩

/-- The write as a call that takes one step, with the deliveries it has had. -/
def op (w : Write) : ClusterOp :=
  match w.body with
  | .put value ttlMs now _ => .put (w.putCall value ttlMs now)
  | .delete => .delete w.deleteCall

/-- A put has made the version it would make on this cluster. -/
def MadeAt (w : Write) (cluster : Cluster) : Prop :=
  match w.body with
  | .put value ttlMs now version => version =
      (cluster.engines w.coordinator).newVersion w.key value ttlMs now
  | .delete => True

end Write

namespace Cluster

variable {hash : String → UInt64} {c : Codecs} {ring : HashRing}
  {quorum : QuorumConfig}

def writeResult (hash : String → UInt64) (c : Codecs) (ring : HashRing)
    (quorum : QuorumConfig) (cluster : Cluster) :
    ClusterOp → QuorumResult (Option VectorClock)
  | .put call =>
      let result := (cluster.coordinatePut hash c ring quorum call).2
      ⟨result.value.map some, result.successes, result.failures,
        result.required⟩
  | .delete call =>
      let result := (cluster.coordinateDelete hash c ring quorum call).2
      ⟨result.value.map fun _ => none, result.successes, result.failures,
        result.required⟩
  | .evict _ _ => ⟨none, 0, 0, 0⟩

/-- A key that is written at replicas only. -/
theorem engines_put_of_not_responsible (cluster : Cluster) (call : PutCall)
    {id : String} (hnot : ring.isResponsible hash id call.key = false) :
    (cluster.put hash c ring quorum call).engines id = cluster.engines id := by
  change cluster.putEngines hash c ring quorum call id = _
  unfold putEngines
  split
  · rename_i hself
    rw [coordinatePut_engine, ← hself, hnot]
    rfl
  · rw [if_neg]
    intro happlied
    rw [rpcApplied, Bool.and_eq_true, List.any_eq_true] at happlied
    obtain ⟨⟨node, hnode, hid⟩, -⟩ := happlied
    rw [peers_coordinatorAt, List.mem_filter] at hnode
    rw [← beq_iff_eq.mp hid, responsible_of_mem hnode.1] at hnot
    contradiction

theorem engines_delete_of_not_responsible (cluster : Cluster)
    (call : DeleteCall) {id : String}
    (hnot : ring.isResponsible hash id call.key = false) :
    (cluster.delete hash c ring quorum call).engines id =
      cluster.engines id := by
  change cluster.deleteEngines hash c ring quorum call id = _
  unfold deleteEngines
  split
  · rename_i hself
    rw [coordinateDelete_engine, ← hself, hnot]
    rfl
  · rw [if_neg]
    intro happlied
    rw [rpcApplied, Bool.and_eq_true, List.any_eq_true] at happlied
    obtain ⟨⟨node, hnode, hid⟩, -⟩ := happlied
    rw [peers_coordinatorAt, List.mem_filter] at hnode
    rw [← beq_iff_eq.mp hid, responsible_of_mem hnode.1] at hnot
    contradiction

end Cluster

namespace Write

variable {hash : String → UInt64} {c : Codecs} {ring : HashRing}
  {quorum : QuorumConfig} {w : Write} {cluster : Cluster}

theorem reaches_iff (h : w.Sound hash ring) {id : String}
    (hreplica : ring.isResponsible hash id w.key = true) :
    Cluster.reaches w.coordinator w.delivery id = true ↔ id ∈ w.appliedAt := by
  rw [Cluster.reaches, Bool.or_eq_true, beq_iff_eq]
  constructor
  · rintro (rfl | happlied)
    · exact h.own hreplica
    · by_contra hnot
      rw [delivery, if_neg hnot] at happlied
      contradiction
  · intro hid
    right
    rw [delivery, if_pos hid]
    split <;> rfl

/-- The step leaves at the nodes that have applied the write what it wrote there,
and nothing elsewhere. -/
theorem getRaw_op (h : w.Sound hash ring) (hmade : w.MadeAt cluster)
    (id : String) :
    ((cluster.step hash c ring quorum w.op).engines id).getRaw w.key =
      if id ∈ w.appliedAt then
        some (w.body.entry w.key (w.reading id) (cluster.engines id))
      else (cluster.engines id).getRaw w.key := by
  cases hreplica : ring.isResponsible hash id w.key with
  | false =>
      have hnot : id ∉ w.appliedAt := by
        intro hid
        rw [h.replicas id hid] at hreplica
        contradiction
      have hsame : (cluster.step hash c ring quorum w.op).engines id =
          cluster.engines id := by
        unfold op
        split
        · rename_i value ttlMs now version hbody
          exact cluster.engines_put_of_not_responsible
            (w.putCall value ttlMs now) hreplica
        · exact cluster.engines_delete_of_not_responsible w.deleteCall hreplica
      rw [if_neg hnot, hsame]
  | true =>
      obtain ⟨node, hnode, rfl⟩ := List.mem_map.mp
        (HashRing.isResponsible_iff.mp hreplica)
      have hreaches := reaches_iff h hreplica
      have happly : (cluster.step hash c ring quorum w.op).engines node.id =
          if node.id ∈ w.appliedAt then w.body.apply c w.key
            (w.reading node.id) (cluster.engines node.id)
          else cluster.engines node.id := by
        unfold op
        unfold MadeAt at hmade
        split
        · rename_i value ttlMs now version hbody
          rw [hbody] at hmade ⊢
          change version = _ at hmade
          have hput : (cluster.put hash c ring quorum
              (w.putCall value ttlMs now)).engines node.id = _ :=
            cluster.engines_put_of_mem _ hnode
          change _ = if Cluster.reaches w.coordinator w.delivery node.id = true
            then (cluster.engines node.id).put c w.key _
            else cluster.engines node.id at hput
          rw [if_congr hreaches rfl rfl] at hput
          rw [hmade]
          exact hput
        · rename_i hbody
          rw [hbody]
          have hdelete : (cluster.delete hash c ring quorum
              w.deleteCall).engines node.id = _ :=
            cluster.engines_delete_of_mem _ hnode
          change _ = if Cluster.reaches w.coordinator w.delivery node.id = true
            then (cluster.engines node.id).delete c w.key (w.reading node.id)
            else cluster.engines node.id at hdelete
          rw [if_congr hreaches rfl rfl] at hdelete
          exact hdelete
      rw [happly]
      split
      · rw [w.body.apply_eq, StorageEngine.getRaw_put, if_pos rfl]
      · rfl

/-- An RPC succeeds in the step where it was acknowledged. -/
theorem succeeded_outcome (h : w.Sound hash ring) {α : Type} (id : String)
    (response : α) {success : α → Bool} (hsuccess : success response = true) :
    ((w.delivery id).outcome response).succeeded success =
      (w.results id).getD false := by
  unfold delivery
  split
  · split
    · rename_i hacked
      rw [hacked]
      exact hsuccess
    · rename_i hnot
      cases hresult : w.results id with
      | none => rfl
      | some success =>
          cases success with
          | false => rfl
          | true => exact absurd hresult hnot
  · rename_i hnot
    cases hresult : w.results id with
    | none => rfl
    | some success =>
        cases success with
        | false => rfl
        | true => exact absurd (h.acked id hresult) hnot

/-- The step returns what the write returns. -/
theorem writeResult_op (h : w.Sound hash ring) (hmade : w.MadeAt cluster) :
    cluster.writeResult hash c ring quorum w.op = w.result hash ring quorum := by
  unfold op
  unfold MadeAt at hmade
  split
  · rename_i value ttlMs now version hbody
    rw [hbody] at hmade
    change version = _ at hmade
    have hresults : ∀ node : Node, (cluster.replicateTo c
        (w.putCall value ttlMs now) node (ReplicationCoordinator.replicateRequest
          w.key version)).succeeded (·.success) =
            (w.results node.id).getD false :=
      fun node => succeeded_outcome h node.id _ rfl
    simp only [Cluster.writeResult, Cluster.coordinatePut,
      ReplicationCoordinator.put, cluster.responsible_coordinatorAt,
      cluster.engine_coordinatorAt, putCall_coordinator, putCall_key,
      putCall_value, putCall_ttlMs, putCall_now, putCall_writeQuorum, hresults,
      result, w.peers_eq quorum cluster, hbody, WriteBody.clock, ← hmade]
    split <;> rfl
  · rename_i hbody
    have hresults : ∀ (node : Node) (response : Proto.DeleteInternalResponse),
        response.success = true →
        ((w.delivery node.id).outcome response).succeeded (·.success) =
          (w.results node.id).getD false :=
      fun node response hsuccess => succeeded_outcome h node.id _ hsuccess
    simp only [Cluster.writeResult, Cluster.coordinateDelete,
      ReplicationCoordinator.delete, cluster.responsible_coordinatorAt,
      deleteCall_coordinator, deleteCall_key, deleteCall_now,
      deleteCall_delivery, deleteCall_writeQuorum,
      InternalService.deleteInternal, hresults, result,
      w.peers_eq quorum cluster, hbody, WriteBody.clock]
    split <;> rfl

end Write

/-! ## Clusters that hold the same of a key -/

namespace Cluster

variable {hash : String → UInt64} {c : Codecs} {ring : HashRing}
  {quorum : QuorumConfig} {cluster other : Cluster} {key : String}

def AgreesOn (key : String) (cluster other : Cluster) : Prop :=
  ∀ id, (cluster.engines id).getRaw key = (other.engines id).getRaw key

theorem tombstoneFor_congr {id : String}
    (h : (cluster.engines id).getRaw key = (other.engines id).getRaw key)
    (now : Int64) :
    (cluster.engines id).tombstoneFor key now =
      (other.engines id).tombstoneFor key now := by
  rw [StorageEngine.tombstoneFor, StorageEngine.tombstoneFor,
    cluster.nodeId_eq, other.nodeId_eq, StorageEngine.storedClock,
    StorageEngine.storedClock, h]

theorem entry_congr {id : String}
    (h : (cluster.engines id).getRaw key = (other.engines id).getRaw key)
    (body : WriteBody) (now : Int64) :
    body.entry key now (cluster.engines id) =
      body.entry key now (other.engines id) := by
  cases body with
  | put value ttlMs made version => rfl
  | delete => exact tombstoneFor_congr h now

theorem AgreesOn.newVersion (h : AgreesOn key cluster other) (id : String)
    (value : Bytes) (ttlMs now : Int64) :
    (cluster.engines id).newVersion key value ttlMs now =
      (other.engines id).newVersion key value ttlMs now := by
  rw [StorageEngine.newVersion, StorageEngine.newVersion, cluster.nodeId_eq,
    other.nodeId_eq, StorageEngine.storedClock, StorageEngine.storedClock, h id]

/-- The cluster after writes that take one step each. -/
def runWrites (hash : String → UInt64) (c : Codecs) (ring : HashRing)
    (quorum : QuorumConfig) (cluster : Cluster) (writes : List Write) :
    Cluster :=
  cluster.run hash c ring quorum (writes.map Write.op)

theorem runWrites_concat (writes : List Write) (w : Write) :
    cluster.runWrites hash c ring quorum (writes ++ [w]) =
      (cluster.runWrites hash c ring quorum writes).step hash c ring quorum
        w.op := by
  simp [runWrites, run]

/-- Every put has made the version it would make in its place. -/
def MadeAll (hash : String → UInt64) (c : Codecs) (ring : HashRing)
    (quorum : QuorumConfig) (cluster : Cluster) (writes : List Write) : Prop :=
  ∀ front w back, writes = front ++ w :: back →
    w.MadeAt (cluster.runWrites hash c ring quorum front)

theorem madeAll_concat {writes : List Write} {w : Write} :
    cluster.MadeAll hash c ring quorum (writes ++ [w]) ↔
      cluster.MadeAll hash c ring quorum writes ∧
        w.MadeAt (cluster.runWrites hash c ring quorum writes) := by
  constructor
  · intro h
    refine ⟨fun front v back heq => ?_, h writes w [] rfl⟩
    exact h front v (back ++ [w]) (by rw [heq]; simp)
  · rintro ⟨hwrites, hw⟩ front v back heq
    rcases List.eq_nil_or_concat back with rfl | ⟨rest, last, rfl⟩
    · obtain ⟨rfl, hlast⟩ := List.append_inj' heq rfl
      cases hlast
      exact hw
    · rw [List.concat_eq_append, ← List.cons_append, ← List.append_assoc] at heq
      exact hwrites front v rest (List.append_inj_left' heq rfl)

end Cluster

namespace Write

variable {hash : String → UInt64} {c : Codecs} {ring : HashRing}
  {quorum : QuorumConfig} {w : Write} {before after : Cluster}

/-- What the write, as far as it has come, leaves of its key. -/
def Left (w : Write) (before after : Cluster) : Prop :=
  ∀ id, (after.engines id).getRaw w.key =
    if id ∈ w.appliedAt then
      some (w.body.entry w.key (w.reading id) (before.engines id))
    else (before.engines id).getRaw w.key

theorem left_iff (h : w.Sound hash ring) (hmade : w.MadeAt before)
    {key : String} (hkey : w.key = key) :
    w.Left before after ↔ Cluster.AgreesOn key after
      (before.step hash c ring quorum w.op) := by
  subst hkey
  simp only [Left, Cluster.AgreesOn, getRaw_op h hmade]

theorem reading_applyAt_self {id : String} (hnew : id ∉ w.appliedAt)
    (now : Int64) : (w.applyAt id now).reading id = now := by
  have hnone : w.applied.lookup id = none := by
    rw [List.lookup_eq_none_iff]
    intro entry hentry
    rw [bne_iff_ne]
    rintro rfl
    exact hnew (List.mem_map_of_mem hentry)
  simp [reading, List.lookup_append, hnone]

theorem reading_applyAt_of_ne {id other : String} (hne : other ≠ id)
    (now : Int64) : (w.applyAt id now).reading other = w.reading other := by
  have hnone : [(id, now)].lookup other = none := by
    rw [List.lookup_eq_none_iff]
    simpa using hne
  simp [reading, List.lookup_append, hnone]

theorem Left.applyAt (h : w.Left before after) {id : String}
    (hnew : id ∉ w.appliedAt) {now : Int64} {last : Cluster}
    (hengine : last.engines id = (after.engines id).put c w.key
      (w.body.entry w.key now (after.engines id)))
    (hframe : ∀ other, other ≠ id → last.engines other = after.engines other) :
    (w.applyAt id now).Left before last := by
  intro other
  rw [appliedAt_applyAt, applyAt_key, applyAt_body]
  by_cases heq : other = id
  · subst heq
    have hsame := h other
    rw [if_neg hnew] at hsame
    rw [if_pos (by simp), reading_applyAt_self hnew, hengine,
      StorageEngine.getRaw_put, if_pos rfl, Cluster.entry_congr hsame]
  · rw [hframe other heq, h other, reading_applyAt_of_ne heq]
    simp [heq]

end Write

/-! ## A read as a single step -/

namespace Read

variable {hash : String → UInt64} {ring : HashRing} {quorum : QuorumConfig}
  {r : Read} {cluster other : Cluster}

/-- The read has heard nothing but what this cluster stores. -/
structure Sees (hash : String → UInt64) (ring : HashRing) (r : Read)
    (cluster : Cluster) : Prop where
  own : r.own = if ring.isResponsible hash r.coordinator r.key then
    some ((cluster.engines r.coordinator).getRaw r.key) else none
  results : ∀ id outcome, r.results id = some outcome → ∃ reply : Reply,
    outcome = reply.outcome (InternalService.getInternal (cluster.engines id)
      ⟨r.key⟩)

def reply (r : Read) (id : String) : Reply :=
  match r.results id with
  | some (.ok _) => .answers
  | some .timeout => .timeout
  | some .error | none => .error

/-- The read as a call that takes one step. -/
@[simps] def call (r : Read) (now : Int64) : GetCall :=
  ⟨r.coordinator, r.key, r.readQuorum, now, r.reply⟩

theorem peers_eq (quorum : QuorumConfig) (cluster : Cluster) (r : Read) :
    r.peers hash ring =
      (cluster.coordinatorAt ring quorum r.coordinator).peers hash r.key := by
  rw [peers, ReplicationCoordinator.peers, cluster.engine_coordinatorAt,
    cluster.nodeId_eq]
  rfl

theorem getInternal_congr {key id : String}
    (h : (cluster.engines id).getRaw key = (other.engines id).getRaw key) :
    InternalService.getInternal (cluster.engines id) ⟨key⟩ =
      InternalService.getInternal (other.engines id) ⟨key⟩ := by
  rw [InternalService.getInternal, InternalService.getInternal, h]

theorem Sees.congr (h : r.Sees hash ring cluster)
    (hagrees : Cluster.AgreesOn r.key cluster other) :
    r.Sees hash ring other where
  own := by
    rw [h.own, hagrees r.coordinator]
  results := by
    intro id outcome houtcome
    obtain ⟨reply, hreply⟩ := h.results id outcome houtcome
    exact ⟨reply, by rw [hreply, getInternal_congr (hagrees id)]⟩

theorem Sees.endAt (h : r.Sees hash ring cluster) (id : String) (reply : Reply)
    {response : Proto.GetInternalResponse}
    (hresponse : response =
      InternalService.getInternal (cluster.engines id) ⟨r.key⟩) :
    (r.endAt id (reply.outcome response)).Sees hash ring cluster where
  own := h.own
  results := by
    intro other outcome houtcome
    rw [endAt_results] at houtcome
    by_cases heq : other = id
    · subst heq
      rw [Function.update_self] at houtcome
      exact ⟨reply, by rw [← Option.some.inj houtcome, hresponse]; rfl⟩
    · rw [Function.update_of_ne heq] at houtcome
      exact h.results other outcome houtcome

theorem Sees.outcome (h : r.Sees hash ring cluster) {id : String}
    (hended : (r.results id).isSome) :
    (r.reply id).outcome (InternalService.getInternal (cluster.engines id)
      ⟨r.key⟩) = (r.results id).getD .error := by
  obtain ⟨outcome, houtcome⟩ := Option.isSome_iff_exists.mp hended
  obtain ⟨reply, rfl⟩ := h.results id outcome houtcome
  cases reply with
  | answers | error | timeout => simp [Read.reply, houtcome, Reply.outcome]

/-- The step returns what the read returns. -/
theorem Sees.get_eq (h : r.Sees hash ring cluster)
    (hended : ∀ node ∈ r.peers hash ring, (r.results node.id).isSome)
    (now : Int64) :
    cluster.get hash ring quorum (r.call now) = r.result hash ring quorum now := by
  have hpeers : ∀ node ∈ r.peers hash ring,
      readResult ((r.reply node.id).outcome
        (InternalService.getInternal (cluster.engines node.id) ⟨r.key⟩)) =
      (r.results node.id).elim none readResult := by
    intro node hnode
    obtain ⟨outcome, houtcome⟩ := Option.isSome_iff_exists.mp
      (hended node hnode)
    refine (congrArg readResult (h.outcome (hended node hnode))).trans ?_
    rw [houtcome]
    rfl
  have hown : (if ring.isResponsible hash r.coordinator r.key then
      [(cluster.engines r.coordinator).getRaw r.key] else []) =
        r.own.toList := by
    rw [h.own]
    split <;> rfl
  have hcount : (if ring.isResponsible hash r.coordinator r.key then 1 else 0) =
      r.own.toList.length := by
    rw [h.own]
    split <;> rfl
  simp only [Cluster.get, ReplicationCoordinator.get_eq,
    ReplicationCoordinator.responses, cluster.responsible_coordinatorAt,
    cluster.engine_coordinatorAt, call_coordinator, call_key, call_now,
    call_readQuorum, call_reply, ← r.peers_eq quorum cluster, hown, hcount,
    result, gather_eq, List.length_map]
  rw [List.map_congr_left hpeers]
  rfl

end Read

end Rkv.Replication
