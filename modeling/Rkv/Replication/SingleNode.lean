import Rkv.Grpc.Scan
import Rkv.Replication.WriteQuorum
import Rkv.Ring.PreferenceList
import Rkv.Storage.Store

/-!
# A node on its own

A server whose ring has no other node: its client calls go through the
coordinator, its internal calls come from anyone who can reach it, the engine is
flushed, reaped and restarted in between.  To its clients it is the store of
`Rkv.Storage.Store`.  A quorum of more than one is never met, and the answer
says so, but the write has been done.
-/

namespace Rkv.Replication

open Rkv.Foundation
open Rkv.Grpc
open Rkv.Ring (Node HashRing)
open Rkv.Storage (Bytes Codecs StorageConfig StorageEngine Store VersionedValue
  asI64 deadlineOf valueBytes)

/-- How calls to other nodes end. -/
structure Network where
  replicate : Node → Proto.ReplicateRequest → RpcResult Proto.ReplicateResponse
  getInternal : Node → Proto.GetInternalRequest →
    RpcResult Proto.GetInternalResponse
  deleteInternal : Node → Proto.DeleteInternalRequest →
    RpcResult Proto.DeleteInternalResponse

/-- A call of a client or a peer, a background task or a restart, each with its
wall-clock reading in milliseconds. -/
inductive NodeCall where
  | get (req : Proto.GetRequest) (reading : Nat)
  | put (req : Proto.PutRequest) (reading : Nat)
  | delete (req : Proto.DeleteRequest) (reading : Nat)
  | scan (req : Proto.ScanRequest) (reading : Nat)
  | replicate (req : Proto.ReplicateRequest) (reading : Nat)
  | deleteInternal (req : Proto.DeleteInternalRequest) (reading : Nat)
  | hintedHandoff (req : Proto.HandoffRequest) (reading : Nat)
  | transferKeys (req : Proto.TransferRequest) (reading : Nat)
  | flush (reading : Nat)
  | evict (reading : Nat)
  | restart

def NodeCall.reading : NodeCall → Option Nat
  | get _ reading | put _ reading | delete _ reading | scan _ reading
  | replicate _ reading | deleteInternal _ reading | hintedHandoff _ reading
  | transferKeys _ reading | flush reading | evict reading => some reading
  | restart => none

/-- What the caller gets, without vector clocks. -/
inductive Answer where
  | got (result : Except Status (Bool × Bytes))
  | written (result : Except Status Bool)
  | scanned (pairs : Option (List (String × Bytes)))
  | accepted (count : Nat)
  | done
  deriving DecidableEq

/-! ## The server -/

namespace ReplicationCoordinator

variable (hash : String → UInt64) (c : Codecs) (net : Network)

def withEngine (co : ReplicationCoordinator) (engine : StorageEngine) :
    ReplicationCoordinator :=
  { co with engine := engine }

/-- One call; `none` is a restart that does not come up. -/
def serve (co : ReplicationCoordinator) :
    NodeCall → Option (ReplicationCoordinator × Answer)
  | .get req reading =>
      some (co, .got ((kvGet hash co req (asI64 reading) net.getInternal).map
        fun resp => (resp.found, resp.value)))
  | .put req reading =>
      let now := asI64 reading
      some (co.withEngine (co.put hash c req.key req.value req.ttlMs
          req.writeQuorum now none net.replicate).1,
        .written ((kvPut hash c co co.ring req now none net.replicate).map
          (·.success)))
  | .delete req reading =>
      let now := asI64 reading
      some (co.withEngine (co.delete hash c req.key req.writeQuorum now none
          net.deleteInternal).1,
        .written (.ok (kvDelete hash c co co.ring req now none
          net.deleteInternal).success))
  | .scan req reading =>
      some (co, .scanned ((kvScan co.engine req (asI64 reading)).map
        fun resp => resp.pairs.map fun kv => (kv.key, kv.value)))
  | .replicate req reading =>
      match InternalService.replicate c co.engine req (asI64 reading) with
      | .ok (engine, resp) => some (co.withEngine engine, .written (.ok resp.success))
      | .error status => some (co, .written (.error status))
  | .deleteInternal req reading =>
      let (engine, resp) :=
        InternalService.deleteInternal c co.engine req (asI64 reading)
      some (co.withEngine engine, .written (.ok resp.success))
  | .hintedHandoff req reading =>
      let (engine, resp) :=
        InternalService.hintedHandoff c co.engine req (asI64 reading)
      some (co.withEngine engine, .accepted resp.accepted)
  | .transferKeys req reading =>
      let (engine, resp) :=
        InternalService.transferKeys c co.engine req (asI64 reading)
      some (co.withEngine engine, .accepted resp.accepted)
  | .flush reading => some (co.withEngine (co.engine.flush c reading), .done)
  | .evict reading =>
      some (co.withEngine (co.engine.evictExpired (asI64 reading)), .done)
  | .restart =>
      match StorageEngine.openEngine c co.engine.config co.engine.disk with
      | .ok engine => some (co.withEngine engine, .done)
      | .error _ => none

def serveAll : ReplicationCoordinator → List NodeCall → Option (List Answer)
  | _, [] => some []
  | co, call :: calls =>
      match co.serve hash c net call with
      | none => none
      | some (co, answer) => (serveAll co calls).map (answer :: ·)

end ReplicationCoordinator

/-! ## The store as a server -/

def notMet (kind : String) (required : Nat) : Status :=
  .unavailable (kind ++ " quorum not met: got 1/" ++ required.repr ++
    " successes")

def hintedWrite (store : Store) (hint : Proto.HintedWrite) : Store :=
  match hint.value with
  | none => store
  | some value =>
      if hint.isDelete then store.erase hint.key
      else store.write hint.key (fromProtoVersioned value)

def transferredWrite (store : Store) (kv : Proto.KeyValue) : Store :=
  store.insert kv.key ⟨kv.value, none⟩

/-- What each call does to the store and what it is answered.  Only the number
of replicas, one, is known of the ring. -/
def storeServe (quorum : QuorumConfig) (store : Store) :
    NodeCall → Store × Answer
  | .get req reading =>
      let required := quorum.effectiveReadQuorum req.readQuorum
      (store, .got (
        if 1 < required then .error (notMet "Read" required)
        else
          match store.get req.key (asI64 reading) with
          | some value => .ok (true, value)
          | none => .ok (false, [])))
  | .put req reading =>
      let required := quorum.effectiveWriteQuorum req.writeQuorum
      (store.insert req.key ⟨req.value, deadlineOf (asI64 reading) req.ttlMs⟩,
        .written (
          if 1 < required then .error (notMet "Write" required) else .ok true))
  | .delete req _ =>
      let required := quorum.effectiveWriteQuorum req.writeQuorum
      (store.erase req.key, .written (.ok (decide (required ≤ 1))))
  | .scan req reading =>
      (store, .scanned (
        if req.endKey < req.startKey then none
        else some (store.scan req.startKey req.endKey (pageSize req.limit)
          (asI64 reading))))
  | .replicate req _ =>
      match req.value with
      | none => (store, .written (.error (.invalidArgument "missing value")))
      | some value =>
          (if req.isDelete then store.erase req.key
            else store.write req.key (fromProtoVersioned value),
            .written (.ok true))
  | .deleteInternal req _ => (store.erase req.key, .written (.ok true))
  | .hintedHandoff req _ =>
      (req.hints.foldl hintedWrite store,
        .accepted (req.hints.countP (·.value.isSome)))
  | .transferKeys req _ =>
      (req.pairs.foldl transferredWrite store, .accepted req.pairs.length)
  | .flush _ | .evict _ | .restart => (store, .done)

def storeServeAll (quorum : QuorumConfig) : Store → List NodeCall → List Answer
  | _, [] => []
  | store, call :: calls =>
      let (store, answer) := storeServe quorum store call
      answer :: storeServeAll quorum store calls

/-! ## The only replica -/

/-- Every key's preference list is this node alone. -/
def Alone (hash : String → UInt64) (ring : HashRing) (own : String) : Prop :=
  ∀ key, (ring.getNodes hash key).map Node.id = [own]

theorem eq_singleton_of_nodup {ids : List String} {own : String}
    (hnodup : ids.Nodup) (hmem : own ∈ ids) (hown : ∀ id ∈ ids, id = own) :
    ids = [own] := by
  rw [List.eq_replicate_of_mem hown] at hnodup hmem ⊢
  have hle := List.nodup_replicate.mp hnodup
  have hpos := List.mem_replicate.mp hmem
  rw [show ids.length = 1 by omega]
  rfl

/-- A ring is so before any other node is added. -/
theorem alone_addNode (hash : String → UInt64) (own address : String)
    {vnodes : Nat} (hvnodes : 1 ≤ vnodes) (replicationFactor : Nat) :
    Alone hash ((HashRing.new vnodes replicationFactor).addNode hash
      ⟨own, address⟩) own := by
  intro key
  generalize hring : (HashRing.new vnodes replicationFactor).addNode hash
    ⟨own, address⟩ = ring
  have hown : ring.Holds own := by
    refine ⟨hash (Ring.vnodeKey own 0), ⟨own, address⟩, ?_, rfl⟩
    rw [← hring, HashRing.getElem?_addNode, if_pos ⟨0, hvnodes, rfl⟩]
  have honly : ∀ id, ring.Holds id → id = own := by
    intro id hid
    rw [← hring] at hid
    rcases HashRing.holds_of_holds_addNode hid with heq | ⟨_, _, hempty, _⟩
    · exact heq
    · simp [HashRing.new] at hempty
  have hwalk : ∀ id, id ∈ (firstsBy Node.id (ring.walk hash key) []).map
      Node.id ↔ ring.Holds id := fun id => by
    rw [mem_map_firstsBy, HashRing.mem_map_walk]
  rw [HashRing.getNodes_eq, List.map_take]
  have hfirsts := eq_singleton_of_nodup
    (nodup_map_firstsBy (ring.walk hash key) []) ((hwalk own).mpr hown)
    fun id hid => honly id ((hwalk id).mp hid)
  rw [hfirsts]
  exact List.take_of_length_le (le_max_left 1 _)

namespace ReplicationCoordinator

variable {hash : String → UInt64} {c : Codecs} {co : ReplicationCoordinator}

theorem responsible_of_alone (halone : Alone hash co.ring co.engine.nodeId)
    (key : String) : co.responsible hash key = true := by
  rw [responsible, HashRing.isResponsible_iff, halone key]
  exact List.mem_singleton_self _

theorem peers_of_alone (halone : Alone hash co.ring co.engine.nodeId)
    (key : String) : co.peers hash key = [] := by
  rw [peers, List.filter_eq_nil_iff]
  intro node hnode
  have hid : node.id ∈ (co.ring.getNodes hash key).map Node.id :=
    List.mem_map_of_mem hnode
  rw [halone key, List.mem_singleton] at hid
  simp [hid]

theorem resolveConflicts_single (now : Int64) (entry : Option VersionedValue) :
    (resolveConflicts now [entry]).map (·.value) = Storage.shown now entry := by
  cases entry with
  | none => rfl
  | some v =>
      cases hdeleted : v.deleted with
      | true => simp [resolveConflicts, resolveLoop, Storage.shown, hdeleted]
      | false =>
          cases hexpired : v.isExpired now with
          | true =>
              simp [resolveConflicts, resolveLoop, Storage.shown, hdeleted,
                hexpired]
          | false =>
              simp [resolveConflicts, resolveLoop, pickBest, Storage.shown,
                hdeleted, hexpired]

theorem kvGet_of_alone (halone : Alone hash co.ring co.engine.nodeId)
    (req : Proto.GetRequest) (now : Int64)
    (rpc : Node → Proto.GetInternalRequest →
      RpcResult Proto.GetInternalResponse) :
    (kvGet hash co req now rpc).map (fun resp => (resp.found, resp.value)) =
      if 1 < co.quorum.effectiveReadQuorum req.readQuorum then
        .error (notMet "Read" (co.quorum.effectiveReadQuorum req.readQuorum))
      else
        match Storage.shown now (co.engine.getRaw req.key) with
        | some value => .ok (true, value)
        | none => .ok (false, []) := by
  have hvalue := resolveConflicts_single now (co.engine.getRaw req.key)
  unfold kvGet
  rw [get_eq]
  simp only [responses, responsible_of_alone halone, peers_of_alone halone,
    if_true, List.map_nil, List.append_nil, List.length_nil, Nat.add_zero,
    QuorumResult.isSuccess, Bool.not_eq_true', decide_eq_false_iff_not, not_le]
  split
  · rfl
  · rw [← hvalue]
    cases resolveConflicts now [co.engine.getRaw req.key] with
    | none => rfl
    | some v => rfl

theorem put_of_alone (halone : Alone hash co.ring co.engine.nodeId)
    (req : Proto.PutRequest) (now : Int64)
    (rpc : Node → Proto.ReplicateRequest → RpcResult Proto.ReplicateResponse) :
    (co.put hash c req.key req.value req.ttlMs req.writeQuorum now none rpc).1 =
        co.engine.put c req.key
          (co.engine.newVersion req.key req.value req.ttlMs now) ∧
      (kvPut hash c co co.ring req now none rpc).map (·.success) =
        if 1 < co.quorum.effectiveWriteQuorum req.writeQuorum then
          .error (notMet "Write"
            (co.quorum.effectiveWriteQuorum req.writeQuorum))
        else .ok true := by
  have hresponsible := responsible_of_alone halone req.key
  constructor
  · simp only [put, hresponsible, if_true]
  · rw [kvPut, ← put_eq_putAcross]
    simp only [put, hresponsible, if_true, peers_of_alone halone, List.map_nil,
      tally, QuorumResult.isSuccess, Bool.not_eq_true',
      decide_eq_false_iff_not, not_le]
    split
    · rfl
    · rfl

theorem delete_of_alone (halone : Alone hash co.ring co.engine.nodeId)
    (req : Proto.DeleteRequest) (now : Int64)
    (rpc : Node → Proto.DeleteInternalRequest →
      RpcResult Proto.DeleteInternalResponse) :
    (co.delete hash c req.key req.writeQuorum now none rpc).1 =
        co.engine.delete c req.key now ∧
      (kvDelete hash c co co.ring req now none rpc).success =
        decide (co.quorum.effectiveWriteQuorum req.writeQuorum ≤ 1) := by
  have hresponsible := responsible_of_alone halone req.key
  constructor
  · simp only [delete, hresponsible, if_true]
  · rw [kvDelete, ← delete_eq_deleteAcross]
    simp only [delete, hresponsible, if_true, peers_of_alone halone,
      List.map_nil, tally, QuorumResult.isSuccess]

end ReplicationCoordinator

/-! ## Requests on the store -/

open Rkv.Storage (Implements Later)

section

variable {c : Codecs} {config : StorageConfig} {digits clock : Nat}
  {engine : StorageEngine} {store : Store}

theorem kvScan_values (engine : StorageEngine) (req : Proto.ScanRequest)
    (now : Int64) :
    (kvScan engine req now).map (fun resp =>
        resp.pairs.map fun kv => (kv.key, kv.value)) =
      (engine.scan req.startKey req.endKey (pageSize req.limit) now).map
        valueBytes := by
  rw [kvScan, Option.map_map]
  congr 1
  funext results
  exact List.map_map

theorem implements_delete (hc : c.Lawful) (hkeep : 1 ≤ config.maxSnapshots)
    (h : Implements c config digits ⟨engine, .idle, clock⟩ store) (key : String)
    (now : Int64) :
    Implements c config digits ⟨engine.delete c key now, .idle, clock⟩
      (store.erase key) :=
  h.put hc hkeep key (engine.tombstoneFor key now)

theorem implements_acceptHints (hc : c.Lawful) (hkeep : 1 ≤ config.maxSnapshots)
    (now : Int64) (hints : List Proto.HintedWrite) (accepted : Nat)
    (h : Implements c config digits ⟨engine, .idle, clock⟩ store) :
    let result := InternalService.acceptHints c now engine accepted hints
    Implements c config digits ⟨result.1, .idle, clock⟩
        (hints.foldl hintedWrite store) ∧
      result.2 = accepted + hints.countP (·.value.isSome) := by
  induction hints generalizing engine store accepted with
  | nil => exact ⟨h, rfl⟩
  | cons hint hints ih =>
      rw [InternalService.acceptHints, List.foldl_cons, List.countP_cons,
        hintedWrite]
      cases hvalue : hint.value with
      | none =>
          obtain ⟨himplements, hcount⟩ := ih accepted h
          exact ⟨himplements, by simpa using hcount⟩
      | some value =>
          dsimp only
          cases hdelete : hint.isDelete with
          | true =>
              obtain ⟨himplements, hcount⟩ :=
                ih (accepted + 1) (implements_delete hc hkeep h hint.key now)
              refine ⟨himplements, hcount.trans ?_⟩
              simp only [Option.isSome_some, if_true]
              omega
          | false =>
              obtain ⟨himplements, hcount⟩ := ih (accepted + 1)
                (h.put hc hkeep hint.key (fromProtoVersioned value))
              refine ⟨himplements, hcount.trans ?_⟩
              simp only [Option.isSome_some, if_true]
              omega

theorem implements_acceptPairs (hc : c.Lawful) (hkeep : 1 ≤ config.maxSnapshots)
    (now : Int64) (pairs : List Proto.KeyValue) (accepted : Nat)
    (h : Implements c config digits ⟨engine, .idle, clock⟩ store) :
    Implements c config digits
      ⟨(InternalService.acceptPairs c now engine accepted pairs).1, .idle, clock⟩
      (pairs.foldl transferredWrite store) := by
  induction pairs generalizing engine store accepted with
  | nil => exact h
  | cons kv pairs ih =>
      rw [InternalService.acceptPairs, List.foldl_cons]
      exact ih (accepted + 1)
        (h.put hc hkeep kv.key (InternalService.transferred now kv))

end

/-! ## The simulation -/

/-- The readings of the calls do not go back and have `digits` decimal digits. -/
def Forward (digits : Nat) : Nat → List NodeCall → Prop
  | _, [] => True
  | clock, call :: calls =>
      (∀ reading ∈ call.reading,
        Later clock reading ∧ reading.repr.length = digits) ∧
      Forward digits (call.reading.getD clock) calls

structure Stands (hash : String → UInt64) (c : Codecs) (config : StorageConfig)
    (quorum : QuorumConfig) (digits clock : Nat) (co : ReplicationCoordinator)
    (store : Store) : Prop where
  alone : Alone hash co.ring config.nodeId
  quorum_eq : co.quorum = quorum
  implements : Implements c config digits ⟨co.engine, .idle, clock⟩ store

namespace Stands

variable {hash : String → UInt64} {c : Codecs} {config : StorageConfig}
  {quorum : QuorumConfig} {digits clock : Nat} {co : ReplicationCoordinator}
  {store : Store}

theorem alone_engine (h : Stands hash c config quorum digits clock co store) :
    Alone hash co.ring co.engine.nodeId := by
  have hconfig : co.engine.config = config := h.implements.recoverable.config_eq
  rw [StorageEngine.nodeId, hconfig]
  exact h.alone

theorem tick (h : Stands hash c config quorum digits clock co store) {reading : Nat}
    (hreading : Later clock reading ∧ reading.repr.length = digits) :
    Stands hash c config quorum digits reading co store :=
  ⟨h.alone, h.quorum_eq, h.implements.tick hreading.1 hreading.2⟩

theorem withEngine (h : Stands hash c config quorum digits clock co store)
    {engine : StorageEngine} {after : Store} {reading : Nat}
    (hengine : Implements c config digits ⟨engine, .idle, reading⟩ after) :
    Stands hash c config quorum digits reading (co.withEngine engine) after :=
  ⟨h.alone, h.quorum_eq, hengine⟩

theorem shown_eq (h : Stands hash c config quorum digits clock co store) (key : String) :
    Storage.shown (asI64 clock) (co.engine.getRaw key) =
      store.get key (asI64 clock) :=
  h.implements.shows clock (.refl _) key

theorem serve (hc : c.Lawful) (hkeep : 1 ≤ config.maxSnapshots) (net : Network)
    (h : Stands hash c config quorum digits clock co store) {call : NodeCall}
    (hcall : ∀ reading ∈ call.reading,
      Later clock reading ∧ reading.repr.length = digits) :
    ∃ after, co.serve hash c net call =
        some (after, (storeServe quorum store call).2) ∧
      Stands hash c config quorum digits (call.reading.getD clock) after
        (storeServe quorum store call).1 := by
  obtain rfl := h.quorum_eq
  cases call with
  | get req reading =>
      have hticked := h.tick (hcall reading rfl)
      refine ⟨co, ?_, hticked⟩
      simp only [ReplicationCoordinator.serve, storeServe,
        ReplicationCoordinator.kvGet_of_alone h.alone_engine, hticked.shown_eq]
  | put req reading =>
      have hticked := h.tick (hcall reading rfl)
      obtain ⟨hengine, hanswer⟩ := ReplicationCoordinator.put_of_alone (c := c)
        h.alone_engine req (asI64 reading) net.replicate
      refine ⟨co.withEngine _, ?_, h.withEngine
        (hticked.implements.put hc hkeep req.key
          (co.engine.newVersion req.key req.value req.ttlMs (asI64 reading)))⟩
      simp only [ReplicationCoordinator.serve, storeServe, hengine, hanswer]
  | delete req reading =>
      have hticked := h.tick (hcall reading rfl)
      obtain ⟨hengine, hanswer⟩ :=
        ReplicationCoordinator.delete_of_alone (c := c) h.alone_engine req
          (asI64 reading) net.deleteInternal
      refine ⟨co.withEngine _, ?_, h.withEngine
        (implements_delete hc hkeep hticked.implements req.key (asI64 reading))⟩
      simp only [ReplicationCoordinator.serve, storeServe, hengine, hanswer]
  | scan req reading =>
      have hticked := h.tick (hcall reading rfl)
      refine ⟨co, ?_, hticked⟩
      simp only [ReplicationCoordinator.serve, storeServe, kvScan_values]
      rcases le_or_gt req.startKey req.endKey with hle | hpast
      · have hserves := hticked.implements.serves (by simp) (.refl _)
        rw [hserves.scan_eq _ _ _ hle, if_neg (not_lt.mpr hle)]
      · rw [if_pos hpast, StorageEngine.scan, Storage.MemTable.scan,
          Storage.range, if_pos hpast]
        rfl
  | replicate req reading =>
      have hticked := h.tick (hcall reading rfl)
      simp only [ReplicationCoordinator.serve, storeServe,
        InternalService.replicate]
      cases hvalue : req.value with
      | none => exact ⟨co, rfl, hticked⟩
      | some value =>
          cases hdelete : req.isDelete with
          | true =>
              exact ⟨co.withEngine _, rfl, h.withEngine (implements_delete
                hc hkeep hticked.implements req.key (asI64 reading))⟩
          | false =>
              exact ⟨co.withEngine _, rfl, h.withEngine
                (hticked.implements.put hc hkeep req.key
                  (fromProtoVersioned value))⟩
  | deleteInternal req reading =>
      have hticked := h.tick (hcall reading rfl)
      exact ⟨_, rfl, h.withEngine
        (implements_delete hc hkeep hticked.implements req.key (asI64 reading))⟩
  | hintedHandoff req reading =>
      have hticked := h.tick (hcall reading rfl)
      obtain ⟨himplements, hcount⟩ := implements_acceptHints hc hkeep
        (asI64 reading) req.hints 0 hticked.implements
      refine ⟨co.withEngine _, ?_, h.withEngine himplements⟩
      simp only [ReplicationCoordinator.serve, storeServe,
        InternalService.hintedHandoff, hcount, Nat.zero_add]
  | transferKeys req reading =>
      have hticked := h.tick (hcall reading rfl)
      refine ⟨co.withEngine _, ?_, h.withEngine (implements_acceptPairs hc
        hkeep (asI64 reading) req.pairs 0 hticked.implements)⟩
      simp only [ReplicationCoordinator.serve, storeServe,
        InternalService.transferKeys, acceptPairs_accepted, Nat.zero_add]
  | flush reading =>
      obtain ⟨hlater, hdigits⟩ := hcall reading rfl
      exact ⟨_, rfl,
        h.withEngine (h.implements.flush hc hkeep hlater hdigits)⟩
  | evict reading =>
      exact ⟨co.withEngine _, rfl, h.withEngine (h.implements.step hc hkeep
        (show Storage.ClockForward digits _ (.evict reading) from
          hcall reading rfl) rfl)⟩
  | restart =>
      obtain ⟨opened, hopen, himplements⟩ := h.implements.reopen hc hkeep
      have hconfig : co.engine.config = config :=
        h.implements.recoverable.config_eq
      refine ⟨co.withEngine opened, ?_, h.withEngine himplements⟩
      simp only [ReplicationCoordinator.serve, storeServe, hconfig, hopen]

/-- A run of calls on the node is answered as one on the store. -/
theorem serveAll (hc : c.Lawful) (hkeep : 1 ≤ config.maxSnapshots)
    (net : Network) {calls : List NodeCall}
    (h : Stands hash c config quorum digits clock co store)
    (hforward : Forward digits clock calls) :
    co.serveAll hash c net calls =
      some (storeServeAll quorum store calls) := by
  induction calls generalizing co store clock with
  | nil => rfl
  | cons call calls ih =>
      obtain ⟨after, hserve, hstands⟩ := h.serve hc hkeep net hforward.1
      simp only [ReplicationCoordinator.serveAll, hserve,
        ih hstands hforward.2]
      rfl

end Stands

/-- Every run of client and peer calls, flushes, evictions and restarts on a node
that is alone on its ring is answered as the store answers it, the errors of
quorums that one node cannot meet included. -/
theorem single_node_is_store {c : Codecs} (hc : c.Lawful)
    {config : StorageConfig} (hkeep : 1 ≤ config.maxSnapshots)
    (hash : String → UInt64) (ring : HashRing)
    (halone : Alone hash ring config.nodeId) (quorum : QuorumConfig)
    (net : Network) (clock : Nat) (calls : List NodeCall)
    (hforward : Forward clock.repr.length clock calls) :
    ReplicationCoordinator.serveAll hash c net
        ⟨.fresh c config, ring, quorum⟩ calls =
      some (storeServeAll quorum ∅ calls) :=
  Stands.serveAll hc hkeep net
    ⟨halone, rfl, Storage.Implements.init c config clock⟩ hforward

def silentNetwork : Network where
  replicate := fun _ _ => .timeout
  getInternal := fun _ _ => .timeout
  deleteInternal := fun _ _ => .timeout

/-- A put is refused by the default quorum and done all the same: a restart later
a read that asks for one replica finds it. -/
theorem single_node_is_store_default_quorum :
    ReplicationCoordinator.serveAll Ring.sha256Labels Storage.referenceCodecs
        silentNetwork
        ⟨.fresh Storage.referenceCodecs ⟨1048576, 3, "node1"⟩,
          (HashRing.new 1 3).addNode Ring.sha256Labels
            ⟨"node1", "10.0.0.1:50051"⟩, .defaultStrong⟩
        [.put ⟨"k", [1], 0, 0⟩ 1700000000001, .restart,
          .get ⟨"k", 1⟩ 1700000000002, .get ⟨"k", 0⟩ 1700000000003] =
      some [.written (.error (.unavailable
          "Write quorum not met: got 1/2 successes")), .done,
        .got (.ok (true, [1])), .got (.error (.unavailable
          "Read quorum not met: got 1/2 successes"))] := by
  rw [single_node_is_store Storage.lawful_referenceCodecs (by decide)
    Ring.sha256Labels _
    (alone_addNode Ring.sha256Labels "node1" "10.0.0.1:50051" (by decide) 3)
    .defaultStrong silentNetwork 1700000000000]
  · decide +kernel
  · refine ⟨?_, ?_, ?_, ?_, trivial⟩ <;> rintro reading ⟨⟩
    · exact ⟨⟨by decide, by decide⟩, by decide⟩
    · exact ⟨⟨by decide, by decide⟩, by decide⟩
    · exact ⟨⟨by decide, by decide⟩, by decide⟩

end Rkv.Replication
