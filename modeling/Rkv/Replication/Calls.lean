import Rkv.Foundation.Simulation
import Rkv.Replication.DeleteVisibility

/-!
# Coordinated calls in steps

A coordinated call is not one step.  A put reads the clock its node has stored,
writes its version there, sends it to the other replicas and waits until every
RPC has been answered or given up; other calls begin and end meanwhile, also on
the same key.  An RPC that was given up may have been applied, or may still be,
after the call has returned.
-/

namespace Rkv.Replication

open Rkv.Foundation
open Rkv.Grpc
open Rkv.Ring (Node HashRing)
open Rkv.Storage (Bytes Codecs StorageEngine VectorClock VersionedValue)

/-- The version a put has made, or a delete, for which every replica makes a
tombstone of its own. -/
inductive WriteBody where
  | put (value : Bytes) (ttlMs now : Int64) (version : VersionedValue)
  | delete

/-- A put or delete with the nodes that have applied it, at what reading, and
the ends of its RPCs. -/
structure Write where
  coordinator : String
  key : String
  writeQuorum : Nat
  body : WriteBody
  applied : List (String × Int64)
  results : String → Option Bool

/-- A get with what its own node stored, if that is a replica, and the ends of
its RPCs. -/
structure Read where
  coordinator : String
  key : String
  readQuorum : Nat
  own : Option (Option VersionedValue)
  results : String → Option (RpcResult Proto.GetInternalResponse)

/-- A delete returns no clock. -/
inductive CallState where
  | idle
  | begun (w : Write)
  | written (w : Write)
  | waiting (w : Write)
  | wrote (w : Write) (result : QuorumResult (Option VectorClock))
  | reading (r : Read)
  | read (r : Read) (now : Int64) (result : QuorumResult VersionedValue)

inductive PeerRequest where
  | replicate (req : Proto.ReplicateRequest)
  | deleteInternal (req : Proto.DeleteInternalRequest)

structure Sent (T : Type) where
  call : T
  target : String
  request : PeerRequest

/-- `order` lists the calls as they took effect: a write when it came past its
own node, a get when it returned. -/
structure Traffic (T : Type) where
  cluster : Cluster
  calls : T → CallState
  inFlight : List (Sent T)
  order : List T

inductive CallAction (T : Type) where
  | beginPut (call : T) (coordinator key : String) (value : Bytes)
      (ttlMs : Int64) (writeQuorum : Nat) (now : Int64)
  | beginDelete (call : T) (coordinator key : String) (writeQuorum : Nat)
  | own (call : T) (now : Int64)
  | send (call : T)
  | arrive (index : Nat) (now : Int64)
  | lose (index : Nat)
  | ack (call : T) (id : String)
  | giveUp (call : T) (id : String)
  | finish (call : T)
  | beginGet (call : T) (coordinator key : String) (readQuorum : Nat)
  | reply (call : T) (id : String) (reply : Reply)
  | finishGet (call : T) (now : Int64)

/-! ## The parts of a call -/

def WriteBody.clock : WriteBody → Option VectorClock
  | put _ _ _ version => some version.vectorClock
  | delete => none

/-- What the write does to the engine of its own node. -/
def WriteBody.apply (c : Codecs) (key : String) (now : Int64)
    (engine : StorageEngine) : WriteBody → StorageEngine
  | put _ _ _ version => engine.put c key version
  | delete => engine.delete c key now

def WriteBody.entry (key : String) (now : Int64) (engine : StorageEngine) :
    WriteBody → VersionedValue
  | put _ _ _ version => version
  | delete => engine.tombstoneFor key now

theorem WriteBody.apply_eq (c : Codecs) (key : String) (now : Int64)
    (engine : StorageEngine) (body : WriteBody) :
    body.apply c key now engine = engine.put c key (body.entry key now engine) := by
  cases body with
  | put value ttlMs now version => rfl
  | delete => rfl

/-- A put's version has what the put was given, and a clock. -/
def WriteBody.Formed : WriteBody → Prop
  | put value ttlMs now version =>
      version = ⟨value, version.vectorClock, now, ttlMs, false⟩
  | delete => True

/-- The entry is the version of the put, or a tombstone. -/
def WriteBody.Leaves (v : VersionedValue) : WriteBody → Prop
  | put _ _ _ version => v = version
  | delete => v.deleted = true ∧ v.value = []

theorem WriteBody.leaves_entry (key : String) (now : Int64)
    (engine : StorageEngine) (body : WriteBody) :
    body.Leaves (body.entry key now engine) := by
  cases body with
  | put value ttlMs now version => rfl
  | delete => exact ⟨rfl, rfl⟩

namespace PeerRequest

def handle (c : Codecs) (now : Int64) (request : PeerRequest)
    (engine : StorageEngine) : StorageEngine :=
  match request with
  | replicate req => InternalService.handle c engine now (.replicate req)
  | deleteInternal req => (InternalService.deleteInternal c engine req now).1

end PeerRequest

namespace Write

/-- The peers of a delete are sent the clock the coordinator stores by then. -/
def request (w : Write) (engine : StorageEngine) : PeerRequest :=
  match w.body with
  | .put _ _ _ version =>
      .replicate (ReplicationCoordinator.replicateRequest w.key version)
  | .delete =>
      .deleteInternal (ReplicationCoordinator.deleteRequest w.key engine)

section

variable (hash : String → UInt64) (ring : HashRing)

def peers (w : Write) : List Node :=
  (ring.getNodes hash w.key).filter fun n => n.id ≠ w.coordinator

def result (quorum : QuorumConfig) (w : Write) :
    QuorumResult (Option VectorClock) :=
  let successes := if ring.isResponsible hash w.coordinator w.key then 1 else 0
  let (successes, failures) := tally successes 0
    ((w.peers hash ring).map fun node => (w.results node.id).getD false)
  ⟨some w.body.clock, successes, failures,
    quorum.effectiveWriteQuorum w.writeQuorum⟩

end

/-- One more node has applied the write. -/
@[simps] def applyAt (w : Write) (id : String) (now : Int64) : Write :=
  { w with applied := w.applied ++ [(id, now)] }

/-- One more RPC has ended. -/
@[simps] def endAt (w : Write) (id : String) (success : Bool) : Write :=
  { w with results := Function.update w.results id (some success) }

end Write

namespace Read

section

variable (hash : String → UInt64) (ring : HashRing)

def peers (r : Read) : List Node :=
  (ring.getNodes hash r.key).filter fun n => n.id ≠ r.coordinator

def result (quorum : QuorumConfig) (r : Read) (now : Int64) :
    QuorumResult VersionedValue :=
  let (successes, responses) := gather r.own.toList.length r.own.toList
    ((r.peers hash ring).map fun node =>
      (r.results node.id).elim none readResult)
  ⟨resolveConflicts now responses, successes, 0,
    quorum.effectiveReadQuorum r.readQuorum⟩

end

@[simps] def endAt (r : Read) (id : String)
    (outcome : RpcResult Proto.GetInternalResponse) : Read :=
  { r with results := Function.update r.results id (some outcome) }

end Read

/-- A node's engine after a write to it. -/
def Cluster.update (cluster : Cluster) (id : String)
    (f : StorageEngine → StorageEngine)
    (hf : ∀ engine, (f engine).nodeId = engine.nodeId) : Cluster where
  engines := fun other =>
    if other = id then f (cluster.engines other) else cluster.engines other
  nodeId_eq := fun other => by
    split
    · rw [hf, cluster.nodeId_eq]
    · exact cluster.nodeId_eq other

theorem WriteBody.nodeId_apply (c : Codecs) (key : String) (now : Int64)
    (body : WriteBody) (engine : StorageEngine) :
    (body.apply c key now engine).nodeId = engine.nodeId := by
  rw [body.apply_eq]
  rfl

theorem PeerRequest.nodeId_handle (c : Codecs) (now : Int64)
    (request : PeerRequest) (engine : StorageEngine) :
    (request.handle c now engine).nodeId = engine.nodeId := by
  cases request with
  | replicate req =>
      simp only [handle, InternalService.handle, InternalService.replicate]
      cases req.value with
      | none => rfl
      | some value =>
          simp only [Option.map_some]
          split
          · rename_i hsplit
            split at hsplit
            · cases hsplit
              rfl
            · cases hsplit
              rfl
          · rfl
  | deleteInternal req => rfl

/-! ## Steps -/

/-- A request has been handled at a node. -/
def CallState.apply (id : String) (now : Int64) : CallState → CallState
  | waiting w => waiting (w.applyAt id now)
  | wrote w result => wrote (w.applyAt id now) result
  | state => state

namespace Traffic

variable {T : Type} [DecidableEq T]

def start (T : Type) (cluster : Cluster) : Traffic T :=
  ⟨cluster, fun _ => .idle, [], []⟩

def setCall (s : Traffic T) (call : T) (state : CallState) : Traffic T :=
  { s with calls := Function.update s.calls call state }

@[simp] theorem calls_setCall_self (s : Traffic T) (call : T)
    (state : CallState) : (s.setCall call state).calls call = state :=
  Function.update_self ..

theorem calls_setCall_of_ne (s : Traffic T) {call other : T}
    (h : other ≠ call) (state : CallState) :
    (s.setCall call state).calls other = s.calls other :=
  Function.update_of_ne h ..

def newPut (s : Traffic T) (coordinator key : String) (value : Bytes)
    (ttlMs : Int64) (writeQuorum : Nat) (now : Int64) : Write where
  coordinator := coordinator
  key := key
  writeQuorum := writeQuorum
  body := .put value ttlMs now
    ((s.cluster.engines coordinator).newVersion key value ttlMs now)
  applied := []
  results := fun _ => none

def newDelete (coordinator key : String) (writeQuorum : Nat) : Write :=
  ⟨coordinator, key, writeQuorum, .delete, [], fun _ => none⟩

section

variable (hash : String → UInt64) (c : Codecs) (ring : HashRing)
  (quorum : QuorumConfig)

def newRead (s : Traffic T) (coordinator key : String) (readQuorum : Nat) :
    Read where
  coordinator := coordinator
  key := key
  readQuorum := readQuorum
  own := if ring.isResponsible hash coordinator key then
    some ((s.cluster.engines coordinator).getRaw key) else none
  results := fun _ => none

def writeOwn (s : Traffic T) (call : T) (w : Write) (now : Int64) :
    Traffic T :=
  if ring.isResponsible hash w.coordinator w.key then
    { s.setCall call (.written (w.applyAt w.coordinator now)) with
      cluster := s.cluster.update w.coordinator
        (fun engine => w.body.apply c w.key now engine)
        (w.body.nodeId_apply c w.key now)
      order := s.order ++ [call] }
  else { s.setCall call (.written w) with order := s.order ++ [call] }

def sendOut (s : Traffic T) (call : T) (w : Write) : Traffic T :=
  let request := w.request (s.cluster.engines w.coordinator)
  { s.setCall call (.waiting w) with
    inFlight := s.inFlight ++ (w.peers hash ring).map fun node =>
      ⟨call, node.id, request⟩ }

def deliver (s : Traffic T) (index : Nat) (sent : Sent T) (now : Int64) :
    Traffic T :=
  { s.setCall sent.call ((s.calls sent.call).apply sent.target now) with
    cluster := s.cluster.update sent.target (sent.request.handle c now)
      (sent.request.nodeId_handle c now)
    inFlight := s.inFlight.eraseIdx index }

def finishRead (s : Traffic T) (call : T) (r : Read) (now : Int64) :
    Traffic T :=
  { s.setCall call (.read r now (r.result hash ring quorum now)) with
    order := s.order ++ [call] }

/-- A peer reads its table when the request of a get arrives, and what becomes
of the answer is known then; of a write's answer it is not. -/
def next (s : Traffic T) : CallAction T → Option (Traffic T)
  | .beginPut call coordinator key value ttlMs writeQuorum now =>
      match s.calls call with
      | .idle => some (s.setCall call
          (.begun (s.newPut coordinator key value ttlMs writeQuorum now)))
      | _ => none
  | .beginDelete call coordinator key writeQuorum =>
      match s.calls call with
      | .idle =>
          some (s.setCall call (.begun (newDelete coordinator key writeQuorum)))
      | _ => none
  | .own call now =>
      match s.calls call with
      | .begun w => some (s.writeOwn hash c ring call w now)
      | _ => none
  | .send call =>
      match s.calls call with
      | .written w => some (s.sendOut hash ring call w)
      | _ => none
  | .arrive index now =>
      match s.inFlight[index]? with
      | some sent => some (s.deliver c index sent now)
      | none => none
  | .lose index =>
      if index < s.inFlight.length then
        some { s with inFlight := s.inFlight.eraseIdx index }
      else none
  | .ack call id =>
      match s.calls call with
      | .waiting w =>
          if id ∈ (w.peers hash ring).map Node.id ∧
              id ∈ w.applied.map Prod.fst ∧ w.results id = none then
            some (s.setCall call (.waiting (w.endAt id true)))
          else none
      | _ => none
  | .giveUp call id =>
      match s.calls call with
      | .waiting w =>
          if id ∈ (w.peers hash ring).map Node.id ∧ w.results id = none then
            some (s.setCall call (.waiting (w.endAt id false)))
          else none
      | _ => none
  | .finish call =>
      match s.calls call with
      | .waiting w =>
          if ∀ node ∈ w.peers hash ring, (w.results node.id).isSome then
            some (s.setCall call (.wrote w (w.result hash ring quorum)))
          else none
      | _ => none
  | .beginGet call coordinator key readQuorum =>
      match s.calls call with
      | .idle => some (s.setCall call
          (.reading (s.newRead hash ring coordinator key readQuorum)))
      | _ => none
  | .reply call id reply =>
      match s.calls call with
      | .reading r =>
          if id ∈ (r.peers hash ring).map Node.id ∧
              (r.results id).isNone then
            let response := InternalService.getInternal (s.cluster.engines id)
              ⟨r.key⟩
            some (s.setCall call
              (.reading (r.endAt id (reply.outcome response))))
          else none
      | _ => none
  | .finishGet call now =>
      match s.calls call with
      | .reading r =>
          if ∀ node ∈ r.peers hash ring, (r.results node.id).isSome then
            some (s.finishRead hash ring quorum call r now)
          else none
      | _ => none

/-- What an action does, and in which state of its call it is taken. -/
inductive Step (s : Traffic T) : CallAction T → Traffic T → Prop
  | beginPut {call : T} {coordinator key : String} {value : Bytes}
      {ttlMs : Int64} {writeQuorum : Nat} {now : Int64}
      (hidle : s.calls call = .idle) :
      Step s (.beginPut call coordinator key value ttlMs writeQuorum now)
        (s.setCall call
          (.begun (s.newPut coordinator key value ttlMs writeQuorum now)))
  | beginDelete {call : T} {coordinator key : String} {writeQuorum : Nat}
      (hidle : s.calls call = .idle) :
      Step s (.beginDelete call coordinator key writeQuorum)
        (s.setCall call (.begun (newDelete coordinator key writeQuorum)))
  | own {call : T} {now : Int64} {w : Write}
      (hbegun : s.calls call = .begun w) :
      Step s (.own call now) (s.writeOwn hash c ring call w now)
  | send {call : T} {w : Write} (hwritten : s.calls call = .written w) :
      Step s (.send call) (s.sendOut hash ring call w)
  | arrive {index : Nat} {now : Int64} {sent : Sent T}
      (hsent : s.inFlight[index]? = some sent) :
      Step s (.arrive index now) (s.deliver c index sent now)
  | lose {index : Nat} (hindex : index < s.inFlight.length) :
      Step s (.lose index) { s with inFlight := s.inFlight.eraseIdx index }
  | ack {call : T} {id : String} {w : Write}
      (hwaiting : s.calls call = .waiting w)
      (hpeer : id ∈ (w.peers hash ring).map Node.id)
      (happlied : id ∈ w.applied.map Prod.fst) (hopen : w.results id = none) :
      Step s (.ack call id) (s.setCall call (.waiting (w.endAt id true)))
  | giveUp {call : T} {id : String} {w : Write}
      (hwaiting : s.calls call = .waiting w)
      (hpeer : id ∈ (w.peers hash ring).map Node.id)
      (hopen : w.results id = none) :
      Step s (.giveUp call id) (s.setCall call (.waiting (w.endAt id false)))
  | finish {call : T} {w : Write} (hwaiting : s.calls call = .waiting w)
      (hended : ∀ node ∈ w.peers hash ring, (w.results node.id).isSome) :
      Step s (.finish call)
        (s.setCall call (.wrote w (w.result hash ring quorum)))
  | beginGet {call : T} {coordinator key : String} {readQuorum : Nat}
      (hidle : s.calls call = .idle) :
      Step s (.beginGet call coordinator key readQuorum) (s.setCall call
        (.reading (s.newRead hash ring coordinator key readQuorum)))
  | reply {call : T} {id : String} {reply : Reply} {r : Read}
      (hreading : s.calls call = .reading r)
      (hpeer : id ∈ (r.peers hash ring).map Node.id)
      (hopen : (r.results id).isNone) :
      Step s (.reply call id reply) (s.setCall call (.reading (r.endAt id
        (reply.outcome (InternalService.getInternal (s.cluster.engines id)
          ⟨r.key⟩)))))
  | finishGet {call : T} {now : Int64} {r : Read}
      (hreading : s.calls call = .reading r)
      (hended : ∀ node ∈ r.peers hash ring, (r.results node.id).isSome) :
      Step s (.finishGet call now) (s.finishRead hash ring quorum call r now)

end

variable {hash : String → UInt64} {c : Codecs} {ring : HashRing}
  {quorum : QuorumConfig} {s t : Traffic T}

/-- Past its own node a write is as it was, but for where it was applied; nothing
is sent. -/
theorem writeOwn_frame (s : Traffic T) (call : T) (w : Write) (now : Int64) :
    ∃ w', (s.writeOwn hash c ring call w now).calls =
        Function.update s.calls call (.written w') ∧
      w'.key = w.key ∧ w'.body = w.body ∧
      (s.writeOwn hash c ring call w now).inFlight = s.inFlight ∧
      (s.writeOwn hash c ring call w now).order = s.order ++ [call] := by
  unfold Traffic.writeOwn
  split
  · exact ⟨w.applyAt w.coordinator now, rfl, rfl, rfl, rfl, rfl⟩
  · exact ⟨w, rfl, rfl, rfl, rfl, rfl⟩

theorem step_of_next {action : CallAction T}
    (h : s.next hash c ring quorum action = some t) :
    s.Step hash c ring quorum action t := by
  cases action with
  | beginPut call coordinator key value ttlMs writeQuorum now =>
      simp only [next] at h
      split at h <;> cases h
      exact .beginPut ‹_›
  | beginDelete call coordinator key writeQuorum =>
      simp only [next] at h
      split at h <;> cases h
      exact .beginDelete ‹_›
  | own call now =>
      simp only [next] at h
      split at h <;> cases h
      exact .own ‹_›
  | send call =>
      simp only [next] at h
      split at h <;> cases h
      exact .send ‹_›
  | arrive index now =>
      simp only [next] at h
      split at h <;> cases h
      exact .arrive ‹_›
  | lose index =>
      simp only [next] at h
      split at h <;> cases h
      exact .lose ‹_›
  | ack call id =>
      simp only [next] at h
      split at h
      · rename_i w hwaiting
        split at h <;> cases h
        rename_i henabled
        exact .ack hwaiting henabled.1 henabled.2.1 henabled.2.2
      · contradiction
  | giveUp call id =>
      simp only [next] at h
      split at h
      · rename_i w hwaiting
        split at h <;> cases h
        rename_i henabled
        exact .giveUp hwaiting henabled.1 henabled.2
      · contradiction
  | finish call =>
      simp only [next] at h
      split at h
      · rename_i w hwaiting
        split at h <;> cases h
        exact .finish hwaiting ‹_›
      · contradiction
  | beginGet call coordinator key readQuorum =>
      simp only [next] at h
      split at h <;> cases h
      exact .beginGet ‹_›
  | reply call id reply =>
      simp only [next] at h
      split at h
      · rename_i r hreading
        split at h <;> cases h
        rename_i henabled
        exact .reply hreading henabled.1 henabled.2
      · contradiction
  | finishGet call now =>
      simp only [next] at h
      split at h
      · rename_i r hreading
        split at h <;> cases h
        exact .finishGet hreading ‹_›
      · contradiction

end Traffic

end Rkv.Replication
