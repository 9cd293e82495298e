import Rkv.Replication.Calls
import Rkv.Replication.WriteQuorum

/-!
# What every interleaving of calls keeps

A call's request is applied at most once at each replica, and an RPC counts as a
success only after it was applied, whatever other calls do at the same time.  So
a write that returns with a number of successes is in the logs of that many
replicas.
-/

namespace Rkv.Replication

open Rkv.Foundation
open Rkv.Grpc
open Rkv.Ring (Node HashRing)
open Rkv.Storage (Bytes Codecs StorageEngine VectorClock VersionedValue)

namespace CallState

def write? : CallState → Option Write
  | begun w | written w | waiting w | wrote w _ => some w
  | idle | reading _ | read _ _ _ => none

/-- The write has come past its own node. -/
def started? : CallState → Option Write
  | written w | waiting w | wrote w _ => some w
  | idle | begun _ | reading _ | read _ _ _ => none

/-- The write has sent its requests. -/
def sent? : CallState → Option Write
  | waiting w | wrote w _ => some w
  | idle | begun _ | written _ | reading _ | read _ _ _ => none

def result? : CallState → Option (QuorumResult (Option VectorClock))
  | wrote _ result => some result
  | idle | begun _ | written _ | waiting _ | reading _ | read _ _ _ => none

theorem exists_of_result?_eq_some {state : CallState}
    {result : QuorumResult (Option VectorClock)}
    (h : state.result? = some result) : ∃ w, state = .wrote w result := by
  cases state with
  | wrote w result' =>
      cases h
      exact ⟨w, rfl⟩
  | idle | begun _ | written _ | waiting _ | reading _ | read _ _ _ => cases h

theorem started_of_sent {state : CallState} {w : Write}
    (h : state.sent? = some w) : state.started? = some w := by
  cases state with
  | waiting _ | wrote _ _ => exact h
  | idle | begun _ | written _ | reading _ | read _ _ _ => cases h

theorem sent?_eq_some {state : CallState} {w : Write} :
    state.sent? = some w ↔
      state = .waiting w ∨ ∃ result, state = .wrote w result := by
  cases state <;> simp [sent?]

end CallState

namespace Write

def appliedAt (w : Write) : List String := w.applied.map Prod.fst

/-- The nodes that have applied the write are distinct replicas, its own among
them if it is one, and acknowledgements come from them. -/
structure Sound (hash : String → UInt64) (ring : HashRing) (w : Write) :
    Prop where
  formed : w.body.Formed
  distinct : w.appliedAt.Nodup
  replicas : ∀ id ∈ w.appliedAt, ring.isResponsible hash id w.key = true
  own : ring.isResponsible hash w.coordinator w.key = true →
    w.coordinator ∈ w.appliedAt
  acked : ∀ id, w.results id = some true → id ∈ w.appliedAt

variable {hash : String → UInt64} {ring : HashRing} {w : Write}

theorem nodup_peers (hash : String → UInt64) (ring : HashRing) (w : Write) :
    ((w.peers hash ring).map Node.id).Nodup :=
  (HashRing.nodup_getNodes hash ring w.key).sublist (List.filter_sublist.map _)

theorem mem_peers_iff {id : String} :
    id ∈ (w.peers hash ring).map Node.id ↔
      ring.isResponsible hash id w.key = true ∧ id ≠ w.coordinator := by
  rw [HashRing.isResponsible_iff, peers]
  simp only [List.mem_map, List.mem_filter, decide_eq_true_eq]
  constructor
  · rintro ⟨node, ⟨hnode, hne⟩, rfl⟩
    exact ⟨⟨node, hnode, rfl⟩, hne⟩
  · rintro ⟨⟨node, hnode, rfl⟩, hne⟩
    exact ⟨node, ⟨hnode, hne⟩, rfl⟩

theorem handle_request (c : Codecs) (hformed : w.body.Formed) (now : Int64)
    (sender engine : StorageEngine) :
    (w.request sender).handle c now engine = w.body.apply c w.key now engine := by
  obtain ⟨coordinator, key, writeQuorum, body, applied, results⟩ := w
  cases body with
  | put value ttlMs made version =>
      exact Cluster.handle_replicateRequest engine key
        (congrArg VersionedValue.deleted hformed) now
  | delete => rfl

theorem appliedAt_applyAt (w : Write) (id : String) (now : Int64) :
    (w.applyAt id now).appliedAt = w.appliedAt ++ [id] := by
  simp [appliedAt]

@[simp] theorem appliedAt_endAt (w : Write) (id : String) (success : Bool) :
    (w.endAt id success).appliedAt = w.appliedAt := rfl

theorem Sound.applyAt (h : w.Sound hash ring) {id : String} (now : Int64)
    (hreplica : ring.isResponsible hash id w.key = true)
    (hnew : id ∉ w.appliedAt) : (w.applyAt id now).Sound hash ring where
  formed := h.formed
  distinct := by
    rw [appliedAt_applyAt, List.nodup_append]
    refine ⟨h.distinct, List.nodup_singleton id, fun a ha b hb => ?_⟩
    rw [List.mem_singleton.mp hb]
    rintro rfl
    exact hnew ha
  replicas := by
    intro other hother
    rw [appliedAt_applyAt, List.mem_append, List.mem_singleton] at hother
    rcases hother with hold | rfl
    · exact h.replicas other hold
    · exact hreplica
  own := fun hresponsible => by
    rw [appliedAt_applyAt]
    exact List.mem_append_left _ (h.own hresponsible)
  acked := fun other hacked => by
    rw [appliedAt_applyAt]
    exact List.mem_append_left _ (h.acked other hacked)

/-- An RPC of the write has ended, well only where it was applied. -/
theorem Sound.endAt (h : w.Sound hash ring) {id : String} {success : Bool}
    (happlied : success = true → id ∈ w.appliedAt) :
    (w.endAt id success).Sound hash ring where
  formed := h.formed
  distinct := h.distinct
  replicas := h.replicas
  own := h.own
  acked := by
    intro other hacked
    rw [endAt_results] at hacked
    by_cases heq : other = id
    · subst heq
      rw [Function.update_self, Option.some.injEq] at hacked
      exact happlied hacked
    · rw [Function.update_of_ne heq] at hacked
      exact h.acked other hacked

end Write

/-! ## Bookkeeping of a run -/

def CallState.Sound (hash : String → UInt64) (ring : HashRing)
    (quorum : QuorumConfig) : CallState → Prop
  | idle | reading _ => True
  | read r now result =>
      (∀ node ∈ r.peers hash ring, (r.results node.id).isSome) ∧
        result = r.result hash ring quorum now
  | begun w => w.body.Formed ∧ w.appliedAt = [] ∧ ∀ id, w.results id = none
  | written w => w.Sound hash ring ∧ (∀ id ∈ w.appliedAt, id = w.coordinator)
  | waiting w => w.Sound hash ring
  | wrote w result => w.Sound hash ring ∧
      (∀ node ∈ w.peers hash ring, (w.results node.id).isSome) ∧
      result = w.result hash ring quorum

theorem CallState.Sound.write {hash : String → UInt64} {ring : HashRing}
    {quorum : QuorumConfig} {state : CallState}
    (h : state.Sound hash ring quorum) {w : Write}
    (hw : state.started? = some w) : w.Sound hash ring := by
  cases state with
  | idle | begun _ | reading _ | read _ _ _ => cases hw
  | written _ =>
      cases hw
      exact h.1
  | waiting _ =>
      cases hw
      exact h
  | wrote _ _ =>
      cases hw
      exact h.1

/-- A request in flight belongs to a call that has sent it to this peer, which
has not applied it yet. -/
structure Sent.Pending {T : Type} (hash : String → UInt64) (ring : HashRing)
    (sent : Sent T) (w : Write) : Prop where
  peer : sent.target ∈ (w.peers hash ring).map Node.id
  notApplied : sent.target ∉ w.appliedAt
  request : ∃ engine, sent.request = w.request engine

theorem ne_of_mem_eraseIdx {α β : Type} {f : α → β} {l : List α}
    (hnodup : (l.map f).Nodup) {index : Nat} {a b : α}
    (ha : l[index]? = some a) (hb : b ∈ l.eraseIdx index) : f b ≠ f a := by
  intro heq
  obtain ⟨other, hne, hother⟩ := List.mem_eraseIdx_iff_getElem?.mp hb
  have hlength : other < (l.map f).length := by
    rw [List.length_map]
    exact (List.getElem?_eq_some_iff.mp hother).1
  refine hne ((List.getElem?_inj hlength hnodup).mp ?_)
  rw [List.getElem?_map, List.getElem?_map, ha, hother]
  exact congrArg some heq

namespace Traffic

variable {T : Type} [DecidableEq T] {hash : String → UInt64} {c : Codecs}
  {ring : HashRing} {quorum : QuorumConfig} {s t : Traffic T}

structure Sound (hash : String → UInt64) (ring : HashRing)
    (quorum : QuorumConfig) (s : Traffic T) : Prop where
  calls : ∀ call, (s.calls call).Sound hash ring quorum
  pending : ∀ sent ∈ s.inFlight, ∃ w, (s.calls sent.call).sent? = some w ∧
    sent.Pending hash ring w
  distinct : (s.inFlight.map fun sent => (sent.call, sent.target)).Nodup

namespace Sound

omit [DecidableEq T] in
theorem start (cluster : Cluster) : Sound hash ring quorum (.start T cluster) where
  calls := fun _ => trivial
  pending := by simp [Traffic.start]
  distinct := List.nodup_nil

/-- A call moves on without a request being sent or applied. -/
theorem setCall (h : s.Sound hash ring quorum) (call : T) {state : CallState}
    (hstate : state.Sound hash ring quorum)
    (hsent : ∀ w, (s.calls call).sent? = some w → ∃ w', state.sent? = some w' ∧
      ∀ sent : Sent T, sent.Pending hash ring w → sent.Pending hash ring w') :
    (s.setCall call state).Sound hash ring quorum where
  calls := by
    intro other
    by_cases heq : other = call
    · subst heq
      rw [calls_setCall_self]
      exact hstate
    · rw [s.calls_setCall_of_ne heq]
      exact h.calls other
  pending := by
    intro sent hmem
    obtain ⟨w, hw, hpending⟩ := h.pending sent hmem
    by_cases heq : sent.call = call
    · rw [heq] at hw
      obtain ⟨w', hw', hkeep⟩ := hsent w hw
      refine ⟨w', ?_, hkeep sent hpending⟩
      rw [heq, calls_setCall_self]
      exact hw'
    · refine ⟨w, ?_, hpending⟩
      rw [s.calls_setCall_of_ne heq]
      exact hw
  distinct := h.distinct

omit [DecidableEq T] in
theorem congr (h : s.Sound hash ring quorum) (hcalls : t.calls = s.calls)
    (hflight : t.inFlight = s.inFlight) : t.Sound hash ring quorum where
  calls := hcalls ▸ h.calls
  pending := by
    rw [hcalls, hflight]
    exact h.pending
  distinct := hflight ▸ h.distinct

omit [DecidableEq T] in
theorem lose (h : s.Sound hash ring quorum) (index : Nat) :
    Sound hash ring quorum
      { s with inFlight := s.inFlight.eraseIdx index } where
  calls := h.calls
  pending := fun sent hsent => h.pending sent (List.mem_of_mem_eraseIdx hsent)
  distinct := h.distinct.sublist ((List.eraseIdx_sublist _ _).map _)

theorem writeOwn (h : s.Sound hash ring quorum) {call : T} {w : Write}
    (hbegun : s.calls call = .begun w) (now : Int64) :
    (s.writeOwn hash c ring call w now).Sound hash ring quorum := by
  have hw := h.calls call
  rw [hbegun] at hw
  obtain ⟨hformed, happlied, hresults⟩ := hw
  have hsent : (s.calls call).sent? = none := by
    rw [hbegun]
    rfl
  unfold Traffic.writeOwn
  split
  · rename_i hresponsible
    have hstate : (w.applyAt w.coordinator now).Sound hash ring := by
      have hat : (w.applyAt w.coordinator now).appliedAt = [w.coordinator] := by
        rw [Write.appliedAt_applyAt, happlied, List.nil_append]
      refine ⟨hformed, ?_, ?_, ?_, ?_⟩
      · rw [hat]
        exact List.nodup_singleton _
      · intro id hid
        rw [hat, List.mem_singleton] at hid
        rw [hid]
        exact hresponsible
      · intro _
        rw [hat]
        exact List.mem_singleton_self _
      · intro id hacked
        rw [Write.applyAt_results, hresults] at hacked
        contradiction
    have hcoordinator : ∀ id ∈ (w.applyAt w.coordinator now).appliedAt,
        id = w.coordinator := by
      intro id hid
      rw [Write.appliedAt_applyAt, happlied, List.nil_append,
        List.mem_singleton] at hid
      exact hid
    have hbase := h.setCall call
      (show (CallState.written (w.applyAt w.coordinator now)).Sound hash ring
        quorum from ⟨hstate, hcoordinator⟩) (by simp [hsent])
    exact hbase.congr rfl rfl
  · rename_i hnot
    have hstate : w.Sound hash ring :=
      ⟨hformed, by simp [happlied], by simp [happlied],
        fun hresponsible => absurd hresponsible hnot, by simp [hresults]⟩
    have hbase := h.setCall call
      (show (CallState.written w).Sound hash ring quorum from
        ⟨hstate, by simp [happlied]⟩) (by simp [hsent])
    exact hbase.congr rfl rfl

theorem sendOut (h : s.Sound hash ring quorum) {call : T} {w : Write}
    (hwritten : s.calls call = .written w) :
    (s.sendOut hash ring call w).Sound hash ring quorum := by
  have hw := h.calls call
  rw [hwritten] at hw
  have hsent : (s.calls call).sent? = none := by
    rw [hwritten]
    rfl
  have hbase := h.setCall call
    (show (CallState.waiting w).Sound hash ring quorum from hw.1)
    (by simp [hsent])
  refine ⟨hbase.calls, ?_, ?_⟩
  · intro sent hmem
    rcases List.mem_append.mp hmem with hold | hnew
    · exact hbase.pending sent hold
    · obtain ⟨node, hnode, rfl⟩ := List.mem_map.mp hnew
      have hpeer := List.mem_map_of_mem (f := Node.id) hnode
      refine ⟨w, ?_, hpeer, ?_, _, rfl⟩
      · change ((s.setCall call (.waiting w)).calls call).sent? = some w
        rw [calls_setCall_self]
        rfl
      · intro hat
        exact (Write.mem_peers_iff.mp hpeer).2 (hw.2 _ hat)
  · simp only [Traffic.sendOut, List.map_append, List.map_map]
    rw [List.nodup_append]
    refine ⟨h.distinct, ?_, ?_⟩
    · have hnodup := (Write.nodup_peers hash ring w).map
        (f := fun id => (call, id)) (fun a b hab => (Prod.mk.inj hab).2)
      rwa [List.map_map] at hnodup
    · rintro pair hold other hnew rfl
      obtain ⟨sent, hmem, rfl⟩ := List.mem_map.mp hold
      obtain ⟨node, -, hpair⟩ := List.mem_map.mp hnew
      obtain ⟨w', hw', -⟩ := h.pending sent hmem
      have hcall : call = sent.call := (Prod.mk.inj hpair).1
      rw [← hcall, hsent] at hw'
      contradiction

theorem deliver (h : s.Sound hash ring quorum) {index : Nat} {sent : Sent T}
    (hsent : s.inFlight[index]? = some sent) (now : Int64) :
    (s.deliver c index sent now).Sound hash ring quorum := by
  obtain ⟨w, hw, hpending⟩ := h.pending sent (List.mem_of_getElem? hsent)
  have hstate : ((s.calls sent.call).apply sent.target now).Sound hash ring
        quorum ∧
      ((s.calls sent.call).apply sent.target now).sent? =
        some (w.applyAt sent.target now) := by
    have hreplica := (Write.mem_peers_iff.mp hpending.peer).1
    have hsound := h.calls sent.call
    rcases CallState.sent?_eq_some.mp hw with hcall | ⟨result, hcall⟩
    · rw [hcall] at hsound ⊢
      exact ⟨hsound.applyAt now hreplica hpending.notApplied, rfl⟩
    · rw [hcall] at hsound ⊢
      exact ⟨⟨hsound.1.applyAt now hreplica hpending.notApplied, hsound.2.1,
        hsound.2.2⟩, rfl⟩
  refine ⟨?_, ?_, h.distinct.sublist ((List.eraseIdx_sublist _ _).map _)⟩
  · intro other
    by_cases heq : other = sent.call
    · subst heq
      exact (congrArg _ (Function.update_self ..)).mpr hstate.1
    · exact (congrArg _ (Function.update_of_ne heq ..)).mpr (h.calls other)
  · intro other hother
    obtain ⟨w', hw', hpending'⟩ := h.pending other
      (List.mem_of_mem_eraseIdx hother)
    by_cases heq : other.call = sent.call
    · rw [heq, hw] at hw'
      cases hw'
      refine ⟨w.applyAt sent.target now, ?_, hpending'.peer, ?_,
        hpending'.request⟩
      · rw [heq]
        exact (congrArg _ (Function.update_self ..)).trans hstate.2
      · rw [Write.appliedAt_applyAt, List.mem_append, List.mem_singleton]
        rintro (hat | hat)
        · exact hpending'.notApplied hat
        · exact ne_of_mem_eraseIdx h.distinct hsent hother
            (Prod.ext heq hat)
    · refine ⟨w', ?_, hpending'⟩
      exact (congrArg _ (Function.update_of_ne heq ..)).trans hw'

theorem step (h : s.Sound hash ring quorum) {action : CallAction T}
    (hnext : s.next hash c ring quorum action = some t) :
    t.Sound hash ring quorum := by
  cases step_of_next hnext with
  | beginPut hidle =>
      exact h.setCall _ ⟨rfl, rfl, fun _ => rfl⟩ (by simp [hidle, CallState.sent?])
  | beginDelete hidle =>
      exact h.setCall _ ⟨trivial, rfl, fun _ => rfl⟩
        (by simp [hidle, CallState.sent?])
  | own hbegun => exact h.writeOwn hbegun _
  | send hwritten => exact h.sendOut hwritten
  | arrive hsent => exact h.deliver hsent _
  | lose hindex => exact h.lose _
  | @ack call id w hwaiting hpeer happlied hopen =>
      have hw := h.calls call
      rw [hwaiting] at hw
      refine h.setCall call (hw.endAt fun _ => happlied) ?_
      intro w' hw'
      rw [hwaiting] at hw'
      cases hw'
      exact ⟨_, rfl, fun sent hpending => ⟨hpending.peer, hpending.notApplied,
        hpending.request⟩⟩
  | @giveUp call id w hwaiting hpeer hopen =>
      have hw := h.calls call
      rw [hwaiting] at hw
      refine h.setCall call (hw.endAt fun hfalse => ?_) ?_
      · contradiction
      · intro w' hw'
        rw [hwaiting] at hw'
        cases hw'
        exact ⟨_, rfl, fun sent hpending => ⟨hpending.peer, hpending.notApplied,
          hpending.request⟩⟩
  | @finish call w hwaiting hended =>
      have hw := h.calls call
      rw [hwaiting] at hw
      refine h.setCall call ⟨hw, hended, rfl⟩ ?_
      intro w' hw'
      rw [hwaiting] at hw'
      cases hw'
      exact ⟨w, rfl, fun _ hpending => hpending⟩
  | beginGet hidle => exact h.setCall _ trivial (by simp [hidle, CallState.sent?])
  | reply hreading hpeer hopen =>
      exact h.setCall _ trivial (by simp [hreading, CallState.sent?])
  | @finishGet call now r hreading hended =>
      have hbase := h.setCall call
        (show (CallState.read r now (r.result hash ring quorum now)).Sound hash
          ring quorum from ⟨hended, rfl⟩) (by simp [hreading, CallState.sent?])
      exact hbase.congr rfl rfl

end Sound

/-! ## What a step writes -/

/-- A step that applies the write of a call at a node. -/
structure Applies (c : Codecs) (s t : Traffic T) (call : T) (w : Write)
    (id : String) (now : Int64) : Prop where
  before : (s.calls call).write? = some w
  after : (t.calls call).started? = some (w.applyAt id now)
  others : ∀ other, other ≠ call → t.calls other = s.calls other
  engine : t.cluster.engines id = (s.cluster.engines id).put c w.key
    (w.body.entry w.key now (s.cluster.engines id))
  frame : ∀ other, other ≠ id → t.cluster.engines other = s.cluster.engines other

/-- A step that applies no write. -/
structure Passes (s t : Traffic T) : Prop where
  cluster : t.cluster = s.cluster
  applied : ∀ call w, (t.calls call).started? = some w → w.applied = [] ∨
    ∃ w', (s.calls call).started? = some w' ∧ w'.applied = w.applied ∧
      w'.body = w.body ∧ w'.key = w.key

theorem passes_setCall (s : Traffic T) (call : T) {state : CallState}
    (hstate : ∀ w, state.started? = some w → w.applied = [] ∨
      ∃ w', (s.calls call).started? = some w' ∧ w'.applied = w.applied ∧
        w'.body = w.body ∧ w'.key = w.key) : s.Passes (s.setCall call state) where
  cluster := rfl
  applied := by
    intro other w hw
    by_cases heq : other = call
    · subst heq
      rw [calls_setCall_self] at hw
      exact hstate w hw
    · rw [s.calls_setCall_of_ne heq] at hw
      exact .inr ⟨w, hw, rfl, rfl, rfl⟩

/-- A call that is not a write, or none yet. -/
theorem passes_of_none (s : Traffic T) (call : T) {state : CallState}
    (hstate : state.started? = none) : s.Passes (s.setCall call state) :=
  s.passes_setCall call (by simp [hstate])

theorem passes_of_same (s : Traffic T) (call : T) {state : CallState}
    {w w' : Write} (hw : (s.calls call).started? = some w)
    (hw' : state.started? = some w') (happlied : w'.applied = w.applied)
    (hbody : w'.body = w.body) (hkey : w'.key = w.key) :
    s.Passes (s.setCall call state) := by
  refine s.passes_setCall call fun w'' hw'' => .inr ⟨w, hw, ?_⟩
  rw [hw', Option.some.injEq] at hw''
  subst hw''
  exact ⟨happlied.symm, hbody.symm, hkey.symm⟩

theorem writeOwn_of_responsible {call : T} {w : Write}
    (hresponsible : ring.isResponsible hash w.coordinator w.key = true)
    (now : Int64) :
    s.writeOwn hash c ring call w now =
      { s.setCall call (.written (w.applyAt w.coordinator now)) with
        cluster := s.cluster.update w.coordinator
          (fun engine => w.body.apply c w.key now engine)
          (w.body.nodeId_apply c w.key now)
        order := s.order ++ [call] } :=
  if_pos hresponsible

theorem writeOwn_of_not_responsible {call : T} {w : Write} {now : Int64}
    (hnot : ring.isResponsible hash w.coordinator w.key = false) :
    s.writeOwn hash c ring call w now =
      { s.setCall call (.written w) with order := s.order ++ [call] } :=
  if_neg (by simp [hnot])

theorem applies_writeOwn {call : T} {w : Write}
    (hbegun : s.calls call = .begun w)
    (hresponsible : ring.isResponsible hash w.coordinator w.key = true)
    (now : Int64) :
    Applies c s (s.writeOwn hash c ring call w now) call w w.coordinator now := by
  rw [writeOwn_of_responsible hresponsible]
  refine ⟨?_, ?_, ?_, ?_, ?_⟩
  · rw [hbegun]
    rfl
  · simp [Traffic.setCall, CallState.started?]
  · exact fun other hne => Function.update_of_ne hne ..
  · exact (if_pos rfl).trans (w.body.apply_eq c w.key now _)
  · exact fun other hne => if_neg hne

theorem Sound.applies_deliver (h : s.Sound hash ring quorum) {index : Nat}
    {sent : Sent T} (hsent : s.inFlight[index]? = some sent) (now : Int64) :
    ∃ w, (s.calls sent.call).sent? = some w ∧ sent.Pending hash ring w ∧
      Applies c s (s.deliver c index sent now) sent.call w sent.target now := by
  obtain ⟨w, hw, hpending⟩ := h.pending sent (List.mem_of_getElem? hsent)
  obtain ⟨sender, hrequest⟩ := hpending.request
  have hself : (s.deliver c index sent now).calls sent.call =
      (s.calls sent.call).apply sent.target now := Function.update_self ..
  have hothers : ∀ other, other ≠ sent.call →
      (s.deliver c index sent now).calls other = s.calls other :=
    fun other hne => Function.update_of_ne hne ..
  have hframe : ∀ other, other ≠ sent.target →
      (s.deliver c index sent now).cluster.engines other =
        s.cluster.engines other :=
    fun other hne => if_neg hne
  have hengine : (s.deliver c index sent now).cluster.engines sent.target =
      sent.request.handle c now (s.cluster.engines sent.target) := if_pos rfl
  have hwrite : w.body.Formed ∧ (s.calls sent.call).write? = some w ∧
      ((s.calls sent.call).apply sent.target now).started? =
        some (w.applyAt sent.target now) := by
    have hsound := h.calls sent.call
    rcases CallState.sent?_eq_some.mp hw with hcall | ⟨result, hcall⟩
    · rw [hcall] at hsound ⊢
      exact ⟨hsound.formed, rfl, rfl⟩
    · rw [hcall] at hsound ⊢
      exact ⟨hsound.1.formed, rfl, rfl⟩
  rw [hrequest, w.handle_request c hwrite.1, w.body.apply_eq] at hengine
  exact ⟨w, hw, hpending, hwrite.2.1,
    (congrArg CallState.started? hself).trans hwrite.2.2, hothers, hengine,
    hframe⟩

omit [DecidableEq T] in
theorem Sound.formed (h : s.Sound hash ring quorum) {call : T} {w : Write}
    (hw : (s.calls call).write? = some w) : w.body.Formed := by
  have hsound := h.calls call
  cases hcall : s.calls call with
  | idle | reading _ | read _ _ _ =>
      rw [hcall] at hw
      cases hw
  | begun w' =>
      rw [hcall] at hw hsound
      cases hw
      exact hsound.1
  | written w' | wrote w' result =>
      rw [hcall] at hw hsound
      cases hw
      exact hsound.1.formed
  | waiting w' =>
      rw [hcall] at hw hsound
      cases hw
      exact hsound.formed

omit [DecidableEq T] in
/-- What has been applied anywhere has come past its own node. -/
theorem Sound.started_of_applied (h : s.Sound hash ring quorum) {call : T}
    {w : Write} (hw : (s.calls call).write? = some w) {id : String}
    (hid : id ∈ w.appliedAt) : (s.calls call).started? = some w := by
  have hsound := h.calls call
  cases hcall : s.calls call with
  | idle | reading _ | read _ _ _ =>
      rw [hcall] at hw
      cases hw
  | begun w' =>
      rw [hcall] at hw hsound
      cases hw
      rw [hsound.2.1] at hid
      contradiction
  | written w' | waiting w' | wrote w' result =>
      rw [hcall] at hw
      exact hw

theorem Sound.effect (h : s.Sound hash ring quorum) {action : CallAction T}
    (hnext : s.next hash c ring quorum action = some t) :
    s.Passes t ∨ ∃ call w id now, Applies c s t call w id now := by
  cases step_of_next hnext with
  | @beginPut call => exact .inl (s.passes_of_none call rfl)
  | @beginDelete call => exact .inl (s.passes_of_none call rfl)
  | @own call now w hbegun =>
      cases hresponsible : ring.isResponsible hash w.coordinator w.key with
      | true => exact .inr ⟨call, w, w.coordinator, now,
          applies_writeOwn hbegun hresponsible now⟩
      | false =>
          have hw := h.calls call
          rw [hbegun] at hw
          have hpasses : s.Passes (s.setCall call (.written w)) :=
            s.passes_setCall call fun w' hw' => by
              cases hw'
              exact .inl (List.map_eq_nil_iff.mp hw.2.1)
          rw [writeOwn_of_not_responsible hresponsible]
          exact .inl ⟨hpasses.cluster, hpasses.applied⟩
  | @send call w hwritten =>
      have hpasses : s.Passes (s.setCall call (.waiting w)) :=
        s.passes_of_same call (congrArg CallState.started? hwritten) rfl rfl
          rfl rfl
      exact .inl ⟨hpasses.cluster, hpasses.applied⟩
  | @arrive index now sent hsent =>
      obtain ⟨w, -, -, happlies⟩ := h.applies_deliver hsent now
      exact .inr ⟨sent.call, w, sent.target, now, happlies⟩
  | lose hindex => exact .inl ⟨rfl, fun call w hw => .inr ⟨w, hw, rfl, rfl, rfl⟩⟩
  | @ack call id w hwaiting hpeer happlied hopen =>
      exact .inl (s.passes_of_same call (congrArg CallState.started? hwaiting)
        rfl rfl rfl rfl)
  | @giveUp call id w hwaiting hpeer hopen =>
      exact .inl (s.passes_of_same call (congrArg CallState.started? hwaiting)
        rfl rfl rfl rfl)
  | @finish call w hwaiting hended =>
      exact .inl (s.passes_of_same call (congrArg CallState.started? hwaiting)
        rfl rfl rfl rfl)
  | @beginGet call => exact .inl (s.passes_of_none call rfl)
  | @reply call => exact .inl (s.passes_of_none call rfl)
  | @finishGet call now r =>
      have hpasses : s.Passes
          (s.setCall call (.read r now (r.result hash ring quorum now))) :=
        s.passes_of_none call rfl
      exact .inl ⟨hpasses.cluster, hpasses.applied⟩

end Traffic

/-! ## Successes -/

namespace Write

variable {hash : String → UInt64} {ring : HashRing} {w : Write}

theorem peers_eq (quorum : QuorumConfig) (cluster : Cluster) (w : Write) :
    w.peers hash ring =
      (cluster.coordinatorAt ring quorum w.coordinator).peers hash w.key := by
  rw [peers, ReplicationCoordinator.peers, cluster.engine_coordinatorAt,
    cluster.nodeId_eq]
  rfl

theorem counts_result (hash : String → UInt64) (ring : HashRing)
    (quorum : QuorumConfig) (w : Write) :
    (w.result hash ring quorum).successes =
        (if ring.isResponsible hash w.coordinator w.key then 1 else 0) +
          (w.peers hash ring).countP (fun node => w.results node.id == some true) ∧
      (w.result hash ring quorum).failures =
        (w.peers hash ring).countP (fun node => w.results node.id != some true) := by
  simp only [result, tally_eq, List.count, List.countP_map, Nat.zero_add]
  constructor
  · congr 1
    refine List.countP_congr fun node _ => ?_
    cases h : w.results node.id with
    | none => simp [h]
    | some success => simp [h]
  · refine List.countP_congr fun node _ => ?_
    cases h : w.results node.id with
    | none => simp [h]
    | some success => cases success <;> simp [h]

theorem successes_add_failures (hash : String → UInt64) (ring : HashRing)
    (quorum : QuorumConfig) (cluster : Cluster) (w : Write) :
    (w.result hash ring quorum).successes +
        (w.result hash ring quorum).failures =
      (ring.getNodes hash w.key).length := by
  obtain ⟨hsuccesses, hfailures⟩ := w.counts_result hash ring quorum
  have hlength : (ring.getNodes hash w.key).length = _ :=
    (cluster.coordinatorAt ring quorum w.coordinator).length_getNodes w.key
  rw [cluster.responsible_coordinatorAt, ← w.peers_eq quorum cluster] at hlength
  have hsplit := List.length_eq_countP_add_countP
    (fun node : Node => w.results node.id == some true) (l := w.peers hash ring)
  have hnot : (w.peers hash ring).countP
      (fun node => decide ¬(w.results node.id == some true) = true) =
        (w.peers hash ring).countP (fun node => w.results node.id != some true) :=
    List.countP_congr fun node _ => by simp
  omega

/-- The successes are covered by distinct replicas that applied the write. -/
theorem Sound.exists_applied (h : w.Sound hash ring) (quorum : QuorumConfig) :
    ∃ ids : Finset String, (∀ id ∈ ids, id ∈ w.appliedAt) ∧
      (w.result hash ring quorum).successes ≤ ids.card := by
  rw [(w.counts_result hash ring quorum).1]
  refine exists_applied_of_counts (nodup_peers hash ring w)
    (fun hmem => (mem_peers_iff.mp hmem).2 rfl) ?_ ?_ ?_
  · split <;> omega
  · intro hone
    split at hone
    · rename_i hresponsible
      exact h.own hresponsible
    · omega
  · intro node _ hacked
    exact h.acked node.id (beq_iff_eq.mp hacked)

end Write

/-! ## Writes in the logs -/

namespace Traffic

variable {T : Type} [DecidableEq T] {hash : String → UInt64} {c : Codecs}
  {ring : HashRing} {quorum : QuorumConfig} {s t : Traffic T}

/-- Where a write was applied, the node's log has it. -/
structure Logged (c : Codecs) (s : Traffic T) : Prop where
  terminated : ∀ id, Terminated 10 (s.cluster.engines id).wal.file
  logged : ∀ call w, (s.calls call).started? = some w → ∀ id ∈ w.appliedAt,
    ∃ v, w.body.Leaves v ∧
      (w.key, v) ∈ Storage.logWrites c (s.cluster.engines id).disk.wal

theorem Logged.step (hemits : ∀ entry, c.Emits entry) (h : s.Logged c)
    (hsound : s.Sound hash ring quorum) {action : CallAction T}
    (hnext : s.next hash c ring quorum action = some t) : t.Logged c := by
  rcases hsound.effect hnext with hpasses | ⟨call, w, id, now, happlies⟩
  · refine ⟨hpasses.cluster ▸ h.terminated, fun call w hw id hid => ?_⟩
    rw [hpasses.cluster]
    rcases hpasses.applied call w hw with hnil | ⟨w', hw', happlied, hbody, hkey⟩
    · rw [Write.appliedAt, hnil] at hid
      contradiction
    · rw [← hbody, ← hkey]
      refine h.logged call w' hw' id ?_
      rw [Write.appliedAt, happlied]
      exact hid
  · -- the log of the node grows by one entry, the others stay
    have hlog : Storage.logWrites c (t.cluster.engines id).disk.wal =
        Storage.logWrites c (s.cluster.engines id).disk.wal ++ [(w.key,
          w.body.entry w.key now (s.cluster.engines id))] := by
      rw [happlies.engine]
      exact Storage.logWrites_append hemits (h.terminated id) _ _
    have hmono : ∀ other entry,
        entry ∈ Storage.logWrites c (s.cluster.engines other).disk.wal →
        entry ∈ Storage.logWrites c (t.cluster.engines other).disk.wal := by
      intro other entry hentry
      by_cases hother : other = id
      · rw [hother] at hentry ⊢
        rw [hlog]
        exact List.mem_append_left _ hentry
      · rw [happlies.frame other hother]
        exact hentry
    refine ⟨fun other => ?_, fun other w' hw' at' hat => ?_⟩
    · by_cases hother : other = id
      · rw [hother, happlies.engine]
        exact Storage.WriteAheadLog.terminated_append (h.terminated id) _ _
      · rw [happlies.frame other hother]
        exact h.terminated other
    · by_cases hcall : other = call
      · rw [hcall, happlies.after, Option.some.injEq] at hw'
        subst hw'
        rw [Write.appliedAt_applyAt, List.mem_append, List.mem_singleton] at hat
        rcases hat with hold | rfl
        · obtain ⟨v, hleaves, hentry⟩ := h.logged call w
            (hsound.started_of_applied happlies.before hold) at' hold
          exact ⟨v, hleaves, hmono at' _ hentry⟩
        · refine ⟨_, w.body.leaves_entry w.key now (s.cluster.engines at'), ?_⟩
          rw [hlog]
          exact List.mem_append_right _ (List.mem_singleton_self _)
      · rw [happlies.others other hcall] at hw'
        obtain ⟨v, hleaves, hentry⟩ := h.logged other w' hw' at' hat
        exact ⟨v, hleaves, hmono at' _ hentry⟩

end Traffic

/-- In every interleaving of coordinated calls, a write that has returned was
applied at most once at each replica and is in the logs of as many distinct
replicas as it reported successes. -/
theorem returned_write_logged {T : Type} [DecidableEq T]
    (hash : String → UInt64) {c : Codecs} (hemits : ∀ entry, c.Emits entry)
    (ring : HashRing) (quorum : QuorumConfig) {cluster : Cluster}
    (hlogs : ∀ id, Terminated 10 (cluster.engines id).wal.file)
    {actions : List (CallAction T)} {s : Traffic T}
    (hrun : Run (Traffic.next hash c ring quorum) anyAction (.start T cluster)
      actions s)
    {call : T} {w : Write} {result : QuorumResult (Option VectorClock)}
    (hreturned : s.calls call = .wrote w result) :
    w.appliedAt.Nodup ∧
      result.successes + result.failures = (ring.getNodes hash w.key).length ∧
      ∃ ids : Finset String, result.successes ≤ ids.card ∧ ∀ id ∈ ids,
        ring.isResponsible hash id w.key = true ∧ ∃ v, w.body.Leaves v ∧
          (w.key, v) ∈ Storage.logWrites c (s.cluster.engines id).disk.wal := by
  have hstart : (Traffic.start T cluster).Sound hash ring quorum ∧
      (Traffic.start T cluster).Logged c :=
    ⟨.start cluster, hlogs, fun call w hw => by cases hw⟩
  have hinvariant : s.Sound hash ring quorum ∧ s.Logged c :=
    hrun.invariant (I := fun s => s.Sound hash ring quorum ∧ s.Logged c)
      (fun s action t h _ hnext =>
        ⟨h.1.step hnext, h.2.step hemits h.1 hnext⟩) hstart
  obtain ⟨hsound, hlogged⟩ := hinvariant
  have hcall := hsound.calls call
  rw [hreturned] at hcall
  obtain ⟨hw, -, rfl⟩ := hcall
  obtain ⟨ids, hids, hle⟩ := hw.exists_applied quorum
  refine ⟨hw.distinct, w.successes_add_failures hash ring quorum cluster, ids,
    hle, fun id hid => ?_⟩
  refine ⟨hw.replicas id (hids id hid), ?_⟩
  refine hlogged.logged call w ?_ id (hids id hid)
  rw [hreturned]
  rfl

/-- Two puts at the same time.  The first one gives `node2` up and returns before
its request arrives there. -/
def crossedPuts : List (CallAction Nat) :=
  [.beginPut 0 "node1" "k" [1] 0 0 1700000000000,
    .beginPut 1 "node2" "k" [2] 0 0 1700000000001, .own 0 1700000000002,
    .own 1 1700000000003, .send 0, .send 1, .arrive 0 1700000000004,
    .arrive 1 1700000000005, .ack 0 "node3", .giveUp 0 "node2", .finish 0,
    .arrive 0 1700000000006]

theorem returned_write_logged_of_crossed_puts :
    let c := Storage.referenceCodecs
    let start := Traffic.start Nat (.fresh c 1048576 3)
    ∃ s w result, Run (Traffic.next Ring.sha256Labels c Ring.threeNodes
        .defaultStrong) anyAction start crossedPuts s ∧
      s.calls 0 = .wrote w result ∧ result.successes = 2 ∧
      ∃ ids : Finset String, 2 ≤ ids.card ∧ ∀ id ∈ ids, ∃ v, w.body.Leaves v ∧
        (w.key, v) ∈ Storage.logWrites c (s.cluster.engines id).disk.wal := by
  intro c start
  let next := Traffic.next (T := Nat) Ring.sha256Labels c Ring.threeNodes
    .defaultStrong
  have hsome : (runActions next start crossedPuts).isSome = true := by
    decide +kernel
  obtain ⟨s, hs⟩ := Option.isSome_iff_exists.mp hsome
  have hreturned : ((runActions next start crossedPuts).any fun s =>
      (s.calls 0).result?.any fun result => result.successes == 2) = true := by
    decide +kernel
  rw [hs, Option.any_some, Option.any_eq_true] at hreturned
  obtain ⟨result, hresult, htwo⟩ := hreturned
  obtain ⟨w, hw⟩ := CallState.exists_of_result?_eq_some hresult
  have hrun := Run.of_runActions hs
  obtain ⟨-, -, ids, hle, hids⟩ := returned_write_logged Ring.sha256Labels
    Storage.emits_referenceCodecs Ring.threeNodes .defaultStrong
    (fun _ => terminated_nil 10) hrun hw
  rw [beq_iff_eq.mp htwo] at hle
  exact ⟨s, w, result, hrun, hw, beq_iff_eq.mp htwo, ids, hle,
    fun id hid => (hids id hid).2⟩

end Rkv.Replication
