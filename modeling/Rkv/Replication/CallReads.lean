import Rkv.Replication.CallSafety

/-!
# What reads hear while calls overlap

A read asks the replicas one after the other, and writes go on between their
answers.  Whatever it has heard, some replica has stored when it was asked, and
what replicas store was made by calls: a read returns a version that some put has
made, or the empty value of a tombstone that some delete has left.
-/

namespace Rkv.Replication

open Rkv.Foundation
open Rkv.Grpc
open Rkv.Ring (Node HashRing)
open Rkv.Storage (Codecs StorageEngine VersionedValue)

/-! ## What a read hears -/

def CallState.read? : CallState → Option Read
  | reading r | read r _ _ => some r
  | idle | begun _ | written _ | waiting _ | wrote _ _ => none

theorem CallState.idle_of_none {state : CallState}
    (hwrite : state.write?.isNone = true) (hread : state.read?.isNone = true) :
    state = .idle := by
  cases state with
  | idle => rfl
  | begun _ | written _ | waiting _ | wrote _ _ => cases hwrite
  | reading _ | read _ _ _ => cases hread

/-- The read has what this node stored, or stored nothing. -/
inductive Read.Heard (r : Read) : String → Option VersionedValue → Prop
  | own {stored : Option VersionedValue} (hown : r.own = some stored) :
      Heard r r.coordinator stored
  | peer {id : String} {response : Proto.GetInternalResponse}
      (hresult : r.results id = some (.ok response)) :
      Heard r id (readResult (.ok response))

/-- The answers a read resolves, its own node's first. -/
def Read.answers (hash : String → UInt64) (ring : HashRing) (r : Read) :
    List (Option VersionedValue) :=
  r.own.toList ++ (r.peers hash ring).map fun node =>
    (r.results node.id).elim none readResult

theorem Read.result_eq (hash : String → UInt64) (ring : HashRing)
    (quorum : QuorumConfig) (r : Read) (now : Int64) :
    (r.result hash ring quorum now).value =
      resolveConflicts now (r.answers hash ring) := by
  simp [result, answers, gather_eq]

theorem Read.heard_of_answer {hash : String → UInt64} {ring : HashRing}
    {r : Read} {v : VersionedValue} (h : some v ∈ r.answers hash ring) :
    ∃ id, r.Heard id (some v) := by
  rw [answers, List.mem_append, List.mem_map] at h
  rcases h with hown | ⟨node, -, hnode⟩
  · exact ⟨r.coordinator, .own (Option.mem_toList.mp hown)⟩
  · cases hresult : r.results node.id with
    | none =>
        rw [hresult] at hnode
        cases hnode
    | some outcome =>
        rw [hresult] at hnode
        cases outcome with
        | ok response => exact ⟨node.id, hnode ▸ .peer hresult⟩
        | error | timeout => cases hnode

theorem Read.heard_of_value {hash : String → UInt64} {ring : HashRing}
    {quorum : QuorumConfig} {r : Read} {now : Int64} {v : VersionedValue}
    (h : (r.result hash ring quorum now).value = some v) :
    Live now v ∧ ∃ id, r.Heard id (some v) := by
  rw [result_eq, resolveConflicts_eq] at h
  obtain ⟨hmem, hlive⟩ := mem_liveAnswers.mp (mem_of_contest h)
  exact ⟨hlive, heard_of_answer hmem⟩

/-! ## Where a read's value comes from -/

namespace Traffic

variable {T : Type} [DecidableEq T] {hash : String → UInt64} {c : Codecs}
  {ring : HashRing} {quorum : QuorumConfig} {s t : Traffic T} {key : String}

/-- Some call has left this version of the key, or will. -/
def Made (s : Traffic T) (key : String) (v : VersionedValue) : Prop :=
  ∃ call w, (s.calls call).write? = some w ∧ w.key = key ∧ w.body.Leaves v

theorem write_update {call : T} {state : CallState}
    (hcalls : t.calls = Function.update s.calls call state)
    (hstate : ∀ w, (s.calls call).write? = some w → ∃ w',
      state.write? = some w' ∧ w'.key = w.key ∧ w'.body = w.body) {other : T}
    {w : Write} (hw : (s.calls other).write? = some w) :
    ∃ w', (t.calls other).write? = some w' ∧ w'.key = w.key ∧
      w'.body = w.body := by
  rw [hcalls]
  by_cases heq : other = call
  · subst heq
    rw [Function.update_self]
    exact hstate w hw
  · rw [Function.update_of_ne heq]
    exact ⟨w, hw, rfl, rfl⟩

/-- A call goes on writing what it began to write. -/
theorem write_step {action : CallAction T}
    (hnext : s.next hash c ring quorum action = some t) {other : T} {w : Write}
    (hw : (s.calls other).write? = some w) :
    ∃ w', (t.calls other).write? = some w' ∧ w'.key = w.key ∧
      w'.body = w.body := by
  cases step_of_next hnext with
  | beginPut hidle =>
      exact write_update rfl (by simp [hidle, CallState.write?]) hw
  | beginDelete hidle =>
      exact write_update rfl (by simp [hidle, CallState.write?]) hw
  | @own call now w₀ hbegun =>
      obtain ⟨w', hcalls, hkey, hbody, -⟩ := s.writeOwn_frame call w₀ now
      refine write_update hcalls (fun v hv => ?_) hw
      rw [hbegun] at hv
      cases hv
      exact ⟨w', rfl, hkey, hbody⟩
  | send hwritten =>
      exact write_update rfl (by simp [hwritten, CallState.write?]) hw
  | @arrive index now sent hsent =>
      refine write_update rfl (fun w hw => ?_) hw
      cases hcall : s.calls sent.call with
      | idle | reading _ | read _ _ _ =>
          rw [hcall] at hw
          cases hw
      | begun w' | written w' =>
          rw [hcall] at hw
          exact ⟨w, hw, rfl, rfl⟩
      | waiting w' | wrote w' result =>
          rw [hcall] at hw
          cases hw
          exact ⟨_, rfl, rfl, rfl⟩
  | lose hindex => exact ⟨w, hw, rfl, rfl⟩
  | ack hwaiting =>
      exact write_update rfl (by simp [hwaiting, CallState.write?]) hw
  | giveUp hwaiting =>
      exact write_update rfl (by simp [hwaiting, CallState.write?]) hw
  | finish hwaiting =>
      exact write_update rfl (by simp [hwaiting, CallState.write?]) hw
  | beginGet hidle =>
      exact write_update rfl (by simp [hidle, CallState.write?]) hw
  | reply hreading =>
      exact write_update rfl (by simp [hreading, CallState.write?]) hw
  | finishGet hreading =>
      exact write_update rfl (by simp [hreading, CallState.write?]) hw

theorem Made.step {action : CallAction T}
    (hnext : s.next hash c ring quorum action = some t) {v : VersionedValue}
    (h : s.Made key v) : t.Made key v := by
  obtain ⟨call, w, hw, hkey, hleaves⟩ := h
  obtain ⟨w', hw', hkey', hbody⟩ := write_step hnext hw
  exact ⟨call, w', hw', hkey'.trans hkey, hbody ▸ hleaves⟩

/-- What a reader gets of this node, with the deletion marker or without. -/
def Shows (s : Traffic T) (id key : String) (stored : Option VersionedValue) :
    Prop :=
  stored = (s.cluster.engines id).getRaw key ∨
    stored = ((s.cluster.engines id).getRaw key).map fun v =>
      { v with deleted := false }

theorem read_update {call : T} {state : CallState}
    (hcalls : t.calls = Function.update s.calls call state)
    (hstate : ∀ r, state.read? = some r → (s.calls call).read? = some r)
    {other : T} {r : Read} (hr : (t.calls other).read? = some r) :
    (s.calls other).read? = some r := by
  rw [hcalls] at hr
  by_cases heq : other = call
  · subst heq
    rw [Function.update_self] at hr
    exact hstate r hr
  · rwa [Function.update_of_ne heq] at hr

/-- What a read has heard it had heard before, or a node shows it. -/
theorem heard_step {action : CallAction T}
    (hnext : s.next hash c ring quorum action = some t) {other : T} {r : Read}
    (hr : (t.calls other).read? = some r) {id : String}
    {stored : Option VersionedValue} (hheard : r.Heard id stored) :
    (∃ r', (s.calls other).read? = some r' ∧ r'.key = r.key ∧
      r'.Heard id stored) ∨ s.Shows id r.key stored := by
  have hsame : (s.calls other).read? = some r →
      (∃ r', (s.calls other).read? = some r' ∧ r'.key = r.key ∧
        r'.Heard id stored) ∨ s.Shows id r.key stored :=
    fun h => .inl ⟨r, h, rfl, hheard⟩
  cases step_of_next hnext with
  | beginPut | beginDelete | send | ack | giveUp | finish =>
      exact hsame (read_update rfl (fun r h => by cases h) hr)
  | @own call now w hbegun =>
      obtain ⟨w', hcalls, -⟩ := s.writeOwn_frame call w now
      exact hsame (read_update hcalls (fun r h => by cases h) hr)
  | @arrive index now sent hsent =>
      refine hsame (read_update rfl (fun r h => ?_) hr)
      cases hcall : s.calls sent.call with
      | idle | begun _ | written _ | waiting _ | wrote _ _ =>
          rw [hcall] at h
          cases h
      | reading _ | read _ _ _ =>
          rw [hcall] at h
          exact h
  | lose hindex => exact hsame hr
  | finishGet hreading =>
      refine hsame (read_update rfl (fun r h => ?_) hr)
      rw [hreading]
      exact h
  | @beginGet call coordinator key readQuorum hidle =>
      by_cases heq : other = call
      · subst heq
        rw [calls_setCall_self] at hr
        cases hr
        refine .inr (.inl ?_)
        cases hheard with
        | own hown =>
            simp only [newRead] at hown ⊢
            split at hown
            · exact (Option.some.inj hown).symm
            · contradiction
        | peer hresult => cases hresult
      · rw [s.calls_setCall_of_ne heq] at hr
        exact hsame hr
  | @reply call peer reply r' hreading hpeer hopen =>
      by_cases heq : other = call
      · subst heq
        rw [calls_setCall_self] at hr
        cases hr
        have hr' : (s.calls other).read? = some r' := by
          rw [hreading]
          rfl
        cases hheard with
        | own hown => exact .inl ⟨r', hr', rfl, .own hown⟩
        | @peer id response hresult =>
            rw [Read.endAt_results] at hresult
            by_cases hid : id = peer
            · subst hid
              rw [Function.update_self, Option.some.injEq] at hresult
              rw [← hresult]
              refine .inr (.inr ?_)
              rw [Cluster.readResult_getInternal]
              cases reply with
              | answers => rfl
              | error | timeout => cases hresult
            · rw [Function.update_of_ne hid] at hresult
              exact .inl ⟨r', hr', rfl, .peer hresult⟩
      · rw [s.calls_setCall_of_ne heq] at hr
        exact hsame hr

/-! ### Provenance -/

/-- What is stored of the key, and what reads of it have heard, was made by
calls. -/
structure Traced (key : String) (s : Traffic T) : Prop where
  stored : ∀ id v, (s.cluster.engines id).getRaw key = some v → s.Made key v
  heard : ∀ call r, (s.calls call).read? = some r → r.key = key →
    ∀ id v, r.Heard id (some v) →
      s.Made key v ∨ ∃ u, s.Made key u ∧ v = { u with deleted := false }

theorem Traced.step (h : s.Traced key) (hsound : s.Sound hash ring quorum)
    {action : CallAction T}
    (hnext : s.next hash c ring quorum action = some t) : t.Traced key where
  stored := by
    intro id v hv
    rcases hsound.effect hnext with hpasses | ⟨call, w, node, now, happlies⟩
    · rw [hpasses.cluster] at hv
      exact (h.stored id v hv).step hnext
    · by_cases hid : id = node
      · rw [hid, happlies.engine, StorageEngine.getRaw_put] at hv
        split at hv
        · rename_i hkey
          obtain ⟨w', hw', hkey', hbody⟩ := write_step hnext happlies.before
          refine ⟨call, w', hw', hkey'.trans hkey, ?_⟩
          rw [hbody, ← Option.some.inj hv]
          exact w.body.leaves_entry w.key now _
        · exact (h.stored node v hv).step hnext
      · rw [happlies.frame id hid] at hv
        exact (h.stored id v hv).step hnext
  heard := by
    intro call r hr hkey id v hheard
    rcases heard_step hnext hr hheard with ⟨r', hr', hkey', hheard'⟩ | hshows
    · rcases h.heard call r' hr' (hkey'.trans hkey) id v hheard' with
        hmade | ⟨u, hmade, heq⟩
      · exact .inl (hmade.step hnext)
      · exact .inr ⟨u, hmade.step hnext, heq⟩
    · rw [hkey] at hshows
      rcases hshows with hraw | hmarked
      · exact .inl ((h.stored id v hraw.symm).step hnext)
      · obtain ⟨u, hu, rfl⟩ := Option.map_eq_some_iff.mp hmarked.symm
        exact .inr ⟨u, (h.stored id u hu).step hnext, rfl⟩

end Traffic

/-- In every interleaving of coordinated calls on an empty cluster, a read
returns what a put of the key has made, as it was put, or the empty value of a
tombstone of a delete of the key. -/
theorem read_from_calls {T : Type} [DecidableEq T] (hash : String → UInt64)
    (c : Codecs) (ring : HashRing) (quorum : QuorumConfig) {cluster : Cluster}
    {key : String} (hfresh : ∀ id, (cluster.engines id).getRaw key = none)
    {actions : List (CallAction T)} {s : Traffic T}
    (hrun : Run (Traffic.next hash c ring quorum) anyAction (.start T cluster)
      actions s)
    {call : T} {r : Read} {now : Int64} {result : QuorumResult VersionedValue}
    (hread : s.calls call = .read r now result) (hkey : r.key = key)
    {v : VersionedValue} (hv : result.value = some v) :
    v.deleted = false ∧ v.isExpired now = false ∧
      ∃ writer w, (s.calls writer).write? = some w ∧ w.key = key ∧
        ((∃ value ttlMs made, w.body = .put value ttlMs made v ∧
            v = ⟨value, v.vectorClock, made, ttlMs, false⟩) ∨
          w.body = .delete ∧ v.value = []) := by
  have hstart : (Traffic.start T cluster).Sound hash ring quorum ∧
      (Traffic.start T cluster).Traced key := by
    refine ⟨.start cluster, fun id v hv => ?_, fun call r hr => by cases hr⟩
    exact absurd ((hfresh id).symm.trans hv) (by simp)
  have hinvariant : s.Sound hash ring quorum ∧ s.Traced key :=
    hrun.invariant (I := fun s => s.Sound hash ring quorum ∧ s.Traced key)
      (fun s action t h _ hnext => ⟨h.1.step hnext, h.2.step h.1 hnext⟩) hstart
  obtain ⟨hsound, htraced⟩ := hinvariant
  have hcall := hsound.calls call
  rw [hread] at hcall
  obtain ⟨-, rfl⟩ := hcall
  obtain ⟨⟨hdeleted, hunexpired⟩, id, hheard⟩ := Read.heard_of_value hv
  refine ⟨hdeleted, hunexpired, ?_⟩
  have hr : (s.calls call).read? = some r := by
    rw [hread]
    rfl
  have hmade : ∃ u, s.Made key u ∧ v = { u with deleted := false } := by
    rcases htraced.heard call r hr hkey id v hheard with hown | hpeer
    · refine ⟨v, hown, ?_⟩
      rw [← hdeleted]
    · exact hpeer
  obtain ⟨u, ⟨writer, w, hw, hwkey, hleaves⟩, rfl⟩ := hmade
  refine ⟨writer, w, hw, hwkey, ?_⟩
  have hformed := hsound.formed hw
  cases hbody : w.body with
  | put value ttlMs made version =>
      rw [hbody] at hleaves hformed
      have heq : u = version := hleaves
      subst heq
      have hu : u = ⟨value, u.vectorClock, made, ttlMs, false⟩ := hformed
      have hlive : u.deleted = false := congrArg VersionedValue.deleted hu
      refine .inl ⟨value, ttlMs, made, ?_, ?_⟩
      · rw [← hlive]
      · rw [← hlive] at hu ⊢
        exact hu
  | delete =>
      rw [hbody] at hleaves
      exact .inr ⟨rfl, hleaves.2⟩

def crossedRead : List (CallAction Nat) :=
  crossedPuts ++ [.beginGet 2 "node3" "k" 0, .reply 2 "node2" .answers,
    .reply 2 "node1" .timeout, .finishGet 2 1700000000007]

/-- The read finds the second put at its own node and the first at `node2`. -/
theorem read_from_calls_of_crossed_puts :
    let c := Storage.referenceCodecs
    let start := Traffic.start Nat (.fresh c 1048576 3)
    ∃ s r now result v, Run (Traffic.next Ring.sha256Labels c Ring.threeNodes
        .defaultStrong) anyAction start crossedRead s ∧
      s.calls 2 = .read r now result ∧ r.key = "k" ∧ result.value = some v ∧
      v.value = [2] ∧ ∃ writer w, (s.calls writer).write? = some w ∧
        w.key = "k" ∧ ∃ value ttlMs made, w.body = .put value ttlMs made v := by
  intro c start
  let next := Traffic.next (T := Nat) Ring.sha256Labels c Ring.threeNodes
    .defaultStrong
  have hsome : (runActions next start crossedRead).isSome = true := by
    decide +kernel
  obtain ⟨s, hs⟩ := Option.isSome_iff_exists.mp hsome
  have hreturned : ((runActions next start crossedRead).any fun s =>
      match s.calls 2 with
      | .read r _ result => r.key == "k" &&
          result.value.any fun v => v.value == [2]
      | _ => false) = true := by
    decide +kernel
  rw [hs, Option.any_some] at hreturned
  cases hcall : s.calls 2 with
  | idle | begun _ | written _ | waiting _ | wrote _ _ | reading _ =>
      simp [hcall] at hreturned
  | read r now result =>
      simp only [hcall, Bool.and_eq_true, beq_iff_eq,
        Option.any_eq_true] at hreturned
      obtain ⟨hkey, v, hv, hvalue⟩ := hreturned
      have hrun := Run.of_runActions hs
      obtain ⟨-, -, writer, w, hw, hwkey, hput | hdelete⟩ := read_from_calls
        Ring.sha256Labels c Ring.threeNodes .defaultStrong
        (fun id => StorageEngine.getRaw_fresh c _ "k") hrun hcall hkey hv
      · obtain ⟨value, ttlMs, made, hbody, -⟩ := hput
        exact ⟨s, r, now, result, v, hrun, hcall, hkey, hv, hvalue, writer, w, hw,
          hwkey, value, ttlMs, made, hbody⟩
      · rw [hdelete.2] at hvalue
        exact absurd hvalue (List.cons_ne_nil _ _).symm

end Rkv.Replication
