import Rkv.Replication.OwnReads
import Rkv.Replication.SerialWrites

/-!
# Reads beside the puts of one node

A key is put through one node only, one put after the other, while reads of it
begin and end at any time.  Then what a replica stores of the key only becomes
younger, and so does what a read can hear from it: a read that begins after a
put has returned, and hears one of the replicas that have acknowledged it,
returns that put or a later one.
-/

namespace Rkv.Replication

open Rkv.Foundation
open Rkv.Grpc
open Rkv.Ring (Node HashRing)
open Rkv.Storage (Bytes Codecs StorageEngine VectorClock VersionedValue)

/-- Live for ever, with the counts of a put through this node. -/
structure OfNode (x : String) (v : VersionedValue) : Prop where
  live : v.deleted = false
  forever : v.ttlMs = 0
  counts : ∀ node, v.vectorClock.count node = if x = node then 1 else 0

namespace WriteBody

/-- The reading a put was made at; a delete makes no version of its own. -/
def made : WriteBody → Int64
  | put _ _ now _ => now
  | delete => 0

def PutBy (x : String) : WriteBody → Prop
  | put _ _ now version => OfNode x version ∧ version.timestampMs = now
  | delete => False

theorem PutBy.leaves {x : String} {body : WriteBody} (h : body.PutBy x)
    {v : VersionedValue} (hv : body.Leaves v) :
    OfNode x v ∧ v.timestampMs = body.made := by
  cases body with
  | put value ttlMs now version =>
      have heq : v = version := hv
      subst heq
      exact h
  | delete => cases h

theorem PutBy.eq_put {x : String} {body : WriteBody} (h : body.PutBy x)
    (hformed : body.Formed) {v : VersionedValue} (hv : body.Leaves v) :
    ∃ value, body = .put value 0 v.timestampMs v := by
  cases body with
  | put value ttlMs now version =>
      have heq : v = version := hv
      subst heq
      have httl : v.ttlMs = ttlMs := congrArg VersionedValue.ttlMs hformed
      rw [h.1.forever] at httl
      subst httl
      exact ⟨value, by rw [h.2]⟩
  | delete => cases h

end WriteBody

/-- Among versions of one node the younger wins. -/
theorem wins_iff_of_node {x : String} {a b : VersionedValue}
    (ha : OfNode x a) (hb : OfNode x b) :
    Wins a b ↔ b.timestampMs.toInt < a.timestampMs.toInt := by
  have hequal : ∀ v u : VersionedValue, OfNode x v → OfNode x u →
      v.vectorClock.dominates u.vectorClock = false := fun v u hv hu =>
    dominates_of_same_counts fun node => (hv.counts node).trans (hu.counts node).symm
  simp [Wins, hequal a b ha hb, hequal b a hb ha, Int64.lt_iff_toInt_lt]

namespace Traffic

variable {T : Type} [DecidableEq T] {hash : String → UInt64} {c : Codecs}
  {ring : HashRing} {quorum : QuorumConfig} {s t : Traffic T} {x key : String}

/-- The key is put through this node only and for ever, when no other put of it
is unsettled and at a later reading than all of them; it is not deleted. -/
def SoleWriter (x key : String) (s : Traffic T) : CallAction T → Prop
  | .beginPut _ coordinator k _ ttlMs _ now => k = key →
      coordinator = x ∧ ttlMs = 0 ∧ (∀ other, ¬s.Unsettled key other) ∧
        ∀ other, ∀ w ∈ (s.calls other).write?, w.key = key → w.body.made < now
  | .beginDelete _ _ k _ => k ≠ key
  | _ => True

instance [Fintype T] (x key : String) (s : Traffic T) (action : CallAction T) :
    Decidable (s.SoleWriter x key action) :=
  match action with
  | .beginPut _ coordinator k _ ttlMs _ now => inferInstanceAs (Decidable (k = key →
      coordinator = x ∧ ttlMs = 0 ∧ (∀ other, ¬s.Unsettled key other) ∧
        ∀ other, ∀ w ∈ (s.calls other).write?, w.key = key → w.body.made < now))
  | .beginDelete _ _ k _ => inferInstanceAs (Decidable (k ≠ key))
  | .own .. | .send .. | .arrive .. | .lose .. | .ack .. | .giveUp ..
  | .finish .. | .beginGet .. | .reply .. | .finishGet .. => isTrue trivial

/-! ## Where writes come from -/

theorem write_back_update {call : T} {state : CallState}
    (hcalls : t.calls = Function.update s.calls call state)
    (hstate : ∀ w, state.write? = some w → ∃ w',
      (s.calls call).write? = some w' ∧ w'.key = w.key ∧ w'.body = w.body)
    {other : T} {w : Write} (hw : (t.calls other).write? = some w) :
    ∃ w', (s.calls other).write? = some w' ∧ w'.key = w.key ∧
      w'.body = w.body := by
  rw [hcalls] at hw
  by_cases heq : other = call
  · subst heq
    rw [Function.update_self] at hw
    exact hstate w hw
  · rw [Function.update_of_ne heq] at hw
    exact ⟨w, hw, rfl, rfl⟩

/-- A write was there before, or begins. -/
theorem write_back {action : CallAction T}
    (hnext : s.next hash c ring quorum action = some t) {other : T} {w : Write}
    (hw : (t.calls other).write? = some w) :
    (∃ w', (s.calls other).write? = some w' ∧ w'.key = w.key ∧
      w'.body = w.body) ∨
    (∃ coordinator value ttlMs writeQuorum now,
      action = .beginPut other coordinator w.key value ttlMs writeQuorum now ∧
      w = s.newPut coordinator w.key value ttlMs writeQuorum now) ∨
    ∃ coordinator writeQuorum,
      action = .beginDelete other coordinator w.key writeQuorum := by
  cases step_of_next hnext with
  | @beginPut call coordinator k value ttlMs writeQuorum now hidle =>
      by_cases heq : other = call
      · subst heq
        rw [calls_setCall_self] at hw
        cases hw
        exact .inr (.inl ⟨_, _, _, _, _, rfl, rfl⟩)
      · rw [s.calls_setCall_of_ne heq] at hw
        exact .inl ⟨w, hw, rfl, rfl⟩
  | @beginDelete call coordinator k writeQuorum hidle =>
      by_cases heq : other = call
      · subst heq
        rw [calls_setCall_self] at hw
        cases hw
        exact .inr (.inr ⟨_, _, rfl⟩)
      · rw [s.calls_setCall_of_ne heq] at hw
        exact .inl ⟨w, hw, rfl, rfl⟩
  | @own call now w₀ hbegun =>
      obtain ⟨w', hcalls, hkey, hbody, -⟩ := s.writeOwn_frame call w₀ now
      refine .inl (write_back_update hcalls (fun v hv => ?_) hw)
      cases hv
      exact ⟨w₀, by rw [hbegun]; rfl, hkey.symm, hbody.symm⟩
  | send hwritten =>
      exact .inl (write_back_update rfl
        (by simp [hwritten, CallState.write?]) hw)
  | @arrive index now sent hsent =>
      refine .inl (write_back_update rfl (fun w hw => ?_) hw)
      cases hcall : s.calls sent.call with
      | idle | reading _ | read _ _ _ =>
          rw [hcall] at hw
          cases hw
      | begun w' | written w' =>
          rw [hcall] at hw
          exact ⟨w, hw, rfl, rfl⟩
      | waiting w' | wrote w' result =>
          rw [hcall] at hw
          cases hw
          exact ⟨_, rfl, rfl, rfl⟩
  | lose hindex => exact .inl ⟨w, hw, rfl, rfl⟩
  | ack hwaiting | giveUp hwaiting | finish hwaiting =>
      exact .inl (write_back_update rfl
        (by simp [hwaiting, CallState.write?]) hw)
  | beginGet | reply | finishGet =>
      exact .inl (write_back_update rfl (fun w hw => by cases hw) hw)

/-- What changes a table is an unsettled write. -/
theorem Sound.applies_unsettled (h : s.Sound hash ring quorum)
    {action : CallAction T} (hnext : s.next hash c ring quorum action = some t) :
    t.cluster = s.cluster ∨ ∃ call w id now,
      Applies c s t call w id now ∧ s.Unsettled w.key call := by
  cases step_of_next hnext with
  | @own call now w hbegun =>
      cases hresponsible : ring.isResponsible hash w.coordinator w.key with
      | true => exact .inr ⟨call, w, w.coordinator, now,
          applies_writeOwn hbegun hresponsible now,
          unsettled_of_open hbegun rfl rfl rfl⟩
      | false =>
          rw [writeOwn_of_not_responsible hresponsible]
          exact .inl rfl
  | @arrive index now sent hsent =>
      obtain ⟨w, -, -, happlies⟩ := h.applies_deliver hsent now
      exact .inr ⟨sent.call, w, sent.target, now, happlies, w, happlies.before,
        rfl, .inr ⟨sent, List.mem_of_getElem? hsent, rfl⟩⟩
  | _ => exact .inl rfl

/-! ## Tables grow younger -/

/-- All writes of the key are puts through this node, an unsettled one is the
youngest, and where one was applied the node stores none that is older. -/
structure Youngest (x key : String) (s : Traffic T) : Prop where
  putBy : ∀ call w, (s.calls call).write? = some w → w.key = key →
    w.body.PutBy x
  newest : ∀ call w other w', s.Unsettled key call →
    (s.calls call).write? = some w → (s.calls other).write? = some w' →
    w'.key = key → w'.body.made ≤ w.body.made
  applied : ∀ call w, (s.calls call).started? = some w → w.key = key →
    ∀ id ∈ w.appliedAt, ∃ v, (s.cluster.engines id).getRaw key = some v ∧
      w.body.made ≤ v.timestampMs

namespace Youngest

omit [DecidableEq T] in
theorem stored (h : s.Youngest x key) (htraced : s.Traced key) {id : String}
    {v : VersionedValue} (hv : (s.cluster.engines id).getRaw key = some v) :
    OfNode x v ∧ ∃ call w, (s.calls call).write? = some w ∧ w.key = key ∧
      v.timestampMs = w.body.made := by
  obtain ⟨call, w, hw, hkey, hleaves⟩ := htraced.stored id v hv
  have hput := (h.putBy call w hw hkey).leaves hleaves
  exact ⟨hput.1, call, w, hw, hkey, hput.2⟩

/-- What a node stores of the key is only replaced by something younger. -/
theorem grows (h : s.Youngest x key) (htraced : s.Traced key)
    (hsound : s.Sound hash ring quorum) {action : CallAction T}
    (hnext : s.next hash c ring quorum action = some t) {id : String}
    {v : VersionedValue} (hv : (s.cluster.engines id).getRaw key = some v) :
    ∃ v', (t.cluster.engines id).getRaw key = some v' ∧
      v.timestampMs ≤ v'.timestampMs := by
  rcases hsound.applies_unsettled hnext with
    hsame | ⟨call, w, node, now, happlies, hunsettled⟩
  · exact ⟨v, by rw [hsame, hv], Int64.le_refl _⟩
  · by_cases hid : id = node
    · subst hid
      rw [happlies.engine, StorageEngine.getRaw_put]
      by_cases hkey : w.key = key
      · rw [hkey] at hunsettled
        obtain ⟨-, other, w', hw', hkey', hstamp⟩ := h.stored htraced hv
        have hentry := (h.putBy call w happlies.before hkey).leaves
          (w.body.leaves_entry w.key now (s.cluster.engines id))
        refine ⟨_, if_pos hkey, ?_⟩
        rw [hentry.2, hstamp]
        exact h.newest call w other w' hunsettled happlies.before hw' hkey'
      · exact ⟨v, (if_neg hkey).trans hv, Int64.le_refl _⟩
    · rw [happlies.frame id hid]
      exact ⟨v, hv, Int64.le_refl _⟩

theorem putBy_next (h : s.Youngest x key) (htraced : s.Traced key)
    {action : CallAction T} (hguard : s.SoleWriter x key action)
    (hnext : s.next hash c ring quorum action = some t) {call : T} {w : Write}
    (hw : (t.calls call).write? = some w) (hkey : w.key = key) :
    w.body.PutBy x := by
  rcases write_back hnext hw with ⟨w', hw', hkey', hbody⟩ |
    ⟨coordinator, value, ttlMs, writeQuorum, now, rfl, hnew⟩ |
    ⟨coordinator, writeQuorum, rfl⟩
  · rw [← hbody]
    exact h.putBy call w' hw' (hkey'.trans hkey)
  · obtain ⟨rfl, rfl, -⟩ := hguard hkey
    rw [hnew, hkey]
    have hcounts := count_newVersion
      (fun v hv => (h.stored htraced hv).1.counts) value 0 now
    exact ⟨⟨rfl, rfl, hcounts⟩, rfl⟩
  · exact absurd hkey hguard

theorem newest_next (h : s.Youngest x key) (hsound : s.Sound hash ring quorum)
    {action : CallAction T} (hguard : s.SoleWriter x key action)
    (hnext : s.next hash c ring quorum action = some t) {call other : T}
    {w w' : Write} (hunsettled : t.Unsettled key call)
    (hw : (t.calls call).write? = some w) (hw' : (t.calls other).write? = some w')
    (hkey' : w'.key = key) : w'.body.made ≤ w.body.made := by
  have hkey : w.key = key := by
    obtain ⟨v, hv, hvkey, -⟩ := hunsettled
    rw [hw] at hv
    cases hv
    exact hvkey
  rcases unsettled_step hsound hnext hunsettled with hold | hbegins
  · -- no put of the key begins while this one is unsettled
    rcases write_back hnext hw with ⟨w₀, hw₀, -, hbody⟩ |
      ⟨coordinator, value, ttlMs, writeQuorum, now, rfl, -⟩ |
      ⟨coordinator, writeQuorum, rfl⟩
    · rcases write_back hnext hw' with ⟨w₁, hw₁, hkey₁, hbody₁⟩ |
        ⟨coordinator, value, ttlMs, writeQuorum, now, rfl, -⟩ |
        ⟨coordinator, writeQuorum, rfl⟩
      · rw [← hbody, ← hbody₁]
        exact h.newest call w₀ other w₁ hold hw₀ hw₁ (hkey₁.trans hkey')
      · exact absurd hold ((hguard hkey').2.2.1 call)
      · exact absurd hkey' hguard
    · exact absurd hold ((hguard hkey).2.2.1 call)
    · exact absurd hkey hguard
  · have hidle := idle_of_begins hnext hbegins
    rcases write_back hnext hw with ⟨w₀, hw₀, -, -⟩ |
      ⟨coordinator, value, ttlMs, writeQuorum, now, rfl, hnew⟩ |
      ⟨coordinator, writeQuorum, rfl⟩
    · rw [hidle] at hw₀
      cases hw₀
    · rcases write_back hnext hw' with ⟨w₁, hw₁, hkey₁, hbody₁⟩ |
        ⟨coordinator', value', ttlMs', writeQuorum', now', haction, hnew'⟩ |
        ⟨coordinator', writeQuorum', haction⟩
      · have hlater := (hguard hkey).2.2.2 other w₁ hw₁ (hkey₁.trans hkey')
        rw [← hbody₁, hnew]
        exact Int64.le_of_lt hlater
      · have hnow : now = now' := by injection haction
        rw [hnew, hnew', hnow]
        exact Int64.le_refl _
      · cases haction
    · exact absurd hkey hguard

theorem applied_next (h : s.Youngest x key) (htraced : s.Traced key)
    (hsound : s.Sound hash ring quorum) {action : CallAction T}
    (hnext : s.next hash c ring quorum action = some t) {call : T} {w : Write}
    (hw : (t.calls call).started? = some w) (hkey : w.key = key) {id : String}
    (hid : id ∈ w.appliedAt) :
    ∃ v, (t.cluster.engines id).getRaw key = some v ∧
      w.body.made ≤ v.timestampMs := by
  have hold : ∀ w', (s.calls call).started? = some w' → w'.key = w.key →
      w'.body = w.body → id ∈ w'.appliedAt →
      ∃ v, (t.cluster.engines id).getRaw key = some v ∧
        w.body.made ≤ v.timestampMs := by
    intro w' hw' hkey' hbody hid'
    obtain ⟨v, hv, hle⟩ := h.applied call w' hw' (hkey'.trans hkey) id hid'
    obtain ⟨v', hv', hle'⟩ := h.grows htraced hsound hnext hv
    rw [hbody] at hle
    exact ⟨v', hv', Int64.le_trans hle hle'⟩
  rcases hsound.effect hnext with hpasses | ⟨writer, w₀, node, now, happlies⟩
  · rcases hpasses.applied call w hw with hnone | ⟨w', hw', happlied, hbody, hk⟩
    · rw [Write.appliedAt, hnone] at hid
      cases hid
    · refine hold w' hw' hk hbody ?_
      rw [Write.appliedAt, happlied]
      exact hid
  · by_cases hcall : call = writer
    · rw [hcall, happlies.after, Option.some.injEq] at hw
      subst hw
      rw [Write.appliedAt_applyAt, List.mem_append, List.mem_singleton] at hid
      rcases hid with hfirst | rfl
      · refine hold w₀ ?_ rfl rfl hfirst
        rw [hcall]
        exact hsound.started_of_applied happlies.before hfirst
      · have hkey : w₀.key = key := hkey
        have hput := (h.putBy writer w₀ happlies.before hkey).leaves
          (w₀.body.leaves_entry w₀.key now (s.cluster.engines id))
        refine ⟨_, ?_, Int64.le_of_eq hput.2.symm⟩
        rw [happlies.engine, StorageEngine.getRaw_put, if_pos hkey]
    · rw [happlies.others call hcall] at hw
      exact hold w hw rfl rfl hid

theorem step (h : s.Youngest x key) (htraced : s.Traced key)
    (hsound : s.Sound hash ring quorum) {action : CallAction T}
    (hguard : s.SoleWriter x key action)
    (hnext : s.next hash c ring quorum action = some t) : t.Youngest x key where
  putBy := fun _ _ hw hkey => h.putBy_next htraced hguard hnext hw hkey
  newest := fun _ _ _ _ hunsettled hw hw' hkey' =>
    h.newest_next hsound hguard hnext hunsettled hw hw' hkey'
  applied := fun _ _ hw hkey _ hid =>
    h.applied_next htraced hsound hnext hw hkey hid

end Youngest

/-! ## What reads hear -/

/-- What a run of puts through one node keeps. -/
structure Sole (hash : String → UInt64) (ring : HashRing)
    (quorum : QuorumConfig) (x key : String) (s : Traffic T) : Prop where
  sound : s.Sound hash ring quorum
  traced : s.Traced key
  youngest : s.Youngest x key

namespace Sole

omit [DecidableEq T] in
theorem start {cluster : Cluster}
    (hfresh : ∀ id, (cluster.engines id).getRaw key = none) :
    (start T cluster).Sole hash ring quorum x key where
  sound := .start cluster
  traced := by
    refine ⟨fun id v hv => ?_, fun call r hr => by cases hr⟩
    exact absurd ((hfresh id).symm.trans hv) (by simp)
  youngest := by
    refine ⟨fun call w hw => ?_, fun call w other w' _ hw => ?_,
      fun call w hw => ?_⟩
    · cases hw
    · cases hw
    · cases hw

theorem step (h : s.Sole hash ring quorum x key) {action : CallAction T}
    (hguard : s.SoleWriter x key action)
    (hnext : s.next hash c ring quorum action = some t) :
    t.Sole hash ring quorum x key where
  sound := h.sound.step hnext
  traced := h.traced.step h.sound hnext
  youngest := h.youngest.step h.traced h.sound hguard hnext

omit [DecidableEq T] in
/-- What a read of the key has heard is as a put of the key made it. -/
theorem heard (h : s.Sole hash ring quorum x key) {call : T} {r : Read}
    (hr : (s.calls call).read? = some r) (hkey : r.key = key) {id : String}
    {v : VersionedValue} (hheard : r.Heard id (some v)) :
    OfNode x v ∧ ∃ writer w value, (s.calls writer).write? = some w ∧
      w.key = key ∧ w.body = .put value 0 v.timestampMs v := by
  have hmade : s.Made key v := by
    rcases h.traced.heard call r hr hkey id v hheard with hmade | ⟨u, hmade, rfl⟩
    · exact hmade
    · have hmade' := hmade
      obtain ⟨writer, w, hw, hwkey, hleaves⟩ := hmade'
      have hlive := ((h.youngest.putBy writer w hw hwkey).leaves hleaves).1.live
      rw [← hlive]
      exact hmade
  obtain ⟨writer, w, hw, hwkey, hleaves⟩ := hmade
  have hput := h.youngest.putBy writer w hw hwkey
  obtain ⟨value, hbody⟩ := hput.eq_put (h.sound.formed hw) hleaves
  exact ⟨(hput.leaves hleaves).1, writer, w, value, hw, hwkey, hbody⟩

end Sole

/-- These nodes store something of the key that is no older than the bound, and
the read has heard nothing older from them. -/
structure NotOlder (key : String) (ids : Finset String) (bound : Int64)
    (get : T) (s : Traffic T) : Prop where
  stored : ∀ id ∈ ids, ∃ v, (s.cluster.engines id).getRaw key = some v ∧
    bound ≤ v.timestampMs
  heard : ∀ r, (s.calls get).read? = some r → r.key = key → ∀ id ∈ ids,
    ∀ stored, r.Heard id stored → ∃ v, stored = some v ∧ bound ≤ v.timestampMs

theorem NotOlder.step {ids : Finset String} {bound : Int64} {get : T}
    (h : s.NotOlder key ids bound get) (hsole : s.Sole hash ring quorum x key)
    {action : CallAction T} (hnext : s.next hash c ring quorum action = some t) :
    t.NotOlder key ids bound get where
  stored := by
    intro id hid
    obtain ⟨v, hv, hle⟩ := h.stored id hid
    obtain ⟨v', hv', hle'⟩ := hsole.youngest.grows hsole.traced hsole.sound hnext
      hv
    exact ⟨v', hv', Int64.le_trans hle hle'⟩
  heard := by
    intro r hr hkey id hid stored hheard
    rcases heard_step hnext hr hheard with ⟨r', hr', hkey', hheard'⟩ | hshows
    · exact h.heard r' hr' (hkey'.trans hkey) id hid stored hheard'
    · obtain ⟨v, hv, hle⟩ := h.stored id hid
      rw [hkey] at hshows
      rcases hshows with hraw | hmarked
      · exact ⟨v, hraw.trans hv, hle⟩
      · exact ⟨{ v with deleted := false }, by rw [hmarked, hv]; rfl, hle⟩

end Traffic

/-- The read has an answer of this replica: of its own node, or of a peer. -/
def Read.Answered (hash : String → UInt64) (ring : HashRing) (r : Read)
    (id : String) : Prop :=
  id = r.coordinator ∧ r.own.isSome = true ∨
    id ∈ (r.peers hash ring).map Node.id ∧
      ∃ response, r.results id = some (.ok response)

theorem Read.Answered.heard {hash : String → UInt64} {ring : HashRing} {r : Read}
    {id : String} (h : r.Answered hash ring id) :
    ∃ stored, r.Heard id stored ∧ stored ∈ r.answers hash ring := by
  rcases h with ⟨rfl, hown⟩ | ⟨hpeer, response, hresult⟩
  · obtain ⟨stored, hstored⟩ := Option.isSome_iff_exists.mp hown
    exact ⟨stored, .own hstored,
      List.mem_append_left _ (Option.mem_toList.mpr hstored)⟩
  · obtain ⟨node, hnode, rfl⟩ := List.mem_map.mp hpeer
    refine ⟨_, .peer hresult, List.mem_append_right _ ?_⟩
    exact List.mem_map.mpr ⟨node, hnode, by rw [hresult]; rfl⟩

/-- Among versions of one node a read returns one that is no older than any it
has. -/
theorem Read.value_of_node {hash : String → UInt64} {ring : HashRing}
    (r : Read) (quorum : QuorumConfig) {x : String}
    (hof : ∀ v, some v ∈ r.answers hash ring → OfNode x v) {v : VersionedValue}
    (hv : some v ∈ r.answers hash ring) (now : Int64) :
    ∃ best, (r.result hash ring quorum now).value = some best ∧
      some best ∈ r.answers hash ring ∧ v.timestampMs ≤ best.timestampMs := by
  have hlive : v ∈ liveAnswers now (r.answers hash ring) :=
    mem_liveAnswers.mpr ⟨hv, (hof v hv).live,
      VersionedValue.isExpired_of_ttl_zero (hof v hv).forever now⟩
  rw [result_eq, resolveConflicts_eq]
  cases hbest : contest Wins (liveAnswers now (r.answers hash ring)) with
  | none =>
      rw [contest_eq_none_iff] at hbest
      rw [hbest] at hlive
      cases hlive
  | some best =>
      refine ⟨best, rfl, (mem_liveAnswers.mp (mem_of_contest hbest)).1, ?_⟩
      rw [Int64.le_iff_toInt_le]
      refine le_of_contest (fun u => u.timestampMs.toInt) ?_ hbest v hlive
      intro a ha b hb
      exact wins_iff_of_node (hof a (mem_liveAnswers.mp ha).1)
        (hof b (mem_liveAnswers.mp hb).1)

theorem exists_shared_replica {hash : String → UInt64} {ring : HashRing}
    {key : String} {readers writers : Finset String}
    (hreaders : ∀ id ∈ readers, ring.isResponsible hash id key = true)
    (hwriters : ∀ id ∈ writers, ring.isResponsible hash id key = true)
    (hmeet : (ring.getNodes hash key).length < readers.card + writers.card) :
    ∃ id, id ∈ readers ∧ id ∈ writers := by
  have hground : ((ring.getNodes hash key).map Node.id).toFinset.card <
      readers.card + writers.card := by
    refine lt_of_le_of_lt (List.toFinset_card_le _) ?_
    rwa [List.length_map]
  have hreplica : ∀ id, ring.isResponsible hash id key = true →
      id ∈ ((ring.getNodes hash key).map Node.id).toFinset := fun id hid =>
    List.mem_toFinset.mpr (HashRing.isResponsible_iff.mp hid)
  obtain ⟨id, hid⟩ := Finset.inter_nonempty_of_card_lt_card_add_card
    (fun id hid => hreplica id (hreaders id hid))
    (fun id hid => hreplica id (hwriters id hid)) hground
  exact ⟨id, Finset.mem_inter.mp hid⟩

/-- A key is put through one node only, one put after the other and at later and
later readings, while reads overlap them and each other in any way.  A read that
begins after a put has returned, where the replicas it has an answer of and those
that acknowledged the put are together more than there are, returns this put or
a later one. -/
theorem read_sees_acked_put {T : Type} [DecidableEq T] (hash : String → UInt64)
    (c : Codecs) (ring : HashRing) (quorum : QuorumConfig) {cluster : Cluster}
    {x key : String} (hfresh : ∀ id, (cluster.engines id).getRaw key = none)
    {first later : List (CallAction T)} {s t : Traffic T}
    (hfirst : Run (Traffic.next hash c ring quorum) (Traffic.SoleWriter x key)
      (.start T cluster) first s)
    {put get : T} {w : Write} {acked : QuorumResult (Option VectorClock)}
    (hput : s.calls put = .wrote w acked) (hkey : w.key = key)
    (hidle : s.calls get = .idle)
    (hlater : Run (Traffic.next hash c ring quorum) (Traffic.SoleWriter x key) s
      later t)
    {r : Read} {now : Int64} {result : QuorumResult VersionedValue}
    (hread : t.calls get = .read r now result) (hrkey : r.key = key)
    (readers : Finset String)
    (hreaders : ∀ id ∈ readers, ring.isResponsible hash id key = true ∧
      r.Answered hash ring id)
    (hmeet : (ring.getNodes hash key).length < readers.card + acked.successes) :
    ∃ v writer w' value made, result.value = some v ∧
      (t.calls writer).write? = some w' ∧ w'.key = key ∧
      w'.body = .put value 0 made v ∧ w.body.made ≤ made := by
  have hsole : s.Sole hash ring quorum x key :=
    hfirst.invariant (fun _ _ _ h hguard hnext => h.step hguard hnext)
      (.start hfresh)
  have hw := hsole.sound.calls put
  rw [hput] at hw
  obtain ⟨hsound, -, rfl⟩ := hw
  obtain ⟨writers, hwriters, hcard⟩ := hsound.exists_applied quorum
  have hstart : s.NotOlder key writers w.body.made get := by
    refine ⟨fun id hid => ?_, fun r hr => ?_⟩
    · exact hsole.youngest.applied put w (by rw [hput]; rfl) hkey id
        (hwriters id hid)
    · rw [hidle] at hr
      cases hr
  obtain ⟨hend, hnotOlder⟩ : t.Sole hash ring quorum x key ∧
      t.NotOlder key writers w.body.made get :=
    hlater.invariant (I := fun t => t.Sole hash ring quorum x key ∧
        t.NotOlder key writers w.body.made get)
      (fun _ _ _ h hguard hnext => ⟨h.1.step hguard hnext, h.2.step h.1 hnext⟩)
      ⟨hsole, hstart⟩
  have hcall := hend.sound.calls get
  rw [hread] at hcall
  obtain ⟨-, rfl⟩ := hcall
  have hr : (t.calls get).read? = some r := by
    rw [hread]
    rfl
  -- some replica has acknowledged the put and answered the read
  obtain ⟨id, hid, hid'⟩ := exists_shared_replica
    (fun id hid => (hreaders id hid).1)
    (fun id hid => hkey ▸ hsound.replicas id (hwriters id hid))
    (show (ring.getNodes hash key).length < readers.card + writers.card by omega)
  obtain ⟨stored, hheard, hanswer⟩ := (hreaders id hid).2.heard
  obtain ⟨u, rfl, hbound⟩ := hnotOlder.heard r hr hrkey id hid' stored hheard
  have hof : ∀ v, some v ∈ r.answers hash ring → OfNode x v := by
    intro v hv
    obtain ⟨other, hother⟩ := Read.heard_of_answer hv
    exact (hend.heard hr hrkey hother).1
  obtain ⟨v, hv, hmem, hyounger⟩ := r.value_of_node quorum hof hanswer now
  obtain ⟨other, hother⟩ := Read.heard_of_answer hmem
  obtain ⟨-, writer, w', value, hw', hwkey, hbody⟩ := hend.heard hr hrkey hother
  exact ⟨v, writer, w', value, v.timestampMs, hv, hw', hwkey, hbody,
    Int64.le_trans hbound hyounger⟩

theorem CallState.exists_of_returned_read {state : CallState} {r : Read}
    (hr : state.read? = some r) (hreturned : state.returned = true) :
    ∃ now result, state = .read r now result := by
  cases state with
  | idle | begun _ | written _ | waiting _ | wrote _ _ => cases hr
  | reading _ => cases hreturned
  | read _ now result =>
      cases hr
      exact ⟨now, result, rfl⟩

/-- A put that `node2` misses. -/
def missedPut : List (CallAction (Fin 3)) :=
  [.beginPut 0 "node1" "k" [1] 0 0 1700000000000, .own 0 1700000000001, .send 0,
    .arrive 0 1700000000002, .lose 0, .ack 0 "node3", .giveUp 0 "node2",
    .finish 0]

/-- A read through `node2` that does not hear `node1`, where the next put is under
way. -/
def overlappingRead : List (CallAction (Fin 3)) :=
  [.beginPut 1 "node1" "k" [2] 0 0 1700000000003, .own 1 1700000000004,
    .beginGet 2 "node2" "k" 0, .send 1, .reply 2 "node1" .timeout,
    .reply 2 "node3" .answers, .finishGet 2 1700000000005]

theorem read_sees_missed_put :
    let c := Storage.referenceCodecs
    let cluster := Cluster.fresh c 1048576 3
    let next := Traffic.next (T := Fin 3) Ring.sha256Labels c Ring.threeNodes
      .defaultStrong
    ∃ s t w acked r now result v,
      Run next (Traffic.SoleWriter "node1" "k") (.start (Fin 3) cluster) missedPut
        s ∧
      Run next (Traffic.SoleWriter "node1" "k") s overlappingRead t ∧
      s.calls 0 = .wrote w acked ∧ acked.successes = 2 ∧
      t.calls 2 = .read r now result ∧ result.value = some v ∧
      ∃ writer w' value made, (t.calls writer).write? = some w' ∧
        w'.key = "k" ∧ w'.body = .put value 0 made v ∧ w.body.made ≤ made := by
  intro c cluster next
  let within := runActions (guarded next (Traffic.SoleWriter "node1" "k"))
  have hfirst : ((within (.start (Fin 3) cluster) missedPut).any fun s =>
      (s.calls 0).write?.any (fun w => w.key == "k") &&
      (s.calls 0).result?.any (fun acked => acked.successes == 2) &&
      ((s.calls 2).write?.isNone && (s.calls 2).read?.isNone) &&
      (within s overlappingRead).any fun t => (t.calls 2).returned &&
        (t.calls 2).read?.any fun r => r.key == "k" &&
          r.coordinator == "node2" && r.own.isSome &&
          decide ("node3" ∈ (r.peers Ring.sha256Labels Ring.threeNodes).map
            Node.id) &&
          (r.results "node3").any fun outcome =>
            outcome.succeeded fun _ => true) = true := by
    decide +kernel
  rw [Option.any_eq_true] at hfirst
  obtain ⟨s, hs, hlater⟩ := hfirst
  simp only [Bool.and_eq_true, Option.any_eq_true] at hlater
  obtain ⟨⟨⟨⟨w, hw, hkey⟩, acked, hacked, htwo⟩, hwrite, hread⟩, t, ht, hended,
    r, hr, ⟨⟨⟨hrkey, hcoordinator⟩, hown⟩, hpeer⟩, outcome, houtcome, hok⟩ := hlater
  have hidle := CallState.idle_of_none hwrite hread
  have hput : s.calls 0 = .wrote w acked := by
    obtain ⟨w', hw'⟩ := CallState.exists_of_result?_eq_some hacked
    rw [hw'] at hw ⊢
    cases hw
    rfl
  obtain ⟨now, result, hcall⟩ := CallState.exists_of_returned_read hr hended
  have hanswer : ∃ response, r.results "node3" = some (.ok response) := by
    cases outcome with
    | ok response => exact ⟨response, houtcome⟩
    | error | timeout => cases hok
  have hreaders : ∀ id ∈ ({"node2", "node3"} : Finset String),
      Ring.threeNodes.isResponsible Ring.sha256Labels id "k" = true ∧
        r.Answered Ring.sha256Labels Ring.threeNodes id := by
    intro id hid
    rw [Finset.mem_insert, Finset.mem_singleton] at hid
    rcases hid with rfl | rfl
    · exact ⟨by decide +kernel, .inl ⟨(beq_iff_eq.mp hcoordinator).symm, hown⟩⟩
    · exact ⟨by decide +kernel, .inr ⟨of_decide_eq_true hpeer, hanswer⟩⟩
  have hmeet : (Ring.threeNodes.getNodes Ring.sha256Labels "k").length <
      ({"node2", "node3"} : Finset String).card + acked.successes := by
    rw [beq_iff_eq.mp htwo]
    decide +kernel
  have hrun := Run.of_guarded hs
  have hrun' := Run.of_guarded ht
  obtain ⟨v, writer, w', value, made, hv, hw', hbody⟩ := read_sees_acked_put
    Ring.sha256Labels c Ring.threeNodes .defaultStrong
    (fun id => StorageEngine.getRaw_fresh c _ "k") hrun hput
    (beq_iff_eq.mp hkey) hidle hrun' hcall (beq_iff_eq.mp hrkey)
    {"node2", "node3"} hreaders hmeet
  exact ⟨s, t, w, acked, r, now, result, v, hrun, hrun', hput,
    beq_iff_eq.mp htwo, hcall, hv, writer, w', value, made, hw', hbody⟩

end Rkv.Replication
