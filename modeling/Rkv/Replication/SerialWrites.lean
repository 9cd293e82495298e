import Rkv.Replication.OneStep

/-!
# Writes of a key one after the other

Where a write of a key begins only when no other write of it is under way, nor
any request of one in flight, the replicas hold of that key in every state what
its writes leave when each of them is made at once, in the order in which they
came past their own nodes, whatever happens to other keys meanwhile.
-/

namespace Rkv.Replication

open Rkv.Foundation
open Rkv.Grpc
open Rkv.Ring (Node HashRing)
open Rkv.Storage (Bytes Codecs StorageEngine VectorClock VersionedValue)

namespace CallState

/-- The call has its place in the order. -/
def placed : CallState → Bool
  | written _ | waiting _ | wrote _ _ | read _ _ _ => true
  | idle | begun _ | reading _ => false

def returned : CallState → Bool
  | wrote _ _ | read _ _ _ => true
  | idle | begun _ | written _ | waiting _ | reading _ => false

/-- The write of this key that has come past its own node. -/
def writeOn (key : String) (state : CallState) : Option Write :=
  state.started?.filter fun w => w.key == key

theorem writeOn_eq_some {key : String} {state : CallState} {w : Write} :
    state.writeOn key = some w ↔ state.started? = some w ∧ w.key = key := by
  simp [writeOn, Option.filter_eq_some_iff]

theorem writeOn_of_ne {key : String} {state : CallState} {w : Write}
    (hw : state.started? = some w) (hkey : w.key ≠ key) :
    state.writeOn key = none := by
  rw [writeOn, hw, Option.filter_some, if_neg (by simpa using hkey)]

end CallState

/-- The call and the key of a write that begins. -/
def CallAction.begins {T : Type} : CallAction T → Option (T × String)
  | .beginPut call _ key _ _ _ _ => some (call, key)
  | .beginDelete call _ key _ => some (call, key)
  | _ => none

namespace Traffic

variable {T : Type} {hash : String → UInt64} {c : Codecs} {ring : HashRing}
  {quorum : QuorumConfig} {s t : Traffic T} {key : String}

/-- Every call that has taken effect is in the order, once. -/
structure Ordered (s : Traffic T) : Prop where
  nodup : s.order.Nodup
  placed : ∀ call, call ∈ s.order ↔ (s.calls call).placed = true

/-- The writes of the key among these calls. -/
def writesOf (key : String) (s : Traffic T) (calls : List T) : List Write :=
  calls.filterMap fun call => (s.calls call).writeOn key

theorem writesOf_congr {calls : List T}
    (h : ∀ call ∈ calls, (t.calls call).writeOn key = (s.calls call).writeOn key) :
    t.writesOf key calls = s.writesOf key calls :=
  List.filterMap_congr h

theorem writesOf_append (s : Traffic T) (front back : List T) :
    s.writesOf key (front ++ back) = s.writesOf key front ++ s.writesOf key back :=
  List.filterMap_append

theorem writesOf_eq_nil {calls : List T}
    (h : ∀ call ∈ calls, (s.calls call).writeOn key = none) :
    s.writesOf key calls = [] :=
  List.filterMap_eq_nil_iff.mpr h

/-- A write of the key that has not returned, or a request of which is in
flight. -/
def Unsettled (key : String) (s : Traffic T) (call : T) : Prop :=
  ∃ w, (s.calls call).write? = some w ∧ w.key = key ∧
    ((s.calls call).result? = none ∨ ∃ sent ∈ s.inFlight, sent.call = call)

instance [DecidableEq T] (key : String) (s : Traffic T) (call : T) :
    Decidable (s.Unsettled key call) :=
  decidable_of_iff
    ((∃ w ∈ (s.calls call).write?, w.key = key) ∧
      ((s.calls call).result?.isNone = true ∨
        ∃ sent ∈ s.inFlight, sent.call = call))
    (by simp only [Unsettled, ← and_assoc, exists_and_right, Option.mem_def,
      Option.isNone_iff_eq_none])

/-- No write of the key begins while another is unsettled. -/
def WritesApart (key : String) (s : Traffic T) (action : CallAction T) : Prop :=
  ∀ call, action.begins = some (call, key) → ∀ other, ¬s.Unsettled key other

/-- A call that has not returned is unsettled for the key it writes. -/
theorem unsettled_of_open {call : T} {state : CallState} {w : Write}
    (hcall : s.calls call = state) (hw : state.write? = some w)
    (hopen : state.result? = none) (hkey : w.key = key) :
    s.Unsettled key call := by
  subst hcall
  exact ⟨w, hw, hkey, .inl hopen⟩

variable [DecidableEq T]

theorem Ordered.same (h : s.Ordered) {call : T} {state : CallState}
    (hcalls : t.calls = Function.update s.calls call state)
    (horder : t.order = s.order)
    (hplaced : state.placed = (s.calls call).placed) : t.Ordered where
  nodup := horder ▸ h.nodup
  placed := by
    intro other
    rw [horder, hcalls, h.placed]
    by_cases heq : other = call
    · subst heq
      rw [Function.update_self, hplaced]
    · rw [Function.update_of_ne heq]

theorem Ordered.place (h : s.Ordered) {call : T} {state : CallState}
    (hcalls : t.calls = Function.update s.calls call state)
    (horder : t.order = s.order ++ [call])
    (hbefore : (s.calls call).placed = false) (hplaced : state.placed = true) :
    t.Ordered where
  nodup := by
    rw [horder, List.nodup_append]
    refine ⟨h.nodup, List.nodup_singleton call, fun a ha b hb => ?_⟩
    rw [List.mem_singleton.mp hb]
    rintro rfl
    rw [h.placed, hbefore] at ha
    contradiction
  placed := by
    intro other
    rw [horder, hcalls, List.mem_append, List.mem_singleton, h.placed]
    by_cases heq : other = call
    · subst heq
      simp [hplaced]
    · simp [heq]

theorem Ordered.step (h : s.Ordered) {action : CallAction T}
    (hnext : s.next hash c ring quorum action = some t) : t.Ordered := by
  cases step_of_next hnext with
  | beginPut hidle | beginDelete hidle | beginGet hidle =>
      exact h.same rfl rfl (by rw [hidle]; rfl)
  | @own call now w hbegun =>
      obtain ⟨w', hcalls, -, -, -, horder⟩ := s.writeOwn_frame call w now
      exact h.place hcalls horder (by rw [hbegun]; rfl) rfl
  | send hwritten => exact h.same rfl rfl (by rw [hwritten]; rfl)
  | @arrive index now sent hsent =>
      refine h.same rfl rfl ?_
      cases s.calls sent.call <;> rfl
  | lose hindex => exact ⟨h.nodup, h.placed⟩
  | ack hwaiting | giveUp hwaiting | finish hwaiting =>
      exact h.same rfl rfl (by rw [hwaiting]; rfl)
  | reply hreading => exact h.same rfl rfl (by rw [hreading]; rfl)
  | finishGet hreading => exact h.place rfl rfl (by rw [hreading]; rfl) rfl

/-! ### Their steps -/

theorem Unsettled.update {other : T} (h : t.Unsettled key other) {call : T}
    {state : CallState} (hcalls : t.calls = Function.update s.calls call state)
    (hflight : ∀ sent ∈ t.inFlight, sent ∈ s.inFlight ∨ sent.call = call)
    (hstate : ∀ w, state.write? = some w → w.key = key →
      s.Unsettled key call) : s.Unsettled key other := by
  obtain ⟨w, hw, hkey, hopen⟩ := h
  rw [hcalls] at hw hopen
  by_cases heq : other = call
  · subst heq
    rw [Function.update_self] at hw
    exact hstate w hw hkey
  · rw [Function.update_of_ne heq] at hw hopen
    refine ⟨w, hw, hkey, hopen.imp_right ?_⟩
    rintro ⟨sent, hsent, hcall⟩
    rcases hflight sent hsent with hold | hnew
    · exact ⟨sent, hold, hcall⟩
    · exact absurd (hcall.symm.trans hnew) heq

theorem Unsettled.begun {call other : T} {w : Write}
    (h : (s.setCall call (.begun w)).Unsettled key other) :
    s.Unsettled key other ∨ other = call ∧ w.key = key := by
  obtain ⟨w', hw, hkey, hopen⟩ := h
  by_cases heq : other = call
  · subst heq
    rw [calls_setCall_self] at hw
    cases hw
    exact .inr ⟨rfl, hkey⟩
  · rw [s.calls_setCall_of_ne heq] at hw hopen
    exact .inl ⟨w', hw, hkey, hopen⟩

/-- A write is unsettled from its begin. -/
theorem unsettled_step (h : s.Sound hash ring quorum)
    {action : CallAction T}
    (hnext : s.next hash c ring quorum action = some t) {other : T}
    (hother : t.Unsettled key other) :
    s.Unsettled key other ∨ action.begins = some (other, key) := by
  cases step_of_next hnext with
  | beginPut hidle =>
      refine hother.begun.imp_right ?_
      rintro ⟨rfl, rfl⟩
      rfl
  | beginDelete hidle =>
      refine hother.begun.imp_right ?_
      rintro ⟨rfl, rfl⟩
      rfl
  | @own call now w hbegun =>
      obtain ⟨w', hcalls, hsame, -, hflight, -⟩ := s.writeOwn_frame call w now
      refine .inl (hother.update hcalls (fun sent hsent => .inl (hflight ▸ hsent))
        ?_)
      intro v hv hkey
      cases hv
      exact unsettled_of_open hbegun rfl rfl (hsame ▸ hkey)
  | send hwritten =>
      refine .inl (hother.update rfl (fun sent hsent => ?_) ?_)
      · rcases List.mem_append.mp hsent with hold | hnew
        · exact .inl hold
        · obtain ⟨node, -, rfl⟩ := List.mem_map.mp hnew
          exact .inr rfl
      · intro w' hw' hkey
        cases hw'
        exact unsettled_of_open hwritten rfl rfl hkey
  | @arrive index now sent hsent =>
      refine .inl (hother.update rfl
        (fun sent hsent => .inl (List.mem_of_mem_eraseIdx hsent)) ?_)
      have hmem := List.mem_of_getElem? hsent
      obtain ⟨w, hw, -⟩ := h.pending sent hmem
      intro w' hw' hkey
      rcases CallState.sent?_eq_some.mp hw with hcall | ⟨result, hcall⟩
      · rw [hcall] at hw'
        cases hw'
        exact unsettled_of_open hcall rfl rfl hkey
      · rw [hcall] at hw'
        cases hw'
        exact ⟨w, by rw [hcall]; rfl, hkey, .inr ⟨sent, hmem, rfl⟩⟩
  | lose hindex =>
      obtain ⟨w, hw, hkey, hopen⟩ := hother
      refine .inl ⟨w, hw, hkey, hopen.imp_right ?_⟩
      rintro ⟨sent, hsent, hcall⟩
      exact ⟨sent, List.mem_of_mem_eraseIdx hsent, hcall⟩
  | ack hwaiting | giveUp hwaiting | finish hwaiting =>
      refine .inl (hother.update rfl (fun sent hsent => .inl hsent) ?_)
      intro w' hw' hkey
      cases hw'
      exact unsettled_of_open hwaiting rfl rfl hkey
  | beginGet | reply | finishGet =>
      refine .inl (hother.update rfl (fun sent hsent => .inl hsent) ?_)
      intro w' hw'
      cases hw'

theorem idle_of_begins {action : CallAction T}
    (hnext : s.next hash c ring quorum action = some t) {call : T} {k : String}
    (hbegins : action.begins = some (call, k)) : s.calls call = .idle := by
  cases step_of_next hnext with
  | beginPut hidle | beginDelete hidle =>
      cases hbegins
      exact hidle
  | _ => cases hbegins

/-! ## Writes one after the other -/

/-- The cluster holds of the key what its writes leave, each made at once, and at
most one of them, the last, is unsettled. -/
structure Serial (hash : String → UInt64) (c : Codecs) (ring : HashRing)
    (quorum : QuorumConfig) (cluster : Cluster) (key : String)
    (s : Traffic T) : Prop where
  agrees : Cluster.AgreesOn key s.cluster
    (cluster.runWrites hash c ring quorum (s.writesOf key s.order))
  made : cluster.MadeAll hash c ring quorum (s.writesOf key s.order)
  begun : ∀ call w, s.calls call = .begun w → w.key = key →
    w.MadeAt (cluster.runWrites hash c ring quorum (s.writesOf key s.order))
  solo : ∀ call other, s.Unsettled key call → s.Unsettled key other →
    call = other
  last : ∀ call w, s.Unsettled key call → (s.calls call).writeOn key = some w →
    ∃ front back, s.order = front ++ call :: back ∧
      ∀ other ∈ back, (s.calls other).writeOn key = none

namespace Serial

variable {cluster : Cluster}

omit [DecidableEq T] in
/-- A step that does nothing to the writes of the key. -/
theorem aside (h : s.Serial hash c ring quorum cluster key)
    (hsame : ∀ call, (t.calls call).writeOn key = (s.calls call).writeOn key)
    {extra : List T} (horder : t.order = s.order ++ extra)
    (hextra : ∀ call ∈ extra, (s.calls call).writeOn key = none)
    (hcluster : Cluster.AgreesOn key t.cluster s.cluster)
    (hbegun : ∀ call w, t.calls call = .begun w → w.key = key →
      s.calls call = .begun w)
    (hunsettled : ∀ call, t.Unsettled key call → s.Unsettled key call) :
    t.Serial hash c ring quorum cluster key := by
  have hwrites : t.writesOf key t.order = s.writesOf key s.order := by
    rw [writesOf_congr fun call _ => hsame call, horder, writesOf_append,
      writesOf_eq_nil hextra, List.append_nil]
  refine ⟨?_, ?_, ?_, ?_, ?_⟩
  · rw [hwrites]
    exact fun id => (hcluster id).trans (h.agrees id)
  · rw [hwrites]
    exact h.made
  · intro call w hcall hkey
    rw [hwrites]
    exact h.begun call w (hbegun call w hcall hkey) hkey
  · exact fun call other hcall hother =>
      h.solo call other (hunsettled call hcall) (hunsettled other hother)
  · intro call w hcall hw
    rw [hsame] at hw
    obtain ⟨front, back, hsplit, hback⟩ := h.last call w (hunsettled call hcall)
      hw
    refine ⟨front, back ++ extra, ?_, ?_⟩
    · rw [horder, hsplit, List.append_assoc, List.cons_append]
    · intro other hother
      rw [hsame]
      rcases List.mem_append.mp hother with hold | hnew
      · exact hback other hold
      · exact hextra other hnew

/-- A write of the key begins. -/
theorem begin (h : s.Serial hash c ring quorum cluster key)
    (hquiet : ∀ call, ¬s.Unsettled key call) {call : T} {w : Write}
    (hidle : s.calls call = .idle)
    (hmade : w.MadeAt (cluster.runWrites hash c ring quorum
      (s.writesOf key s.order))) :
    (s.setCall call (.begun w)).Serial hash c ring quorum cluster key := by
  have hsame : ∀ other, ((s.setCall call (.begun w)).calls other).writeOn key =
      (s.calls other).writeOn key := by
    intro other
    by_cases heq : other = call
    · subst heq
      rw [calls_setCall_self, hidle]
      rfl
    · rw [s.calls_setCall_of_ne heq]
  have hwrites : (s.setCall call (.begun w)).writesOf key s.order =
      s.writesOf key s.order := writesOf_congr fun other _ => hsame other
  have honly : ∀ other, (s.setCall call (.begun w)).Unsettled key other →
      other = call := by
    intro other hother
    rcases hother.begun with hold | hnew
    · exact absurd hold (hquiet other)
    · exact hnew.1
  refine ⟨?_, ?_, ?_, ?_, ?_⟩
  · change Cluster.AgreesOn key s.cluster (cluster.runWrites hash c ring quorum
      ((s.setCall call (.begun w)).writesOf key s.order))
    rw [hwrites]
    exact h.agrees
  · change cluster.MadeAll hash c ring quorum
      ((s.setCall call (.begun w)).writesOf key s.order)
    rw [hwrites]
    exact h.made
  · intro other w' hother hkey
    change w'.MadeAt (cluster.runWrites hash c ring quorum
      ((s.setCall call (.begun w)).writesOf key s.order))
    rw [hwrites]
    obtain rfl := honly other (unsettled_of_open hother rfl rfl hkey)
    rw [calls_setCall_self] at hother
    cases hother
    exact hmade
  · exact fun one other hone hother =>
      (honly one hone).trans (honly other hother).symm
  · intro other w' hother hw'
    obtain rfl := honly other hother
    rw [calls_setCall_self] at hw'
    cases hw'

omit [DecidableEq T] in
/-- A write of the key comes past its own node. -/
theorem place (h : s.Serial hash c ring quorum cluster key) (hs : s.Ordered)
    {call : T} {w w' : Write} (hbegun : s.calls call = .begun w)
    (hwkey : w.key = key) (hw' : (t.calls call).writeOn key = some w')
    (hmade : ∀ before, w.MadeAt before → w'.MadeAt before)
    (hothers : ∀ other, other ≠ call → t.calls other = s.calls other)
    (horder : t.order = s.order ++ [call]) (hsound : w'.Sound hash ring)
    (hleft : ∀ before, Cluster.AgreesOn key s.cluster before →
      w'.Left before t.cluster)
    (hunsettled : ∀ other, t.Unsettled key other → s.Unsettled key other) :
    t.Serial hash c ring quorum cluster key := by
  have hkey := (CallState.writeOn_eq_some.mp hw').2
  have hnew : ∀ other ∈ s.order, other ≠ call := by
    rintro other hother rfl
    rw [hs.placed, hbegun] at hother
    contradiction
  have hwrites : t.writesOf key t.order = s.writesOf key s.order ++ [w'] := by
    have hold : t.writesOf key s.order = s.writesOf key s.order :=
      writesOf_congr fun other hother => by rw [hothers other (hnew other hother)]
    rw [horder, writesOf_append, hold]
    simp [writesOf, hw']
  have hbefore := hmade _ (h.begun call w hbegun hwkey)
  have honly : ∀ other, t.Unsettled key other → other = call :=
    fun other hother => h.solo other call (hunsettled other hother)
      (unsettled_of_open hbegun rfl rfl hwkey)
  refine ⟨?_, ?_, ?_, ?_, ?_⟩
  · rw [hwrites, Cluster.runWrites_concat,
      ← Write.left_iff hsound hbefore hkey]
    exact hleft _ h.agrees
  · rw [hwrites]
    exact Cluster.madeAll_concat.mpr ⟨h.made, hbefore⟩
  · intro other v hother hvkey
    obtain rfl := honly other (unsettled_of_open hother rfl rfl hvkey)
    rw [hother] at hw'
    cases hw'
  · exact fun one other hone hother =>
      (honly one hone).trans (honly other hother).symm
  · intro other v hother _
    obtain rfl := honly other hother
    exact ⟨s.order, [], horder, by simp⟩

omit [DecidableEq T] in
/-- Something becomes of the last write of the key. -/
theorem revise (h : s.Serial hash c ring quorum cluster key) (hs : s.Ordered)
    (hsound : s.Sound hash ring quorum) {call : T} {w w' : Write}
    (hcall : s.Unsettled key call) (hw : (s.calls call).writeOn key = some w)
    (hw' : (t.calls call).writeOn key = some w')
    (hmade : ∀ before, w.MadeAt before → w'.MadeAt before)
    (hothers : ∀ other, other ≠ call → t.calls other = s.calls other)
    (horder : t.order = s.order) (hsound' : w'.Sound hash ring)
    (hleft : ∀ before, w.Left before s.cluster → w'.Left before t.cluster)
    (hunsettled : ∀ other, t.Unsettled key other → s.Unsettled key other) :
    t.Serial hash c ring quorum cluster key := by
  obtain ⟨front, back, hsplit, hback⟩ := h.last call w hcall hw
  obtain ⟨hstarted, hkey⟩ := CallState.writeOn_eq_some.mp hw
  have hkey' := (CallState.writeOn_eq_some.mp hw').2
  have hnodup := hs.nodup
  rw [hsplit, List.nodup_middle, List.nodup_cons, List.mem_append] at hnodup
  have hfront : ∀ other ∈ front, other ≠ call := by
    rintro other hother rfl
    exact hnodup.1 (.inl hother)
  have hrest : ∀ other ∈ back, other ≠ call := by
    rintro other hother rfl
    exact hnodup.1 (.inr hother)
  have hbefore : s.writesOf key s.order = s.writesOf key front ++ [w] := by
    rw [hsplit, writesOf_append]
    simp [writesOf, hw, List.filterMap_eq_nil_iff.mpr hback]
  have hback' : ∀ other ∈ back, (t.calls other).writeOn key = none := by
    intro other hother
    rw [hothers other (hrest other hother)]
    exact hback other hother
  have hafter : t.writesOf key t.order = s.writesOf key front ++ [w'] := by
    have hold : t.writesOf key front = s.writesOf key front :=
      writesOf_congr fun other hother => by
        rw [hothers other (hfront other hother)]
    rw [horder, hsplit, writesOf_append, hold]
    simp [writesOf, hw', List.filterMap_eq_nil_iff.mpr hback']
  have hsw : w.Sound hash ring := (hsound.calls call).write hstarted
  have hmadeAll := h.made
  rw [hbefore, Cluster.madeAll_concat] at hmadeAll
  have hagrees := h.agrees
  rw [hbefore, Cluster.runWrites_concat,
    ← Write.left_iff hsw hmadeAll.2 hkey] at hagrees
  have honly : ∀ other, t.Unsettled key other → other = call :=
    fun other hother => h.solo other call (hunsettled other hother) hcall
  refine ⟨?_, ?_, ?_, ?_, ?_⟩
  · rw [hafter, Cluster.runWrites_concat,
      ← Write.left_iff hsound' (hmade _ hmadeAll.2) hkey']
    exact hleft _ hagrees
  · rw [hafter]
    exact Cluster.madeAll_concat.mpr ⟨hmadeAll.1, hmade _ hmadeAll.2⟩
  · intro other v hother hvkey
    obtain rfl := honly other (unsettled_of_open hother rfl rfl hvkey)
    rw [hother] at hw'
    cases hw'
  · exact fun one other hone hother =>
      (honly one hone).trans (honly other hother).symm
  · intro other v hother _
    obtain rfl := honly other hother
    exact ⟨front, back, horder.trans hsplit, hback'⟩

theorem aside_update (h : s.Serial hash c ring quorum cluster key) {call : T}
    {state : CallState} (hcalls : t.calls = Function.update s.calls call state)
    (hstate : state.writeOn key = (s.calls call).writeOn key)
    (hbegun : ∀ w, state = .begun w → w.key ≠ key)
    (horder : t.order = s.order ∨
      t.order = s.order ++ [call] ∧ state.writeOn key = none)
    (hcluster : Cluster.AgreesOn key t.cluster s.cluster)
    (hunsettled : ∀ other, t.Unsettled key other → s.Unsettled key other) :
    t.Serial hash c ring quorum cluster key := by
  have hsame : ∀ other,
      (t.calls other).writeOn key = (s.calls other).writeOn key := by
    intro other
    rw [hcalls]
    by_cases heq : other = call
    · subst heq
      rw [Function.update_self, hstate]
    · rw [Function.update_of_ne heq]
  have hold : ∀ other w, t.calls other = .begun w → w.key = key →
      s.calls other = .begun w := by
    intro other w hother hkey
    rw [hcalls] at hother
    by_cases heq : other = call
    · subst heq
      rw [Function.update_self] at hother
      exact absurd hkey (hbegun w hother)
    · rwa [Function.update_of_ne heq] at hother
  rcases horder with hnone | ⟨horder, hextra⟩
  · exact h.aside hsame (hnone.trans (List.append_nil _).symm) (by simp)
      hcluster hold hunsettled
  · refine h.aside hsame horder ?_ hcluster hold hunsettled
    intro other hother
    rw [List.mem_singleton.mp hother, ← hstate]
    exact hextra

end Serial

omit [DecidableEq T] in
/-- A write of another key leaves this one as it is. -/
theorem Applies.agreesOn {call : T} {w : Write} {id : String} {now : Int64}
    (h : Applies c s t call w id now) (hkey : w.key ≠ key) :
    Cluster.AgreesOn key t.cluster s.cluster := by
  intro other
  by_cases heq : other = id
  · rw [heq, h.engine, StorageEngine.getRaw_put, if_neg hkey]
  · rw [h.frame other heq]

namespace Serial

variable {cluster : Cluster}

theorem writeOwn (h : s.Serial hash c ring quorum cluster key) (hs : s.Ordered)
    (hsound : s.Sound hash ring quorum) {call : T} {w : Write}
    (hbegun : s.calls call = .begun w) (now : Int64)
    (hunsettled : ∀ other,
      (s.writeOwn hash c ring call w now).Unsettled key other →
        s.Unsettled key other) :
    (s.writeOwn hash c ring call w now).Serial hash c ring quorum cluster
      key := by
  have hw := hsound.calls call
  have hafter := (hsound.writeOwn (c := c) hbegun now).calls call
  rw [hbegun] at hw
  have hwriteOn : (s.calls call).writeOn key = none := by
    rw [hbegun]
    rfl
  have hempty : ∀ before, Cluster.AgreesOn w.key s.cluster before →
      w.Left before s.cluster := by
    intro before hbefore id
    rw [hw.2.1]
    simpa using hbefore id
  cases hresponsible : ring.isResponsible hash w.coordinator w.key with
  | true =>
      have happlies := applies_writeOwn (c := c) hbegun hresponsible now
      rw [writeOwn_of_responsible hresponsible] at happlies hafter hunsettled ⊢
      by_cases hkey : w.key = key
      · refine h.place hs hbegun hkey
          (CallState.writeOn_eq_some.mpr ⟨happlies.after, hkey⟩)
          (fun _ hmade => hmade) happlies.others rfl
          (hafter.write happlies.after) ?_ hunsettled
        intro before hbefore
        rw [← hkey] at hbefore
        exact (hempty before hbefore).applyAt (by simp [hw.2.1]) happlies.engine
          happlies.frame
      · have hnone : (CallState.written (w.applyAt w.coordinator now)).writeOn
            key = none := CallState.writeOn_of_ne rfl hkey
        exact h.aside_update rfl (hnone.trans hwriteOn.symm)
          (fun _ hstate => by cases hstate) (.inr ⟨rfl, hnone⟩)
          (happlies.agreesOn hkey) hunsettled
  | false =>
      rw [writeOwn_of_not_responsible hresponsible] at hafter hunsettled ⊢
      by_cases hkey : w.key = key
      · have hstarted : ((s.setCall call (.written w)).calls call).started? =
            some w := by
          rw [calls_setCall_self]
          rfl
        refine h.place hs hbegun hkey
          (CallState.writeOn_eq_some.mpr ⟨hstarted, hkey⟩)
          (fun _ hmade => hmade) (fun other hne => s.calls_setCall_of_ne hne _)
          rfl (hafter.write hstarted) ?_ hunsettled
        intro before hbefore
        rw [← hkey] at hbefore
        exact hempty before hbefore
      · have hnone : (CallState.written w).writeOn key = none :=
          CallState.writeOn_of_ne rfl hkey
        exact h.aside_update rfl (hnone.trans hwriteOn.symm)
          (fun _ hstate => by cases hstate) (.inr ⟨rfl, hnone⟩)
          (fun _ => rfl) hunsettled

theorem deliver (h : s.Serial hash c ring quorum cluster key) (hs : s.Ordered)
    (hsound : s.Sound hash ring quorum) {index : Nat} {sent : Sent T}
    (hsent : s.inFlight[index]? = some sent) (now : Int64)
    (hunsettled : ∀ other, (s.deliver c index sent now).Unsettled key other →
      s.Unsettled key other) :
    (s.deliver c index sent now).Serial hash c ring quorum cluster key := by
  obtain ⟨w, hw, hpending, happlies⟩ := hsound.applies_deliver (c := c) hsent now
  have hstarted := CallState.started_of_sent hw
  have hafter := (hsound.deliver (c := c) hsent now).calls sent.call
  by_cases hkey : w.key = key
  · have hcall : s.Unsettled key sent.call :=
      ⟨w, happlies.before, hkey, .inr ⟨sent, List.mem_of_getElem? hsent, rfl⟩⟩
    exact h.revise hs hsound hcall
      (CallState.writeOn_eq_some.mpr ⟨hstarted, hkey⟩)
      (CallState.writeOn_eq_some.mpr ⟨happlies.after, hkey⟩)
      (fun _ hmade => hmade) happlies.others rfl (hafter.write happlies.after)
      (fun _ hleft => hleft.applyAt hpending.notApplied happlies.engine
        happlies.frame) hunsettled
  · have hself : (s.deliver c index sent now).calls sent.call =
        (s.calls sent.call).apply sent.target now := Function.update_self ..
    have happlied := happlies.after
    rw [hself] at happlied
    refine h.aside_update rfl ?_ ?_ (.inl rfl) (happlies.agreesOn hkey)
      hunsettled
    · rw [CallState.writeOn_of_ne happlied hkey,
        CallState.writeOn_of_ne hstarted hkey]
    · intro w' hw'
      rw [hw'] at happlied
      cases happlied

theorem endAt (h : s.Serial hash c ring quorum cluster key) (hs : s.Ordered)
    (hsound : s.Sound hash ring quorum) {call : T} {w : Write}
    (hwaiting : s.calls call = .waiting w) {id : String} {success : Bool}
    (happlied : success = true → id ∈ w.appliedAt)
    (hunsettled : ∀ other,
      (s.setCall call (.waiting (w.endAt id success))).Unsettled key other →
        s.Unsettled key other) :
    (s.setCall call (.waiting (w.endAt id success))).Serial hash c ring quorum
      cluster key := by
  have hw := hsound.calls call
  rw [hwaiting] at hw
  by_cases hkey : w.key = key
  · have hwriteOn : (s.calls call).writeOn key = some w := by
      rw [hwaiting]
      exact CallState.writeOn_eq_some.mpr ⟨rfl, hkey⟩
    have hwriteOn' : ((s.setCall call (.waiting (w.endAt id success))).calls
        call).writeOn key = some (w.endAt id success) := by
      rw [calls_setCall_self]
      exact CallState.writeOn_eq_some.mpr ⟨rfl, hkey⟩
    exact h.revise hs hsound (unsettled_of_open hwaiting rfl rfl hkey) hwriteOn
      hwriteOn' (fun _ hmade => hmade)
      (fun other hne => s.calls_setCall_of_ne hne _) rfl (hw.endAt happlied)
      (fun _ hleft => hleft) hunsettled
  · have hnone : (CallState.waiting (w.endAt id success)).writeOn key = none :=
      CallState.writeOn_of_ne rfl hkey
    have hnone' : (s.calls call).writeOn key = none := by
      rw [hwaiting]
      exact CallState.writeOn_of_ne rfl hkey
    exact h.aside_update rfl (hnone.trans hnone'.symm)
      (fun _ hstate => by cases hstate) (.inl rfl) (fun _ => rfl) hunsettled

theorem step (h : s.Serial hash c ring quorum cluster key) (hs : s.Ordered)
    (hsound : s.Sound hash ring quorum) {action : CallAction T}
    (hguard : s.WritesApart key action)
    (hnext : s.next hash c ring quorum action = some t) :
    t.Serial hash c ring quorum cluster key := by
  have hunsettled : action.begins.all (fun begun => begun.2 != key) = true →
      ∀ other, t.Unsettled key other → s.Unsettled key other := by
    intro hnone other hother
    rcases unsettled_step hsound hnext hother with hold | hbegins
    · exact hold
    · rw [hbegins] at hnone
      simp at hnone
  have hagrees : ∀ cluster : Cluster, Cluster.AgreesOn key cluster cluster :=
    fun _ _ => rfl
  cases step_of_next hnext with
  | @beginPut call coordinator k value ttlMs writeQuorum now hidle =>
      by_cases hkey : k = key
      · subst hkey
        refine h.begin (hguard call rfl) hidle ?_
        exact h.agrees.newVersion coordinator value ttlMs now
      · refine h.aside_update rfl (by rw [hidle]; rfl) ?_ (.inl rfl) (hagrees _)
          (hunsettled (by simpa [CallAction.begins] using hkey))
        intro w hw
        cases hw
        exact hkey
  | @beginDelete call coordinator k writeQuorum hidle =>
      by_cases hkey : k = key
      · subst hkey
        exact h.begin (hguard call rfl) hidle trivial
      · refine h.aside_update rfl (by rw [hidle]; rfl) ?_ (.inl rfl) (hagrees _)
          (hunsettled (by simpa [CallAction.begins] using hkey))
        intro w hw
        cases hw
        exact hkey
  | own hbegun => exact h.writeOwn hs hsound hbegun _ (hunsettled rfl)
  | send hwritten =>
      exact h.aside_update rfl (by rw [hwritten]; rfl) (fun _ hw => by cases hw)
        (.inl rfl) (hagrees _) (hunsettled rfl)
  | arrive hsent => exact h.deliver hs hsound hsent _ (hunsettled rfl)
  | lose hindex =>
      exact h.aside (fun _ => rfl) (List.append_nil _).symm (by simp) (hagrees _)
        (fun _ _ hcall _ => hcall) (hunsettled rfl)
  | ack hwaiting hpeer happlied hopen =>
      exact h.endAt hs hsound hwaiting (fun _ => happlied) (hunsettled rfl)
  | giveUp hwaiting =>
      exact h.endAt hs hsound hwaiting (fun hfalse => by cases hfalse)
        (hunsettled rfl)
  | finish hwaiting =>
      exact h.aside_update rfl (by rw [hwaiting]; rfl) (fun _ hw => by cases hw)
        (.inl rfl) (hagrees _) (hunsettled rfl)
  | beginGet hidle =>
      exact h.aside_update rfl (by rw [hidle]; rfl) (fun _ hw => by cases hw)
        (.inl rfl) (hagrees _) (hunsettled rfl)
  | reply hreading =>
      exact h.aside_update rfl (by rw [hreading]; rfl) (fun _ hw => by cases hw)
        (.inl rfl) (hagrees _) (hunsettled rfl)
  | finishGet hreading =>
      exact h.aside_update rfl (by rw [hreading]; rfl) (fun _ hw => by cases hw)
        (.inr ⟨rfl, rfl⟩) (hagrees _) (hunsettled rfl)

end Serial

end Traffic

end Rkv.Replication
