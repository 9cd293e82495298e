import Rkv.Replication.SerialWrites

/-!
# Calls that do not overlap on a key

Where a write of a key begins only when no other call of this key is under way,
nor any request of one, and a read only when no write is, the calls of that key
are as good as single steps, whatever happens to other keys meanwhile: in every
state the replicas hold of the key what the calls leave when each of them is made
at once, in the order in which they took effect, and every call returns what it
returns then.  This is what the cluster of single steps stands for.
-/

namespace Rkv.Replication

open Rkv.Foundation
open Rkv.Grpc
open Rkv.Ring (Node HashRing)
open Rkv.Storage (Bytes Codecs StorageEngine VectorClock VersionedValue)

/-- The call is a read of the key that has not returned. -/
def CallState.readsKey (key : String) : CallState → Bool
  | reading r => r.key == key
  | _ => false

/-- A read of the key begins. -/
def CallAction.getsKey {T : Type} (key : String) : CallAction T → Bool
  | .beginGet _ _ k _ => k == key
  | _ => false

namespace Traffic

variable {T : Type} [DecidableEq T] {hash : String → UInt64} {c : Codecs}
  {ring : HashRing} {quorum : QuorumConfig} {s t : Traffic T} {key : String}

theorem writeOn_update {call other : T} {state : CallState}
    (hcalls : t.calls = Function.update s.calls call state)
    (hstate : ¬s.Unsettled key call →
      state.writeOn key = (s.calls call).writeOn key)
    (hsettled : ¬s.Unsettled key other) :
    (t.calls other).writeOn key = (s.calls other).writeOn key := by
  rw [hcalls]
  by_cases heq : other = call
  · subst heq
    rw [Function.update_self, hstate hsettled]
  · rw [Function.update_of_ne heq]

omit [DecidableEq T] in
/-- What becomes of an open write of another key. -/
theorem writeOn_of_open {call : T} {before after : CallState} {w w' : Write}
    (hcall : s.calls call = before) (hw : before.write? = some w)
    (hopen : before.result? = none) (hbefore : ∀ v, before.started? = some v → v = w)
    (hafter : after.started? = some w') (hkey : w'.key = w.key)
    (hsettled : ¬s.Unsettled key call) :
    after.writeOn key = (s.calls call).writeOn key := by
  have hne : w.key ≠ key :=
    fun hkey => hsettled (unsettled_of_open hcall hw hopen hkey)
  rw [CallState.writeOn_of_ne hafter (hkey ▸ hne), hcall]
  cases hstarted : before.started? with
  | none => simp [CallState.writeOn, hstarted]
  | some v =>
      obtain rfl := hbefore v hstarted
      rw [CallState.writeOn_of_ne hstarted hne]

/-- A settled write stays as it is. -/
theorem writeOn_step (h : s.Sound hash ring quorum) {action : CallAction T}
    (hnext : s.next hash c ring quorum action = some t) {other : T}
    (hsettled : ¬s.Unsettled key other) :
    (t.calls other).writeOn key = (s.calls other).writeOn key := by
  cases step_of_next hnext with
  | beginPut hidle | beginDelete hidle | beginGet hidle =>
      exact writeOn_update rfl (fun _ => by rw [hidle]; rfl) hsettled
  | @own call now w hbegun =>
      obtain ⟨w', hcalls, hkey, -⟩ := s.writeOwn_frame call w now
      exact writeOn_update hcalls (writeOn_of_open hbegun rfl rfl
        (fun v hv => by cases hv) rfl hkey) hsettled
  | send hwritten =>
      exact writeOn_update rfl (fun _ => by rw [hwritten]; rfl) hsettled
  | @arrive index now sent hsent =>
      obtain ⟨w, hw, -, happlies⟩ := h.applies_deliver (c := c) hsent now
      refine writeOn_update rfl (fun hcall => ?_) hsettled
      have hne : w.key ≠ key := fun hkey => hcall
        ⟨w, happlies.before, hkey, .inr ⟨sent, List.mem_of_getElem? hsent, rfl⟩⟩
      have hself : (s.deliver c index sent now).calls sent.call =
          (s.calls sent.call).apply sent.target now := Function.update_self ..
      have happlied := happlies.after
      rw [hself] at happlied
      rw [CallState.writeOn_of_ne happlied hne,
        CallState.writeOn_of_ne (CallState.started_of_sent hw) hne]
  | lose hindex => rfl
  | ack hwaiting | giveUp hwaiting | finish hwaiting =>
      exact writeOn_update rfl (writeOn_of_open hwaiting rfl rfl
        (fun _ hv => (Option.some.inj hv).symm) rfl rfl) hsettled
  | reply hreading | finishGet hreading =>
      exact writeOn_update rfl (fun _ => by rw [hreading]; rfl) hsettled

/-- The order grows at its end, by a call that is no settled write. -/
theorem order_step (key : String) {action : CallAction T}
    (hnext : s.next hash c ring quorum action = some t) :
    ∃ extra, t.order = s.order ++ extra ∧ ∀ call ∈ extra,
      ¬s.Unsettled key call → (s.calls call).writeOn key = none := by
  have hnone : ∃ extra, s.order = s.order ++ extra ∧ ∀ call ∈ extra,
      ¬s.Unsettled key call → (s.calls call).writeOn key = none :=
    ⟨[], (List.append_nil _).symm, by simp⟩
  cases step_of_next hnext with
  | beginPut | beginDelete | beginGet | send | arrive | lose | ack | giveUp
  | finish | reply => exact hnone
  | @own call now w hbegun =>
      obtain ⟨w', -, -, -, -, horder⟩ := s.writeOwn_frame call w now
      refine ⟨[call], horder, ?_⟩
      intro other hother _
      rw [List.mem_singleton.mp hother, hbegun]
      rfl
  | @finishGet call now r hreading =>
      refine ⟨[call], rfl, ?_⟩
      intro other hother _
      rw [List.mem_singleton.mp hother, hreading]
      rfl

theorem writesOf_step (h : s.Sound hash ring quorum) {action : CallAction T}
    (hnext : s.next hash c ring quorum action = some t) {calls : List T}
    (hsettled : ∀ other ∈ calls, ¬s.Unsettled key other) :
    t.writesOf key calls = s.writesOf key calls :=
  writesOf_congr fun other hother => writeOn_step h hnext (hsettled other hother)

/-- While no write of the key is unsettled, its writes stay as they are. -/
theorem writesOf_order_step (h : s.Sound hash ring quorum)
    {action : CallAction T} (hnext : s.next hash c ring quorum action = some t)
    (hsettled : ∀ other, ¬s.Unsettled key other) :
    t.writesOf key t.order = s.writesOf key s.order := by
  obtain ⟨extra, horder, hextra⟩ := order_step key hnext
  rw [writesOf_step h hnext fun other _ => hsettled other, horder,
    writesOf_append, writesOf_eq_nil fun other hother =>
      hextra other hother (hsettled other), List.append_nil]

/-! ## Reads -/

theorem update_cases {call other : T} {before after : CallState}
    (hcalls : t.calls = Function.update s.calls call before)
    (hother : t.calls other = after) :
    s.calls other = after ∨ other = call ∧ before = after := by
  rw [hcalls] at hother
  by_cases heq : other = call
  · subst heq
    rw [Function.update_self] at hother
    exact .inr ⟨rfl, hother⟩
  · rw [Function.update_of_ne heq] at hother
    exact .inl hother

/-- How a read under way came to be what it is. -/
theorem reading_step {action : CallAction T}
    (hnext : s.next hash c ring quorum action = some t) {call : T} {r : Read}
    (hr : t.calls call = .reading r) :
    s.calls call = .reading r ∨
      (∃ coordinator k readQuorum,
        action = .beginGet call coordinator k readQuorum ∧
        r = s.newRead hash ring coordinator k readQuorum) ∨
      ∃ r' id reply, action = .reply call id reply ∧
        s.calls call = .reading r' ∧ r = r'.endAt id (reply.outcome
          (InternalService.getInternal (s.cluster.engines id) ⟨r'.key⟩)) := by
  cases step_of_next hnext with
  | beginPut | beginDelete | send | ack | giveUp | finish | finishGet =>
      rcases update_cases rfl hr with hold | ⟨-, hnew⟩
      · exact .inl hold
      · cases hnew
  | @own call now w hbegun =>
      obtain ⟨w', hcalls, -⟩ := s.writeOwn_frame call w now
      rcases update_cases hcalls hr with hold | ⟨-, hnew⟩
      · exact .inl hold
      · cases hnew
  | @arrive index now sent hsent =>
      rcases update_cases rfl hr with hold | ⟨rfl, hnew⟩
      · exact .inl hold
      · refine .inl ?_
        cases hcall : s.calls sent.call with
        | idle | begun _ | written _ | waiting _ | wrote _ _ | read _ _ _ =>
            rw [hcall] at hnew
            cases hnew
        | reading _ =>
            rw [hcall] at hnew
            exact hnew
  | lose hindex => exact .inl hr
  | beginGet hidle =>
      rcases update_cases rfl hr with hold | ⟨rfl, hnew⟩
      · exact .inl hold
      · cases hnew
        exact .inr (.inl ⟨_, _, _, rfl, rfl⟩)
  | reply hreading =>
      rcases update_cases rfl hr with hold | ⟨rfl, hnew⟩
      · exact .inl hold
      · cases hnew
        exact .inr (.inr ⟨_, _, _, rfl, hreading, rfl⟩)

/-- A read that has returned was the last under way, and its place is the last
of the order then. -/
theorem read_step {action : CallAction T}
    (hnext : s.next hash c ring quorum action = some t) {call : T} {r : Read}
    {now : Int64} {result : QuorumResult VersionedValue}
    (hr : t.calls call = .read r now result) :
    s.calls call = .read r now result ∨
      s.calls call = .reading r ∧ t.order = s.order ++ [call] := by
  cases step_of_next hnext with
  | beginPut | beginDelete | send | ack | giveUp | finish | beginGet | reply =>
      rcases update_cases rfl hr with hold | ⟨-, hnew⟩
      · exact .inl hold
      · cases hnew
  | @own call now w hbegun =>
      obtain ⟨w', hcalls, -⟩ := s.writeOwn_frame call w now
      rcases update_cases hcalls hr with hold | ⟨-, hnew⟩
      · exact .inl hold
      · cases hnew
  | @arrive index now sent hsent =>
      rcases update_cases rfl hr with hold | ⟨rfl, hnew⟩
      · exact .inl hold
      · refine .inl ?_
        cases hcall : s.calls sent.call with
        | idle | begun _ | written _ | waiting _ | wrote _ _ | reading _ =>
            rw [hcall] at hnew
            cases hnew
        | read _ _ _ =>
            rw [hcall] at hnew
            exact hnew
  | lose hindex => exact .inl hr
  | finishGet hreading =>
      rcases update_cases rfl hr with hold | ⟨rfl, hnew⟩
      · exact .inl hold
      · cases hnew
        exact .inr ⟨hreading, rfl⟩

/-- A write of the key begins when no other call of the key is under way, a read
of it when no write is. -/
structure Apart (key : String) (s : Traffic T) (action : CallAction T) :
    Prop where
  writes : s.WritesApart key action
  reads : ∀ call, action.begins = some (call, key) →
    ∀ other, (s.calls other).readsKey key = false
  gets : action.getsKey key = true → ∀ other, ¬s.Unsettled key other

instance [Fintype T] (key : String) (s : Traffic T) (action : CallAction T) :
    Decidable (s.Apart key action) :=
  decidable_of_iff
    ((∀ call, action.begins = some (call, key) →
        (∀ other, ¬s.Unsettled key other) ∧
          ∀ other, (s.calls other).readsKey key = false) ∧
      (action.getsKey key = true → ∀ other, ¬s.Unsettled key other))
    ⟨fun h => ⟨fun call hcall => (h.1 call hcall).1,
        fun call hcall => (h.1 call hcall).2, h.2⟩,
      fun h => ⟨fun call hcall => ⟨h.writes call hcall, h.reads call hcall⟩,
        h.gets⟩⟩

/-- Every read of the key has heard what the writes before it leave. -/
structure ReadsSee (hash : String → UInt64) (c : Codecs) (ring : HashRing)
    (quorum : QuorumConfig) (cluster : Cluster) (key : String)
    (s : Traffic T) : Prop where
  reading : ∀ call r, s.calls call = .reading r → r.key = key →
    (∀ other, ¬s.Unsettled key other) ∧ r.Sees hash ring
      (cluster.runWrites hash c ring quorum (s.writesOf key s.order))
  read : ∀ call r now result, s.calls call = .read r now result → r.key = key →
    ∃ front back, s.order = front ++ call :: back ∧
      (∀ other ∈ front, ¬s.Unsettled key other) ∧ r.Sees hash ring
        (cluster.runWrites hash c ring quorum (s.writesOf key front))

omit [DecidableEq T] in
theorem sees_newRead (s : Traffic T) (coordinator k : String)
    (readQuorum : Nat) :
    (s.newRead hash ring coordinator k readQuorum).Sees hash ring s.cluster where
  own := rfl
  results := fun id outcome houtcome => by cases houtcome

/-- No write of the key begins or becomes unsettled while a read of it is under
way. -/
theorem Apart.settled {action : CallAction T} (h : s.Apart key action)
    (hsound : s.Sound hash ring quorum)
    (hnext : s.next hash c ring quorum action = some t)
    (hsettled : ∀ other, ¬s.Unsettled key other)
    (hreading : (∃ call r, s.calls call = .reading r ∧ r.key = key) ∨
      action.begins = none) (other : T) : ¬t.Unsettled key other := by
  intro hother
  rcases unsettled_step hsound hnext hother with hold | hbegins
  · exact hsettled other hold
  · rcases hreading with ⟨call, r, hcall, hkey⟩ | hnone
    · have hnot := h.reads other hbegins call
      rw [hcall, CallState.readsKey, hkey] at hnot
      simp at hnot
    · rw [hnone] at hbegins
      cases hbegins

namespace ReadsSee

variable {cluster : Cluster}

theorem reading_next (h : s.ReadsSee hash c ring quorum cluster key)
    (hserial : s.Serial hash c ring quorum cluster key)
    (hsound : s.Sound hash ring quorum) {action : CallAction T}
    (hguard : s.Apart key action)
    (hnext : s.next hash c ring quorum action = some t) {call : T} {r : Read}
    (hr : t.calls call = .reading r) (hkey : r.key = key) :
    (∀ other, ¬t.Unsettled key other) ∧ r.Sees hash ring
      (cluster.runWrites hash c ring quorum (t.writesOf key t.order)) := by
  rcases reading_step hnext hr with
    hold | ⟨coordinator, k, readQuorum, rfl, rfl⟩ |
    ⟨r', id, reply, rfl, hreading, rfl⟩
  · obtain ⟨hsettled, hsees⟩ := h.reading call r hold hkey
    refine ⟨hguard.settled hsound hnext hsettled (.inl ⟨call, r, hold, hkey⟩), ?_⟩
    rw [writesOf_order_step hsound hnext hsettled]
    exact hsees
  · have hkey : k = key := hkey
    subst hkey
    have hsettled := hguard.gets (by simp [CallAction.getsKey])
    refine ⟨hguard.settled hsound hnext hsettled (.inr rfl), ?_⟩
    rw [writesOf_order_step hsound hnext hsettled]
    exact (s.sees_newRead coordinator k readQuorum).congr hserial.agrees
  · have hkey : r'.key = key := hkey
    obtain ⟨hsettled, hsees⟩ := h.reading call r' hreading hkey
    refine ⟨hguard.settled hsound hnext hsettled (.inr rfl), ?_⟩
    rw [writesOf_order_step hsound hnext hsettled]
    refine hsees.endAt id reply ?_
    rw [hkey, Read.getInternal_congr (hserial.agrees id)]

theorem read_next (h : s.ReadsSee hash c ring quorum cluster key)
    (hs : s.Ordered) (hsound : s.Sound hash ring quorum)
    {action : CallAction T}
    (hnext : s.next hash c ring quorum action = some t) {call : T} {r : Read}
    {now : Int64} {result : QuorumResult VersionedValue}
    (hr : t.calls call = .read r now result) (hkey : r.key = key) :
    ∃ front back, t.order = front ++ call :: back ∧
      (∀ other ∈ front, ¬t.Unsettled key other) ∧ r.Sees hash ring
        (cluster.runWrites hash c ring quorum (t.writesOf key front)) := by
  have hfront : ∀ front : List T, (∀ other ∈ front, other ∈ s.order) →
      (∀ other ∈ front, ¬s.Unsettled key other) →
      ∀ other ∈ front, ¬t.Unsettled key other := by
    intro front hplaced hsettled other hother hunsettled
    rcases unsettled_step hsound hnext hunsettled with hold | hbegins
    · exact hsettled other hother hold
    · have hidle := idle_of_begins hnext hbegins
      have hmem := hplaced other hother
      rw [hs.placed, hidle] at hmem
      cases hmem
  rcases read_step hnext hr with hold | ⟨hreading, horder⟩
  · obtain ⟨front, back, hsplit, hsettled, hsees⟩ := h.read call r now result
      hold hkey
    obtain ⟨extra, horder, -⟩ := order_step key hnext
    refine ⟨front, back ++ extra, ?_, hfront front ?_ hsettled, ?_⟩
    · rw [horder, hsplit, List.append_assoc, List.cons_append]
    · intro other hother
      rw [hsplit]
      exact List.mem_append_left _ hother
    · rw [writesOf_step hsound hnext hsettled]
      exact hsees
  · obtain ⟨hsettled, hsees⟩ := h.reading call r hreading hkey
    refine ⟨s.order, [], horder, hfront s.order (fun _ hother => hother)
      (fun other _ => hsettled other), ?_⟩
    rw [writesOf_step hsound hnext fun other _ => hsettled other]
    exact hsees

theorem step (h : s.ReadsSee hash c ring quorum cluster key)
    (hserial : s.Serial hash c ring quorum cluster key) (hs : s.Ordered)
    (hsound : s.Sound hash ring quorum) {action : CallAction T}
    (hguard : s.Apart key action)
    (hnext : s.next hash c ring quorum action = some t) :
    t.ReadsSee hash c ring quorum cluster key where
  reading := fun _ _ hr hkey =>
    h.reading_next hserial hsound hguard hnext hr hkey
  read := fun _ _ _ _ hr hkey => h.read_next hs hsound hnext hr hkey

end ReadsSee

omit [DecidableEq T] in
theorem not_unsettled_start (cluster : Cluster) (call : T) :
    ¬(start T cluster).Unsettled key call := by
  rintro ⟨w, hw, -⟩
  cases hw

omit [DecidableEq T] in
theorem serial_start (cluster : Cluster) :
    (start T cluster).Serial hash c ring quorum cluster key where
  agrees := fun _ => rfl
  made := fun front w back hsplit => by simp [start, writesOf] at hsplit
  begun := fun call w hcall => by cases hcall
  solo := fun call _ hcall => absurd hcall (not_unsettled_start cluster call)
  last := fun call _ hcall => absurd hcall (not_unsettled_start cluster call)

/-- What a run of calls apart keeps. -/
structure Linear (hash : String → UInt64) (c : Codecs) (ring : HashRing)
    (quorum : QuorumConfig) (cluster : Cluster) (key : String)
    (s : Traffic T) : Prop where
  sound : s.Sound hash ring quorum
  ordered : s.Ordered
  serial : s.Serial hash c ring quorum cluster key
  reads : s.ReadsSee hash c ring quorum cluster key

namespace Linear

variable {cluster : Cluster}

omit [DecidableEq T] in
theorem start (cluster : Cluster) :
    (start T cluster).Linear hash c ring quorum cluster key where
  sound := .start cluster
  ordered := ⟨List.nodup_nil, fun call => by simp [Traffic.start, CallState.placed]⟩
  serial := serial_start cluster
  reads := ⟨fun call r hr => (by cases hr),
    fun call r now result hr => (by cases hr)⟩

theorem step (h : s.Linear hash c ring quorum cluster key)
    {action : CallAction T} (hguard : s.Apart key action)
    (hnext : s.next hash c ring quorum action = some t) :
    t.Linear hash c ring quorum cluster key where
  sound := h.sound.step hnext
  ordered := h.ordered.step hnext
  serial := h.serial.step h.ordered h.sound hguard.writes hnext
  reads := h.reads.step h.serial h.ordered h.sound hguard hnext

theorem run {actions : List (CallAction T)}
    (hrun : Run (Traffic.next hash c ring quorum) (Traffic.Apart key)
      (.start T cluster) actions s) :
    s.Linear hash c ring quorum cluster key :=
  hrun.invariant (fun _ _ _ h hguard hnext => h.step hguard hnext)
    (.start cluster)

omit [DecidableEq T] in
theorem wrote (h : s.Linear hash c ring quorum cluster key) {call : T}
    {w : Write} {result : QuorumResult (Option VectorClock)}
    (hcall : s.calls call = .wrote w result) (hkey : w.key = key) :
    ∃ front back, s.order = front ++ call :: back ∧
      result = (cluster.runWrites hash c ring quorum
        (s.writesOf key front)).writeResult hash c ring quorum w.op := by
  have hw := h.sound.calls call
  rw [hcall] at hw
  obtain ⟨hsound, -, rfl⟩ := hw
  have hmem : call ∈ s.order := by
    rw [h.ordered.placed, hcall]
    rfl
  obtain ⟨front, back, hsplit⟩ := List.append_of_mem hmem
  have hwriteOn : (s.calls call).writeOn key = some w := by
    rw [hcall]
    exact CallState.writeOn_eq_some.mpr ⟨rfl, hkey⟩
  have hwrites : s.writesOf key s.order =
      s.writesOf key front ++ w :: s.writesOf key back := by
    rw [hsplit, writesOf_append]
    simp [writesOf, hwriteOn]
  refine ⟨front, back, hsplit, ?_⟩
  rw [Write.writeResult_op hsound (h.serial.made _ _ _ hwrites)]

omit [DecidableEq T] in
theorem read (h : s.Linear hash c ring quorum cluster key) {call : T}
    {r : Read} {now : Int64} {result : QuorumResult VersionedValue}
    (hcall : s.calls call = .read r now result) (hkey : r.key = key) :
    ∃ front back, s.order = front ++ call :: back ∧
      result = (cluster.runWrites hash c ring quorum
        (s.writesOf key front)).get hash ring quorum (r.call now) := by
  have hr := h.sound.calls call
  rw [hcall] at hr
  obtain ⟨hended, rfl⟩ := hr
  obtain ⟨front, back, hsplit, -, hsees⟩ := h.reads.read call r now _ hcall hkey
  exact ⟨front, back, hsplit, (hsees.get_eq hended now).symm⟩

end Linear

theorem order_run {guard : Traffic T → CallAction T → Prop}
    {actions : List (CallAction T)}
    (hrun : Run (Traffic.next hash c ring quorum) guard s actions t) :
    s.order <+: t.order := by
  refine hrun.invariant (I := fun t => s.order <+: t.order) ?_
    (List.prefix_refl _)
  intro u action v hprefix _ hnext
  obtain ⟨extra, horder, -⟩ := order_step "" hnext
  rw [horder]
  exact hprefix.trans (List.prefix_append _ _)

/-- A call that has returned comes before one that has not begun. -/
theorem Ordered.before (hs : s.Ordered) (hgrow : s.order <+: t.order)
    {one other : T} (hone : (s.calls one).returned = true)
    (hother : s.calls other = .idle) :
    t.order.idxOf one < t.order.idxOf other := by
  obtain ⟨extra, hextra⟩ := hgrow
  have hmem : one ∈ s.order := by
    rw [hs.placed]
    cases hcall : s.calls one with
    | idle | begun _ | written _ | waiting _ | reading _ =>
        rw [hcall] at hone
        cases hone
    | wrote _ _ | read _ _ _ => rfl
  have hnot : other ∉ s.order := by
    rw [hs.placed, hother]
    simp [CallState.placed]
  rw [← hextra, List.idxOf_append_of_mem hmem, List.idxOf_append_of_notMem hnot]
  exact Nat.lt_add_right _ (List.idxOf_lt_length_of_mem hmem)

end Traffic

/-- While the calls of a key do not overlap, and whatever happens to other keys
meanwhile, they are as good as single steps in the order in which they took
effect: the replicas hold what these steps leave, every write and every read
returns what it returns as a step in its place, and a call that returned before
another began has its place before it. -/
theorem calls_linearize {T : Type} [DecidableEq T] (hash : String → UInt64)
    (c : Codecs) (ring : HashRing) (quorum : QuorumConfig) (cluster : Cluster)
    (key : String) {first later : List (CallAction T)} {s t : Traffic T}
    (hfirst : Run (Traffic.next hash c ring quorum) (Traffic.Apart key)
      (.start T cluster) first s)
    (hlater : Run (Traffic.next hash c ring quorum) (Traffic.Apart key) s later
      t) :
    (∀ one other, (s.calls one).returned = true → s.calls other = .idle →
      t.order.idxOf one < t.order.idxOf other) ∧
    (∀ id, (t.cluster.engines id).getRaw key =
      ((cluster.run hash c ring quorum
        ((t.writesOf key t.order).map Write.op)).engines id).getRaw key) ∧
    (∀ call w result, t.calls call = .wrote w result → w.key = key →
      ∃ front back, t.order = front ++ call :: back ∧
        result = (cluster.run hash c ring quorum
          ((t.writesOf key front).map Write.op)).writeResult hash c ring quorum
            w.op) ∧
    (∀ call r now result, t.calls call = .read r now result → r.key = key →
      ∃ front back, t.order = front ++ call :: back ∧
        result = (cluster.run hash c ring quorum
          ((t.writesOf key front).map Write.op)).get hash ring quorum
            (r.call now)) := by
  have hs := Traffic.Linear.run hfirst
  have ht := Traffic.Linear.run (hfirst.append hlater)
  have hgrow := Traffic.order_run hlater
  refine ⟨fun one other hone hother => hs.ordered.before hgrow hone hother,
    ht.serial.agrees, ?_, ?_⟩
  · exact fun call w result hcall hkey => ht.wrote hcall hkey
  · exact fun call r now result hcall hkey => ht.read hcall hkey

/-- The put of `k` gives `node2` up, its request there being lost; meanwhile a put
of another key begins. -/
def putBesideOther : List (CallAction (Fin 4)) :=
  [.beginPut 0 "node1" "k" [1] 0 0 1700000000000,
    .beginPut 1 "node2" "j" [2] 0 0 1700000000001, .own 0 1700000000002,
    .own 1 1700000000003, .send 0, .arrive 0 1700000000004, .lose 0,
    .ack 0 "node3", .giveUp 0 "node2", .finish 0]

/-- Two reads of `k` that overlap, beside the requests of the other put. -/
def twoReads : List (CallAction (Fin 4)) :=
  [.beginGet 2 "node2" "k" 0, .beginGet 3 "node1" "k" 0, .send 1,
    .reply 2 "node1" .answers, .arrive 0 1700000000005, .reply 3 "node2" .answers,
    .reply 2 "node3" .timeout, .reply 3 "node3" .answers,
    .finishGet 3 1700000000006, .finishGet 2 1700000000007]

theorem calls_linearize_beside_other_key :
    let c := Storage.referenceCodecs
    let cluster := Cluster.fresh c 1048576 3
    let next := Traffic.next (T := Fin 4) Ring.sha256Labels c Ring.threeNodes
      .defaultStrong
    ∃ s t r now result,
      Run next (Traffic.Apart "k") (.start (Fin 4) cluster) putBesideOther s ∧
      Run next (Traffic.Apart "k") s twoReads t ∧
      t.order.idxOf 0 < t.order.idxOf 2 ∧ t.calls 2 = .read r now result ∧
      result.value.map VersionedValue.value = some [1] ∧
      ∃ front back, t.order = front ++ 2 :: back ∧
        result = (cluster.run Ring.sha256Labels c Ring.threeNodes .defaultStrong
          ((t.writesOf "k" front).map Write.op)).get Ring.sha256Labels
            Ring.threeNodes .defaultStrong (r.call now) := by
  intro c cluster next
  let within := runActions (guarded next (Traffic.Apart "k"))
  have hfirst : ((within (.start (Fin 4) cluster) putBesideOther).any fun s =>
      (s.calls 0).returned &&
      ((s.calls 2).write?.isNone && (s.calls 2).read?.isNone) &&
      (within s twoReads).any fun t => match t.calls 2 with
        | .read r _ result => r.key == "k" &&
            result.value.map VersionedValue.value == some [1]
        | _ => false) = true := by
    decide +kernel
  rw [Option.any_eq_true] at hfirst
  obtain ⟨s, hs, hlater⟩ := hfirst
  simp only [Bool.and_eq_true, Option.any_eq_true] at hlater
  obtain ⟨⟨hreturned, hwrite, hnone⟩, t, ht, hread⟩ := hlater
  have hidle := CallState.idle_of_none hwrite hnone
  split at hread
  · rename_i r now result hcall
    rw [Bool.and_eq_true, beq_iff_eq, beq_iff_eq] at hread
    have hrun := Run.of_guarded hs
    have hrun' := Run.of_guarded ht
    obtain ⟨hbefore, -, -, hreads⟩ := calls_linearize Ring.sha256Labels c
      Ring.threeNodes .defaultStrong cluster "k" hrun hrun'
    exact ⟨s, t, r, now, result, hrun, hrun', hbefore 0 2 hreturned hidle, hcall,
      hread.2, hreads 2 r now result hcall hread.1⟩
  · cases hread

end Rkv.Replication
