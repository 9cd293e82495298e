import Rkv.Foundation.Lines

/-!
# Reading records from a source that can fail

A buffered reader fills its buffer by read calls, each of which delivers at least
one more element, reports the end of the source, or fails and leaves the source
as it was.  A failed call ends the record that was being read: what had been
taken of it is lost, and the caller gets an error instead of a record.  A loop
over the records that goes on after an error ends exactly when some call finds
the end of the source before a record has begun.
-/

namespace Rkv.Foundation

/-- What each call delivers in turn: up to this many elements and one more, or
an error. -/
abbrev Reads := Nat → Option Nat

structure LineReader (α : Type*) where
  source : List α
  buffer : List α
  calls : Nat

variable {α σ : Type*} [DecidableEq α] (sep : α) (reads : Reads)

namespace LineReader

def new (content : List α) : LineReader α := ⟨content, [], 0⟩

/-- Takes elements up to a separator and adds them to `line`; `none` is an error.
At the end of the source the line may lack the separator. -/
def readUntil (line : List α) (r : LineReader α) :
    Option (List α) × LineReader α :=
  match r.buffer.span (· ≠ sep) with
  | (front, last :: back) =>
      (some (line ++ front ++ [last]), ⟨r.source, back, r.calls⟩)
  | (front, []) =>
      match reads r.calls with
      | none => (none, ⟨r.source, [], r.calls + 1⟩)
      | some n =>
          if r.source = [] then (some (line ++ front), ⟨[], [], r.calls + 1⟩)
          else readUntil (line ++ front)
            ⟨r.source.drop (n + 1), r.source.take (n + 1), r.calls + 1⟩
termination_by r.source.length
decreasing_by
  rw [List.length_drop]
  have hpos := List.length_pos_iff.mpr ‹r.source ≠ []›
  omega

/-- The next item of the records: a record, an error, or nothing at the end. -/
def next (r : LineReader α) : Option (Option (List α) × LineReader α) :=
  match readUntil sep reads [] r with
  | (some [], _) => none
  | (item, rest) => some (item, rest)

/-- A loop over the items, with a bound on its iterations. -/
def forEach (body : σ → Option (List α) → σ) :
    Nat → σ → LineReader α → Option σ
  | 0, _, _ => none
  | fuel + 1, s, r =>
      match next sep reads r with
      | none => some s
      | some (item, rest) => forEach body fuel (body s item) rest

end LineReader

/-! ## The call that finds the end -/

/-- How much the calls from `first` up to `last` deliver at most. -/
def delivered (first last : Nat) : Nat :=
  ∑ i ∈ Finset.Ico first last, (reads i).elim 0 (· + 1)

/-- The end of a record without a separator takes one call more to notice. -/
def lag (content : List α) : Nat := if Terminated sep content then 0 else 1

/-- Call `k` succeeds, and the calls before it have delivered the source. -/
structure EndsAt (pending source : List α) (calls k : Nat) : Prop where
  succeeds : (reads k).isSome = true
  delivers : ∃ m, calls ≤ m ∧ source.length ≤ delivered reads calls m ∧
    k = m + lag sep (pending ++ source)

variable {sep reads}

theorem delivered_succ {first last : Nat} (h : first < last) :
    delivered reads first last =
      (reads first).elim 0 (· + 1) + delivered reads (first + 1) last :=
  Finset.sum_eq_sum_Ico_succ_bot h _

theorem delivered_self (first : Nat) : delivered reads first first = 0 := by
  simp [delivered]

theorem lt_of_le_delivered {n first last : Nat} (hpos : 0 < n)
    (hle : first ≤ last) (h : n ≤ delivered reads first last) :
    first < last := by
  rcases Nat.lt_or_eq_of_le hle with hlt | rfl
  · exact hlt
  · rw [delivered_self] at h
    omega

theorem lag_nil : lag sep ([] : List α) = 0 := if_pos (terminated_nil sep)

theorem lag_append {front rest : List α} (hne : rest ≠ []) :
    lag sep (front ++ rest) = lag sep rest := by
  simp only [lag, terminated_append_iff hne]

theorem lag_append_sep (front rest : List α) :
    lag sep (front ++ [sep] ++ rest) = lag sep rest := by
  by_cases hrest : rest = []
  · subst hrest
    simp [lag, terminated_nil, terminated_append_sep]
  · exact lag_append hrest

theorem lag_of_notMem {pending : List α} (h : sep ∉ pending) :
    lag sep pending = if pending = [] then 0 else 1 := by
  have hiff := terminated_append_tail (terminated_nil sep) h
  rw [List.nil_append] at hiff
  simp only [lag, hiff]

section

variable {pending source : List α} {calls k : Nat}

theorem EndsAt.calls_le (h : EndsAt sep reads pending source calls k) :
    calls ≤ k := by
  obtain ⟨m, hle, -, hk⟩ := h.delivers
  omega

theorem endsAt_line (front rest : List α) :
    EndsAt sep reads (front ++ [sep] ++ rest) source calls k ↔
      EndsAt sep reads rest source calls k := by
  have hlag : lag sep (front ++ [sep] ++ rest ++ source) =
      lag sep (rest ++ source) := by
    rw [List.append_assoc (front ++ [sep])]
    exact lag_append_sep front (rest ++ source)
  constructor
  · rintro ⟨hsome, m, hle, hlength, hk⟩
    exact ⟨hsome, m, hle, hlength, hlag ▸ hk⟩
  · rintro ⟨hsome, m, hle, hlength, hk⟩
    exact ⟨hsome, m, hle, hlength, hlag.symm ▸ hk⟩

theorem endsAt_fill {n : Nat} (hread : reads calls = some n)
    (hne : source ≠ []) :
    EndsAt sep reads pending source calls k ↔
      EndsAt sep reads (pending ++ source.take (n + 1)) (source.drop (n + 1))
        (calls + 1) k := by
  have hcontent : pending ++ source.take (n + 1) ++ source.drop (n + 1) =
      pending ++ source := by
    rw [List.append_assoc, List.take_append_drop]
  have hsize : ∀ m, calls < m →
      delivered reads calls m = n + 1 + delivered reads (calls + 1) m := by
    intro m hlt
    rw [delivered_succ hlt, hread]
    rfl
  constructor
  · rintro ⟨hsome, m, hle, hlength, hk⟩
    have hlt := lt_of_le_delivered (List.length_pos_iff.mpr hne) hle hlength
    refine ⟨hsome, m, hlt, ?_, hcontent ▸ hk⟩
    rw [hsize m hlt] at hlength
    rw [List.length_drop]
    omega
  · rintro ⟨hsome, m, hlt, hlength, hk⟩
    refine ⟨hsome, m, Nat.le_of_lt hlt, ?_, hcontent ▸ hk⟩
    rw [List.length_drop] at hlength
    rw [hsize m hlt]
    omega

/-- At the end of the source a record without a separator is returned, or lost,
and the end is looked for again. -/
theorem endsAt_last (hne : pending ≠ []) (hpending : sep ∉ pending) :
    EndsAt sep reads pending [] calls k ↔
      EndsAt sep reads [] [] (calls + 1) k := by
  have hlag : lag sep (pending ++ []) = 1 := by
    rw [List.append_nil, lag_of_notMem hpending, if_neg hne]
  have hnil : lag sep ([] ++ [] : List α) = 0 := lag_nil
  constructor
  · rintro ⟨hsome, m, hle, -, hk⟩
    exact ⟨hsome, m + 1, by omega, Nat.zero_le _, by omega⟩
  · rintro ⟨hsome, m, hle, -, hk⟩
    exact ⟨hsome, m - 1, by omega, Nat.zero_le _, by omega⟩

theorem endsAt_fail (hread : reads calls = none) (hpending : sep ∉ pending) :
    EndsAt sep reads pending source calls k ↔
      EndsAt sep reads [] source (calls + 1) k := by
  by_cases hsource : source = []
  · subst hsource
    by_cases hnil : pending = []
    · subst hnil
      have hlag : lag sep ([] ++ [] : List α) = 0 := lag_nil
      constructor
      · rintro ⟨hsome, m, hle, -, hk⟩
        have hne : calls ≠ k := by
          rintro rfl
          rw [hread] at hsome
          contradiction
        exact ⟨hsome, m, by omega, Nat.zero_le _, hk⟩
      · rintro ⟨hsome, m, hle, -, hk⟩
        exact ⟨hsome, m, by omega, Nat.zero_le _, hk⟩
    · exact endsAt_last hnil hpending
  · have hlag : lag sep (pending ++ source) = lag sep ([] ++ source) := by
      rw [lag_append hsource, List.nil_append]
    constructor
    · rintro ⟨hsome, m, hle, hlength, hk⟩
      have hlt := lt_of_le_delivered (List.length_pos_iff.mpr hsource) hle hlength
      refine ⟨hsome, m, hlt, ?_, hlag ▸ hk⟩
      rwa [delivered_succ hlt, hread, Option.elim_none, Nat.zero_add] at hlength
    · rintro ⟨hsome, m, hlt, hlength, hk⟩
      refine ⟨hsome, m, Nat.le_of_lt hlt, ?_, hlag.symm ▸ hk⟩
      rwa [delivered_succ hlt, hread, Option.elim_none, Nat.zero_add]

end

/-! ## One item -/

/-- How a read of one record comes out: a record with its separator, what is left
at the end of the source, or an error.  None of them changes which call finds
the end, unless it has just been found. -/
inductive Outcome (sep : α) (reads : Reads) (pending source : List α)
    (calls : Nat) : Option (List α) → LineReader α → Prop
  | line {body : List α} {r : LineReader α} : sep ∉ body →
      pending ++ source = body ++ [sep] ++ (r.buffer ++ r.source) →
      calls ≤ r.calls →
      (∀ k, EndsAt sep reads pending source calls k ↔
        EndsAt sep reads r.buffer r.source r.calls k) →
      Outcome sep reads pending source calls (some (body ++ [sep])) r
  | tail {last : Nat} : sep ∉ pending ++ source → calls ≤ last →
      (pending ++ source = [] → EndsAt sep reads pending source calls last) →
      (pending ++ source ≠ [] → ∀ k,
        EndsAt sep reads pending source calls k ↔
          EndsAt sep reads [] [] (last + 1) k) →
      Outcome sep reads pending source calls (some (pending ++ source))
        ⟨[], [], last + 1⟩
  | failed {dropped rest : List α} {failing : Nat} : reads failing = none →
      pending ++ source = dropped ++ rest → calls ≤ failing →
      (∀ k, EndsAt sep reads pending source calls k ↔
        EndsAt sep reads [] rest (failing + 1) k) →
      Outcome sep reads pending source calls none ⟨rest, [], failing + 1⟩

theorem Outcome.of_fill {pending source : List α} {calls n : Nat}
    {item : Option (List α)} {r : LineReader α} (hread : reads calls = some n)
    (hne : source ≠ [])
    (h : Outcome sep reads (pending ++ source.take (n + 1)) (source.drop (n + 1))
      (calls + 1) item r) :
    Outcome sep reads pending source calls item r := by
  have hcontent : pending ++ source.take (n + 1) ++ source.drop (n + 1) =
      pending ++ source := by
    rw [List.append_assoc, List.take_append_drop]
  have hfill : ∀ k, EndsAt sep reads pending source calls k ↔
      EndsAt sep reads (pending ++ source.take (n + 1)) (source.drop (n + 1))
        (calls + 1) k := fun _ => endsAt_fill hread hne
  cases h with
  | line hbody hsplit hcalls hends =>
      exact .line hbody (hcontent ▸ hsplit) (Nat.le_of_succ_le hcalls)
        fun k => (hfill k).trans (hends k)
  | tail hnotMem hcalls hnil hends =>
      rw [hcontent] at hnotMem hnil hends ⊢
      exact .tail hnotMem (Nat.le_of_succ_le hcalls)
        (fun h => (hfill _).mpr (hnil h)) fun h k => (hfill k).trans (hends h k)
  | failed hread' hsplit hcalls hends =>
      exact .failed hread' (hcontent ▸ hsplit) (Nat.le_of_succ_le hcalls)
        fun k => (hfill k).trans (hends k)

theorem notMem_fst_span {l front back : List α}
    (h : l.span (fun a => decide (a ≠ sep)) = (front, back)) :
    sep ∉ front ∧ l = front ++ back ∧ back.head?.getD sep = sep := by
  rw [List.span_eq_takeWhile_dropWhile, Prod.mk.injEq] at h
  obtain ⟨rfl, rfl⟩ := h
  refine ⟨fun hmem => ?_, List.takeWhile_append_dropWhile.symm, ?_⟩
  · simpa using List.mem_takeWhile_imp hmem
  · have hhead := List.head?_dropWhile_not (fun a => decide (a ≠ sep)) l
    cases hfirst : (l.dropWhile fun a => decide (a ≠ sep)).head? with
    | none => rfl
    | some a =>
        rw [hfirst] at hhead
        simpa using hhead

namespace LineReader

theorem readUntil_outcome (reads : Reads) {line : List α} (hline : sep ∉ line)
    (r : LineReader α) :
    Outcome sep reads (line ++ r.buffer) r.source r.calls
      (readUntil sep reads line r).1 (readUntil sep reads line r).2 := by
  fun_induction readUntil sep reads line r with
  | case1 line r front last back hspan =>
      -- the buffer holds the separator: no call is made
      obtain ⟨hfront, hbuffer, hlast⟩ := notMem_fst_span hspan
      obtain rfl : last = sep := hlast
      have hsplit : line ++ r.buffer = line ++ front ++ [last] ++ back := by
        rw [hbuffer]
        simp
      refine .line (by simp [hline, hfront]) ?_ le_rfl fun k => ?_
      · rw [hsplit, List.append_assoc _ back]
      · rw [hsplit]
        exact endsAt_line (line ++ front) back
  | case2 line r front hspan hread =>
      -- the call fails, and what was taken of the record is dropped
      obtain ⟨hfront, hbuffer, -⟩ := notMem_fst_span hspan
      rw [List.append_nil] at hbuffer
      refine .failed hread rfl le_rfl fun k => ?_
      exact endsAt_fail hread (by simp [hline, hbuffer, hfront])
  | case3 line r front hspan n hread hsource =>
      -- the call finds the end of the source
      obtain ⟨hfront, hbuffer, -⟩ := notMem_fst_span hspan
      rw [List.append_nil] at hbuffer
      have hpending : sep ∉ line ++ r.buffer := by simp [hline, hbuffer, hfront]
      rw [hsource, ← hbuffer]
      have htail : Outcome sep reads (line ++ r.buffer) [] r.calls
          (some (line ++ r.buffer ++ [])) ⟨[], [], r.calls + 1⟩ := by
        refine .tail (by rwa [List.append_nil]) le_rfl (fun hnil => ?_)
          fun hne k => ?_
        · rw [List.append_nil] at hnil
          rw [hnil]
          refine ⟨by rw [hread]; rfl, r.calls, le_rfl, Nat.zero_le _, ?_⟩
          rw [List.append_nil, lag_nil, Nat.add_zero]
        · rw [List.append_nil] at hne
          exact endsAt_last hne hpending
      rwa [List.append_nil] at htail
  | case4 line r front hspan n hread hsource ih =>
      obtain ⟨hfront, hbuffer, -⟩ := notMem_fst_span hspan
      rw [List.append_nil] at hbuffer
      have hpending : sep ∉ line ++ front := by simp [hline, hfront]
      rw [hbuffer]
      exact (ih hpending).of_fill hread hsource

variable {r rest : LineReader α} {item : Option (List α)}

/-- What the reader has not handed out yet. -/
def left (r : LineReader α) : List α := r.buffer ++ r.source

theorem next_eq_none (h : next sep reads r = none) :
    r.left = [] ∧ ∃ k, EndsAt sep reads r.buffer r.source r.calls k := by
  have houtcome := readUntil_outcome reads (List.not_mem_nil (a := sep)) r
  rw [List.nil_append] at houtcome
  unfold next at h
  split at h
  · rename_i after hread
    rw [hread] at houtcome
    generalize hitem : (some [] : Option (List α)) = item at houtcome
    cases houtcome with
    | line => simp at hitem
    | @tail last _ _ hnil _ =>
        have hleft : r.buffer ++ r.source = [] := (Option.some.inj hitem).symm
        exact ⟨hleft, last, hnil hleft⟩
    | failed => contradiction
  · contradiction

theorem next_eq_some (h : next sep reads r = some (item, rest)) :
    Outcome sep reads r.buffer r.source r.calls item rest ∧ item ≠ some [] := by
  have houtcome := readUntil_outcome reads (List.not_mem_nil (a := sep)) r
  rw [List.nil_append] at houtcome
  unfold next at h
  split at h
  · contradiction
  · rename_i item' rest' hnonempty hread
    obtain ⟨rfl, rfl⟩ := Prod.mk.inj (Option.some.inj h)
    rw [hread] at houtcome
    refine ⟨houtcome, ?_⟩
    rintro rfl
    exact hnonempty rfl

/-- An item does not change which call finds the end, and takes a call or a part
of the content. -/
structure Advances (sep : α) (reads : Reads) (r rest : LineReader α) : Prop where
  ends : ∀ k, EndsAt sep reads r.buffer r.source r.calls k ↔
    EndsAt sep reads rest.buffer rest.source rest.calls k
  calls : r.calls ≤ rest.calls
  left : rest.left.length ≤ r.left.length
  progress : r.calls < rest.calls ∨ rest.left.length < r.left.length

theorem advances_of_next (h : next sep reads r = some (item, rest)) :
    Advances sep reads r rest := by
  obtain ⟨houtcome, hnonempty⟩ := next_eq_some h
  cases houtcome with
  | @line body rest _ hsplit hcalls hends =>
      have hlength : rest.left.length < r.left.length := by
        simp only [left, hsplit, List.length_append, List.length_singleton]
        omega
      exact ⟨hends, hcalls, Nat.le_of_lt hlength, .inr hlength⟩
  | @tail last _ hcalls _ hends =>
      have hne : r.buffer ++ r.source ≠ [] := fun hnil => hnonempty (hnil ▸ rfl)
      exact ⟨hends hne, Nat.le_succ_of_le hcalls, Nat.zero_le _,
        .inl (Nat.lt_succ_of_le hcalls)⟩
  | @failed dropped rest failing _ hsplit hcalls hends =>
      refine ⟨hends, Nat.le_succ_of_le hcalls, ?_,
        .inl (Nat.lt_succ_of_le hcalls)⟩
      rw [left, left, hsplit, List.nil_append, List.length_append]
      exact Nat.le_add_left _ _

/-! ## The loop -/

theorem forEach_eq_none (body : σ → Option (List α) → σ)
    (hnever : ¬∃ k, EndsAt sep reads r.buffer r.source r.calls k) (s : σ)
    (fuel : Nat) : forEach sep reads body fuel s r = none := by
  induction fuel generalizing s r with
  | zero => rfl
  | succ fuel ih =>
      rw [forEach]
      cases hnext : next sep reads r with
      | none => exact absurd (next_eq_none hnext).2 hnever
      | some step =>
          obtain ⟨item, rest⟩ := step
          apply ih
          rintro ⟨k, hk⟩
          exact hnever ⟨k, ((advances_of_next hnext).ends k).mpr hk⟩

/-- The calls up to the one that finds the end, and the elements left, bound the
iterations. -/
theorem forEach_eq_some (body : σ → Option (List α) → σ) {k : Nat}
    (hends : EndsAt sep reads r.buffer r.source r.calls k) (s : σ) {fuel : Nat}
    (hfuel : k - r.calls + r.left.length < fuel) :
    ∃ result, forEach sep reads body fuel s r = some result := by
  -- an iteration takes a call, at most up to `k`, or some of the content
  induction fuel generalizing s r with
  | zero => omega
  | succ fuel ih =>
      rw [forEach]
      cases hnext : next sep reads r with
      | none => exact ⟨s, rfl⟩
      | some step =>
          obtain ⟨item, rest⟩ := step
          have hadvances := advances_of_next hnext
          have hrest := (hadvances.ends k).mp hends
          apply ih hrest
          have hcalls := hrest.calls_le
          have hle := hadvances.calls
          have hleft := hadvances.left
          have hprogress := hadvances.progress
          omega

/-- Whether the reads come to an end of the content. -/
def ReachEnd (sep : α) (reads : Reads) (content : List α) : Prop :=
  ∃ m, content.length ≤ delivered reads 0 m ∧
    (reads (m + lag sep content)).isSome = true

theorem reachEnd_iff {content : List α} :
    ReachEnd sep reads content ↔ ∃ k, EndsAt sep reads [] content 0 k := by
  constructor
  · rintro ⟨m, hlength, hsome⟩
    exact ⟨_, hsome, m, Nat.zero_le m, hlength, rfl⟩
  · rintro ⟨k, hsome, m, -, hlength, rfl⟩
    exact ⟨m, hlength, hsome⟩

theorem ReachEnd.forEach_eq_some {content : List α}
    (h : ReachEnd sep reads content) (body : σ → Option (List α) → σ) (s : σ) :
    ∃ bound, ∀ fuel, bound < fuel →
      ∃ result, forEach sep reads body fuel s (new content) = some result := by
  obtain ⟨k, hends⟩ := reachEnd_iff.mp h
  exact ⟨_, fun fuel hfuel =>
    LineReader.forEach_eq_some body (r := new content) hends s hfuel⟩

/-- A loop over the records ends exactly when the reads reach the end. -/
theorem forEach_finishes_iff (body : σ → Option (List α) → σ) (s : σ)
    (content : List α) :
    (∃ fuel result, forEach sep reads body fuel s (new content) = some result) ↔
      ReachEnd sep reads content := by
  constructor
  · rintro ⟨fuel, result, hresult⟩
    rw [reachEnd_iff]
    by_contra hnever
    rw [forEach_eq_none (r := new content) body hnever] at hresult
    contradiction
  · intro h
    obtain ⟨bound, hbound⟩ := h.forEach_eq_some body s
    exact ⟨_, hbound _ (Nat.lt_succ_self bound)⟩

/-! ## Without failures -/

section

variable (hreads : ∀ i, (reads i).isSome = true)
include hreads

theorem reachEnd_of_isSome (content : List α) : ReachEnd sep reads content := by
  refine ⟨content.length, ?_, hreads _⟩
  have hone : ∀ i ∈ Finset.Ico 0 content.length,
      1 ≤ (reads i).elim 0 (· + 1) := by
    intro i _
    obtain ⟨n, hn⟩ := Option.isSome_iff_exists.mp (hreads i)
    rw [hn]
    exact Nat.le_add_left 1 n
  have hsum := Finset.card_nsmul_le_sum _ _ 1 hone
  rw [Nat.card_Ico, Nat.sub_zero, nsmul_eq_mul, mul_one] at hsum
  exact hsum

theorem splitAfter_left_of_next (h : next sep reads r = some (item, rest)) :
    ∃ raw, item = some raw ∧
      splitAfter sep r.left = raw :: splitAfter sep rest.left := by
  obtain ⟨houtcome, hnonempty⟩ := next_eq_some h
  cases houtcome with
  | @line body rest hbody hsplit _ _ =>
      refine ⟨_, rfl, ?_⟩
      rw [left, hsplit, List.append_assoc, List.singleton_append,
        splitAfter_append_of_notMem hbody]
      rfl
  | @tail last hnotMem _ _ _ =>
      have hne : r.buffer ++ r.source ≠ [] := fun hnil => hnonempty (hnil ▸ rfl)
      exact ⟨_, rfl, splitAfter_of_notMem hnotMem hne⟩
  | @failed dropped rest failing hfail _ _ _ =>
      have hsome := hreads failing
      rw [hfail] at hsome
      contradiction

/-- Without failures the loop sees the records of the content. -/
theorem forEach_eq_foldl (body : σ → Option (List α) → σ) (s : σ) {fuel : Nat}
    {result : σ} (h : forEach sep reads body fuel s r = some result) :
    result = ((splitAfter sep r.left).map some).foldl body s := by
  induction fuel generalizing s r with
  | zero => contradiction
  | succ fuel ih =>
      rw [forEach] at h
      cases hnext : next sep reads r with
      | none =>
          rw [hnext] at h
          rw [(next_eq_none hnext).1]
          exact (Option.some.inj h).symm
      | some step =>
          obtain ⟨item, rest⟩ := step
          rw [hnext] at h
          obtain ⟨raw, rfl, hsplit⟩ := splitAfter_left_of_next hreads hnext
          rw [hsplit]
          exact ih (body s (some raw)) h

end

end LineReader

end Rkv.Foundation
