import Mathlib

/-!
# Separator-terminated records

A stream over an arbitrary alphabet is cut after every separator.  Cutting is a
homomorphism on streams that end at a separator, which is what makes an
append-only file of records behave as a list.  A stream that stops inside a
record keeps its last piece open: whatever is appended next joins that piece.
-/

namespace Rkv.Foundation

variable {α : Type*}

/-- The stream is empty or stops right after a separator. -/
def Terminated (sep : α) (stream : List α) : Prop :=
  stream = [] ∨ stream.getLast? = some sep

theorem terminated_nil (sep : α) : Terminated sep [] := .inl rfl

theorem terminated_append_sep (sep : α) (stream : List α) :
    Terminated sep (stream ++ [sep]) := by
  right
  simp

theorem Terminated.append {sep : α} {first second : List α}
    (hfirst : Terminated sep first) (hsecond : Terminated sep second) :
    Terminated sep (first ++ second) := by
  rcases hsecond with rfl | hsecond
  · simpa using hfirst
  · right
    rw [List.getLast?_append, hsecond]
    rfl

theorem terminated_cons {sep a b : α} {rest : List α} :
    Terminated sep (a :: b :: rest) ↔ Terminated sep (b :: rest) := by
  simp [Terminated]

theorem terminated_append_tail {sep : α} {complete tail : List α}
    (hcomplete : Terminated sep complete) (htail : sep ∉ tail) :
    Terminated sep (complete ++ tail) ↔ tail = [] := by
  constructor
  · rintro (hnil | hlast)
    · exact (List.append_eq_nil_iff.mp hnil).2
    · by_contra hne
      rw [List.getLast?_append, List.getLast?_eq_some_getLast hne] at hlast
      have hmem := List.getLast_mem hne
      simp only [Option.some_or, Option.some.injEq] at hlast
      exact htail (hlast ▸ hmem)
  · rintro rfl
    simpa using hcomplete

theorem terminated_append_iff {sep : α} {front rest : List α} (hne : rest ≠ []) :
    Terminated sep (front ++ rest) ↔ Terminated sep rest := by
  simp [Terminated, List.getLast?_append, hne,
    List.getLast?_eq_some_getLast hne]

/-- A prefix of a file of records is complete records and a start of one. -/
theorem exists_cut_of_prefix {sep : α} {records : List (List α)}
    (hsep : ∀ record ∈ records, sep ∉ record) {cut : List α}
    (h : cut <+: records.flatMap (· ++ [sep])) :
    ∃ complete tail, cut = complete ++ tail ∧ Terminated sep complete ∧
      sep ∉ tail ∧ (tail = [] ∨ ∃ record ∈ records, tail <+: record) := by
  induction records generalizing cut with
  | nil =>
      have hnil : cut = [] := by simpa using h
      exact ⟨[], [], by simp [hnil], terminated_nil sep, by simp, .inl rfl⟩
  | cons record records ih =>
      have hrecord : sep ∉ record := hsep record (by simp)
      rw [List.flatMap_cons] at h
      by_cases hlen : cut.length ≤ record.length
      · have hbegins : cut <+: record :=
          List.prefix_of_prefix_length_le h
            (by rw [List.append_assoc]; exact List.prefix_append _ _) hlen
        exact ⟨[], cut, rfl, terminated_nil sep,
          fun hmem => hrecord (hbegins.mem hmem),
          .inr ⟨record, by simp, hbegins⟩⟩
      · have hwhole : record ++ [sep] <+: cut :=
          List.prefix_of_prefix_length_le (List.prefix_append _ _) h
            (by simp; omega)
        obtain ⟨rest, rfl⟩ := hwhole
        obtain ⟨complete, tail, rfl, hcomplete, htail, hstart⟩ :=
          ih (fun r hr => hsep r (by simp [hr]))
            ((List.prefix_append_right_inj _).mp h)
        refine ⟨record ++ [sep] ++ complete, tail, by simp,
          (terminated_append_sep sep record).append hcomplete, htail, ?_⟩
        rcases hstart with hnil | ⟨r, hr, hbegins⟩
        · exact .inl hnil
        · exact .inr ⟨r, by simp [hr], hbegins⟩

/-! ## Cutting -/

variable [DecidableEq α]

instance (sep : α) (stream : List α) : Decidable (Terminated sep stream) :=
  inferInstanceAs (Decidable (_ ∨ _))

/-- Cut a stream after every separator.  Only the last piece may lack one. -/
def splitAfter (sep : α) : List α → List (List α)
  | [] => []
  | a :: rest =>
      if a = sep then [a] :: splitAfter sep rest
      else
        match splitAfter sep rest with
        | [] => [[a]]
        | piece :: pieces => (a :: piece) :: pieces

@[simp] theorem splitAfter_nil (sep : α) :
    splitAfter sep ([] : List α) = [] := rfl

theorem splitAfter_cons_sep (sep : α) (rest : List α) :
    splitAfter sep (sep :: rest) = [sep] :: splitAfter sep rest := by
  simp [splitAfter]

theorem splitAfter_cons_of_ne {sep a : α} (ha : a ≠ sep) {rest piece : List α}
    {pieces : List (List α)} (h : splitAfter sep rest = piece :: pieces) :
    splitAfter sep (a :: rest) = (a :: piece) :: pieces := by
  simp [splitAfter, ha, h]

theorem splitAfter_append_of_notMem {sep : α} {piece : List α}
    (h : sep ∉ piece) (rest : List α) :
    splitAfter sep (piece ++ sep :: rest) =
      (piece ++ [sep]) :: splitAfter sep rest := by
  induction piece with
  | nil => simp [splitAfter]
  | cons a piece ih =>
      have ha : a ≠ sep := fun e => h (by simp [e])
      have hpiece : sep ∉ piece := fun m => h (List.mem_cons_of_mem _ m)
      simp [splitAfter, ha, ih hpiece]

theorem splitAfter_of_notMem {sep : α} {piece : List α} (h : sep ∉ piece)
    (hne : piece ≠ []) : splitAfter sep piece = [piece] := by
  induction piece with
  | nil => contradiction
  | cons a piece ih =>
      rw [List.mem_cons, not_or] at h
      cases piece with
      | nil => simp [splitAfter, Ne.symm h.1]
      | cons b piece =>
          exact splitAfter_cons_of_ne (Ne.symm h.1) (ih h.2 (by simp))

theorem splitAfter_eq_nil {sep : α} {stream : List α}
    (h : splitAfter sep stream = []) : stream = [] := by
  cases stream with
  | nil => rfl
  | cons a rest =>
      exfalso
      simp only [splitAfter] at h
      split at h
      · contradiction
      · split at h <;> contradiction

theorem Terminated.splitAfter_append {sep : α} {stream : List α}
    (h : Terminated sep stream) (rest : List α) :
    splitAfter sep (stream ++ rest) =
      splitAfter sep stream ++ splitAfter sep rest := by
  induction stream with
  | nil => rfl
  | cons a stream ih =>
      cases stream with
      | nil =>
          have ha : a = sep := by simpa [Terminated] using h
          simp [splitAfter, ha]
      | cons b stream =>
          have htail := ih (terminated_cons.mp h)
          by_cases ha : a = sep
          · rw [List.cons_append, ha, splitAfter_cons_sep, splitAfter_cons_sep,
              htail, List.cons_append]
          · cases hpieces : splitAfter sep (b :: stream) with
            | nil => simpa using splitAfter_eq_nil hpieces
            | cons piece pieces =>
                have hjoin : splitAfter sep (b :: stream ++ rest) =
                    piece :: (pieces ++ splitAfter sep rest) := by
                  rw [htail, hpieces, List.cons_append]
                rw [List.cons_append, splitAfter_cons_of_ne ha hjoin,
                  splitAfter_cons_of_ne ha hpieces, List.cons_append]

/-! ## The last piece -/

end Rkv.Foundation
