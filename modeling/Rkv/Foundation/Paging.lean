import Mathlib

/-!
# Reading a sorted list in pages

A page is the first few entries from a starting key on.  The next page starts
right above the last key of the one before, so that the pages are consecutive
pieces of the list.  Fetching may fail; it does not while the starting keys stay
within the range it is defined on.
-/

namespace Rkv.Foundation

variable {α κ : Type*} [LinearOrder κ]

def page (key : α → κ) (entries : List α) (size : Nat) (start : κ) : List α :=
  (entries.filter fun a => start ≤ key a).take size

/-- At most `fuel` pages, up to the first empty one. -/
def pages (key : α → κ) (above : κ → κ) (fetch : κ → Option (List α)) :
    Nat → κ → Option (List α)
  | 0, _ => some []
  | fuel + 1, start =>
      match fetch start with
      | none => none
      | some fetched =>
          match fetched.getLast? with
          | none => some []
          | some last =>
              (pages key above fetch fuel (above (key last))).map (fetched ++ ·)

/-- The entries above the last of the first few are the others. -/
theorem filter_lt_getLast_take {key : α → κ} {entries : List α}
    (hsorted : entries.Pairwise fun a b => key a < key b) {size : Nat} {last : α}
    (hlast : (entries.take size).getLast? = some last) :
    entries.filter (fun a => key last < key a) = entries.drop size := by
  have hsplit := List.pairwise_append.mp
    ((List.take_append_drop size entries).symm ▸ hsorted)
  obtain ⟨front, hfront⟩ := List.getLast?_eq_some_iff.mp hlast
  have hbelow : ∀ a ∈ entries.take size, ¬key last < key a := by
    intro a ha
    rw [hfront] at ha
    rcases List.mem_append.mp ha with hmem | hmem
    · have hpair := hsplit.1
      rw [hfront] at hpair
      exact not_lt.mpr
        ((List.pairwise_append.mp hpair).2.2 a hmem last (by simp)).le
    · rw [List.mem_singleton.mp hmem]
      exact lt_irrefl _
  have habove : ∀ a ∈ entries.drop size, key last < key a := fun a ha =>
    hsplit.2.2 last (List.mem_of_getLast? hlast) a ha
  conv_lhs => rw [← List.take_append_drop size entries]
  rw [List.filter_append, List.filter_eq_nil_iff.mpr (by simpa using hbelow),
    List.filter_eq_self.mpr (by simpa using habove), List.nil_append]

/-- The pages are the first `fuel * size` entries from the starting key on. -/
theorem pages_eq {key : α → κ} {above : κ → κ}
    (habove : ∀ k x, above k ≤ x ↔ k < x) {entries : List α}
    (hsorted : entries.Pairwise fun a b => key a < key b) {size : Nat}
    (hsize : 0 < size) {fetch : κ → Option (List α)} {valid : κ → Prop}
    (hfetch : ∀ start, valid start →
      fetch start = some (page key entries size start))
    (hvalid : ∀ a ∈ entries, valid (above (key a))) (fuel : Nat) {start : κ}
    (hstart : valid start) :
    pages key above fetch fuel start =
      some ((entries.filter fun a => start ≤ key a).take (fuel * size)) := by
  induction fuel generalizing start with
  | zero => simp [pages]
  | succ fuel ih =>
      have hsub := hsorted.filter fun a => start ≤ key a
      have hlater : ∀ a ∈ entries.filter (fun a => start ≤ key a),
          a ∈ entries ∧ start ≤ key a := by simp
      generalize hrest : entries.filter (fun a => start ≤ key a) = rest at *
      simp only [pages, hfetch start hstart, page, hrest]
      cases hlast : (rest.take size).getLast? with
      | none =>
          have hnil : rest = [] := by
            rw [List.getLast?_eq_none_iff, List.take_eq_nil_iff] at hlast
            exact hlast.resolve_left hsize.ne'
          simp [hnil]
      | some last =>
          obtain ⟨hmem, hle⟩ := hlater last
            (List.mem_of_mem_take (List.mem_of_getLast? hlast))
          have hnext : entries.filter (fun a => above (key last) ≤ key a) =
              rest.drop size := by
            rw [← filter_lt_getLast_take hsub hlast, ← hrest, List.filter_filter]
            refine List.filter_congr fun a _ => ?_
            rw [Bool.eq_iff_iff]
            simp only [habove, Bool.and_eq_true, decide_eq_true_eq]
            exact ⟨fun hlt => ⟨hlt, hle.trans hlt.le⟩, And.left⟩
          simp only [ih (hvalid last hmem), hnext, Option.map_some,
            Option.some.injEq]
          rw [← List.take_add, Nat.succ_mul, Nat.add_comm]

end Rkv.Foundation
