import Mathlib

/-!
# First occurrences

`firstsBy` walks a list and keeps the first element of each key.  Leaving out
all elements of some keys before the walk or after it is the same, and a prefix
of the result loses at most one element when one key is left out.
-/

namespace Rkv.Foundation

variable {α κ : Type*} [DecidableEq κ] (key : α → κ)

/-- The elements whose key is not in `seen` and has not come before. -/
def firstsBy : List α → List κ → List α
  | [], _ => []
  | a :: rest, seen =>
      if key a ∈ seen then firstsBy rest seen
      else a :: firstsBy rest (key a :: seen)

variable {key}

theorem mem_of_mem_firstsBy {a : α} {walk : List α} {seen : List κ}
    (h : a ∈ firstsBy key walk seen) : a ∈ walk ∧ key a ∉ seen := by
  induction walk generalizing seen with
  | nil => simp [firstsBy] at h
  | cons b walk ih =>
      rw [firstsBy] at h
      split at h
      · exact ⟨List.mem_cons_of_mem _ (ih h).1, (ih h).2⟩
      · rename_i hnew
        rcases List.mem_cons.mp h with rfl | hrest
        · exact ⟨List.mem_cons_self, hnew⟩
        · obtain ⟨hmem, hseen⟩ := ih hrest
          exact ⟨List.mem_cons_of_mem _ hmem,
            fun hold => hseen (List.mem_cons_of_mem _ hold)⟩

theorem nodup_map_firstsBy (walk : List α) (seen : List κ) :
    ((firstsBy key walk seen).map key).Nodup := by
  induction walk generalizing seen with
  | nil => exact List.nodup_nil
  | cons a walk ih =>
      rw [firstsBy]
      split
      · exact ih seen
      · rw [List.map_cons, List.nodup_cons]
        refine ⟨fun hmem => ?_, ih _⟩
        obtain ⟨b, hb, hkey⟩ := List.mem_map.mp hmem
        exact (mem_of_mem_firstsBy hb).2 (hkey ▸ List.mem_cons_self)

theorem firstsBy_congr {walk : List α} {seen other : List κ}
    (h : ∀ a ∈ walk, key a ∈ seen ↔ key a ∈ other) :
    firstsBy key walk seen = firstsBy key walk other := by
  induction walk generalizing seen other with
  | nil => rfl
  | cons a walk ih =>
      have hrest : ∀ b ∈ walk, key b ∈ seen ↔ key b ∈ other :=
        fun b hb => h b (List.mem_cons_of_mem _ hb)
      rw [firstsBy, firstsBy]
      by_cases hseen : key a ∈ seen
      · rw [if_pos hseen, if_pos ((h a List.mem_cons_self).mp hseen), ih hrest]
      · rw [if_neg hseen, if_neg fun hold =>
          hseen ((h a List.mem_cons_self).mpr hold)]
        congr 1
        apply ih
        intro b hb
        simp only [List.mem_cons, hrest b hb]

/-- Keys can be left out before the walk or after it. -/
theorem firstsBy_filter (keep : κ → Bool) (walk : List α) (seen : List κ) :
    firstsBy key (walk.filter fun a => keep (key a)) seen =
      (firstsBy key walk seen).filter fun a => keep (key a) := by
  induction walk generalizing seen with
  | nil => rfl
  | cons a walk ih =>
      by_cases hkeep : keep (key a) = true
      · rw [List.filter_cons, if_pos hkeep, firstsBy, firstsBy]
        split
        · exact ih seen
        · rw [List.filter_cons, if_pos hkeep, ih]
      · rw [List.filter_cons, if_neg hkeep, firstsBy]
        split
        · exact ih seen
        · rw [List.filter_cons, if_neg hkeep, ← ih]
          -- what is left of the walk has no element with the key of `a`
          apply firstsBy_congr
          intro b hb
          have hne : key b ≠ key a := fun heq =>
            hkeep (heq ▸ (List.mem_filter.mp hb).2)
          simp [hne]

/-- The keys that are kept are the distinct keys in the order they first come. -/
theorem map_firstsBy (walk : List α) (seen : List κ) :
    (firstsBy key walk seen).map key =
      ((walk.map key).filter fun k => decide (k ∉ seen)).eraseDups := by
  induction walk generalizing seen with
  | nil => simp [firstsBy]
  | cons a walk ih =>
      rw [firstsBy, List.map_cons]
      split
      · rename_i hold
        rw [ih, List.filter_cons_of_neg (by simpa using hold)]
      · rename_i hnew
        rw [List.map_cons, ih, List.filter_cons_of_pos (by simpa using hnew),
          List.eraseDups_cons, List.filter_filter]
        congr 2
        apply List.filter_congr
        intro k _
        by_cases hk : k = key a
        · simp [hk]
        · simp [hk]

theorem mem_map_firstsBy {k : κ} {walk : List α} :
    k ∈ (firstsBy key walk []).map key ↔ k ∈ walk.map key := by
  rw [map_firstsBy, List.mem_eraseDups]
  simp

/-! ## A prefix without one key -/

section

variable {l : List α} {k : κ}

theorem take_filter_of_notMem {n : Nat} (h : k ∉ (l.take n).map key) :
    (l.filter fun a => key a ≠ k).take n = l.take n := by
  have hkept : (l.take n).filter (fun a => key a ≠ k) = l.take n := by
    rw [List.filter_eq_self]
    intro a ha
    have hne : key a ≠ k := fun heq => h (heq ▸ List.mem_map_of_mem ha)
    simpa using hne
  have hsplit : l.filter (fun a => key a ≠ k) =
      l.take n ++ (l.drop n).filter fun a => key a ≠ k := by
    conv_lhs => rw [← List.take_append_drop n l, List.filter_append, hkept]
  rcases Nat.le_total n l.length with hle | hle
  · rw [hsplit, List.take_append_of_le_length (by simp [hle]), List.take_take,
      Nat.min_self]
  · rw [hsplit, List.drop_eq_nil_of_le hle, List.filter_nil, List.append_nil,
      List.take_take, Nat.min_self]

/-- If the key is among the first elements, what is left of them is one shorter. -/
theorem filter_take_of_mem {n : Nat} (hnodup : (l.map key).Nodup)
    (h : k ∈ (l.take n).map key) :
    (l.take n).filter (fun a => key a ≠ k) =
      (l.filter fun a => key a ≠ k).take (n - 1) := by
  induction l generalizing n with
  | nil => simp at h
  | cons a l ih =>
      cases n with
      | zero => simp at h
      | succ n =>
          rw [List.map_cons, List.nodup_cons] at hnodup
          rw [List.take_succ_cons, Nat.add_sub_cancel]
          by_cases ha : key a = k
          · -- the only element with this key is the first one
            have habsent : ∀ b ∈ l, decide (key b ≠ k) = true := by
              intro b hb
              have hne : key b ≠ k := fun heq =>
                hnodup.1 (ha.trans heq.symm ▸ List.mem_map_of_mem hb)
              simpa using hne
            rw [List.filter_cons_of_neg (by simp [ha]),
              List.filter_cons_of_neg (by simp [ha]),
              List.filter_eq_self.mpr habsent,
              List.filter_eq_self.mpr fun b hb =>
                habsent b (List.mem_of_mem_take hb)]
          · have hrest : k ∈ (l.take n).map key := by
              rw [List.take_succ_cons, List.map_cons, List.mem_cons] at h
              exact h.resolve_left fun heq => ha heq.symm
            have hpos : 1 ≤ n := by
              rcases Nat.eq_zero_or_pos n with rfl | hpos
              · simp at hrest
              · exact hpos
            rw [List.filter_cons_of_pos (by simp [ha]),
              List.filter_cons_of_pos (by simp [ha]), ih hnodup.2 hrest]
            conv_rhs => rw [show n = n - 1 + 1 by omega, List.take_succ_cons]

end

end Rkv.Foundation
