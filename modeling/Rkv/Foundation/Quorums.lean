import Mathlib

/-!
# Sets that are large enough to meet

Subsets of a finite set with at least `r` and at least `w` members have a member
in common, whichever they are, exactly when the two sizes exceed the whole.
-/

namespace Rkv.Foundation

variable {α : Type*} [DecidableEq α]

theorem quorums_meet_iff (ground : Finset α) (r w : Nat) :
    (∀ readers ⊆ ground, ∀ writers ⊆ ground, r ≤ readers.card →
      w ≤ writers.card → (readers ∩ writers).Nonempty) ↔
      ground.card < r + w := by
  constructor
  · intro hmeet
    by_contra hsmall
    obtain ⟨readers, hreaders, hr⟩ :=
      Finset.exists_subset_card_eq (show r ≤ ground.card by omega)
    have hrest : w ≤ (ground \ readers).card := by
      rw [Finset.card_sdiff_of_subset hreaders]
      omega
    obtain ⟨writers, hwriters, hw⟩ := Finset.exists_subset_card_eq hrest
    obtain ⟨a, ha⟩ := hmeet readers hreaders writers
      (hwriters.trans Finset.sdiff_subset) hr.ge hw.ge
    rw [Finset.mem_inter] at ha
    exact (Finset.mem_sdiff.mp (hwriters ha.2)).2 ha.1
  · intro hlarge readers hreaders writers hwriters hr hw
    exact Finset.inter_nonempty_of_card_lt_card_add_card hreaders hwriters
      (by omega)

end Rkv.Foundation
