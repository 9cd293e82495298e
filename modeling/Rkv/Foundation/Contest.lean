import Mathlib

/-!
# A contest for one place

Challengers meet, one after the other, whoever holds the place, and one that
wins takes it over.  Winning need not be transitive, so who holds the place at
the end can depend on the order.  One that wins against all others holds it in
any order; in general it can be the end of any chain of takeovers in which each
challenger finds one that it does not win against.
-/

namespace Rkv.Foundation

variable {α : Type*} (wins : α → α → Prop) [DecidableRel wins]

def takeOver (holder : Option α) (challenger : α) : α :=
  match holder with
  | none => challenger
  | some a => if wins challenger a then challenger else a

def contest (challengers : List α) : Option α :=
  challengers.foldl (fun holder a => some (takeOver wins holder a)) none

variable {wins} {challengers : List α}

@[simp] theorem contest_nil : contest wins ([] : List α) = none := rfl

theorem contest_concat (challengers : List α) (a : α) :
    contest wins (challengers ++ [a]) =
      some (takeOver wins (contest wins challengers) a) := by
  simp [contest]

theorem contest_eq_none_iff : contest wins challengers = none ↔ challengers = [] := by
  induction challengers using List.reverseRecOn with
  | nil => simp
  | append_singleton challengers a _ => simp [contest_concat]

theorem takeOver_eq_or (wins : α → α → Prop) [DecidableRel wins]
    (holder a : α) :
    takeOver wins (some holder) a = holder ∨ takeOver wins (some holder) a = a := by
  by_cases hwins : wins a holder
  · exact .inr (if_pos hwins)
  · exact .inl (if_neg hwins)

theorem mem_of_contest {r : α} (h : contest wins challengers = some r) :
    r ∈ challengers := by
  induction challengers using List.reverseRecOn generalizing r with
  | nil => simp at h
  | append_singleton challengers a ih =>
      rw [contest_concat, Option.some.injEq] at h
      cases hholder : contest wins challengers with
      | none =>
          rw [hholder] at h
          simp [← h, takeOver]
      | some holder =>
          rw [hholder] at h
          rcases takeOver_eq_or wins holder a with hkept | htaken
          · exact List.mem_append_left _ (ih (hholder.trans (by rw [← h, hkept])))
          · simp [← h, htaken]

/-- Where winning means being greater, the greatest one holds the place. -/
theorem le_of_contest {β : Type*} [LinearOrder β] (rank : α → β)
    (hwins : ∀ a ∈ challengers, ∀ b ∈ challengers, wins a b ↔ rank b < rank a)
    {r : α} (h : contest wins challengers = some r) :
    ∀ a ∈ challengers, rank a ≤ rank r := by
  induction challengers using List.reverseRecOn generalizing r with
  | nil => simp
  | append_singleton challengers a ih =>
      have hfront : ∀ b ∈ challengers, ∀ d ∈ challengers,
          wins b d ↔ rank d < rank b := fun b hb d hd =>
        hwins b (List.mem_append_left _ hb) d (List.mem_append_left _ hd)
      rw [contest_concat, Option.some.injEq] at h
      cases hholder : contest wins challengers with
      | none =>
          rw [contest_eq_none_iff] at hholder
          subst hholder
          simp [← h, takeOver]
      | some holder =>
          rw [hholder] at h
          have hlast := hwins a (by simp) holder
            (List.mem_append_left _ (mem_of_contest hholder))
          have hold := ih hfront hholder
          intro b hb
          rw [List.mem_append, List.mem_singleton] at hb
          by_cases htaken : wins a holder
          · have hr : a = r := (if_pos htaken).symm.trans h
            subst hr
            rcases hb with hb | rfl
            · exact (hold b hb).trans (hlast.mp htaken).le
            · exact le_rfl
          · have hr : holder = r := (if_neg htaken).symm.trans h
            subst hr
            rcases hb with hb | rfl
            · exact hold b hb
            · exact not_lt.mp fun hlt => htaken (hlast.mpr hlt)

theorem contest_eq_some {r : α} (hmem : r ∈ challengers)
    (hothers : ∀ a ∈ challengers, a = r ∨ wins r a ∧ ¬wins a r) :
    contest wins challengers = some r := by
  induction challengers using List.reverseRecOn with
  | nil => simp at hmem
  | append_singleton challengers a ih =>
      have hfront : ∀ b ∈ challengers, b = r ∨ wins r b ∧ ¬wins b r :=
        fun b hb => hothers b (List.mem_append_left _ hb)
      rw [contest_concat, Option.some.injEq]
      by_cases hheld : r ∈ challengers
      · rw [ih hheld hfront]
        rcases hothers a (by simp) with rfl | ⟨-, hloses⟩
        · exact (takeOver_eq_or wins a a).elim id id
        · exact if_neg hloses
      · obtain rfl : r = a := by simpa [hheld] using hmem
        cases hholder : contest wins challengers with
        | none => rfl
        | some b =>
            have hb := mem_of_contest hholder
            rcases hfront b hb with rfl | ⟨hbeats, -⟩
            · exact absurd hb hheld
            · exact if_pos hbeats

/-! ## Chains of takeovers -/

/-- The challengers that come to hold the place, in their order.  All others met
one of them that withstood. -/
structure Holders (wins : α → α → Prop) (challengers chain : List α) (r : α) :
    Prop where
  among : chain.Subperm challengers
  takeovers : chain.IsChain fun holder a => wins a holder
  last : chain.getLast? = some r
  withstood : ∀ a ∈ challengers, ∃ holder ∈ chain, ¬wins a holder

theorem exists_holders (hirrefl : ∀ a, ¬wins a a) {r : α}
    (h : contest wins challengers = some r) :
    ∃ chain, Holders wins challengers chain r := by
  suffices hchain : ∃ chain : List α, chain.Sublist challengers ∧
      chain.IsChain (fun holder a => wins a holder) ∧
      chain.getLast? = some r ∧
      ∀ a ∈ challengers, ∃ holder ∈ chain, ¬wins a holder by
    obtain ⟨chain, hsub, htakeovers, hlast, hwithstood⟩ := hchain
    exact ⟨chain, hsub.subperm, htakeovers, hlast, hwithstood⟩
  induction challengers using List.reverseRecOn generalizing r with
  | nil => simp at h
  | append_singleton challengers a ih =>
      rw [contest_concat, Option.some.injEq] at h
      cases hholder : contest wins challengers with
      | none =>
          obtain rfl := contest_eq_none_iff.mp hholder
          obtain rfl : a = r := by rwa [contest_nil] at h
          exact ⟨[a], List.Sublist.refl _, by simp, rfl, by simp [hirrefl]⟩
      | some holder =>
          rw [hholder] at h
          obtain ⟨chain, hsub, htakeovers, hlast, hwithstood⟩ := ih hholder
          have hmem : holder ∈ chain := List.mem_of_getLast? hlast
          by_cases hwins : wins a holder
          · obtain rfl : a = r := by simpa [takeOver, hwins] using h
            refine ⟨chain ++ [a], hsub.append (List.Sublist.refl _), ?_, by simp,
              fun b hb => ?_⟩
            · refine List.isChain_append.mpr ⟨htakeovers, by simp, ?_⟩
              intro b hb d hd
              rw [hlast, Option.mem_some] at hb
              rw [List.head?_cons, Option.mem_some] at hd
              exact hb ▸ hd ▸ hwins
            · rcases List.mem_append.mp hb with hold | hnew
              · obtain ⟨d, hd, hnot⟩ := hwithstood b hold
                exact ⟨d, List.mem_append_left _ hd, hnot⟩
              · rw [List.mem_singleton.mp hnew]
                exact ⟨a, by simp, hirrefl a⟩
          · obtain rfl : holder = r := by simpa [takeOver, hwins] using h
            refine ⟨chain, hsub.trans (List.sublist_append_left _ _), htakeovers,
              hlast, fun b hb => ?_⟩
            rcases List.mem_append.mp hb with hold | hnew
            · exact hwithstood b hold
            · rw [List.mem_singleton.mp hnew]
              exact ⟨holder, hmem, hwins⟩

theorem foldl_takeOver_of_withstands {holder : α} {others : List α}
    (h : ∀ a ∈ others, ¬wins a holder) :
    others.foldl (fun holder a => some (takeOver wins holder a)) (some holder) =
      some holder := by
  induction others with
  | nil => rfl
  | cons a others ih =>
      rw [List.forall_mem_cons] at h
      rw [List.foldl_cons, takeOver, if_neg h.1]
      exact ih h.2

/-- From one holder on: those that it withstands come right after it. -/
theorem exists_order_from {holder r : α} {chain rest : List α}
    (hchain : (holder :: chain).IsChain fun holder a => wins a holder)
    (hlast : (holder :: chain).getLast? = some r)
    (hrest : ∀ a ∈ rest, ∃ b ∈ holder :: chain, ¬wins a b) :
    ∃ order : List α, order.Perm (chain ++ rest) ∧
      order.foldl (fun holder a => some (takeOver wins holder a)) (some holder) =
        some r := by
  induction chain generalizing holder rest with
  | nil =>
      refine ⟨rest, List.Perm.refl _, ?_⟩
      obtain rfl : holder = r := by simpa using hlast
      exact foldl_takeOver_of_withstands (by simpa using hrest)
  | cons next chain ih =>
      obtain ⟨hwins, hchain⟩ := List.isChain_cons_cons.mp hchain
      have hlater : ∀ a ∈ rest.filter fun a => wins a holder,
          ∃ b ∈ next :: chain, ¬wins a b := by
        intro a ha
        obtain ⟨hmem, hbeats⟩ := List.mem_filter.mp ha
        obtain ⟨b, hb, hnot⟩ := hrest a hmem
        rcases List.mem_cons.mp hb with rfl | hb
        · exact absurd (of_decide_eq_true hbeats) hnot
        · exact ⟨b, hb, hnot⟩
      obtain ⟨order, hperm, hfold⟩ := ih hchain (by simpa using hlast) hlater
      refine ⟨(rest.filter fun a => !decide (wins a holder)) ++ next :: order,
        ?_, ?_⟩
      · have hsplit := List.filter_append_perm (fun a => decide (wins a holder))
          rest
        refine (List.perm_append_comm.trans ?_)
        refine (((hperm.cons next).append_right _).trans ?_)
        rw [List.cons_append, List.cons_append, List.append_assoc]
        exact (hsplit.append_left chain).cons next
      · rw [List.foldl_append, foldl_takeOver_of_withstands (by simp),
          List.foldl_cons, takeOver, if_pos hwins]
        exact hfold

/-- The challengers can come in such an order that this one holds the place at
the end exactly when some of them can hold it one after the other up to it. -/
theorem exists_perm_contest_iff (hirrefl : ∀ a, ¬wins a a) {r : α} :
    (∃ order : List α, order.Perm challengers ∧ contest wins order = some r) ↔
      ∃ chain, Holders wins challengers chain r := by
  constructor
  · rintro ⟨order, hperm, hcontest⟩
    obtain ⟨chain, hholders⟩ := exists_holders hirrefl hcontest
    exact ⟨chain, hholders.among.trans hperm.subperm, hholders.takeovers,
      hholders.last, fun a ha => hholders.withstood a (hperm.mem_iff.mpr ha)⟩
  · rintro ⟨chain, ⟨among, hamong, hsub⟩, htakeovers, hlast, hwithstood⟩
    obtain ⟨rest, hrest⟩ := hsub.exists_perm_append
    have hall : challengers.Perm (chain ++ rest) :=
      hrest.trans (hamong.append_right rest)
    cases chain with
    | nil => simp at hlast
    | cons first chain =>
        obtain ⟨order, hperm, hfold⟩ := exists_order_from htakeovers hlast
          fun a ha => hwithstood a
            (hall.mem_iff.mpr (List.mem_append_right _ ha))
        exact ⟨first :: order, (hperm.cons first).trans hall.symm, hfold⟩

end Rkv.Foundation
