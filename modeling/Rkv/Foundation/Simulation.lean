import Rkv.Foundation.Run

/-!
# Runs beside their past and beside a specification

Rules for properties of a run that one state does not show: what holds of a
state together with the actions that led to it, a run followed in a
specification that takes every action as well or by a system that takes some of
them, and a guard exchanged for one that an invariant implies.
-/

namespace Rkv.Foundation

variable {σ τ ι : Type*}

theorem runActions_append (next : σ → ι → Option σ) (s : σ)
    (first second : List ι) :
    runActions next s (first ++ second) =
      (runActions next s first).bind fun t => runActions next t second := by
  induction first generalizing s with
  | nil => rfl
  | cons action first ih =>
      simp only [List.cons_append, runActions]
      cases next s action with
      | none => rfl
      | some t => exact ih t

/-- The step function that stops at an action outside the guard as well. -/
def guarded (next : σ → ι → Option σ) (guard : σ → ι → Prop)
    [∀ s action, Decidable (guard s action)] (s : σ) (action : ι) : Option σ :=
  if guard s action then next s action else none

namespace Run

variable {next : σ → ι → Option σ} {guard : σ → ι → Prop}

theorem of_guarded [∀ s action, Decidable (guard s action)] {s t : σ}
    {actions : List ι} (h : runActions (guarded next guard) s actions = some t) :
    Run next guard s actions t := by
  induction actions generalizing s with
  | nil =>
      cases h
      exact .nil _
  | cons action actions ih =>
      simp only [runActions, guarded] at h
      split at h
      · rename_i u hnext
        split at hnext
        · exact .cons ‹_› hnext (ih h)
        · contradiction
      · contradiction

theorem concat {s t u : σ} {actions : List ι} {action : ι}
    (hrun : Run next guard s actions t) (hguard : guard t action)
    (hnext : next t action = some u) :
    Run next guard s (actions ++ [action]) u := by
  induction hrun with
  | nil s => exact .cons hguard hnext (.nil u)
  | cons hfirst hstep _ ih => exact .cons hfirst hstep (ih hguard hnext)

theorem append {s t u : σ} {first second : List ι}
    (hfirst : Run next guard s first t) (hsecond : Run next guard t second u) :
    Run next guard s (first ++ second) u := by
  induction hfirst with
  | nil s => exact hsecond
  | cons hguard hnext _ ih => exact .cons hguard hnext (ih hsecond)

theorem mono {weaker : σ → ι → Prop}
    (hguard : ∀ s action, guard s action → weaker s action) {s t : σ}
    {actions : List ι} (hrun : Run next guard s actions t) :
    Run next weaker s actions t := by
  induction hrun with
  | nil s => exact .nil s
  | cons hfirst hnext _ ih => exact .cons (hguard _ _ hfirst) hnext ih

/-- An invariant of the state and of the actions taken so far. -/
theorem history {I : List ι → σ → Prop}
    (hstep : ∀ past s action t, I past s → guard s action →
      next s action = some t → I (past ++ [action]) t)
    {s t : σ} {actions : List ι} (hrun : Run next guard s actions t)
    {past : List ι} (hs : I past s) : I (past ++ actions) t := by
  induction hrun generalizing past with
  | nil s => simpa using hs
  | cons hguard hnext _ ih =>
      have hlater := ih (hstep _ _ _ _ hs hguard hnext)
      simpa using hlater

/-- Where every step keeps a relation to a specification that takes the same
action, the end of a run is related to the end of the specification's. -/
theorem simulates {R : σ → τ → Prop} {spec : τ → ι → τ}
    (hstep : ∀ s a action t, R s a → guard s action →
      next s action = some t → R t (spec a action))
    {s t : σ} {actions : List ι} (hrun : Run next guard s actions t) {a : τ}
    (hs : R s a) : R t (actions.foldl spec a) := by
  induction hrun generalizing a with
  | nil s => exact hs
  | cons hguard hnext _ ih => exact ih (hstep _ _ _ _ hs hguard hnext)

/-- A run followed by a second system that takes some of its actions: the others
leave the relation as it is. -/
theorem project {R : σ → τ → Prop} {keep : ι → Bool} {other : τ → ι → Option τ}
    (hkeep : ∀ s a action t, R s a → guard s action → next s action = some t →
      keep action = true → ∃ b, other a action = some b ∧ R t b)
    (hskip : ∀ s a action t, R s a → guard s action → next s action = some t →
      keep action = false → R t a)
    {s t : σ} {actions : List ι} (hrun : Run next guard s actions t) {a : τ}
    (hs : R s a) :
    ∃ b, Run other anyAction a (actions.filter keep) b ∧ R t b := by
  induction hrun generalizing a with
  | nil s => exact ⟨a, .nil a, hs⟩
  | @cons s t u action actions hguard hnext _ ih =>
      cases htaken : keep action with
      | true =>
          obtain ⟨b, hother, hb⟩ := hkeep s a action t hs hguard hnext htaken
          obtain ⟨last, hlast, hend⟩ := ih hb
          rw [List.filter_cons_of_pos htaken]
          exact ⟨last, .cons trivial hother hlast, hend⟩
      | false =>
          obtain ⟨last, hlast, hend⟩ := ih (hskip s a action t hs hguard hnext
            htaken)
          rw [List.filter_cons_of_neg (by simp [htaken])]
          exact ⟨last, hlast, hend⟩

/-- A guard that follows from the invariant may take the place of the one the
invariant was proved under. -/
theorem reguard {I : σ → Prop} {other : σ → ι → Prop}
    (hstep : ∀ s action t, I s → guard s action → next s action = some t → I t)
    (hguard : ∀ s action, I s → guard s action → other s action)
    {s t : σ} {actions : List ι} (hrun : Run next guard s actions t)
    (hs : I s) : Run next other s actions t := by
  induction hrun with
  | nil s => exact .nil s
  | cons hfirst hnext _ ih =>
      exact .cons (hguard _ _ hs hfirst) hnext
        (ih (hstep _ _ _ hs hfirst hnext))

end Run

end Rkv.Foundation
