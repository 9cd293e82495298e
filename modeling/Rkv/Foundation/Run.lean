import Mathlib

/-!
# Runs of a deterministic step function under a guard

All nondeterminism of a system (which party moves, what it is given, what the
clock reads) is in the list of actions, so a run is a fold of the step function
that stops at an action that is not enabled.  The guard restricts which actions
are considered in which states; an invariant is proved from one step.
-/

namespace Rkv.Foundation

variable {σ ι : Type*}

/-- A run from one state to another, every step enabled and within the guard. -/
inductive Run (next : σ → ι → Option σ) (guard : σ → ι → Prop) :
    σ → List ι → σ → Prop
  | nil (s : σ) : Run next guard s [] s
  | cons {s t u : σ} {action : ι} {actions : List ι} :
      guard s action → next s action = some t → Run next guard t actions u →
      Run next guard s (action :: actions) u

def anyAction (_ : σ) (_ : ι) : Prop := True

def runActions (next : σ → ι → Option σ) : σ → List ι → Option σ
  | s, [] => some s
  | s, action :: actions =>
      match next s action with
      | some t => runActions next t actions
      | none => none

namespace Run

variable {next : σ → ι → Option σ} {guard : σ → ι → Prop}

theorem invariant {I : σ → Prop}
    (hstep : ∀ s action t, I s → guard s action → next s action = some t → I t)
    {s t : σ} {actions : List ι} (hrun : Run next guard s actions t)
    (hs : I s) : I t := by
  induction hrun with
  | nil s => exact hs
  | cons hguard hnext _ ih => exact ih (hstep _ _ _ hs hguard hnext)

theorem restrict {Q : ι → Prop} {s t : σ} {actions : List ι}
    (hrun : Run next guard s actions t) (hactions : ∀ action ∈ actions, Q action) :
    Run next (fun s action => guard s action ∧ Q action) s actions t := by
  induction hrun with
  | nil s => exact .nil s
  | cons hguard hnext _ ih =>
      rw [List.forall_mem_cons] at hactions
      exact .cons ⟨hguard, hactions.1⟩ hnext (ih hactions.2)

theorem of_runActions {s t : σ} {actions : List ι}
    (h : runActions next s actions = some t) :
    Run next anyAction s actions t := by
  induction actions generalizing s with
  | nil =>
      cases h
      exact .nil _
  | cons action actions ih =>
      simp only [runActions] at h
      split at h
      · rename_i u hnext
        exact .cons trivial hnext (ih h)
      · contradiction

/-- A run is within a guard when every action of it is, in the state it finds. -/
theorem guarded_iff {s u : σ} {actions : List ι}
    (hrun : Run next anyAction s actions u) :
    Run next guard s actions u ↔
      ∀ pre action post v, actions = pre ++ action :: post →
        Run next anyAction s pre v → guard v action := by
  induction hrun with
  | nil s => exact iff_of_true (.nil s) (by simp)
  | @cons s t u action actions _ hnext hrest ih =>
      constructor
      · intro hguarded pre later post v hsplit hpre
        cases hguarded with
        | cons hguard hnext' hguarded =>
            obtain rfl := Option.some.inj (hnext.symm.trans hnext')
            cases hpre with
            | nil =>
                obtain ⟨rfl, -⟩ := List.cons.inj hsplit
                exact hguard
            | cons _ hfirst hpre =>
                rw [List.cons_append, List.cons.injEq] at hsplit
                obtain ⟨rfl, hsplit⟩ := hsplit
                obtain rfl := Option.some.inj (hnext.symm.trans hfirst)
                exact ih.mp hguarded _ later post v hsplit hpre
      · intro hall
        refine .cons (hall [] action actions s rfl (.nil s)) hnext (ih.mpr ?_)
        intro pre later post v hsplit hpre
        exact hall (action :: pre) later post v (by rw [hsplit, List.cons_append])
          (.cons trivial hnext hpre)

/-- Where a property holds as long as the guard is kept and every step outside
the guard breaks it, the runs that have it throughout are the guarded ones. -/
theorem forall_prefix_iff {I P : σ → Prop} {Q : ι → Prop}
    (hholds : ∀ s, I s → P s)
    (hkeeps : ∀ s action t, Q action → I s → guard s action →
      next s action = some t → I t)
    (hbreaks : ∀ s action t, Q action → I s → ¬guard s action →
      next s action = some t → ¬P t)
    {s u : σ} {actions : List ι} (hactions : ∀ action ∈ actions, Q action)
    (hrun : Run next anyAction s actions u) (hs : I s) :
    (∀ pre post v, actions = pre ++ post → Run next anyAction s pre v → P v) ↔
      Run next guard s actions u := by
  induction hrun with
  | nil s =>
      refine ⟨fun _ => .nil s, fun _ pre post v hsplit hpre => ?_⟩
      obtain ⟨rfl, rfl⟩ := List.append_eq_nil_iff.mp hsplit.symm
      cases hpre
      exact hholds s hs
  | @cons s t u action actions _ hnext hrest ih =>
      obtain ⟨haction, hactions⟩ := List.forall_mem_cons.mp hactions
      constructor
      · intro hall
        have hguard : guard s action := by
          by_contra hnot
          exact hbreaks s action t haction hs hnot hnext
            (hall [action] actions t rfl (.cons trivial hnext (.nil t)))
        have ht : I t := hkeeps s action t haction hs hguard hnext
        refine .cons hguard hnext ((ih hactions ht).mp ?_)
        intro pre post v hsplit hpre
        exact hall (action :: pre) post v (by rw [hsplit, List.cons_append])
          (.cons trivial hnext hpre)
      · intro hguarded pre post v hsplit hpre
        cases hpre with
        | nil => exact hholds s hs
        | cons _ hfirst hpre =>
            rw [List.cons_append, List.cons.injEq] at hsplit
            obtain ⟨rfl, hsplit⟩ := hsplit
            cases hguarded with
            | cons hguard hnext' hguarded =>
                obtain rfl := Option.some.inj (hnext.symm.trans hnext')
                obtain rfl := Option.some.inj (hnext.symm.trans hfirst)
                have ht : I t := hkeeps s action t haction hs hguard hnext
                exact (ih hactions ht).mpr hguarded _ post v hsplit hpre

end Run

end Rkv.Foundation
