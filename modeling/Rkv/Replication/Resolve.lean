import Rkv.Foundation.Contest
import Rkv.Replication.Coordinator

/-!
# Which answer a read returns

`resolve_conflicts` is a contest of the live answers in their order.  A version
wins against another by its clock or, where the clocks do not compare, by its
timestamp, which is not transitive.  A version that no answer dominates and that
is the youngest wins against any others in any order.
-/

namespace Rkv.Replication

open Rkv.Foundation
open Rkv.Storage (VersionedValue)

/-- The version loses against another: it does not dominate it and is older. -/
def Below (v best : VersionedValue) : Prop :=
  v.vectorClock.dominates best.vectorClock = false ∧
    v.timestampMs < best.timestampMs

def Live (now : Int64) (v : VersionedValue) : Prop :=
  v.deleted = false ∧ v.isExpired now = false

instance (now : Int64) (v : VersionedValue) : Decidable (Live now v) :=
  inferInstanceAs (Decidable (_ ∧ _))

/-! ## The contest -/

/-- The version replaces the other as the best so far. -/
def Wins (val current : VersionedValue) : Prop :=
  val.vectorClock.dominates current.vectorClock = true ∨
    current.vectorClock.dominates val.vectorClock = false ∧
      current.timestampMs < val.timestampMs

instance : DecidableRel Wins := fun _ _ =>
  inferInstanceAs (Decidable (_ ∨ _))

theorem wins_irrefl (v : VersionedValue) : ¬Wins v v := by
  rintro (hdominates | ⟨-, hyounger⟩)
  · simp [Storage.VectorClock.dominates_asymm hdominates] at hdominates
  · exact Int64.lt_irrefl hyounger

theorem wins_of_below {v best : VersionedValue} (h : Below v best) :
    Wins best v ∧ ¬Wins v best := by
  refine ⟨.inr h, ?_⟩
  rintro (hdominates | ⟨-, hyounger⟩)
  · simp [h.1] at hdominates
  · exact Int64.lt_asymm h.2 hyounger

theorem prefer_eq (current val : VersionedValue) :
    prefer current val = if Wins val current then val else current := by
  unfold prefer
  by_cases hdominates : val.vectorClock.dominates current.vectorClock = true
  · rw [if_pos hdominates, if_pos (.inl hdominates)]
  · rw [if_neg hdominates]
    by_cases hback : current.vectorClock.dominates val.vectorClock = true
    · rw [if_pos hback, if_neg (by simp [Wins, hdominates, hback])]
    · simp only [Wins, hdominates, hback, Bool.false_eq_true, if_false, false_or,
        true_and]

def liveAnswers (now : Int64) (values : List (Option VersionedValue)) :
    List VersionedValue :=
  values.reduceOption.filter fun v => Live now v

theorem mem_liveAnswers {now : Int64} {values : List (Option VersionedValue)}
    {v : VersionedValue} :
    v ∈ liveAnswers now values ↔ some v ∈ values ∧ Live now v := by
  simp [liveAnswers, List.reduceOption_mem_iff]

theorem resolveLoop_eq (now : Int64) (best : Option VersionedValue)
    (values : List (Option VersionedValue)) :
    resolveLoop now best values =
      (liveAnswers now values).foldl
        (fun current val => some (takeOver Wins current val)) best := by
  induction values generalizing best with
  | nil => rfl
  | cons value values ih =>
      cases value with
      | none => exact ih best
      | some val =>
          have hpick : pickBest best val = takeOver Wins best val := by
            cases best with
            | none => rfl
            | some current => exact prefer_eq current val
          rw [resolveLoop, ih, ih, hpick]
          cases hdeleted : val.deleted with
          | true => simp [liveAnswers, Live, hdeleted]
          | false =>
              cases hexpired : val.isExpired now with
              | true => simp [liveAnswers, Live, hdeleted, hexpired]
              | false => simp [liveAnswers, Live, hdeleted, hexpired]

theorem resolveConflicts_eq (now : Int64) (values : List (Option VersionedValue)) :
    resolveConflicts now values = contest Wins (liveAnswers now values) :=
  resolveLoop_eq now none values

theorem resolveConflicts_eq_some {now : Int64} {best : VersionedValue}
    (hbest : Live now best) {values : List (Option VersionedValue)}
    (hmem : some best ∈ values)
    (hvalues : ∀ v, some v ∈ values → v = best ∨ Below v best) :
    resolveConflicts now values = some best := by
  rw [resolveConflicts_eq]
  refine contest_eq_some (mem_liveAnswers.mpr ⟨hmem, hbest⟩) fun v hv => ?_
  rcases hvalues v (mem_liveAnswers.mp hv).1 with heq | hbelow
  · exact .inl heq
  · exact .inr (wins_of_below hbelow)

theorem resolveConflicts_eq_none_iff {now : Int64}
    {values : List (Option VersionedValue)} :
    resolveConflicts now values = none ↔
      ∀ v, some v ∈ values → ¬Live now v := by
  rw [resolveConflicts_eq, contest_eq_none_iff, List.eq_nil_iff_forall_not_mem]
  simp only [mem_liveAnswers, not_and]

/-! ## Versions that are superseded -/

/-- Some of the live answers, each winning against the one before it, lead to one
that a live answer dominates, and every live answer fails to win against one of
them. -/
def Overtaken (now : Int64) (values : List (Option VersionedValue)) : Prop :=
  ∃ chain last top, Holders Wins (liveAnswers now values) chain last ∧
    top ∈ liveAnswers now values ∧
    top.vectorClock.dominates last.vectorClock = true

theorem liveAnswers_append (now : Int64)
    (front back : List (Option VersionedValue)) :
    liveAnswers now (front ++ back) =
      liveAnswers now front ++ liveAnswers now back := by
  simp [liveAnswers, List.reduceOption_append]

theorem liveAnswers_map_some {now : Int64} {versions : List VersionedValue}
    (hlive : ∀ v ∈ versions, Live now v) :
    liveAnswers now (versions.map some) = versions := by
  have hall : (versions.map some).reduceOption = versions := by
    simp [List.reduceOption]
  rw [liveAnswers, hall, List.filter_eq_self]
  simpa using hlive

theorem perm_liveAnswers (now : Int64)
    {answers values : List (Option VersionedValue)} (h : answers.Perm values) :
    (liveAnswers now answers).Perm (liveAnswers now values) :=
  (h.filterMap id).filter _

theorem map_some_liveAnswers (now : Int64)
    (values : List (Option VersionedValue)) :
    (liveAnswers now values).map some =
      values.filter fun answer => answer.any fun v => Live now v := by
  induction values with
  | nil => rfl
  | cons answer values ih =>
      cases answer with
      | none => exact ih
      | some v =>
          by_cases hlive : Live now v
          · simpa [liveAnswers, hlive] using ih
          · simpa [liveAnswers, hlive] using ih

/-- The live answers come in any order there is. -/
theorem exists_answers {now : Int64} {values : List (Option VersionedValue)}
    {order : List VersionedValue} (h : order.Perm (liveAnswers now values)) :
    ∃ answers, answers.Perm values ∧ liveAnswers now answers = order := by
  have hlive : ∀ v ∈ order, Live now v := fun v hv =>
    (mem_liveAnswers.mp (h.mem_iff.mp hv)).2
  refine ⟨order.map some ++
    values.filter fun answer => !answer.any fun v => Live now v, ?_, ?_⟩
  · have hsome := h.map some
    rw [map_some_liveAnswers] at hsome
    exact (hsome.append_right _).trans (List.filter_append_perm _ values)
  · have hnone : liveAnswers now
        (values.filter fun answer => !answer.any fun v => Live now v) = [] := by
      rw [List.eq_nil_iff_forall_not_mem]
      intro v hv
      obtain ⟨hmem, hvlive⟩ := mem_liveAnswers.mp hv
      simp [hvlive] at hmem
    rw [liveAnswers_append, liveAnswers_map_some hlive, hnone, List.append_nil]

/-- In whatever order the replicas' answers come, no version is returned that
another answer dominates, exactly when no answer is overtaken. -/
theorem superseded_never_returned_iff (now : Int64)
    (values : List (Option VersionedValue)) :
    (∀ answers : List (Option VersionedValue), answers.Perm values →
      ∀ best, resolveConflicts now answers = some best →
        ∀ v, some v ∈ answers → Live now v →
          v.vectorClock.dominates best.vectorClock = false) ↔
      ¬Overtaken now values := by
  constructor
  · rintro hright ⟨chain, last, top, hholders, htop, hdominates⟩
    obtain ⟨order, hperm, hcontest⟩ :=
      (exists_perm_contest_iff wins_irrefl).mpr ⟨chain, hholders⟩
    obtain ⟨answers, hanswers, horder⟩ := exists_answers hperm
    have hreturned : resolveConflicts now answers = some last := by
      rw [resolveConflicts_eq, horder]
      exact hcontest
    have hmem : top ∈ liveAnswers now answers := by
      rw [horder]
      exact hperm.mem_iff.mpr htop
    obtain ⟨hmem, hlive⟩ := mem_liveAnswers.mp hmem
    have hnot := hright answers hanswers last hreturned top hmem hlive
    simp [hdominates] at hnot
  · intro hnone answers hanswers best hbest v hv hlive
    rw [Bool.eq_false_iff]
    intro hdominates
    have hperm := perm_liveAnswers now hanswers
    rw [resolveConflicts_eq] at hbest
    obtain ⟨chain, hholders⟩ := (exists_perm_contest_iff wins_irrefl).mp
      ⟨liveAnswers now answers, hperm, hbest⟩
    exact hnone ⟨chain, best, v, hholders,
      hperm.mem_iff.mp (mem_liveAnswers.mpr ⟨hv, hlive⟩), hdominates⟩

/-- With timestamps 1, 2 and 3 the second answer is the youngest so far and the
third is younger still, although the first dominates it. -/
theorem dominated_version_returned :
    let newest : VersionedValue := ⟨[3], ⟨{("node1", 2)}⟩, 1, 0, false⟩
    let concurrent : VersionedValue := ⟨[2], ⟨{("node2", 1)}⟩, 2, 0, false⟩
    let oldest : VersionedValue := ⟨[1], ⟨{("node1", 1)}⟩, 3, 0, false⟩
    resolveConflicts 10 [some newest, some concurrent, some oldest] =
        some oldest ∧
      newest.deleted = false ∧ newest.isExpired 10 = false ∧
      newest.vectorClock.dominates oldest.vectorClock = true := by
  decide +kernel

/-! ## Timestamps that respect causality -/

/-- Among live answers a dominating clock has the later timestamp, and equal
timestamps are those of one version. -/
structure Causal (now : Int64) (values : List (Option VersionedValue)) : Prop where
  later : ∀ v w, some v ∈ values → Live now v → some w ∈ values → Live now w →
    v.vectorClock.dominates w.vectorClock = true → w.timestampMs < v.timestampMs
  eq_of_eq : ∀ v w, some v ∈ values → Live now v → some w ∈ values →
    Live now w → v.timestampMs = w.timestampMs → v = w

namespace Causal

variable {now : Int64} {values : List (Option VersionedValue)}
  {best : VersionedValue}

theorem resolveConflicts_youngest (h : Causal now values)
    (hmem : some best ∈ values) (hlive : Live now best)
    (hyoungest : ∀ v, some v ∈ values → Live now v →
      v.timestampMs ≤ best.timestampMs) :
    resolveConflicts now values = some best := by
  rw [resolveConflicts_eq]
  refine contest_eq_some (mem_liveAnswers.mpr ⟨hmem, hlive⟩) fun v hv => ?_
  obtain ⟨hv, hvlive⟩ := mem_liveAnswers.mp hv
  have hle := hyoungest v hv hvlive
  by_cases heq : v.timestampMs = best.timestampMs
  · exact .inl (h.eq_of_eq v best hv hvlive hmem hlive heq)
  · refine .inr (wins_of_below ⟨?_, Int64.lt_of_le_of_ne hle heq⟩)
    rw [Bool.eq_false_iff]
    intro hdominates
    exact Int64.not_le.mpr (h.later v best hv hvlive hmem hlive hdominates) hle

theorem exists_youngest (hne : liveAnswers now values ≠ []) :
    ∃ best, some best ∈ values ∧ Live now best ∧
      ∀ v, some v ∈ values → Live now v → v.timestampMs ≤ best.timestampMs := by
  obtain ⟨v, hv⟩ := List.exists_mem_of_ne_nil _ hne
  obtain ⟨best, hbest, hmax⟩ := (liveAnswers now values).toFinset.exists_max_image
    (fun v => v.timestampMs.toInt) ⟨v, List.mem_toFinset.mpr hv⟩
  obtain ⟨hmem, hlive⟩ := mem_liveAnswers.mp (List.mem_toFinset.mp hbest)
  refine ⟨best, hmem, hlive, fun v hv hvlive => ?_⟩
  exact Int64.le_iff_toInt_le.mpr
    (hmax v (List.mem_toFinset.mpr (mem_liveAnswers.mpr ⟨hv, hvlive⟩)))

theorem resolveConflicts_eq_some_iff (h : Causal now values) :
    resolveConflicts now values = some best ↔
      some best ∈ values ∧ Live now best ∧
        ∀ v, some v ∈ values → Live now v →
          v.timestampMs ≤ best.timestampMs := by
  constructor
  · intro hbest
    have hne : liveAnswers now values ≠ [] := by
      intro hnil
      simp [resolveConflicts_eq, hnil] at hbest
    obtain ⟨youngest, hmem, hlive, hyoungest⟩ := exists_youngest hne
    have heq := h.resolveConflicts_youngest hmem hlive hyoungest
    obtain rfl : best = youngest := Option.some.inj (hbest.symm.trans heq)
    exact ⟨hmem, hlive, hyoungest⟩
  · rintro ⟨hmem, hlive, hyoungest⟩
    exact h.resolveConflicts_youngest hmem hlive hyoungest

theorem perm {other : List (Option VersionedValue)} (h : Causal now values)
    (hperm : other.Perm values) : Causal now other where
  later := fun v w hv hvlive hw => h.later v w (hperm.subset hv) hvlive
    (hperm.subset hw)
  eq_of_eq := fun v w hv hvlive hw => h.eq_of_eq v w (hperm.subset hv) hvlive
    (hperm.subset hw)

end Causal

/-- Where timestamps respect causality the youngest live answer is returned,
whatever the order. -/
theorem last_writer_wins {now : Int64} {values : List (Option VersionedValue)}
    (h : Causal now values) :
    (∀ best, resolveConflicts now values = some best ↔
      some best ∈ values ∧ Live now best ∧
        ∀ v, some v ∈ values → Live now v →
          v.timestampMs ≤ best.timestampMs) ∧
      (resolveConflicts now values = none ↔
        ∀ v, some v ∈ values → ¬Live now v) ∧
      ∀ other : List (Option VersionedValue), other.Perm values →
        resolveConflicts now other = resolveConflicts now values := by
  refine ⟨fun best => h.resolveConflicts_eq_some_iff,
    resolveConflicts_eq_none_iff, fun other hperm => ?_⟩
  apply Option.ext
  intro best
  rw [(h.perm hperm).resolveConflicts_eq_some_iff, h.resolveConflicts_eq_some_iff]
  simp only [hperm.mem_iff]

/-- Two puts through `node1`, the second after a delete, and a concurrent one
through `node2`. -/
theorem last_writer_wins_of_three :
    let first : VersionedValue := ⟨[1], ⟨{("node1", 1)}⟩, 1, 0, false⟩
    let second : VersionedValue := ⟨[2], ⟨{("node1", 3)}⟩, 3, 0, false⟩
    let other : VersionedValue := ⟨[3], ⟨{("node2", 1)}⟩, 2, 0, false⟩
    Causal 10 [some second, none, some first, some other] ∧
      resolveConflicts 10 [some second, none, some first, some other] =
        some second ∧
      resolveConflicts 10 [some first, some other, some second, none] =
        some second := by
  intro first second other
  have hcausal : Causal 10 [some second, none, some first, some other] := by
    constructor
    · intro v w hv _ hw _
      simp only [List.mem_cons, Option.some.injEq, reduceCtorEq,
        List.not_mem_nil, or_false, false_or] at hv hw
      rcases hv with rfl | rfl | rfl <;> rcases hw with rfl | rfl | rfl <;>
        decide +kernel
    · intro v w hv _ hw _
      simp only [List.mem_cons, Option.some.injEq, reduceCtorEq,
        List.not_mem_nil, or_false, false_or] at hv hw
      rcases hv with rfl | rfl | rfl <;> rcases hw with rfl | rfl | rfl <;>
        decide +kernel
  have hfirst : resolveConflicts 10 [some second, none, some first, some other] =
      some second := by decide +kernel
  refine ⟨hcausal, hfirst, ?_⟩
  rw [(last_writer_wins hcausal).2.2 _ (by decide +kernel), hfirst]

/-! ## Versions that are gone -/

theorem not_live_iff {now : Int64} {v : VersionedValue} :
    ¬Live now v ↔ v.deleted = true ∨ v.isExpired now = true := by
  unfold Live
  cases v.deleted <;> cases v.isExpired now <;> simp

theorem live_of_resolveConflicts {now : Int64}
    {values : List (Option VersionedValue)} {best : VersionedValue}
    (h : resolveConflicts now values = some best) :
    some best ∈ values ∧ Live now best := by
  rw [resolveConflicts_eq] at h
  exact mem_liveAnswers.mp (mem_of_contest h)

/-- A deleted or expired answer that dominates all others hides them exactly when
none of them is live: it is left out before the clocks are compared.  Otherwise
one of those it dominates is returned. -/
theorem superseded_hidden_iff {now : Int64} {top : VersionedValue}
    (hgone : top.deleted = true ∨ top.isExpired now = true)
    (pre post : List (Option VersionedValue))
    (hdominates : ∀ v, some v ∈ pre ++ post →
      top.vectorClock.dominates v.vectorClock = true) :
    (resolveConflicts now (pre ++ some top :: post) = none ↔
      ∀ v, some v ∈ pre ++ post →
        v.deleted = true ∨ v.isExpired now = true) ∧
    ∀ best, resolveConflicts now (pre ++ some top :: post) = some best →
      Live now best ∧ top.vectorClock.dominates best.vectorClock = true := by
  have hmem : ∀ v, some v ∈ pre ++ some top :: post ↔
      v = top ∨ some v ∈ pre ++ post := by
    intro v
    simp only [List.mem_append, List.mem_cons, Option.some.injEq]
    exact or_left_comm
  have hhidden : ¬Live now top := not_live_iff.mpr hgone
  constructor
  · rw [resolveConflicts_eq_none_iff]
    constructor
    · exact fun hnone v hv =>
        not_live_iff.mp (hnone v ((hmem v).mpr (.inr hv)))
    · intro hothers v hv
      rcases (hmem v).mp hv with rfl | hother
      · exact hhidden
      · exact not_live_iff.mpr (hothers v hother)
  · intro best hbest
    obtain ⟨hanswer, hlive⟩ := live_of_resolveConflicts hbest
    rcases (hmem best).mp hanswer with rfl | hother
    · exact absurd hlive hhidden
    · exact ⟨hlive, hdominates best hother⟩

/-- A put through `node1`, and the tombstone of a later delete through it. -/
def putOnNode1 : VersionedValue := .new [1] "node1" 0 1700000000000

def deletedOnNode1 : VersionedValue :=
  .tombstone "node1" putOnNode1.vectorClock 1700000000001

/-- The put was given a second to live, which has passed on the replica that
missed the delete. -/
theorem superseded_hidden_after_ttl :
    let shortLived : VersionedValue := { putOnNode1 with ttlMs := 1000 }
    deletedOnNode1.vectorClock.dominates shortLived.vectorClock = true ∧
      resolveConflicts 1700000002000
        [some shortLived, some deletedOnNode1, none] = none := by
  intro shortLived
  have hdominates : deletedOnNode1.vectorClock.dominates
      shortLived.vectorClock = true := by decide +kernel
  have hexpired : shortLived.isExpired 1700000002000 = true := by decide +kernel
  exact ⟨hdominates, (superseded_hidden_iff (.inl rfl) [some shortLived] [none]
    (by simpa using hdominates)).1.mpr (by simp [hexpired])⟩

/-- A replica that missed the delete makes the read return the deleted version. -/
theorem superseded_version_returned :
    deletedOnNode1.deleted = true ∧
      deletedOnNode1.vectorClock.dominates putOnNode1.vectorClock = true ∧
      resolveConflicts 1700000000002 [some deletedOnNode1, some putOnNode1] =
        some putOnNode1 := by
  decide +kernel

end Rkv.Replication
