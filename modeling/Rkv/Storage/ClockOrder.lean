import Rkv.Storage.VectorClock

/-!
# Clocks as an order with joins

The maps of two clocks are walked in whatever order the hash map has, and the
order changes from one walk to the next.  `dominatesAlong` and `mergeAlong` are
the two loops over given walks.  No result depends on the walk: `dominates` is
the strict causal order, and `merge` is the join of the maps.
-/

namespace Rkv.Storage

open Std (ExtTreeMap)
open Rkv.Foundation

namespace VectorClock

variable {clock other : VectorClock}

/-- The entries of a clock, in some order. -/
def Walks (entries : List (String × UInt64)) (clock : VectorClock) : Prop :=
  entries.Perm clock.clocks.toList

instance (entries : List (String × UInt64)) (clock : VectorClock) :
    Decidable (Walks entries clock) :=
  inferInstanceAs (Decidable (List.Perm _ _))

def dominatesAlong (clock other : VectorClock)
    (others own : List (String × UInt64)) : Bool :=
  match dominatesOthers clock others false with
  | none => false
  | some dominated => dominatesExtra other own dominated

def mergeAlong (clock : VectorClock) (others : List (String × UInt64)) :
    VectorClock :=
  ⟨mergeEntries clock.clocks others⟩

theorem dominatesAlong_eq {others own : List (String × UInt64)}
    (hothers : Walks others other) (hown : Walks own clock) :
    clock.dominatesAlong other others own = clock.dominates other := by
  have hfirst : dominatesOthers clock others false =
      dominatesOthers clock other.clocks.toList false := by
    apply Option.ext
    intro result
    simp only [dominatesOthers_eq_some, hothers.mem_iff, hothers.any_eq]
  rw [dominatesAlong, hfirst, dominates]
  cases dominatesOthers clock other.clocks.toList false with
  | none => rfl
  | some dominated => simp only [dominatesExtra_eq, hown.any_eq]

/-! ## Equal clocks -/

theorem ext_iff_contains_count :
    clock = other ↔ ∀ node,
      (clock.clocks.contains node = true ↔ other.clocks.contains node = true) ∧
        clock.count node = other.count node := by
  constructor
  · rintro rfl node
    exact ⟨Iff.rfl, rfl⟩
  · intro hsame
    have hmaps : clock.clocks = other.clocks := by
      apply ExtTreeMap.ext_getElem?
      intro node
      obtain ⟨hcontains, hcount⟩ := hsame node
      cases hself : clock.clocks.contains node with
      | false =>
          have hother : other.clocks.contains node = false := by
            rw [← Bool.not_eq_true, ← hcontains, hself]
            decide
          rw [ExtTreeMap.getElem?_eq_none_of_contains_eq_false hself,
            ExtTreeMap.getElem?_eq_none_of_contains_eq_false hother]
      | true =>
          rw [ExtTreeMap.mem_toList_iff_getElem?_eq_some.mp
              (mem_toList_of_contains hself),
            ExtTreeMap.mem_toList_iff_getElem?_eq_some.mp
              (mem_toList_of_contains (hcontains.mp hself)), hcount]
    cases clock
    cases other
    exact congrArg mk hmaps

theorem contains_mergeEntries (clocks : ClockMap)
    (entries : List (String × UInt64)) (node : String) :
    (mergeEntries clocks entries).contains node = true ↔
      clocks.contains node = true ∨ ∃ entry ∈ entries, entry.1 = node := by
  induction entries generalizing clocks with
  | nil => simp [mergeEntries]
  | cons entry entries ih =>
      obtain ⟨key, n⟩ := entry
      rw [mergeEntries, ih, ExtTreeMap.contains_insert]
      simp only [Bool.or_eq_true, beq_iff_eq, compare_eq_iff_eq,
        List.exists_mem_cons_iff]
      tauto

theorem contains_iff_exists_mem_toList (clock : VectorClock) (node : String) :
    (∃ entry ∈ clock.clocks.toList, entry.1 = node) ↔
      clock.clocks.contains node = true := by
  constructor
  · rintro ⟨⟨_, n⟩, hmem, rfl⟩
    rw [ExtTreeMap.contains_eq_isSome_getElem?,
      ExtTreeMap.mem_toList_iff_getElem?_eq_some.mp hmem]
    rfl
  · intro hcontains
    exact ⟨_, mem_toList_of_contains hcontains, rfl⟩

theorem contains_merge (clock other : VectorClock) (node : String) :
    (clock.merge other).clocks.contains node = true ↔
      clock.clocks.contains node = true ∨ other.clocks.contains node = true := by
  rw [merge, contains_mergeEntries, contains_iff_exists_mem_toList]

theorem mergeAlong_eq {others : List (String × UInt64)}
    (hothers : Walks others other) : clock.mergeAlong others = clock.merge other := by
  rw [ext_iff_contains_count]
  intro node
  constructor
  · simp only [mergeAlong, merge, contains_mergeEntries, hothers.mem_iff]
  · apply counter_eq_of_forall_le_iff
    intro bound
    simp only [count, mergeAlong, merge, getD_mergeEntries_le_iff,
      hothers.mem_iff]

/-! ## The strict causal order -/

theorem dominates_irrefl (clock : VectorClock) :
    clock.dominates clock = false := by
  rw [Bool.eq_false_iff]
  intro hself
  obtain ⟨-, node, hlt⟩ := dominates_iff.mp hself
  exact absurd hlt (UInt64.lt_irrefl _)

theorem dominates_of_dominates_of_covers {a b c : VectorClock}
    (hab : a.dominates b = true) (hbc : b.Covers c) : a.dominates c = true := by
  obtain ⟨hle, node, hlt⟩ := dominates_iff.mp hab
  refine dominates_iff.mpr ⟨fun n => UInt64.le_trans (hbc n) (hle n), node, ?_⟩
  exact UInt64.lt_of_le_of_lt (hbc node) hlt

theorem dominates_trans {a b c : VectorClock} (hab : a.dominates b = true)
    (hbc : b.dominates c = true) : a.dominates c = true :=
  dominates_of_dominates_of_covers hab (dominates_iff.mp hbc).1

/-- The clocks a program builds: counters start at one and do not overflow. -/
inductive Built : VectorClock → Prop
  | new : Built VectorClock.new
  | increment {clock : VectorClock} (nodeId : String) : Built clock →
      (clock.count nodeId).toNat + 1 < 2 ^ 64 → Built (clock.increment nodeId)
  | merge {clock other : VectorClock} {others : List (String × UInt64)} :
      Built clock → Built other → Walks others other →
      Built (clock.mergeAlong others)

/-- No entry is an explicit zero. -/
theorem Built.contains_iff (h : Built clock) (node : String) :
    clock.clocks.contains node = true ↔ clock.count node ≠ 0 := by
  refine ⟨fun hcontains => ?_, fun hpos => ?_⟩
  · induction h with
    | new => simp [VectorClock.new] at hcontains
    | @increment clock nodeId _ hroom ih =>
        rw [count_increment]
        split
        · rw [Ne, ← UInt64.toNat_inj, counter_toNat_succ hroom]
          exact Nat.succ_ne_zero _
        · rename_i hne
          apply ih
          simpa [VectorClock.increment, ExtTreeMap.contains_insert, hne] using
            hcontains
    | merge _ _ hwalks ihc iho =>
        rw [mergeAlong_eq hwalks] at hcontains ⊢
        rw [count_merge]
        intro hzero
        have hle := counter_max_le_iff.mp (UInt64.le_of_eq hzero)
        rcases (contains_merge _ _ _).mp hcontains with hself | hother
        · exact ihc hself (UInt64.le_antisymm hle.1 UInt64.zero_le)
        · exact iho hother (UInt64.le_antisymm hle.2 UInt64.zero_le)
  · by_contra habsent
    exact hpos (count_of_not_contains (Bool.eq_false_iff.mpr habsent))

theorem Built.eq_of_covers (hclock : Built clock) (hother : Built other)
    (hle : clock.Covers other) (hge : other.Covers clock) : clock = other := by
  rw [ext_iff_contains_count]
  intro node
  have hcount : clock.count node = other.count node :=
    UInt64.le_antisymm (hge node) (hle node)
  rw [hclock.contains_iff, hother.contains_iff, hcount]
  exact ⟨Iff.rfl, rfl⟩

theorem dominates_iff_covers :
    clock.dominates other = true ↔ clock.Covers other ∧ ¬other.Covers clock := by
  rw [dominates_iff]
  apply and_congr_right
  intro _
  simp only [Covers, not_forall, UInt64.not_le]

/-- For the clocks a program builds, concurrent means that neither covers the
other. -/
theorem Built.isConcurrentWith_iff (hclock : Built clock) (hother : Built other) :
    clock.isConcurrentWith other = true ↔
      ¬clock.Covers other ∧ ¬other.Covers clock := by
  simp only [isConcurrentWith, Bool.and_eq_true, Bool.not_eq_true',
    ← Bool.not_eq_true, dominates_iff_covers, bne_iff_ne]
  constructor
  · rintro ⟨⟨hnot, hnot'⟩, hne⟩
    constructor
    · intro hle
      exact hnot ⟨hle, fun hge => hne (hclock.eq_of_covers hother hle hge)⟩
    · intro hge
      exact hnot' ⟨hge, fun hle => hne (hclock.eq_of_covers hother hle hge)⟩
  · rintro ⟨hle, hge⟩
    refine ⟨⟨fun h => hle h.1, fun h => hge h.1⟩, ?_⟩
    rintro rfl
    exact hle fun node => UInt64.le_refl _

/-- Two clocks are equal, ordered one way, ordered the other way or concurrent. -/
theorem relations_count_true (clock other : VectorClock) :
    [decide (clock = other), clock.dominates other, other.dominates clock,
      clock.isConcurrentWith other].count true = 1 := by
  by_cases heq : clock = other
  · subst heq
    simp [dominates_irrefl, isConcurrentWith]
  · cases hdom : clock.dominates other with
    | true => simp [heq, hdom, dominates_asymm hdom, isConcurrentWith]
    | false =>
        cases hback : other.dominates clock with
        | true => simp [heq, hdom, hback, isConcurrentWith]
        | false => simp [heq, hdom, hback, isConcurrentWith]

theorem dominates_strict_causal_order :
    (∀ (clock other : VectorClock) (others own : List (String × UInt64)),
      Walks others other → Walks own clock →
        (clock.dominatesAlong other others own = true ↔
          (∀ node, other.count node ≤ clock.count node) ∧
            ∃ node, other.count node < clock.count node) ∧
        clock.dominatesAlong other others own = clock.dominates other) ∧
    (∀ clock : VectorClock, clock.dominates clock = false) ∧
    (∀ clock other : VectorClock, clock.dominates other = true →
      other.dominates clock = false) ∧
    (∀ a b c : VectorClock, a.dominates b = true → b.dominates c = true →
      a.dominates c = true) ∧
    ∀ clock other : VectorClock, Built clock → Built other →
      [decide (clock = other), clock.dominates other, other.dominates clock,
        clock.isConcurrentWith other].count true = 1 ∧
      (clock = other ↔ ∀ node, clock.count node = other.count node) ∧
      (clock.isConcurrentWith other = true ↔
        (∃ node, clock.count node < other.count node) ∧
          ∃ node, other.count node < clock.count node) := by
  refine ⟨fun clock other others own hothers hown => ?_, dominates_irrefl,
    fun _ _ => dominates_asymm, fun _ _ _ => dominates_trans,
    fun clock other hclock hother => ⟨relations_count_true clock other, ?_, ?_⟩⟩
  · rw [dominatesAlong_eq hothers hown]
    exact ⟨dominates_iff, rfl⟩
  · refine ⟨fun heq node => heq ▸ rfl, fun hcount => ?_⟩
    exact hclock.eq_of_covers hother
      (fun node => UInt64.le_of_eq (hcount node).symm)
      (fun node => UInt64.le_of_eq (hcount node))
  · rw [hclock.isConcurrentWith_iff hother]
    simp only [Covers, not_forall, UInt64.not_le]

/-- Two walks of one clock, and a clock that one node took further. -/
theorem dominates_reversed_walk :
    let other := new.increment "node1"
    let clock := other.increment "node2"
    Walks [("node1", 1)] other ∧ Walks [("node2", 1), ("node1", 1)] clock ∧
      Built clock ∧ Built other ∧
      (clock.dominatesAlong other [("node1", 1)] [("node2", 1), ("node1", 1)] =
        clock.dominates other) ∧
      (clock.dominates other = true → other.dominates clock = false) ∧
      [decide (clock = other), clock.dominates other, other.dominates clock,
        clock.isConcurrentWith other].count true = 1 := by
  intro other clock
  have hother : Built other := .increment "node1" .new (by decide)
  have hclock : Built clock := .increment "node2" hother (by decide +kernel)
  have hwalk : Walks [("node1", 1)] other := by decide +kernel
  have hback : Walks [("node2", 1), ("node1", 1)] clock := by decide +kernel
  obtain ⟨halong, -, hasymm, -, hrelations⟩ := dominates_strict_causal_order
  exact ⟨hwalk, hback, hclock, hother, (halong _ _ _ _ hwalk hback).2,
    hasymm clock other, (hrelations clock other hclock hother).1⟩

/-! ## Joins -/

theorem merge_comm (clock other : VectorClock) :
    clock.merge other = other.merge clock := by
  rw [ext_iff_contains_count]
  intro node
  rw [contains_merge, contains_merge, count_merge, count_merge]
  refine ⟨or_comm, counter_eq_of_forall_le_iff fun bound => ?_⟩
  rw [counter_max_le_iff, counter_max_le_iff, and_comm]

theorem merge_assoc (a b c : VectorClock) :
    (a.merge b).merge c = a.merge (b.merge c) := by
  rw [ext_iff_contains_count]
  intro node
  simp only [contains_merge, count_merge]
  refine ⟨or_assoc, counter_eq_of_forall_le_iff fun bound => ?_⟩
  simp only [counter_max_le_iff, and_assoc]

theorem merge_self (clock : VectorClock) : clock.merge clock = clock := by
  rw [ext_iff_contains_count]
  intro node
  rw [contains_merge, count_merge]
  refine ⟨or_self_iff, counter_eq_of_forall_le_iff fun bound => ?_⟩
  rw [counter_max_le_iff, and_self_iff]

theorem covers_merge_iff {bound : VectorClock} :
    bound.Covers (clock.merge other) ↔
      bound.Covers clock ∧ bound.Covers other := by
  simp only [Covers, count_merge, counter_max_le_iff, forall_and]

theorem merge_covers (clock other : VectorClock) :
    (clock.merge other).Covers clock ∧ (clock.merge other).Covers other :=
  covers_merge_iff.mp fun _ => UInt64.le_refl _

theorem merge_least_upper_bound :
    (∀ (clock other : VectorClock) (others : List (String × UInt64)),
      Walks others other → clock.mergeAlong others = clock.merge other) ∧
    (∀ clock other : VectorClock, clock.merge other = other.merge clock) ∧
    (∀ a b c : VectorClock, (a.merge b).merge c = a.merge (b.merge c)) ∧
    (∀ clock : VectorClock, clock.merge clock = clock) ∧
    (∀ (clock other : VectorClock) (node : String),
      clock.count node ≤ (clock.merge other).count node ∧
        other.count node ≤ (clock.merge other).count node) ∧
    (∀ clock other bound : VectorClock,
      (∀ node, clock.count node ≤ bound.count node) →
      (∀ node, other.count node ≤ bound.count node) →
        ∀ node, (clock.merge other).count node ≤ bound.count node) ∧
    ∀ (clock other : VectorClock) (nodeId : String),
      ((clock.merge other).count nodeId).toNat + 1 < 2 ^ 64 →
        ((clock.merge other).increment nodeId).dominates clock = true ∧
          ((clock.merge other).increment nodeId).dominates other = true := by
  refine ⟨fun _ _ _ => mergeAlong_eq, merge_comm, merge_assoc, merge_self,
    fun clock other node => ?_, fun _ _ _ hclock hother =>
      covers_merge_iff.mpr ⟨hclock, hother⟩, fun clock other nodeId hroom => ?_⟩
  · obtain ⟨hclock, hother⟩ := merge_covers clock other
    exact ⟨hclock node, hother node⟩
  · obtain ⟨hclock, hother⟩ := merge_covers clock other
    have hahead := (increment_dominates_iff _ nodeId).mpr hroom
    exact ⟨dominates_of_dominates_of_covers hahead hclock,
      dominates_of_dominates_of_covers hahead hother⟩

/-- Two writes that did not see each other, and the write that saw both. -/
theorem merge_two_writes :
    let first := new.increment "node1"
    let second := new.increment "node2"
    Walks [("node2", 1)] second ∧
      first.mergeAlong [("node2", 1)] = first.merge second ∧
      ((first.merge second).count "node1").toNat + 1 < 2 ^ 64 ∧
      ((first.merge second).increment "node1").dominates first = true ∧
      ((first.merge second).increment "node1").dominates second = true := by
  intro first second
  have hwalk : Walks [("node2", 1)] second := by decide +kernel
  have hroom : ((first.merge second).count "node1").toNat + 1 < 2 ^ 64 := by
    decide +kernel
  obtain ⟨halong, -, -, -, -, -, hahead⟩ := merge_least_upper_bound
  exact ⟨hwalk, halong _ _ _ hwalk, hroom, hahead first second "node1" hroom⟩

end VectorClock

end Rkv.Storage
