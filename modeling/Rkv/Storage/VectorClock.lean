import Rkv.Foundation.Counter
import Rkv.Storage.MemTable

/-!
# The order of vector clocks

`dominates` and `merge` run over the entries of the maps.  Seen as functions on
node ids, where a missing node counts as 0, they are the strict pointwise order
and the pointwise maximum.
-/

namespace Rkv.Storage

open Std (ExtTreeMap)
open Rkv.Foundation

namespace VectorClock

variable {clock other : VectorClock}

theorem dominatesOthers_eq_some (clock : VectorClock)
    {entries : List (String × UInt64)} {seen result : Bool} :
    dominatesOthers clock entries seen = some result ↔
      (∀ entry ∈ entries, entry.2 ≤ clock.count entry.1) ∧
        result = (seen || entries.any fun entry =>
          decide (entry.2 < clock.count entry.1)) := by
  induction entries generalizing seen with
  | nil => simp [dominatesOthers, eq_comm]
  | cons entry entries ih =>
      obtain ⟨node, count⟩ := entry
      rw [dominatesOthers]
      by_cases hlt : clock.count node < count
      · simp only [hlt, if_true, reduceCtorEq, false_iff, not_and]
        intro hle
        exact absurd (hle (node, count) (by simp)) (UInt64.not_le.mpr hlt)
      · simp only [hlt, if_false, ih, List.forall_mem_cons, List.any_cons]
        by_cases hgt : count < clock.count node
        · simp [hgt, UInt64.le_of_lt hgt]
        · simp [hgt, UInt64.not_lt.mp hlt]

theorem dominatesExtra_eq (other : VectorClock)
    (entries : List (String × UInt64)) (seen : Bool) :
    dominatesExtra other entries seen =
      (seen || entries.any fun entry =>
        decide (0 < entry.2) && !other.clocks.contains entry.1) := by
  induction entries generalizing seen with
  | nil => simp [dominatesExtra]
  | cons entry entries ih =>
      obtain ⟨node, count⟩ := entry
      rw [dominatesExtra, ih, List.any_cons]
      by_cases hextra : (decide (0 < count) && !other.clocks.contains node) = true
      · simp [hextra]
      · simp [Bool.eq_false_iff.mpr hextra]

theorem count_of_mem_toList {node : String} {n : UInt64}
    (h : (node, n) ∈ clock.clocks.toList) : clock.count node = n := by
  have hget := ExtTreeMap.mem_toList_iff_getElem?_eq_some.mp h
  simp [count, ExtTreeMap.getD_eq_getD_getElem?, hget]

theorem mem_toList_of_contains {node : String}
    (h : clock.clocks.contains node = true) :
    (node, clock.count node) ∈ clock.clocks.toList := by
  obtain ⟨n, hn⟩ := Option.isSome_iff_exists.mp
    (ExtTreeMap.isSome_getElem?_iff_mem.mpr (ExtTreeMap.mem_iff_contains.mpr h))
  have hmem := ExtTreeMap.mem_toList_iff_getElem?_eq_some.mpr hn
  rwa [count_of_mem_toList hmem]

theorem count_of_not_contains {node : String}
    (h : clock.clocks.contains node = false) : clock.count node = 0 := by
  have hget : clock.clocks[node]? = none :=
    ExtTreeMap.getElem?_eq_none fun hmem => by
      simp [ExtTreeMap.mem_iff_contains.mp hmem] at h
  simp [count, ExtTreeMap.getD_eq_getD_getElem?, hget]

theorem forall_mem_toList_le_iff (clock : VectorClock) (node : String)
    (bound : UInt64) :
    (∀ entry ∈ clock.clocks.toList, entry.1 = node → entry.2 ≤ bound) ↔
      clock.count node ≤ bound := by
  constructor
  · intro hle
    cases hcontains : clock.clocks.contains node with
    | false => simp [count_of_not_contains hcontains]
    | true => exact hle _ (mem_toList_of_contains hcontains) rfl
  · rintro hle ⟨_, n⟩ hmem rfl
    rwa [← count_of_mem_toList hmem]

/-- `dominates` is the strict pointwise order of the counts. -/
theorem dominates_iff :
    clock.dominates other = true ↔
      (∀ node, other.count node ≤ clock.count node) ∧
        ∃ node, other.count node < clock.count node := by
  have hall : (∀ entry ∈ other.clocks.toList, entry.2 ≤ clock.count entry.1) ↔
      ∀ node, other.count node ≤ clock.count node := by
    constructor
    · intro hle node
      apply (forall_mem_toList_le_iff other node _).mp
      rintro entry hmem rfl
      exact hle entry hmem
    · intro hle entry hmem
      exact (forall_mem_toList_le_iff other entry.1 _).mpr (hle entry.1) entry
        hmem rfl
  have hany : (other.clocks.toList.any (fun entry =>
        decide (entry.2 < clock.count entry.1)) ||
      clock.clocks.toList.any (fun entry =>
        decide (0 < entry.2) && !other.clocks.contains entry.1)) = true ↔
      ∃ node, other.count node < clock.count node := by
    simp only [Bool.or_eq_true, List.any_eq_true, decide_eq_true_eq,
      Bool.and_eq_true, Bool.not_eq_true']
    constructor
    · rintro (⟨⟨node, n⟩, hmem, hlt⟩ | ⟨⟨node, n⟩, hmem, hpos, hextra⟩)
      · exact ⟨node, by simpa [count_of_mem_toList hmem] using hlt⟩
      · refine ⟨node, ?_⟩
        rw [count_of_not_contains hextra, count_of_mem_toList hmem]
        exact hpos
    · rintro ⟨node, hlt⟩
      cases hother : other.clocks.contains node with
      | true => exact .inl ⟨_, mem_toList_of_contains hother, hlt⟩
      | false =>
          rw [count_of_not_contains hother] at hlt
          cases hself : clock.clocks.contains node with
          | true => exact .inr ⟨_, mem_toList_of_contains hself, hlt, hother⟩
          | false => simp [count_of_not_contains hself] at hlt
  rw [← hall, ← hany]
  unfold dominates
  cases hothers : dominatesOthers clock other.clocks.toList false with
  | none =>
      refine iff_of_false (by simp) fun h => ?_
      have hsome := (dominatesOthers_eq_some clock).mpr
        ⟨h.1, (Bool.false_or _).symm⟩
      rw [hothers] at hsome
      contradiction
  | some result =>
      obtain ⟨hle, hresult⟩ := (dominatesOthers_eq_some clock).mp hothers
      simp only [dominatesExtra_eq, hresult, Bool.false_or]
      exact ⟨fun h => ⟨hle, h⟩, fun h => h.2⟩

theorem dominates_asymm (h : clock.dominates other = true) :
    other.dominates clock = false := by
  rw [Bool.eq_false_iff]
  intro hback
  obtain ⟨-, node, hlt⟩ := dominates_iff.mp h
  exact absurd ((dominates_iff.mp hback).1 node) (UInt64.not_le.mpr hlt)

/-! ## Merging -/

theorem getD_mergeEntries_le_iff (clocks : ClockMap)
    (entries : List (String × UInt64)) (node : String) (bound : UInt64) :
    (mergeEntries clocks entries).getD node 0 ≤ bound ↔
      clocks.getD node 0 ≤ bound ∧
        ∀ entry ∈ entries, entry.1 = node → entry.2 ≤ bound := by
  induction entries generalizing clocks with
  | nil => simp [mergeEntries]
  | cons entry entries ih =>
      obtain ⟨key, n⟩ := entry
      rw [mergeEntries, ih, ExtTreeMap.getD_insert]
      by_cases hkey : key = node
      · subst hkey
        simp [counter_max_le_iff, and_assoc]
      · simp [hkey]

/-- `merge` takes the greater of the two counts of a node. -/
theorem count_merge (clock other : VectorClock) (node : String) :
    (clock.merge other).count node =
      max (clock.count node) (other.count node) := by
  apply counter_eq_of_forall_le_iff
  intro bound
  rw [counter_max_le_iff, ← forall_mem_toList_le_iff other node bound]
  exact getD_mergeEntries_le_iff clock.clocks other.clocks.toList node bound

theorem count_increment (clock : VectorClock) (nodeId node : String) :
    (clock.increment nodeId).count node =
      if nodeId = node then clock.count nodeId + 1 else clock.count node := by
  simp [increment, count, ExtTreeMap.getD_insert]

@[simp] theorem count_new (node : String) : new.count node = 0 := by
  simp [new, count]

/-! ## Advancing -/

def Covers (clock other : VectorClock) : Prop :=
  ∀ node, other.count node ≤ clock.count node

theorem increment_dominates_iff (clock : VectorClock) (nodeId : String) :
    (clock.increment nodeId).dominates clock = true ↔
      (clock.count nodeId).toNat + 1 < 2 ^ 64 := by
  rw [dominates_iff]
  constructor
  · rintro ⟨hle, -⟩
    have hown := hle nodeId
    rwa [count_increment, if_pos rfl, counter_le_succ_iff] at hown
  · intro hroom
    refine ⟨fun node => ?_, nodeId, ?_⟩
    · rw [count_increment]
      split
      · rename_i heq
        exact heq ▸ counter_le_succ_iff.mpr hroom
      · exact UInt64.le_refl _
    · rw [count_increment, if_pos rfl]
      exact counter_lt_succ_iff.mpr hroom

/-- A new clock merged with the one stored goes beyond it only by a first count
of its node. -/
theorem merge_dominates_iff (clock : VectorClock) (nodeId : String) :
    ((new.increment nodeId).merge clock).dominates clock = true ↔
      clock.count nodeId = 0 := by
  have hcount : ∀ node, ((new.increment nodeId).merge clock).count node =
      max (if nodeId = node then 1 else 0) (clock.count node) := by
    intro node
    rw [count_merge, count_increment, count_new, count_new]
    rfl
  have hle : ∀ node, clock.count node ≤
      ((new.increment nodeId).merge clock).count node := by
    intro node
    rw [hcount]
    exact (counter_max_le_iff.mp (UInt64.le_refl _)).2
  rw [dominates_iff, and_iff_right hle]
  constructor
  · rintro ⟨node, hlt⟩
    rw [hcount] at hlt
    by_contra hpos
    refine UInt64.not_le.mpr hlt (counter_max_le_iff.mpr ⟨?_, UInt64.le_refl _⟩)
    split
    · rename_i heq
      rw [← heq, UInt64.le_iff_toNat_le]
      have hne : (clock.count nodeId).toNat ≠ 0 := fun hzero =>
        hpos (UInt64.toNat_inj.mp hzero)
      exact Nat.one_le_iff_ne_zero.mpr hne
    · exact UInt64.zero_le
  · intro hzero
    refine ⟨nodeId, ?_⟩
    rw [hcount, if_pos rfl, hzero]
    decide

end VectorClock

end Rkv.Storage
