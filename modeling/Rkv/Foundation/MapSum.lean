import Mathlib

/-!
# Sums over the entries of a map

An entry adds its weight to the sum whatever else the map holds.  Inserting a
key therefore changes the sum by the new weight and the weight it replaces.
-/

namespace Rkv.Foundation

open Std (ExtTreeMap)

variable {κ β M : Type*} [Ord κ] [Std.TransOrd κ] [Std.LawfulEqOrd κ]
  [AddCommMonoid M]

def entrySum (weight : κ → β → M) (map : ExtTreeMap κ β) : M :=
  (map.toList.map fun p => weight p.1 p.2).sum

variable {weight : κ → β → M} {map : ExtTreeMap κ β} {key : κ} {value : β}

theorem nodup_toList (map : ExtTreeMap κ β) : map.toList.Nodup := by
  refine map.distinct_keys_toList.imp ?_
  rintro p _ hne rfl
  exact hne (Std.LawfulEqCmp.compare_eq_iff_eq.mpr rfl)

theorem toList_perm_cons_erase (h : map[key]? = some value) :
    map.toList.Perm ((key, value) :: (map.erase key).toList) := by
  have habsent : (key, value) ∉ (map.erase key).toList := by
    simp [ExtTreeMap.mem_toList_iff_getElem?_eq_some]
  refine (List.perm_ext_iff_of_nodup (nodup_toList map)
    (List.nodup_cons.mpr ⟨habsent, nodup_toList _⟩)).mpr ?_
  rintro ⟨k, v⟩
  rw [List.mem_cons, ExtTreeMap.mem_toList_iff_getElem?_eq_some,
    ExtTreeMap.mem_toList_iff_getElem?_eq_some, ExtTreeMap.getElem?_erase]
  by_cases hk : k = key
  · subst hk
    simp [h, eq_comm]
  · simp [hk, Ne.symm hk]

theorem entrySum_eq_of_getElem? (h : map[key]? = some value) :
    entrySum weight map = weight key value + entrySum weight (map.erase key) := by
  rw [entrySum, ((toList_perm_cons_erase h).map _).sum_eq, List.map_cons,
    List.sum_cons]
  rfl

theorem entrySum_insert :
    entrySum weight (map.insert key value) =
      weight key value + entrySum weight (map.erase key) := by
  have herase : (map.insert key value).erase key = map.erase key := by
    apply ExtTreeMap.ext_getElem?
    intro k
    rw [ExtTreeMap.getElem?_erase, ExtTreeMap.getElem?_erase,
      ExtTreeMap.getElem?_insert]
    split <;> rfl
  rw [entrySum_eq_of_getElem? (ExtTreeMap.getElem?_insert_self), herase]

theorem entrySum_erase_of_getElem?_eq_none (h : map[key]? = none) :
    entrySum weight (map.erase key) = entrySum weight map := by
  have herase : map.erase key = map := by
    apply ExtTreeMap.ext_getElem?
    intro k
    rw [ExtTreeMap.getElem?_erase]
    split
    · rename_i heq
      rw [← Std.LawfulEqCmp.compare_eq_iff_eq.mp heq, h]
    · rfl
  rw [herase]

end Rkv.Foundation
