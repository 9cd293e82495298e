import Rkv.Storage.Engine

/-!
# Range scans

`MemTable::scan` walks `BTreeMap::range` over `start..end`, skips what `get`
would not return, and stops at its limit.  `range` panics when the start is past
the end; the panic is `none` here.  Keys are compared as strings.
-/

namespace Rkv.Storage

open Std (ExtTreeMap)

/-- `BTreeMap::range(start..end)`. -/
def range (data : TableMap) (start stop : String) :
    Option (List (String × VersionedValue)) :=
  if stop < start then none
  else some (data.toList.filter fun p => start ≤ p.1 && p.1 < stop)

namespace MemTable

def scan (table : MemTable) (start stop : String) (limit : Nat) (now : Int64) :
    Option (List (String × VersionedValue)) :=
  (range table.data start stop).map fun entries =>
    (entries.filter fun p => !p.2.isExpired now && !p.2.deleted).take limit

theorem get_eq_some_iff {table : MemTable} {key : String} {now : Int64}
    {v : VersionedValue} :
    table.get key now = some v ↔
      table.getRaw key = some v ∧ v.isExpired now = false ∧
        v.deleted = false := by
  unfold get getRaw
  cases hfound : table.data[key]? with
  | none => simp
  | some val =>
      dsimp only
      by_cases hexpired : val.isExpired now = true
      · rw [if_pos hexpired]
        simp only [reduceCtorEq, false_iff, Option.some.injEq, not_and]
        rintro rfl hnot
        simp [hexpired] at hnot
      · rw [if_neg hexpired]
        by_cases hdeleted : val.deleted = true
        · rw [if_pos hdeleted]
          simp only [reduceCtorEq, false_iff, Option.some.injEq, not_and]
          rintro rfl -
          simp [hdeleted]
        · rw [if_neg hdeleted, Option.some.injEq]
          constructor
          · rintro rfl
            exact ⟨rfl, by simpa using hexpired, by simpa using hdeleted⟩
          · exact fun h => h.1

/-! ## Exactness -/

/-- The entries that `get` returns for the keys of a range, in the order of the
keys. -/
structure Shows (table : MemTable) (start stop : String) (now : Int64)
    (entries : List (String × VersionedValue)) : Prop where
  sorted : entries.Pairwise fun p q => p.1 < q.1
  mem_iff : ∀ key v, (key, v) ∈ entries ↔
    (start ≤ key ∧ key < stop) ∧ table.get key now = some v

theorem exists_shows (table : MemTable) {start stop : String}
    (hle : start ≤ stop) (now : Int64) :
    ∃ entries, table.Shows start stop now entries ∧
      entries.length ≤ table.data.size ∧
      ∀ limit, table.scan start stop limit now = some (entries.take limit) := by
  refine ⟨(table.data.toList.filter fun p => start ≤ p.1 && p.1 < stop).filter
    fun p => !p.2.isExpired now && !p.2.deleted, ⟨?_, ?_⟩, ?_, ?_⟩
  · have hsorted : table.data.toList.Pairwise fun p q => p.1 < q.1 :=
      table.data.ordered_keys_toList.imp compare_lt_iff_lt.mp
    exact (hsorted.filter _).filter _
  · intro key v
    simp only [List.mem_filter, ExtTreeMap.mem_toList_iff_getElem?_eq_some,
      Bool.and_eq_true, decide_eq_true_eq, Bool.not_eq_true', get_eq_some_iff,
      getRaw]
    tauto
  · rw [← ExtTreeMap.length_toList]
    exact (List.length_filter_le _ _).trans (List.length_filter_le _ _)
  · intro limit
    rw [scan, range, if_neg (not_lt.mpr hle)]
    rfl

/-- A scan returns, and what it returns is the start of what `get` shows of the
range, exactly when the start of the range is not past its end. -/
theorem scan_exact_iff (table : MemTable) (start stop : String) (limit : Nat)
    (now : Int64) :
    (∃ entries, table.Shows start stop now entries ∧
      table.scan start stop limit now = some (entries.take limit)) ↔
      start ≤ stop := by
  constructor
  · rintro ⟨entries, -, hscan⟩
    by_contra hpast
    rw [scan, range, if_pos (not_le.mp hpast)] at hscan
    contradiction
  · intro hle
    obtain ⟨entries, hshows, -, hscan⟩ := table.exists_shows hle now
    exact ⟨entries, hshows, hscan limit⟩

theorem inverted_scan_panics :
    let table := ((new 1048576).put "a" (.new [1] "node1" 0 1700000000000)).1
    table.scan "b" "a" 100 1700000000000 = none ∧
      table.Shows "b" "a" 1700000000000 [] := by
  refine ⟨rfl, ⟨List.Pairwise.nil, fun key v => ?_⟩⟩
  simp only [List.not_mem_nil, false_iff, not_and]
  rintro ⟨hstart, hstop⟩
  exact absurd (hstart.trans_lt hstop) (by decide)

end MemTable

namespace StorageEngine

def scan (engine : StorageEngine) (start stop : String) (limit : Nat)
    (now : Int64) : Option (List (String × VersionedValue)) :=
  engine.memtable.scan start stop limit now

end StorageEngine

end Rkv.Storage
