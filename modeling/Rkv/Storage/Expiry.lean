import Rkv.Storage.ReferenceCodec
import Rkv.Storage.Scan

/-!
# When a value expires

A value is to be shown up to `timestamp_ms + ttl_ms` and hidden from then on.
`is_expired` adds the two as `i64`, and neither `put` nor `Replicate` bounds the
lifetime a client sends or the timestamp a peer sends.  A sum past the greatest
`i64` wraps to one that has long passed.
-/

namespace Rkv.Storage

namespace VersionedValue

variable {v : VersionedValue}

/-- The last moment at which the value is to be shown. -/
def deadline (v : VersionedValue) : Int := v.timestampMs.toInt + v.ttlMs.toInt

theorem isExpired_of_ttl_pos (httl : 0 < v.ttlMs) (now : Int64) :
    v.isExpired now = decide (v.timestampMs + v.ttlMs < now) := by
  unfold isExpired
  rw [if_neg (Int64.not_le.mpr httl)]

theorem isExpired_iff_of_fits (httl : 0 < v.ttlMs) (hfits : v.deadline < 2 ^ 63)
    (now : Int64) : v.isExpired now = true ↔ v.deadline < now.toInt := by
  have hpos : 0 < v.ttlMs.toInt := Int64.lt_iff_toInt_lt.mp httl
  have hlow := v.timestampMs.le_toInt
  have hsum : (v.timestampMs + v.ttlMs).toInt = v.deadline := by
    rw [Int64.toInt_add]
    unfold deadline at hfits ⊢
    exact Int.bmod_eq_of_le (by norm_num; omega) (by norm_num; omega)
  rw [isExpired_of_ttl_pos httl, decide_eq_true_eq, Int64.lt_iff_toInt_lt, hsum]

/-- Where the sum wraps the value has expired when it is written. -/
theorem isExpired_of_wraps (httl : 0 < v.ttlMs) (hwraps : 2 ^ 63 ≤ v.deadline) :
    v.isExpired v.timestampMs = true := by
  have hstamp := v.timestampMs.toInt_lt
  have hlow := v.timestampMs.le_toInt
  have hhigh := v.ttlMs.toInt_lt
  rw [isExpired_of_ttl_pos httl, decide_eq_true_eq, Int64.lt_iff_toInt_lt,
    Int64.toInt_add, Int.bmod_eq_emod]
  unfold deadline at hwraps
  split <;> omega

end VersionedValue

namespace StorageEngine

/-- At a clock reading up to the deadline the value is shown by `get` and by
every scan of a range around its key that is not cut short; at a later one both
hide it, and eviction removes it. -/
structure ExpiresExactly (engine : StorageEngine) (key : String)
    (v : VersionedValue) (now : Int64) : Prop where
  get_shows : now.toInt ≤ v.deadline → engine.get key now = some v
  scan_shows : now.toInt ≤ v.deadline → ∀ start stop limit, start ≤ key →
    key < stop → engine.memtable.data.size ≤ limit →
      ∃ pairs, engine.scan start stop limit now = some pairs ∧ (key, v) ∈ pairs
  get_hides : v.deadline < now.toInt → engine.get key now = none
  scan_hides : v.deadline < now.toInt → ∀ start stop limit pairs,
    engine.scan start stop limit now = some pairs → ∀ w, (key, w) ∉ pairs
  evict_removes : v.deadline < now.toInt →
    (engine.evictExpired now).getRaw key = none

variable {engine : StorageEngine} {key : String} {v : VersionedValue}
  {now : Int64}

theorem get_eq_none_of_isExpired (hstored : engine.getRaw key = some v)
    (hexpired : v.isExpired now = true) : engine.get key now = none := by
  rw [Option.eq_none_iff_forall_ne_some]
  intro w hw
  obtain ⟨hraw, hnot, -⟩ := MemTable.get_eq_some_iff.mp hw
  obtain rfl : v = w := Option.some.inj (hstored.symm.trans hraw)
  simp [hexpired] at hnot

theorem mem_scan_of_get {start stop : String} {limit : Nat}
    (hget : engine.get key now = some v) (hstart : start ≤ key)
    (hstop : key < stop) (hlimit : engine.memtable.data.size ≤ limit) :
    ∃ pairs, engine.scan start stop limit now = some pairs ∧
      (key, v) ∈ pairs := by
  obtain ⟨entries, hshows, hlength, hscan⟩ :=
    engine.memtable.exists_shows (hstart.trans hstop.le) now
  refine ⟨entries.take limit, hscan limit, ?_⟩
  rw [List.take_of_length_le (hlength.trans hlimit)]
  exact (hshows.mem_iff key v).mpr ⟨⟨hstart, hstop⟩, hget⟩

theorem get_of_mem_scan {start stop : String} {limit : Nat}
    {pairs : List (String × VersionedValue)}
    (hscan : engine.scan start stop limit now = some pairs)
    (hmem : (key, v) ∈ pairs) : engine.get key now = some v := by
  have hle : start ≤ stop := by
    by_contra hpast
    rw [scan, MemTable.scan, range, if_pos (not_le.mp hpast)] at hscan
    contradiction
  obtain ⟨entries, hshows, -, hall⟩ := engine.memtable.exists_shows hle now
  obtain rfl : entries.take limit = pairs :=
    Option.some.inj ((hall limit).symm.trans hscan)
  exact ((hshows.mem_iff key v).mp (List.mem_of_mem_take hmem)).2

theorem getRaw_evictExpired (hstored : engine.getRaw key = some v)
    (hexpired : v.isExpired now = true) :
    (engine.evictExpired now).getRaw key = none := by
  change (engine.memtable.evictExpired now).1.getRaw key = none
  rw [MemTable.getRaw_evictExpired, show engine.memtable.getRaw key = some v from
    hstored]
  simp [hexpired]

/-- A stored value with a lifetime expires exactly at its deadline, at every
clock reading, exactly when the deadline is an `i64`. -/
theorem ttl_exact_iff (hstored : engine.getRaw key = some v)
    (hlive : v.deleted = false) (httl : 0 < v.ttlMs) :
    (∀ now, engine.ExpiresExactly key v now) ↔ v.deadline < 2 ^ 63 := by
  constructor
  · intro hexact
    by_contra hwraps
    have hexpired := VersionedValue.isExpired_of_wraps httl (not_lt.mp hwraps)
    have hpos : 0 < v.ttlMs.toInt := Int64.lt_iff_toInt_lt.mp httl
    have hshown := (hexact v.timestampMs).get_shows (by
      unfold VersionedValue.deadline
      omega)
    rw [get_eq_none_of_isExpired hstored hexpired] at hshown
    contradiction
  · intro hfits now
    have hiff := VersionedValue.isExpired_iff_of_fits httl hfits now
    have hget : now.toInt ≤ v.deadline → engine.get key now = some v := by
      intro hle
      refine MemTable.get_eq_some_iff.mpr ⟨hstored, ?_, hlive⟩
      rw [← Bool.not_eq_true, hiff]
      exact not_lt.mpr hle
    refine ⟨hget, fun hle start stop limit hstart hstop hlimit =>
      mem_scan_of_get (hget hle) hstart hstop hlimit, fun hlt => ?_,
      fun hlt start stop limit pairs hscan w hmem => ?_, fun hlt => ?_⟩
    · exact get_eq_none_of_isExpired hstored (hiff.mpr hlt)
    · have hfound := get_of_mem_scan hscan hmem
      rw [get_eq_none_of_isExpired hstored (hiff.mpr hlt)] at hfound
      contradiction
    · exact getRaw_evictExpired hstored (hiff.mpr hlt)

theorem ttl_exact_one_minute :
    let engine := (fresh referenceCodecs ⟨1048576, 3, "node1"⟩).putRaw
      referenceCodecs "k" [1] 60000 1700000000000
    let v := (fresh referenceCodecs ⟨1048576, 3, "node1"⟩).newVersion "k" [1]
      60000 1700000000000
    engine.getRaw "k" = some v ∧ v.deleted = false ∧ 0 < v.ttlMs ∧
      ∀ now, engine.ExpiresExactly "k" v now := by
  intro engine v
  have hstored : engine.getRaw "k" = some v := by
    simp [engine, v, putRaw]
  exact ⟨hstored, rfl, by decide, (ttl_exact_iff hstored rfl (by decide)).mpr
    (by decide)⟩

/-- A put with the greatest lifetime is hidden from the moment it is written. -/
theorem greatest_ttl_hidden :
    let engine := (fresh referenceCodecs ⟨1048576, 3, "node1"⟩).putRaw
      referenceCodecs "k" [1] Int64.maxValue 1700000000000
    let v := (fresh referenceCodecs ⟨1048576, 3, "node1"⟩).newVersion "k" [1]
      Int64.maxValue 1700000000000
    engine.getRaw "k" = some v ∧
      (1700000000000 : Int64).toInt ≤ v.timestampMs.toInt + v.ttlMs.toInt ∧
      engine.get "k" 1700000000000 = none := by
  intro engine v
  have hstored : engine.getRaw "k" = some v := by
    simp [engine, v, putRaw]
  exact ⟨hstored, by decide,
    get_eq_none_of_isExpired hstored (by decide)⟩

end StorageEngine

end Rkv.Storage
