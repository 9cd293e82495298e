import Rkv.Storage.ReferenceCodec
import Rkv.Storage.Scan

/-!
# Eviction is not seen

The reaper calls `evict_expired` at times of its own.  What it removes can make a
later put or delete start from another clock, so the tables, logs and sizes of a
run with evictions and of the same run without them differ.  What `get` and
`scan` show does not: a version that has expired is shown by neither, and it
stays expired while the wall clock does not go back.
-/

namespace Rkv.Storage

inductive EngineCall where
  | put (key : String) (value : VersionedValue)
  | putRaw (key : String) (value : Bytes) (ttlMs now : Int64)
  | delete (key : String) (now : Int64)
  | get (key : String) (now : Int64)
  | scan (start stop : String) (limit : Nat) (now : Int64)
  | evictExpired (now : Int64)
  deriving DecidableEq

/-- What a caller sees of a read: presence and value bytes of a `get`, keys and
value bytes of a `scan`. -/
inductive Observation where
  | got (value : Option Bytes)
  | scanned (pairs : Option (List (String × Bytes)))
  deriving DecidableEq

namespace EngineCall

def isEvict : EngineCall → Bool
  | evictExpired _ => true
  | _ => false

/-- The wall-clock reading of a call; `put` takes none. -/
def reading : EngineCall → Option Int64
  | put _ _ => none
  | putRaw _ _ _ now => some now
  | delete _ now => some now
  | get _ now => some now
  | scan _ _ _ now => some now
  | evictExpired now => some now

end EngineCall

def valueBytes (pairs : List (String × VersionedValue)) :
    List (String × Bytes) :=
  pairs.map fun p => (p.1, p.2.value)

namespace StorageEngine

def call (c : Codecs) (engine : StorageEngine) :
    EngineCall → StorageEngine × Option Observation
  | .put key value => (engine.put c key value, none)
  | .putRaw key value ttlMs now => (engine.putRaw c key value ttlMs now, none)
  | .delete key now => (engine.delete c key now, none)
  | .get key now => (engine, some (.got ((engine.get key now).map (·.value))))
  | .scan start stop limit now =>
      (engine, some (.scanned ((engine.scan start stop limit now).map valueBytes)))
  | .evictExpired now => (engine.evictExpired now, none)

def observations (c : Codecs) :
    StorageEngine → List EngineCall → List Observation
  | _, [] => []
  | engine, op :: ops =>
      (engine.call c op).2.toList ++ observations c (engine.call c op).1 ops

/-! ## What a reading shows of the table -/

/-- The unexpired entry of a key without its clock. -/
def view (engine : StorageEngine) (now : Int64) (key : String) :
    Option VersionedValue :=
  ((engine.getRaw key).filter fun v => !v.isExpired now).map fun v =>
    { v with vectorClock := VectorClock.new }

variable {engine other : StorageEngine} {now : Int64}

theorem view_put (c : Codecs) (engine : StorageEngine) (key : String)
    (value : VersionedValue) (now : Int64) (k : String) :
    (engine.put c key value).view now k =
      if key = k then
        if value.isExpired now then none
        else some { value with vectorClock := VectorClock.new }
      else engine.view now k := by
  rw [view, getRaw_put]
  split
  · cases hexpired : value.isExpired now with
    | true => simp [Option.filter, hexpired]
    | false => simp [Option.filter, hexpired]
  · rfl

/-- A put shows the same in both tables, whatever clocks the versions carry. -/
theorem view_put_congr (c : Codecs) {key : String} {v w : VersionedValue}
    (hview : engine.view now = other.view now)
    (hversion : { v with vectorClock := VectorClock.new } =
      { w with vectorClock := VectorClock.new }) :
    (engine.put c key v).view now = (other.put c key w).view now := by
  have hexpired : v.isExpired now = w.isExpired now := by
    change { v with vectorClock := VectorClock.new }.isExpired now = _
    rw [hversion]
    rfl
  funext k
  rw [view_put, view_put, hview, hversion, hexpired]

/-- Evicting earlier than the reading changes nothing in what it shows. -/
theorem view_evictExpired {earlier : Int64} (hle : earlier ≤ now) :
    (engine.evictExpired earlier).view now = engine.view now := by
  funext key
  have hraw : (engine.evictExpired earlier).getRaw key =
      (engine.getRaw key).filter fun v => !v.isExpired earlier :=
    MemTable.getRaw_evictExpired _ _ _
  rw [view, view, hraw, Option.filter_filter]
  congr 2
  funext v
  cases hnow : v.isExpired now with
  | true => simp
  | false =>
      have hearlier : v.isExpired earlier = false := by
        rw [Bool.eq_false_iff]
        intro hexpired
        rw [VersionedValue.isExpired_mono hle hexpired] at hnow
        contradiction
      simp [hearlier]

theorem get_eq_view (engine : StorageEngine) (key : String) (now : Int64) :
    (engine.get key now).map (·.value) =
      ((engine.view now key).filter fun v => !v.deleted).map (·.value) := by
  unfold get MemTable.get view getRaw MemTable.getRaw
  cases engine.memtable.data[key]? with
  | none => rfl
  | some v =>
      cases hexpired : v.isExpired now with
      | true => simp [Option.filter, hexpired]
      | false =>
          cases hdeleted : v.deleted with
          | true => simp [Option.filter, hexpired, hdeleted]
          | false => simp [Option.filter, hexpired, hdeleted]

theorem get_congr (hview : engine.view now = other.view now) (key : String) :
    (engine.get key now).map (·.value) = (other.get key now).map (·.value) := by
  rw [get_eq_view, get_eq_view, hview]

theorem mem_valueBytes_of_shows {start stop key : String} {bytes : Bytes}
    {entries : List (String × VersionedValue)}
    (h : engine.memtable.Shows start stop now entries) :
    (key, bytes) ∈ valueBytes entries ↔
      (start ≤ key ∧ key < stop) ∧
        (engine.get key now).map (·.value) = some bytes := by
  rw [valueBytes, List.mem_map, Option.map_eq_some_iff]
  constructor
  · rintro ⟨⟨k, v⟩, hmem, heq⟩
    obtain ⟨rfl, rfl⟩ := Prod.mk.inj heq
    obtain ⟨hrange, hget⟩ := (h.mem_iff k v).mp hmem
    exact ⟨hrange, v, hget, rfl⟩
  · rintro ⟨hrange, v, hget, rfl⟩
    exact ⟨(key, v), (h.mem_iff key v).mpr ⟨hrange, hget⟩, rfl⟩

theorem sorted_valueBytes_of_shows {start stop : String}
    {entries : List (String × VersionedValue)}
    (h : engine.memtable.Shows start stop now entries) :
    (valueBytes entries).Pairwise fun p q => p.1 < q.1 :=
  List.pairwise_map.mpr h.sorted

instance : Std.Irrefl fun p q : String × Bytes => p.1 < q.1 :=
  ⟨fun p => lt_irrefl p.1⟩

instance : Std.Antisymm fun p q : String × Bytes => p.1 < q.1 :=
  ⟨fun _ _ hpq hqp => absurd hqp (lt_asymm hpq)⟩

theorem scan_congr (hview : engine.view now = other.view now)
    (start stop : String) (limit : Nat) :
    (engine.scan start stop limit now).map valueBytes =
      (other.scan start stop limit now).map valueBytes := by
  rcases le_or_gt start stop with hle | hpast
  · obtain ⟨entries, hshows, -, hscan⟩ := engine.memtable.exists_shows hle now
    obtain ⟨entries', hshows', -, hscan'⟩ := other.memtable.exists_shows hle now
    have hsame : valueBytes entries = valueBytes entries' := by
      apply (sorted_valueBytes_of_shows hshows).eq_of_mem_iff
        (sorted_valueBytes_of_shows hshows')
      rintro ⟨key, bytes⟩
      rw [mem_valueBytes_of_shows hshows, mem_valueBytes_of_shows hshows',
        get_congr hview]
    rw [scan, scan, hscan, hscan', Option.map_some, Option.map_some, valueBytes,
      valueBytes, List.map_take, List.map_take]
    exact congrArg (fun pairs => some (pairs.take limit)) hsame
  · rw [scan, scan, MemTable.scan, MemTable.scan, range, range, if_pos hpast,
      if_pos hpast]

/-! ## Two runs -/

/-- One call that is no eviction shows the same from both tables, and later
readings go on showing the same. -/
theorem call_congr (c : Codecs) {op : EngineCall} (hevict : op.isEvict = false)
    (hread : ∀ now ∈ op.reading, engine.view now = other.view now) :
    (engine.call c op).2 = (other.call c op).2 ∧
      ∀ now, engine.view now = other.view now →
        (engine.call c op).1.view now = (other.call c op).1.view now := by
  cases op with
  | put key value =>
      exact ⟨rfl, fun now hview => view_put_congr c hview rfl⟩
  | putRaw key value ttlMs reading =>
      exact ⟨rfl, fun now hview => view_put_congr c hview rfl⟩
  | delete key reading =>
      exact ⟨rfl, fun now hview => view_put_congr c hview rfl⟩
  | get key reading =>
      have hview := hread reading rfl
      refine ⟨?_, fun now hview => hview⟩
      simp only [call, get_congr hview key]
  | scan start stop limit reading =>
      have hview := hread reading rfl
      refine ⟨?_, fun now hview => hview⟩
      simp only [call, scan_congr hview start stop limit]
  | evictExpired reading => contradiction

theorem observations_congr (c : Codecs) {ops : List EngineCall}
    (hreadings : (ops.filterMap EngineCall.reading).Pairwise (· ≤ ·))
    (hview : ∀ now ∈ ops.filterMap EngineCall.reading,
      engine.view now = other.view now) :
    observations c engine ops =
      observations c other (ops.filter fun op => !op.isEvict) := by
  -- the two tables show the same at every reading that is still to come
  induction ops generalizing engine other with
  | nil => rfl
  | cons op ops ih =>
      have hop : ∀ now ∈ op.reading, engine.view now = other.view now := by
        intro now hnow
        exact hview now (by simp [Option.mem_def.mp hnow])
      have hlater : ∀ now ∈ ops.filterMap EngineCall.reading,
          engine.view now = other.view now := by
        intro now hnow
        apply hview
        rw [List.filterMap_cons]
        split
        · exact hnow
        · exact List.mem_cons_of_mem _ hnow
      have hrest : (ops.filterMap EngineCall.reading).Pairwise (· ≤ ·) := by
        rw [List.filterMap_cons] at hreadings
        split at hreadings
        · exact hreadings
        · exact (List.pairwise_cons.mp hreadings).2
      cases hevict : op.isEvict with
      | true =>
          cases op with
          | evictExpired earlier =>
              rw [List.filter_cons_of_neg (by simp [hevict])]
              refine ih hrest fun now hnow => ?_
              have hle : earlier ≤ now :=
                (List.pairwise_cons.mp hreadings).1 now hnow
              exact (view_evictExpired hle).trans (hlater now hnow)
          | _ => contradiction
      | false =>
          obtain ⟨hshown, hnext⟩ := call_congr c hevict hop
          rw [List.filter_cons_of_pos (by simp [hevict]), observations,
            observations, hshown]
          congr 1
          exact ih hrest fun now hnow => hnext now (hlater now hnow)

/-- With readings that never decrease, a run shows the same with its evictions
and without them. -/
theorem eviction_unobservable (c : Codecs) (engine : StorageEngine)
    (ops : List EngineCall)
    (hreadings : (ops.filterMap EngineCall.reading).Pairwise (· ≤ ·)) :
    observations c engine ops =
      observations c engine (ops.filter fun op => !op.isEvict) :=
  observations_congr c hreadings fun _ _ => rfl

/-- An eviction between the expiry of a value and a delete, and one after a new
put of the key. -/
theorem eviction_unobservable_delete :
    let ops : List EngineCall :=
      [.putRaw "k" [1] 1000 1700000000000, .get "k" 1700000000500,
        .evictExpired 1700000002000, .delete "k" 1700000002000,
        .putRaw "k" [2] 0 1700000003000, .evictExpired 1700000004000,
        .scan "a" "z" 10 1700000004000]
    (ops.filterMap EngineCall.reading).Pairwise (· ≤ ·) ∧
      observations referenceCodecs (fresh referenceCodecs ⟨1048576, 3, "node1"⟩)
          ops =
        observations referenceCodecs
          (fresh referenceCodecs ⟨1048576, 3, "node1"⟩)
          [.putRaw "k" [1] 1000 1700000000000, .get "k" 1700000000500,
            .delete "k" 1700000002000, .putRaw "k" [2] 0 1700000003000,
            .scan "a" "z" 10 1700000004000] := by
  intro ops
  have hreadings : (ops.filterMap EngineCall.reading).Pairwise (· ≤ ·) := by
    decide
  exact ⟨hreadings, eviction_unobservable _ _ ops hreadings⟩

end StorageEngine

end Rkv.Storage
