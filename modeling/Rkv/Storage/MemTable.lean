import Mathlib

/-!
# Versioned values and the in-memory table

The data model of `storage/memtable.rs`.  Maps are extensional search trees, so
two clocks or tables are equal exactly when they agree on every key.  Counters
are `u64` and times are `i64`; both wrap as in a release build.  Every function
that reads the wall clock takes its reading as an argument: `now` is
`as_millis() as i64`, and the readings of one call are taken at one instant.
-/

namespace Rkv.Storage

open Std (ExtTreeMap)

abbrev Bytes := List UInt8

abbrev ClockMap := ExtTreeMap String UInt64

structure VectorClock where
  clocks : ClockMap
  deriving DecidableEq

namespace VectorClock

def new : VectorClock := ⟨∅⟩

/-- The counter of a node; a missing node counts as 0. -/
def count (clock : VectorClock) (nodeId : String) : UInt64 :=
  clock.clocks.getD nodeId 0

def increment (clock : VectorClock) (nodeId : String) : VectorClock :=
  ⟨clock.clocks.insert nodeId (clock.count nodeId + 1)⟩

def mergeEntries (clocks : ClockMap) : List (String × UInt64) → ClockMap
  | [] => clocks
  | (node, count) :: rest =>
      mergeEntries (clocks.insert node (max (clocks.getD node 0) count)) rest

def merge (clock other : VectorClock) : VectorClock :=
  ⟨mergeEntries clock.clocks other.clocks.toList⟩

/-- First loop of `dominates`: `none` is the early `return false`. -/
def dominatesOthers (clock : VectorClock) :
    List (String × UInt64) → Bool → Option Bool
  | [], dominated => some dominated
  | (node, count) :: rest, dominated =>
      let selfCount := clock.count node
      if selfCount < count then none
      else dominatesOthers clock rest
        (if count < selfCount then true else dominated)

/-- Second loop of `dominates`: positive entries the other clock lacks. -/
def dominatesExtra (other : VectorClock) :
    List (String × UInt64) → Bool → Bool
  | [], dominated => dominated
  | (node, count) :: rest, dominated =>
      dominatesExtra other rest
        (if 0 < count && !other.clocks.contains node then true else dominated)

def dominates (clock other : VectorClock) : Bool :=
  match dominatesOthers clock other.clocks.toList false with
  | none => false
  | some dominated => dominatesExtra other clock.clocks.toList dominated

def isConcurrentWith (clock other : VectorClock) : Bool :=
  !clock.dominates other && !other.dominates clock && clock != other

end VectorClock

structure VersionedValue where
  value : Bytes
  vectorClock : VectorClock
  timestampMs : Int64
  ttlMs : Int64
  deleted : Bool
  deriving DecidableEq

namespace VersionedValue

def new (value : Bytes) (nodeId : String) (ttlMs now : Int64) :
    VersionedValue where
  value := value
  vectorClock := VectorClock.new.increment nodeId
  timestampMs := now
  ttlMs := ttlMs
  deleted := false

def isExpired (v : VersionedValue) (now : Int64) : Bool :=
  if v.ttlMs ≤ 0 then false else decide (v.timestampMs + v.ttlMs < now)

def tombstone (nodeId : String) (clock : VectorClock) (now : Int64) :
    VersionedValue where
  value := []
  vectorClock := clock.increment nodeId
  timestampMs := now
  ttlMs := 300000
  deleted := true

theorem isExpired_mono {v : VersionedValue} {now later : Int64}
    (hle : now ≤ later) (h : v.isExpired now = true) :
    v.isExpired later = true := by
  unfold isExpired at h ⊢
  split at h
  · contradiction
  · rename_i httl
    rw [if_neg httl]
    simp only [decide_eq_true_eq] at h ⊢
    exact Int64.lt_of_lt_of_le h hle

theorem isExpired_of_ttl_zero {v : VersionedValue} (h : v.ttlMs = 0)
    (now : Int64) : v.isExpired now = false := by
  simp [isExpired, h]

end VersionedValue

/-! ## The table -/

abbrev TableMap := ExtTreeMap String VersionedValue

structure MemTable where
  data : TableMap
  sizeBytes : UInt64
  maxSizeBytes : UInt64
  deriving DecidableEq

namespace MemTable

def new (maxSizeBytes : UInt64) : MemTable := ⟨∅, 0, maxSizeBytes⟩

def getRaw (table : MemTable) (key : String) : Option VersionedValue :=
  table.data[key]?

def get (table : MemTable) (key : String) (now : Int64) :
    Option VersionedValue :=
  match table.data[key]? with
  | none => none
  | some val =>
      if val.isExpired now then none
      else if val.deleted then none
      else some val

def entrySize (key : String) (value : VersionedValue) : UInt64 :=
  UInt64.ofNat (key.utf8ByteSize + value.value.length + 128)

def put (table : MemTable) (key : String) (value : VersionedValue) :
    MemTable × Bool :=
  let shrunk :=
    match table.data[key]? with
    | some old => table.sizeBytes - entrySize key old
    | none => table.sizeBytes
  let newSize := shrunk + entrySize key value
  ({ table with data := table.data.insert key value, sizeBytes := newSize },
    decide (table.maxSizeBytes ≤ newSize))

def delete (table : MemTable) (key nodeId : String) (now : Int64) :
    MemTable × Bool :=
  let clock := ((table.data[key]?).map (·.vectorClock)).getD VectorClock.new
  table.put key (VersionedValue.tombstone nodeId clock now)

def drain (table : MemTable) : MemTable × TableMap :=
  ({ table with data := ∅, sizeBytes := 0 }, table.data)

def snapshot (table : MemTable) : TableMap := table.data

def evictExpired (table : MemTable) (now : Int64) : MemTable × Nat :=
  let kept := table.data.filter fun _ v => !v.isExpired now
  ({ table with
      data := kept
      sizeBytes := (kept.toList.map fun p => entrySize p.1 p.2).sum },
    table.data.size - kept.size)

def isFull (table : MemTable) : Bool :=
  decide (table.maxSizeBytes ≤ table.sizeBytes)

@[simp] theorem getRaw_put (table : MemTable) (key : String)
    (value : VersionedValue) (other : String) :
    (table.put key value).1.getRaw other =
      if key = other then some value else table.getRaw other := by
  simp [put, getRaw, ExtTreeMap.getElem?_insert]

@[simp] theorem getRaw_evictExpired (table : MemTable) (now : Int64)
    (key : String) :
    (table.evictExpired now).1.getRaw key =
      (table.getRaw key).filter fun v => !v.isExpired now := by
  simp [evictExpired, getRaw]

@[simp] theorem getRaw_new (maxSizeBytes : UInt64) (key : String) :
    (new maxSizeBytes).getRaw key = none := by
  simp [new, getRaw]

end MemTable

end Rkv.Storage
