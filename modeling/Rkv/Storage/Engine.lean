import Rkv.Foundation.Log
import Rkv.Storage.Snapshot

/-!
# The storage engine

`storage/engine.rs`: a table in memory, the log and the snapshot directory on
disk.  `put`, `delete` and `flush` are compositions of the steps a crash or
another thread can come between: the log append and the table insert of a
write, and the save, cleanup and truncate of a flush.
-/

namespace Rkv.Storage

open Std (ExtTreeMap)
open Rkv.Foundation

/-! ## Loading a table -/

namespace MemTable

def putAll (table : MemTable) : List (String × VersionedValue) → MemTable
  | [] => table
  | (key, value) :: rest => putAll (table.put key value).1 rest

theorem getRaw_putAll (table : MemTable)
    (writes : List (String × VersionedValue)) (key : String) :
    (table.putAll writes).getRaw key = overlay writes table.getRaw key := by
  induction writes generalizing table with
  | nil => rfl
  | cons write writes ih =>
      obtain ⟨k, v⟩ := write
      rw [putAll, ih]
      simp only [overlay, lastWrite, getRaw_put, Option.or_assoc]
      split <;> simp

end MemTable

theorem lastWrite_toList (data : TableMap) (key : String) :
    lastWrite key data.toList = data[key]? := by
  cases hlast : lastWrite key data.toList with
  | some v =>
      exact (ExtTreeMap.mem_toList_iff_getElem?_eq_some.mp
        (mem_of_lastWrite_eq_some hlast)).symm
  | none =>
      symm
      rw [Option.eq_none_iff_forall_ne_some]
      intro v hv
      have hmem := ExtTreeMap.mem_toList_iff_getElem?_eq_some.mpr hv
      exact ne_of_lastWrite_eq_none hlast hmem rfl

structure StorageConfig where
  memtableMaxBytes : UInt64
  maxSnapshots : Nat
  nodeId : String
  deriving DecidableEq

structure Disk where
  wal : Bytes
  snapshots : SnapshotDir
  deriving DecidableEq

def logWrites (c : Codecs) (file : Bytes) : List (String × VersionedValue) :=
  (WriteAheadLog.replay c file).map fun entry => (entry.key, entry.value)

structure StorageEngine where
  memtable : MemTable
  wal : WriteAheadLog
  snapshots : SnapshotDir
  config : StorageConfig
  deriving DecidableEq

namespace StorageEngine

def disk (engine : StorageEngine) : Disk := ⟨engine.wal.file, engine.snapshots⟩

/-- Loads the latest snapshot, then replays the log on top. -/
def openEngine (c : Codecs) (config : StorageConfig) (disk : Disk) :
    Except SnapshotError StorageEngine :=
  let memtable := MemTable.new config.memtableMaxBytes
  let wal := WriteAheadLog.openLog c disk.wal
  match SnapshotManager.loadLatest c disk.snapshots with
  | .error e => .error e
  | .ok snapshot =>
      let memtable :=
        match snapshot with
        | some data => memtable.putAll data.toList
        | none => memtable
      let memtable := memtable.putAll (logWrites c disk.wal)
      .ok ⟨memtable, wal, disk.snapshots, config⟩

def fresh (c : Codecs) (config : StorageConfig) : StorageEngine :=
  ⟨MemTable.new config.memtableMaxBytes, WriteAheadLog.openLog c [], ∅, config⟩

theorem openEngine_empty (c : Codecs) (config : StorageConfig) :
    openEngine c config ⟨[], ∅⟩ = .ok (fresh c config) := rfl

def get (engine : StorageEngine) (key : String) (now : Int64) :
    Option VersionedValue :=
  engine.memtable.get key now

def getRaw (engine : StorageEngine) (key : String) : Option VersionedValue :=
  engine.memtable.getRaw key

def nodeId (engine : StorageEngine) : String := engine.config.nodeId

def storedClock (engine : StorageEngine) (key : String) : VectorClock :=
  ((engine.getRaw key).map (·.vectorClock)).getD VectorClock.new

/-! ## Writes -/

def logWrite (c : Codecs) (engine : StorageEngine) (key : String)
    (value : VersionedValue) : StorageEngine :=
  { engine with wal := (engine.wal.append c key value).1 }

def tableWrite (engine : StorageEngine) (key : String)
    (value : VersionedValue) : StorageEngine :=
  { engine with memtable := (engine.memtable.put key value).1 }

def put (c : Codecs) (engine : StorageEngine) (key : String)
    (value : VersionedValue) : StorageEngine :=
  (engine.logWrite c key value).tableWrite key value

/-- The value `put_raw` and a coordinated put build: a new version whose clock
is merged with the one stored. -/
def newVersion (engine : StorageEngine) (key : String) (value : Bytes)
    (ttlMs now : Int64) : VersionedValue :=
  let versioned := VersionedValue.new value engine.nodeId ttlMs now
  { versioned with
    vectorClock := versioned.vectorClock.merge (engine.storedClock key) }

def putRaw (c : Codecs) (engine : StorageEngine) (key : String)
    (value : Bytes) (ttlMs now : Int64) : StorageEngine :=
  engine.put c key (engine.newVersion key value ttlMs now)

def tombstoneFor (engine : StorageEngine) (key : String) (now : Int64) :
    VersionedValue :=
  VersionedValue.tombstone engine.nodeId (engine.storedClock key) now

def delete (c : Codecs) (engine : StorageEngine) (key : String)
    (now : Int64) : StorageEngine :=
  engine.put c key (engine.tombstoneFor key now)

/-! ## Flush and eviction -/

def saveSnapshot (c : Codecs) (engine : StorageEngine) (data : TableMap)
    (timestamp : Nat) : StorageEngine :=
  { engine with
    snapshots := SnapshotManager.save c engine.snapshots data timestamp }

def cleanupSnapshots (engine : StorageEngine) : StorageEngine :=
  { engine with
    snapshots :=
      (SnapshotManager.cleanup engine.snapshots engine.config.maxSnapshots).1 }

def truncateLog (engine : StorageEngine) : StorageEngine :=
  { engine with wal := engine.wal.truncate }

def flush (c : Codecs) (engine : StorageEngine) (timestamp : Nat) :
    StorageEngine :=
  let data := engine.memtable.snapshot
  if data.isEmpty then engine
  else ((engine.saveSnapshot c data timestamp).cleanupSnapshots).truncateLog

def evictExpired (engine : StorageEngine) (now : Int64) : StorageEngine :=
  { engine with memtable := (engine.memtable.evictExpired now).1 }

@[simp] theorem getRaw_put (c : Codecs) (engine : StorageEngine)
    (key : String) (value : VersionedValue) (other : String) :
    (engine.put c key value).getRaw other =
      if key = other then some value else engine.getRaw other := by
  simp [put, getRaw, tableWrite, logWrite]

@[simp] theorem getRaw_delete (c : Codecs) (engine : StorageEngine)
    (key : String) (now : Int64) (other : String) :
    (engine.delete c key now).getRaw other =
      if key = other then some (engine.tombstoneFor key now)
      else engine.getRaw other := by
  simp [delete]

@[simp] theorem getRaw_fresh (c : Codecs) (config : StorageConfig)
    (key : String) : (fresh c config).getRaw key = none := by
  simp [fresh, getRaw]

end StorageEngine

/-! ## What the disk holds -/

namespace Disk

/-- The entry of a key on disk: the latest snapshot overlaid with the log. -/
def entry (c : Codecs) (disk : Disk) (key : String) : Option VersionedValue :=
  overlay (logWrites c disk.wal)
    (fun k =>
      match SnapshotManager.loadLatest c disk.snapshots with
      | .ok (some data) => data[k]?
      | _ => none)
    key

/-- Opening recovers exactly what the disk holds. -/
theorem openEngine_ok {c : Codecs} {disk : Disk} {snapshot : Option TableMap}
    (h : SnapshotManager.loadLatest c disk.snapshots = .ok snapshot)
    (config : StorageConfig) :
    ∃ engine, StorageEngine.openEngine c config disk = .ok engine ∧
      (∀ key, engine.getRaw key = disk.entry c key) ∧
      engine.disk = disk ∧ engine.config = config := by
  simp only [StorageEngine.openEngine, h]
  refine ⟨_, rfl, fun key => ?_, rfl, rfl⟩
  simp only [StorageEngine.getRaw, MemTable.getRaw_putAll, entry, h]
  cases snapshot with
  | none => simp [overlay]
  | some data =>
      simp [overlay, MemTable.getRaw_putAll, lastWrite_toList]

end Disk

theorem logWrites_append {c : Codecs} (hemits : ∀ entry, c.Emits entry)
    {wal : WriteAheadLog} (h : Terminated 10 wal.file) (key : String)
    (value : VersionedValue) :
    logWrites c (wal.append c key value).1.file =
      logWrites c wal.file ++ [(key, value)] := by
  simp [logWrites, WriteAheadLog.replay_append_entry h key value (hemits _)]

end Rkv.Storage
