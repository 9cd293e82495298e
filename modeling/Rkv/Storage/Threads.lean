import Rkv.Foundation.Run
import Rkv.Storage.Engine

/-!
# Threads on one engine

Any number of writer threads and one background thread that flushes.  The log
mutex and the table lock are taken one after the other, so a call is a sequence
of steps, each under one lock:

* a `put` appends to the log, then inserts into the table, then returns; a
  `delete` first reads the table to build its tombstone;
* a `flush` copies the table, then saves, cleans up and truncates.

`acked` is the last write to each key that has returned, `appends` numbers the
log appends.  Neither is read by the code.
-/

namespace Rkv.Storage

open Rkv.Foundation

inductive WriterPc where
  | idle
  | called (key : String) (value : VersionedValue)
  | logged (key : String) (value : VersionedValue) (ticket : Nat)
  | inserted (key : String) (value : VersionedValue)
  deriving DecidableEq

inductive FlusherPc where
  | idle
  | copied (data : TableMap)
  | saved (data : TableMap)
  | cleaned (data : TableMap)
  deriving DecidableEq

structure ThreadState (T : Type) where
  engine : StorageEngine
  writers : T → WriterPc
  flusher : FlusherPc
  acked : String → Option VersionedValue
  appends : Nat

inductive WriterStep where
  | put (key : String) (value : VersionedValue)
  | delete (key : String) (now : Int64)
  | append
  | insert
  | ret

inductive FlushStep where
  | copy
  | save (timestamp : Nat)
  | cleanup
  | truncate

inductive ThreadAction (T : Type) where
  | writer (thread : T) (step : WriterStep)
  | flusher (step : FlushStep)

namespace ThreadState

variable {T : Type} [DecidableEq T]

def start (T : Type) (engine : StorageEngine) : ThreadState T where
  engine := engine
  writers := fun _ => .idle
  flusher := .idle
  acked := engine.getRaw
  appends := 0

def setWriter (s : ThreadState T) (thread : T) (pc : WriterPc) :
    ThreadState T :=
  { s with writers := Function.update s.writers thread pc }

def nextWriter (c : Codecs) (s : ThreadState T) (thread : T) :
    WriterStep → Option (ThreadState T)
  | .put key value =>
      match s.writers thread with
      | .idle => some (s.setWriter thread (.called key value))
      | _ => none
  | .delete key now =>
      match s.writers thread with
      | .idle => some (s.setWriter thread
          (.called key (s.engine.tombstoneFor key now)))
      | _ => none
  | .append =>
      match s.writers thread with
      | .called key value =>
          some { s.setWriter thread (.logged key value s.appends) with
            engine := s.engine.logWrite c key value
            appends := s.appends + 1 }
      | _ => none
  | .insert =>
      match s.writers thread with
      | .logged key value _ =>
          some { s.setWriter thread (.inserted key value) with
            engine := s.engine.tableWrite key value }
      | _ => none
  | .ret =>
      match s.writers thread with
      | .inserted key value =>
          some { s.setWriter thread .idle with
            acked := Function.update s.acked key (some value) }
      | _ => none

def nextFlusher (c : Codecs) (s : ThreadState T) :
    FlushStep → Option (ThreadState T)
  | .copy =>
      match s.flusher with
      | .idle =>
          -- `flush` returns early on an empty table
          if s.engine.memtable.snapshot.isEmpty then some s
          else some { s with flusher := .copied s.engine.memtable.snapshot }
      | _ => none
  | .save timestamp =>
      match s.flusher with
      | .copied data =>
          some { s with
            engine := s.engine.saveSnapshot c data timestamp
            flusher := .saved data }
      | _ => none
  | .cleanup =>
      match s.flusher with
      | .saved data =>
          some { s with
            engine := s.engine.cleanupSnapshots
            flusher := .cleaned data }
      | _ => none
  | .truncate =>
      match s.flusher with
      | .cleaned _ =>
          some { s with
            engine := s.engine.truncateLog
            flusher := .idle }
      | _ => none

def next (c : Codecs) (s : ThreadState T) :
    ThreadAction T → Option (ThreadState T)
  | .writer thread step => s.nextWriter c thread step
  | .flusher step => s.nextFlusher c step

theorem nextWriter_cases {c : Codecs} {s t : ThreadState T} {thread : T}
    {step : WriterStep} (h : s.nextWriter c thread step = some t) :
    (∃ key value, s.writers thread = .idle ∧
      t = s.setWriter thread (.called key value)) ∨
    (∃ key value, s.writers thread = .called key value ∧
      t = { s.setWriter thread (.logged key value s.appends) with
        engine := s.engine.logWrite c key value
        appends := s.appends + 1 }) ∨
    (∃ key value ticket, step = .insert ∧
      s.writers thread = .logged key value ticket ∧
      t = { s.setWriter thread (.inserted key value) with
        engine := s.engine.tableWrite key value }) ∨
    ∃ key value, s.writers thread = .inserted key value ∧
      t = { s.setWriter thread .idle with
        acked := Function.update s.acked key (some value) } := by
  cases step with
  | put key value =>
      simp only [nextWriter] at h
      split at h <;> cases h
      rename_i hidle
      exact .inl ⟨key, value, hidle, rfl⟩
  | delete key now =>
      simp only [nextWriter] at h
      split at h <;> cases h
      rename_i hidle
      exact .inl ⟨key, _, hidle, rfl⟩
  | append =>
      simp only [nextWriter] at h
      split at h <;> cases h
      rename_i key value hcalled
      exact .inr (.inl ⟨key, value, hcalled, rfl⟩)
  | insert =>
      simp only [nextWriter] at h
      split at h <;> cases h
      rename_i key value ticket hlogged
      exact .inr (.inr (.inl ⟨key, value, ticket, rfl, hlogged, rfl⟩))
  | ret =>
      simp only [nextWriter] at h
      split at h <;> cases h
      rename_i key value hinserted
      exact .inr (.inr (.inr ⟨key, value, hinserted, rfl⟩))

end ThreadState

/-! ## What opening an engine establishes -/

/-- The log ends at a line end and the table has the last write it holds to each
key. -/
structure StorageEngine.Replayed (c : Codecs) (engine : StorageEngine) :
    Prop where
  terminated : Terminated 10 engine.wal.file
  lastWrites : ∀ key value,
    lastWrite key (logWrites c engine.wal.file) = some value →
      engine.getRaw key = some value

theorem StorageEngine.replayed_openEngine {c : Codecs} {config : StorageConfig}
    {disk : Disk} {engine : StorageEngine}
    (hopen : openEngine c config disk = .ok engine)
    (hdisk : Terminated 10 disk.wal) :
    engine.Replayed c ∧ engine.config = config ∧
      (∃ snapshot,
        SnapshotManager.loadLatest c engine.snapshots = .ok snapshot) ∧
      ∀ key, engine.disk.entry c key = engine.getRaw key := by
  cases hload : SnapshotManager.loadLatest c disk.snapshots with
  | error e => simp [openEngine, hload] at hopen
  | ok snapshot =>
      obtain ⟨opened, hopened, hentries, rfl, rfl⟩ :=
        Disk.openEngine_ok hload config
      obtain rfl : opened = engine := Except.ok.inj (hopened.symm.trans hopen)
      refine ⟨⟨hdisk, fun key value hlast => ?_⟩, rfl, ⟨snapshot, hload⟩,
        fun key => (hentries key).symm⟩
      rw [hentries]
      exact overlay_of_lastWrite_eq_some hlast _

end Rkv.Storage
