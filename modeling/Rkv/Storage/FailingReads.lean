import Rkv.Foundation.LineReader
import Rkv.Storage.Engine
import Rkv.Storage.ReferenceCodec

/-!
# Reading a log whose reads fail

`replay` and `recover_sequence` loop over `reader.lines()` and skip every error.
A line that is not UTF-8 has been consumed when its error comes; a read that
fails has consumed nothing, and the next item tries it again.  The loops end
when the reads reach the end of the file, and go on for ever when every call
from some point on fails.
-/

namespace Rkv.Storage

open Rkv.Foundation

/-- An item of `lines()`: a failing read and a line that is not UTF-8 both give
an error. -/
def lineItem (item : Option Bytes) : Option String :=
  item.bind fun raw => fromUtf8 (chomp raw)

/-- The body of the loop of `replay`. -/
def replayBody (c : Codecs) (entries : List WalEntry) (item : Option Bytes) :
    List WalEntry :=
  match replayLine c (lineItem item) with
  | some entry => entries ++ [entry]
  | none => entries

/-- The body of the loop of `recover_sequence`. -/
def recoverSequenceBody (c : Codecs) (maxSeq : UInt64) (item : Option Bytes) :
    UInt64 :=
  match lineItem item with
  | none => maxSeq
  | some line =>
      match c.jsonFromStr line with
      | some entry => max maxSeq entry.sequence
      | none => maxSeq

namespace WriteAheadLog

def recoverSequenceReading (c : Codecs) (reads : Reads) (file : Bytes)
    (fuel : Nat) : Option UInt64 :=
  (LineReader.new file).forEach 10 reads (recoverSequenceBody c) fuel 0

def replayReading (c : Codecs) (reads : Reads) (file : Bytes) (fuel : Nat) :
    Option (List WalEntry) :=
  (LineReader.new file).forEach 10 reads (replayBody c) fuel []

def openLogReading (c : Codecs) (reads : Reads) (file : Bytes) (fuel : Nat) :
    Option WriteAheadLog :=
  (recoverSequenceReading c reads file fuel).map fun sequence => ⟨file, sequence⟩

end WriteAheadLog

namespace StorageEngine

/-- `open` reads the log twice, each time through a file of its own. -/
def openEngineReading (c : Codecs) (config : StorageConfig) (disk : Disk)
    (recoverReads replayReads : Reads) (fuel : Nat) :
    Option (Except SnapshotError StorageEngine) :=
  let memtable := MemTable.new config.memtableMaxBytes
  match WriteAheadLog.openLogReading c recoverReads disk.wal fuel with
  | none => none
  | some wal =>
      match SnapshotManager.loadLatest c disk.snapshots with
      | .error e => some (.error e)
      | .ok snapshot =>
          let memtable :=
            match snapshot with
            | some data => memtable.putAll data.toList
            | none => memtable
          match WriteAheadLog.replayReading c replayReads disk.wal fuel with
          | none => none
          | some entries =>
              let memtable :=
                memtable.putAll (entries.map fun entry => (entry.key, entry.value))
              some (.ok ⟨memtable, wal, disk.snapshots, config⟩)

end StorageEngine

/-! ## When the loops end -/

open LineReader (ReachEnd)

namespace WriteAheadLog

variable {c : Codecs} {reads : Reads} {file : Bytes}

theorem recoverSequenceReading_finishes_iff :
    (∃ fuel sequence, recoverSequenceReading c reads file fuel = some sequence) ↔
      ReachEnd 10 reads file :=
  LineReader.forEach_finishes_iff _ _ _

theorem replayReading_finishes_iff :
    (∃ fuel entries, replayReading c reads file fuel = some entries) ↔
      ReachEnd 10 reads file :=
  LineReader.forEach_finishes_iff _ _ _

theorem openLogReading_eq_some {fuel : Nat} {wal : WriteAheadLog} :
    openLogReading c reads file fuel = some wal ↔
      recoverSequenceReading c reads file fuel = some wal.sequence ∧
        wal.file = file := by
  rw [openLogReading, Option.map_eq_some_iff]
  constructor
  · rintro ⟨sequence, hsequence, rfl⟩
    exact ⟨hsequence, rfl⟩
  · rintro ⟨hsequence, rfl⟩
    exact ⟨wal.sequence, hsequence, rfl⟩

/-- Where the reads reach the end, both loops end within one bound. -/
theorem exists_fuel (c : Codecs) {recoverReads replayReads : Reads}
    (hrecover : ReachEnd 10 recoverReads file)
    (hreplay : ReachEnd 10 replayReads file) :
    ∃ fuel sequence entries,
      recoverSequenceReading c recoverReads file fuel = some sequence ∧
        replayReading c replayReads file fuel = some entries := by
  obtain ⟨first, hfirst⟩ := hrecover.forEach_eq_some (recoverSequenceBody c) 0
  obtain ⟨second, hsecond⟩ := hreplay.forEach_eq_some (replayBody c) []
  obtain ⟨sequence, hsequence⟩ := hfirst (first + second + 1) (by omega)
  obtain ⟨entries, hentries⟩ := hsecond (first + second + 1) (by omega)
  exact ⟨first + second + 1, sequence, entries, hsequence, hentries⟩

end WriteAheadLog

open WriteAheadLog

/-- The two loops end, and with them the two `open`s. -/
structure ReadingEnds (c : Codecs) (config : StorageConfig) (disk : Disk)
    (recoverReads replayReads : Reads) : Prop where
  recover : ∃ fuel sequence,
    recoverSequenceReading c recoverReads disk.wal fuel = some sequence
  replay : ∃ fuel entries,
    replayReading c replayReads disk.wal fuel = some entries
  openLog : ∃ fuel wal, openLogReading c recoverReads disk.wal fuel = some wal
  openEngine : ∃ fuel result, StorageEngine.openEngineReading c config disk
    recoverReads replayReads fuel = some result

/-- The loops over the log end, and `open` returns, exactly when the reads of
both reach the end of the file. -/
theorem readingEnds_iff (c : Codecs) (config : StorageConfig) (disk : Disk)
    (recoverReads replayReads : Reads) :
    ReadingEnds c config disk recoverReads replayReads ↔
      ReachEnd 10 recoverReads disk.wal ∧ ReachEnd 10 replayReads disk.wal := by
  constructor
  · intro h
    exact ⟨recoverSequenceReading_finishes_iff.mp h.recover,
      replayReading_finishes_iff.mp h.replay⟩
  · rintro ⟨hrecover, hreplay⟩
    obtain ⟨fuel, sequence, entries, hsequence, hentries⟩ :=
      exists_fuel c hrecover hreplay
    have hlog : openLogReading c recoverReads disk.wal fuel =
        some ⟨disk.wal, sequence⟩ :=
      openLogReading_eq_some.mpr ⟨hsequence, rfl⟩
    refine ⟨⟨_, _, hsequence⟩, ⟨_, _, hentries⟩, ⟨_, _, hlog⟩, fuel, ?_⟩
    rw [StorageEngine.openEngineReading, hlog]
    cases SnapshotManager.loadLatest c disk.snapshots with
    | error e => exact ⟨_, rfl⟩
    | ok snapshot =>
        simp only [hentries]
        exact ⟨_, rfl⟩

/-- A directory in the place of the log opens as a file, and every read of it
fails. -/
theorem failing_reads_never_end :
    (∀ fuel, recoverSequenceReading referenceCodecs (fun _ => none) [] fuel =
        none) ∧
      (∀ fuel, replayReading referenceCodecs (fun _ => none) [] fuel = none) ∧
      ∀ fuel, StorageEngine.openEngineReading referenceCodecs
        ⟨1048576, 3, "node1"⟩ ⟨[], ∅⟩ (fun _ => none) (fun _ => none) fuel =
          none := by
  have hnever : ¬ReachEnd 10 (fun _ => none) ([] : Bytes) := by
    rintro ⟨m, -, hsome⟩
    contradiction
  have hrecover : ∀ fuel, recoverSequenceReading referenceCodecs
      (fun _ => none) [] fuel = none := by
    intro fuel
    rw [Option.eq_none_iff_forall_ne_some]
    intro sequence hsequence
    exact hnever (recoverSequenceReading_finishes_iff.mp ⟨fuel, _, hsequence⟩)
  refine ⟨hrecover, fun fuel => ?_, fun fuel => ?_⟩
  · rw [Option.eq_none_iff_forall_ne_some]
    intro entries hentries
    exact hnever (replayReading_finishes_iff.mp ⟨fuel, _, hentries⟩)
  · rw [StorageEngine.openEngineReading, openLogReading, hrecover]
    rfl

/-! ## Without failures -/

theorem foldl_recoverSequenceBody (c : Codecs) (pieces : List Bytes)
    (maxSeq : UInt64) :
    (pieces.map some).foldl (recoverSequenceBody c) maxSeq =
      recoverSequenceLoop c maxSeq
        (pieces.map fun raw => fromUtf8 (chomp raw)) := by
  induction pieces generalizing maxSeq with
  | nil => rfl
  | cons raw pieces ih =>
      rw [List.map_cons, List.foldl_cons, ih, List.map_cons]
      have hitem : lineItem (some raw) = fromUtf8 (chomp raw) := rfl
      rw [recoverSequenceBody, hitem]
      cases fromUtf8 (chomp raw) with
      | none => rfl
      | some line =>
          dsimp only
          rw [recoverSequenceLoop]
          cases c.jsonFromStr line with
          | none => rfl
          | some entry => rfl

theorem foldl_replayBody (c : Codecs) (pieces : List Bytes)
    (entries : List WalEntry) :
    (pieces.map some).foldl (replayBody c) entries =
      entries ++ (pieces.map fun raw => fromUtf8 (chomp raw)).filterMap
        (replayLine c) := by
  induction pieces generalizing entries with
  | nil => simp
  | cons raw pieces ih =>
      rw [List.map_cons, List.foldl_cons, ih, List.map_cons,
        List.filterMap_cons]
      have hitem : lineItem (some raw) = fromUtf8 (chomp raw) := rfl
      rw [replayBody, hitem]
      cases replayLine c (fromUtf8 (chomp raw)) with
      | none => rfl
      | some entry => simp

/-- Without failing reads `open` returns what it recovers from the bytes of the
files. -/
theorem openEngineReading_eq (c : Codecs) (config : StorageConfig) (disk : Disk)
    {recoverReads replayReads : Reads}
    (hrecover : ∀ i, (recoverReads i).isSome = true)
    (hreplay : ∀ i, (replayReads i).isSome = true) :
    ∃ fuel, StorageEngine.openEngineReading c config disk recoverReads
      replayReads fuel = some (StorageEngine.openEngine c config disk) := by
  obtain ⟨fuel, sequence, entries, hsequence, hentries⟩ := exists_fuel c
    (LineReader.reachEnd_of_isSome hrecover disk.wal)
    (LineReader.reachEnd_of_isSome hreplay disk.wal)
  have hopened : openLogReading c recoverReads disk.wal fuel =
      some (openLog c disk.wal) := by
    refine openLogReading_eq_some.mpr ⟨?_, rfl⟩
    rw [hsequence, LineReader.forEach_eq_foldl hrecover _ _ hsequence]
    exact congrArg some (foldl_recoverSequenceBody c _ 0)
  have hreplayed : replayReading c replayReads disk.wal fuel =
      some (replay c disk.wal) := by
    rw [hentries, LineReader.forEach_eq_foldl hreplay _ _ hentries]
    exact congrArg some (foldl_replayBody c _ [])
  refine ⟨fuel, ?_⟩
  rw [StorageEngine.openEngineReading, hopened, StorageEngine.openEngine]
  cases SnapshotManager.loadLatest c disk.snapshots with
  | error e => rfl
  | ok snapshot =>
      simp only [hreplayed]
      rfl

end Rkv.Storage
