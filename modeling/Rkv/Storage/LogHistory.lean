import Rkv.Foundation.Counter
import Rkv.Storage.TornLog

/-!
# Histories of the log

Whatever mix of appends, truncates and reopens a log has seen, it is the log of
the writes since the last truncate, appended to a new file: reopening reads the
sequence number back from the lines.
-/

namespace Rkv.Storage

open Rkv.Foundation

inductive LogOp where
  | append (key : String) (value : VersionedValue)
  | truncate
  | reopen

namespace LogOp

def isAppend : LogOp → Bool
  | append _ _ => true
  | _ => false

def keep (writes : List (String × VersionedValue)) :
    LogOp → List (String × VersionedValue)
  | append key value => writes ++ [(key, value)]
  | truncate => []
  | reopen => writes

def sinceTruncate (ops : List LogOp) : List (String × VersionedValue) :=
  ops.foldl keep []

theorem length_sinceTruncate_le (ops : List LogOp) :
    (sinceTruncate ops).length ≤ ops.countP isAppend := by
  induction ops using List.reverseRecOn with
  | nil => exact le_rfl
  | append_singleton ops op ih =>
      rw [sinceTruncate, List.foldl_append, List.countP_append]
      cases op with
      | append key value =>
          change (sinceTruncate ops ++ [(key, value)]).length ≤ _
          rw [List.length_append]
          exact Nat.add_le_add ih le_rfl
      | truncate => exact Nat.zero_le _
      | reopen => exact ih.trans (Nat.le_add_right _ _)

end LogOp

namespace WriteAheadLog

variable {c : Codecs}

def apply (c : Codecs) (wal : WriteAheadLog) : LogOp → WriteAheadLog
  | .append key value => (wal.append c key value).1
  | .truncate => wal.truncate
  | .reopen => openLog c wal.file

/-- A log opened on a path without a file, and what is done to it. -/
def runLog (c : Codecs) (ops : List LogOp) : WriteAheadLog :=
  ops.foldl (apply c) (openLog c [])

/-! ## Sequence numbers -/

theorem appendAll_concat (wal : WriteAheadLog)
    (writes : List (String × VersionedValue)) (key : String)
    (value : VersionedValue) :
    wal.appendAll c (writes ++ [(key, value)]) =
      ((wal.appendAll c writes).append c key value).1 := by
  induction writes generalizing wal with
  | nil => rfl
  | cons write writes ih => exact ih (wal.append c write.1 write.2).1

theorem sequence_appendAll (wal : WriteAheadLog)
    {writes : List (String × VersionedValue)}
    (hbound : wal.sequence.toNat + writes.length < 2 ^ 64) :
    (wal.appendAll c writes).sequence.toNat =
      wal.sequence.toNat + writes.length := by
  induction writes generalizing wal with
  | nil => rfl
  | cons write writes ih =>
      rw [List.length_cons] at hbound ⊢
      have hnext : ((wal.append c write.1 write.2).1).sequence.toNat =
          wal.sequence.toNat + 1 := counter_toNat_succ (by omega)
      have hrest := ih (wal.append c write.1 write.2).1 (by omega)
      rw [hnext] at hrest
      rw [show wal.appendAll c (write :: writes) =
        (wal.append c write.1 write.2).1.appendAll c writes from rfl, hrest]
      omega

theorem sequences_appendedEntries {sequence : UInt64}
    {writes : List (String × VersionedValue)}
    (hbound : sequence.toNat + writes.length < 2 ^ 64) :
    (appendedEntries c sequence writes).map (·.sequence.toNat) =
      List.range' (sequence.toNat + 1) writes.length := by
  induction writes generalizing sequence with
  | nil => rfl
  | cons write writes ih =>
      rw [List.length_cons] at hbound ⊢
      have hnext : (sequence + 1).toNat = sequence.toNat + 1 :=
        counter_toNat_succ (by omega)
      rw [appendedEntries, List.map_cons, ih (by omega), hnext,
        List.range'_succ]
      rw [← hnext]
      rfl

theorem writes_appendedEntries (sequence : UInt64)
    (writes : List (String × VersionedValue)) :
    (appendedEntries c sequence writes).map (fun e => (e.key, e.value)) =
      writes := by
  induction writes generalizing sequence with
  | nil => rfl
  | cons write writes ih =>
      rw [appendedEntries, List.map_cons, ih]
      rfl

/-! ## Reopening -/

theorem lines_flatMap_encodeLine {entries : List WalEntry}
    (hemits : ∀ entry ∈ entries, c.Emits entry) :
    lines (entries.flatMap (encodeLine c)) =
      entries.map fun entry => some (c.jsonToString entry) := by
  induction entries with
  | nil => rfl
  | cons entry entries ih =>
      have hentry := hemits entry (by simp)
      have hsplit :=
        hentry.splitAfter_encodeLine (List.not_mem_nil (a := (10 : UInt8)))
      have hchomp := hentry.chomp_append []
      simp only [List.nil_append] at hsplit hchomp
      rw [List.flatMap_cons, lines, (terminated_encodeLine c entry).splitAfter_append,
        List.map_append, hsplit, List.map_singleton, hchomp, fromUtf8_asBytes,
        List.map_cons]
      exact congrArg _ (ih fun e he => hemits e (by simp [he]))

theorem recoverSequenceLoop_appendedEntries (hemits : ∀ entry, c.Emits entry)
    {sequence : UInt64} {writes : List (String × VersionedValue)}
    (hbound : sequence.toNat + writes.length < 2 ^ 64) :
    (recoverSequenceLoop c sequence ((appendedEntries c sequence writes).map
      fun entry => some (c.jsonToString entry))).toNat =
        sequence.toNat + writes.length := by
  induction writes generalizing sequence with
  | nil => rfl
  | cons write writes ih =>
      rw [List.length_cons] at hbound ⊢
      have hnext : (sequence + 1).toNat = sequence.toNat + 1 :=
        counter_toNat_succ (by omega)
      have hmax : max sequence (sequence + 1) = sequence + 1 :=
        if_pos (UInt64.le_iff_toNat_le.mpr (by omega))
      rw [appendedEntries, List.map_cons, recoverSequenceLoop, (hemits _).decodes]
      change (recoverSequenceLoop c (max sequence (sequence + 1)) _).toNat = _
      rw [hmax, ih (by omega), hnext]
      omega

theorem openLog_appendAll (hemits : ∀ entry, c.Emits entry)
    {writes : List (String × VersionedValue)} (hbound : writes.length < 2 ^ 64) :
    openLog c ((openLog c []).appendAll c writes).file =
      (openLog c []).appendAll c writes := by
  have hzero : (openLog c []).sequence = 0 := rfl
  have hsequence : recoverSequence c ((openLog c []).appendAll c writes).file =
      ((openLog c []).appendAll c writes).sequence := by
    apply UInt64.toNat_inj.mp
    rw [sequence_appendAll _ (by simpa [hzero] using hbound), file_appendAll,
      recoverSequence, show (openLog c []).file = [] from rfl, List.nil_append,
      lines_flatMap_encodeLine fun entry _ => hemits entry, hzero]
    exact recoverSequenceLoop_appendedEntries hemits (by simpa using hbound)
  rw [openLog, hsequence]

/-- Every history is that of the writes since the last truncate. -/
theorem runLog_eq_appendAll (hemits : ∀ entry, c.Emits entry) {ops : List LogOp}
    (hcount : ops.countP LogOp.isAppend < 2 ^ 64) :
    runLog c ops = (openLog c []).appendAll c (LogOp.sinceTruncate ops) := by
  induction ops using List.reverseRecOn with
  | nil => rfl
  | append_singleton ops op ih =>
      have hfront : ops.countP LogOp.isAppend < 2 ^ 64 := by
        rw [List.countP_append] at hcount
        omega
      have hops := ih hfront
      rw [runLog, List.foldl_append, LogOp.sinceTruncate, List.foldl_append]
      change apply c (runLog c ops) op =
        (openLog c []).appendAll c (LogOp.keep (LogOp.sinceTruncate ops) op)
      rw [hops]
      cases op with
      | append key value => exact (appendAll_concat _ _ key value).symm
      | truncate => rfl
      | reopen =>
          exact openLog_appendAll hemits
            ((LogOp.length_sinceTruncate_le ops).trans_lt hfront)

/-- A replay returns the writes since the last truncate in order, each with its
checksum right and numbered from 1, and the counter is their number. -/
theorem replay_runLog (hemits : ∀ entry, c.Emits entry) (ops : List LogOp)
    (hcount : ops.countP LogOp.isAppend < 2 ^ 64) :
    let writes := LogOp.sinceTruncate ops
    let entries := replay c (runLog c ops).file
    entries.map (fun entry => (entry.key, entry.value)) = writes ∧
      (∀ entry ∈ entries, entry.verify c = true) ∧
      entries.map (·.sequence.toNat) = List.range' 1 writes.length ∧
      (runLog c ops).sequence.toNat = writes.length := by
  intro writes entries
  have hbound : (0 : UInt64).toNat + writes.length < 2 ^ 64 := by
    rw [UInt64.toNat_zero, Nat.zero_add]
    exact (LogOp.length_sinceTruncate_le ops).trans_lt hcount
  have hrun := runLog_eq_appendAll hemits hcount
  have hentries : entries = appendedEntries c 0 writes := by
    change replay c (runLog c ops).file = _
    rw [hrun, file_appendAll]
    exact replay_flatMap_encodeLine (fun entry _ => hemits entry)
      (verify_appendedEntries _ _)
  rw [hentries]
  refine ⟨writes_appendedEntries 0 writes, verify_appendedEntries 0 writes,
    sequences_appendedEntries hbound, ?_⟩
  rw [hrun, sequence_appendAll (openLog c []) hbound]
  exact Nat.zero_add _

/-- A key and a clock name with a line break and a quote, over a truncate and a
reopen. -/
theorem replay_runLog_reopened :
    let v := VersionedValue.new [0, 10, 255] "no\nde\"1" (-1) 1700000000000
    let ops : List LogOp := [.append "a" v, .truncate, .append "k\n" v, .reopen,
      .append "b" v]
    (∀ entry, referenceCodecs.Emits entry) ∧
      (replay referenceCodecs (runLog referenceCodecs ops).file).map
          (fun entry => (entry.key, entry.value)) = [("k\n", v), ("b", v)] ∧
      (runLog referenceCodecs ops).sequence.toNat = 2 := by
  intro v ops
  obtain ⟨hwrites, -, -, hsequence⟩ :=
    replay_runLog emits_referenceCodecs ops (by decide)
  exact ⟨emits_referenceCodecs, hwrites, hsequence⟩

end WriteAheadLog

end Rkv.Storage
