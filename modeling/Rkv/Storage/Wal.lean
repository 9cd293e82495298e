import Rkv.Foundation.Bytes
import Rkv.Foundation.Lines
import Rkv.Storage.MemTable

/-!
# The write-ahead log

`storage/wal.rs` over the bytes of the log file.  A missing file reads as an
empty one, and every append ends with a flush, so without I/O errors nothing
stays in the writer's buffer.  The crates the storage code calls (`crc32fast`,
`serde_json`, `bincode`) are parameters; what the code relies on is stated in
`Codecs.Emits`, `Codecs.Lawful` and `Codecs.RejectsCut`.
-/

namespace Rkv.Storage

open Rkv.Foundation

structure WalEntry where
  sequence : UInt64
  key : String
  value : VersionedValue
  checksum : UInt32
  deriving DecidableEq

structure Codecs where
  crc32 : Bytes → UInt32
  jsonToString : WalEntry → String
  jsonFromStr : String → Option WalEntry
  bincodeSerialize : TableMap → Bytes
  bincodeDeserialize : Bytes → Option TableMap

/-- `serde_json` writes an entry as one newline-free object and reads it back. -/
structure Codecs.Emits (c : Codecs) (entry : WalEntry) : Prop where
  decodes : c.jsonFromStr (c.jsonToString entry) = some entry
  object : ∃ body, c.jsonToString entry = "\x7b" ++ body ++ "\x7d" ∧
    '\n' ∉ body.toList

structure Codecs.Lawful (c : Codecs) : Prop where
  emits : ∀ entry, c.Emits entry
  roundTrip : ∀ data, c.bincodeDeserialize (c.bincodeSerialize data) = some data

/-- `bincode` reports the end of input on every cut of what it wrote. -/
def Codecs.RejectsCut (c : Codecs) : Prop :=
  ∀ data cut, cut <+: c.bincodeSerialize data →
    cut ≠ c.bincodeSerialize data → c.bincodeDeserialize cut = none

namespace WalEntry

def computeChecksum (c : Codecs) (entry : WalEntry) : UInt32 :=
  c.crc32 (leBytes 8 entry.sequence.toNat ++ asBytes entry.key ++
    entry.value.value ++ leBytes 8 entry.value.timestampMs.toUInt64.toNat)

def new (c : Codecs) (sequence : UInt64) (key : String)
    (value : VersionedValue) : WalEntry :=
  let entry : WalEntry := ⟨sequence, key, value, 0⟩
  { entry with checksum := entry.computeChecksum c }

def verify (c : Codecs) (entry : WalEntry) : Bool :=
  let copy := { entry with checksum := 0 }
  copy.computeChecksum c == entry.checksum

@[simp] theorem verify_new (c : Codecs) (sequence : UInt64) (key : String)
    (value : VersionedValue) : (new c sequence key value).verify c = true := by
  simp [new, verify, computeChecksum]

@[simp] theorem key_new (c : Codecs) (sequence : UInt64) (key : String)
    (value : VersionedValue) : (new c sequence key value).key = key := rfl

@[simp] theorem value_new (c : Codecs) (sequence : UInt64) (key : String)
    (value : VersionedValue) : (new c sequence key value).value = value := rfl

end WalEntry

/-! ## Reading lines -/

/-- The characters `str::trim` removes (Unicode `White_Space`). -/
def isWhitespace (ch : Char) : Bool :=
  let n := ch.toNat
  (9 ≤ n && n ≤ 13) || n == 0x20 || n == 0x85 || n == 0xA0 || n == 0x1680 ||
    (0x2000 ≤ n && n ≤ 0x200A) || n == 0x2028 || n == 0x2029 ||
    n == 0x202F || n == 0x205F || n == 0x3000

def trimIsEmpty (line : String) : Bool := line.toList.all isWhitespace

/-- `BufRead::lines` drops the newline and a carriage return before it. -/
def chomp (raw : Bytes) : Bytes :=
  if raw.getLast? = some 10 then
    let line := raw.dropLast
    if line.getLast? = some 13 then line.dropLast else line
  else raw

/-- `BufRead::lines`; `none` is the error item of a line that is not UTF-8. -/
def lines (file : Bytes) : List (Option String) :=
  (splitAfter 10 file).map fun raw => fromUtf8 (chomp raw)

/-- What one item of `lines` contributes to `replay`. -/
def replayLine (c : Codecs) : Option String → Option WalEntry
  | none => none
  | some line =>
      if trimIsEmpty line then none
      else
        match c.jsonFromStr line with
        | some entry => if entry.verify c then some entry else none
        | none => none

def recoverSequenceLoop (c : Codecs) :
    UInt64 → List (Option String) → UInt64
  | maxSeq, [] => maxSeq
  | maxSeq, none :: rest => recoverSequenceLoop c maxSeq rest
  | maxSeq, some line :: rest =>
      match c.jsonFromStr line with
      | some entry => recoverSequenceLoop c (max maxSeq entry.sequence) rest
      | none => recoverSequenceLoop c maxSeq rest

structure WriteAheadLog where
  file : Bytes
  sequence : UInt64
  deriving DecidableEq

namespace WriteAheadLog

def recoverSequence (c : Codecs) (file : Bytes) : UInt64 :=
  recoverSequenceLoop c 0 (lines file)

def openLog (c : Codecs) (file : Bytes) : WriteAheadLog :=
  ⟨file, recoverSequence c file⟩

def encodeLine (c : Codecs) (entry : WalEntry) : Bytes :=
  asBytes (c.jsonToString entry) ++ [10]

def append (c : Codecs) (wal : WriteAheadLog) (key : String)
    (value : VersionedValue) : WriteAheadLog × UInt64 :=
  let sequence := wal.sequence + 1
  let entry := WalEntry.new c sequence key value
  (⟨wal.file ++ encodeLine c entry, sequence⟩, sequence)

def replay (c : Codecs) (file : Bytes) : List WalEntry :=
  (lines file).filterMap (replayLine c)

def truncate (_wal : WriteAheadLog) : WriteAheadLog := ⟨[], 0⟩

end WriteAheadLog

/-! ## One emitted line -/

namespace Codecs.Emits

variable {c : Codecs} {entry : WalEntry}

theorem asBytes_object (h : c.Emits entry) :
    ∃ body, asBytes (c.jsonToString entry) = 123 :: body ++ [125] ∧
      10 ∉ body := by
  obtain ⟨body, hbody, hnewline⟩ := h.object
  refine ⟨asBytes body, ?_, newline_notMem_asBytes hnewline⟩
  rw [hbody, asBytes_append, asBytes_append,
    show asBytes "\x7b" = [123] by decide, show asBytes "\x7d" = [125] by decide]
  rfl

theorem newline_notMem (h : c.Emits entry) :
    10 ∉ asBytes (c.jsonToString entry) := by
  obtain ⟨body, hbody, hnewline⟩ := h.asBytes_object
  rw [hbody]
  simp [hnewline]

theorem not_trimIsEmpty_append (h : c.Emits entry) (text : String) :
    trimIsEmpty (text ++ c.jsonToString entry) = false := by
  obtain ⟨body, hbody, -⟩ := h.object
  rw [hbody, trimIsEmpty, List.all_eq_false]
  refine ⟨'\x7b', ?_, by decide⟩
  simp [String.toList_append]

theorem chomp_append (h : c.Emits entry) (front : Bytes) :
    chomp (front ++ WriteAheadLog.encodeLine c entry) =
      front ++ asBytes (c.jsonToString entry) := by
  obtain ⟨body, hbody, -⟩ := h.asBytes_object
  have hlast : (front ++ asBytes (c.jsonToString entry)).getLast? ≠ some 13 := by
    rw [hbody, ← List.append_assoc, List.getLast?_concat]
    decide
  rw [WriteAheadLog.encodeLine, ← List.append_assoc, chomp, if_pos (by simp)]
  simp only [List.dropLast_concat, if_neg hlast]

theorem splitAfter_encodeLine (h : c.Emits entry) {front : Bytes}
    (hfront : 10 ∉ front) :
    splitAfter 10 (front ++ WriteAheadLog.encodeLine c entry) =
      [front ++ WriteAheadLog.encodeLine c entry] := by
  have hline : (10 : UInt8) ∉ front ++ asBytes (c.jsonToString entry) := by
    simp [hfront, h.newline_notMem]
  have hsplit := splitAfter_append_of_notMem hline []
  simpa [WriteAheadLog.encodeLine, List.append_assoc] using hsplit

end Codecs.Emits

namespace WriteAheadLog

variable {c : Codecs}

theorem terminated_encodeLine (c : Codecs) (entry : WalEntry) :
    Terminated 10 (encodeLine c entry) :=
  terminated_append_sep 10 _

@[simp] theorem replay_nil (c : Codecs) : replay c [] = [] := rfl

/-- Behind complete lines, what follows is replayed on its own. -/
theorem replay_append {file : Bytes} (h : Terminated 10 file) (rest : Bytes) :
    replay c (file ++ rest) = replay c file ++ replay c rest := by
  simp only [replay, lines, h.splitAfter_append, List.map_append,
    List.filterMap_append]

theorem replay_encodeLine {entry : WalEntry} (h : c.Emits entry)
    (hverify : entry.verify c = true) :
    replay c (encodeLine c entry) = [entry] := by
  have hsplit := h.splitAfter_encodeLine (List.not_mem_nil (a := (10 : UInt8)))
  have hchomp := h.chomp_append []
  have htrim := h.not_trimIsEmpty_append ""
  simp only [List.nil_append, String.empty_append] at hsplit hchomp htrim
  simp [replay, lines, hsplit, hchomp, replayLine, htrim, h.decodes, hverify]

/-- An entry behind an open line is read as one text with what stands there. -/
theorem exists_text_of_mem_replay {entry found : WalEntry} (h : c.Emits entry)
    {tail : Bytes} (htail : (10 : UInt8) ∉ tail)
    (hfound : found ∈ replay c (tail ++ encodeLine c entry)) :
    ∃ text, asBytes text = tail ∧
      c.jsonFromStr (text ++ c.jsonToString entry) = some found := by
  rw [replay, lines, h.splitAfter_encodeLine htail, List.map_singleton,
    h.chomp_append, List.mem_filterMap] at hfound
  obtain ⟨line, hline, hread⟩ := hfound
  rw [List.mem_singleton] at hline
  cases line with
  | none => contradiction
  | some line =>
      have hne : c.jsonToString entry ≠ "" := by
        obtain ⟨body, hbody, -⟩ := h.asBytes_object
        intro hempty
        rw [hempty, show asBytes "" = [] by decide] at hbody
        simp at hbody
      obtain ⟨text, htext, rfl⟩ := exists_text_of_fromUtf8_append hne hline.symm
      refine ⟨text, htext, ?_⟩
      simp only [replayLine, h.not_trimIsEmpty_append text, Bool.false_eq_true,
        if_false] at hread
      split at hread
      · rename_i entry hparsed
        split at hread
        · rw [hparsed, Option.some.inj hread]
        · contradiction
      · contradiction

theorem terminated_append {wal : WriteAheadLog} (h : Terminated 10 wal.file)
    (key : String) (value : VersionedValue) :
    Terminated 10 (wal.append c key value).1.file :=
  h.append (terminated_encodeLine c _)

theorem replay_append_entry {wal : WriteAheadLog} (h : Terminated 10 wal.file)
    (key : String) (value : VersionedValue)
    (he : c.Emits (WalEntry.new c (wal.sequence + 1) key value)) :
    replay c (wal.append c key value).1.file =
      replay c wal.file ++ [WalEntry.new c (wal.sequence + 1) key value] := by
  rw [append, replay_append h, replay_encodeLine he (WalEntry.verify_new ..)]

end WriteAheadLog

end Rkv.Storage
