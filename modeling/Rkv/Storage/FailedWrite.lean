import Rkv.Foundation.BufferedWriter
import Rkv.Foundation.Run
import Rkv.Storage.Engine
import Rkv.Storage.ReferenceCodec

/-!
# Writes that fail in the log

An append hands the line to a buffered writer in two calls and then flushes it,
and each of the three can fail with any part of the bytes in the file.  The
table is left alone, but what the writer has accepted stays in its buffer, and
the next append that succeeds writes it out.  A crash loses the buffer.
-/

namespace Rkv.Storage

open Rkv.Foundation

/-- An engine and the bytes its log writer has not handed to the file. -/
structure BufferedEngine where
  engine : StorageEngine
  buf : Bytes

inductive WriteOp where
  | put (key : String) (value : VersionedValue)
  | putRaw (key : String) (value : Bytes) (ttlMs now : Int64)
  | delete (key : String) (now : Int64)

namespace WriteOp

def key : WriteOp → String
  | put key _ | putRaw key _ _ _ | delete key _ => key

def value (engine : StorageEngine) : WriteOp → VersionedValue
  | put _ value => value
  | putRaw key value ttlMs now => engine.newVersion key value ttlMs now
  | delete key now => engine.tombstoneFor key now

end WriteOp

def handOver (w : BufWriter UInt8) (serialized : Bytes) (room : Nat) :
    Except (BufWriter UInt8) (BufWriter UInt8 × Nat) := do
  let (w, room) ← w.writeAll serialized room
  w.writeAll [10] room

def writeLine (w : BufWriter UInt8) (serialized : Bytes) (room : Nat) :
    Except (BufWriter UInt8) (BufWriter UInt8 × Nat) := do
  let (w, room) ← handOver w serialized room
  w.flushBuf room

namespace BufferedEngine

/-- `BufWriter::new` has eight kilobytes. -/
def writer (s : BufferedEngine) : BufWriter UInt8 := ⟨8192, s.engine.wal.file, s.buf⟩

def withLog (s : BufferedEngine) (w : BufWriter UInt8) (sequence : UInt64) :
    BufferedEngine :=
  ⟨{ s.engine with wal := ⟨w.inner, sequence⟩ }, w.buf⟩

def serialized (c : Codecs) (s : BufferedEngine) (key : String)
    (value : VersionedValue) : Bytes :=
  asBytes (c.jsonToString (WalEntry.new c (s.engine.wal.sequence + 1) key value))

/-- The sequence number is counted up before anything can fail. -/
def append (c : Codecs) (s : BufferedEngine) (key : String)
    (value : VersionedValue) (room : Nat) :
    Except BufferedEngine BufferedEngine :=
  match writeLine s.writer (s.serialized c key value) room with
  | .ok (w, _) => .ok (s.withLog w (s.engine.wal.sequence + 1))
  | .error w => .error (s.withLog w (s.engine.wal.sequence + 1))

def put (c : Codecs) (s : BufferedEngine) (key : String)
    (value : VersionedValue) (room : Nat) :
    Except BufferedEngine BufferedEngine := do
  let s ← s.append c key value room
  .ok { s with engine := s.engine.tableWrite key value }

def putRaw (c : Codecs) (s : BufferedEngine) (key : String) (value : Bytes)
    (ttlMs now : Int64) (room : Nat) : Except BufferedEngine BufferedEngine :=
  s.put c key (s.engine.newVersion key value ttlMs now) room

def delete (c : Codecs) (s : BufferedEngine) (key : String) (now : Int64)
    (room : Nat) : Except BufferedEngine BufferedEngine :=
  s.put c key (s.engine.tombstoneFor key now) room

def write (c : Codecs) (s : BufferedEngine) (op : WriteOp) (room : Nat) :
    Except BufferedEngine BufferedEngine :=
  match op with
  | .put key value => s.put c key value room
  | .putRaw key value ttlMs now => s.putRaw c key value ttlMs now room
  | .delete key now => s.delete c key now room

/-- An operation with the room the log file has for it, if it succeeds. -/
def next (c : Codecs) (s : BufferedEngine) (action : WriteOp × Nat) :
    Option BufferedEngine :=
  (s.write c action.1 action.2).toOption

end BufferedEngine

/-! ## One line -/

section

variable {w after : BufWriter UInt8} {serialized : Bytes} {room left : Nat}

theorem writes_handOver (hcapacity : 0 < w.capacity) (serialized : Bytes)
    (room : Nat) :
    w.Writes room (serialized ++ [10]) (handOver w serialized room) :=
  (BufWriter.writes_writeAll hcapacity serialized room).bind
    fun _ left _ haccepted => BufWriter.writes_writeAll
      (haccepted.capacity ▸ hcapacity) [10] left

theorem writes_writeLine (hcapacity : 0 < w.capacity) (serialized : Bytes)
    (room : Nat) :
    w.Writes room (serialized ++ [10]) (writeLine w serialized room) := by
  rw [← List.append_nil (serialized ++ [10])]
  exact (writes_handOver hcapacity serialized room).bind
    fun handed left _ _ => BufWriter.writes_flushBuf handed left

theorem accepted_writeLine (hcapacity : 0 < w.capacity)
    (h : writeLine w serialized room = .ok (after, left)) :
    w.Accepted room (serialized ++ [10]) after left := by
  have hwrites := writes_writeLine hcapacity serialized room
  rwa [h] at hwrites

theorem failed_writeLine (hcapacity : 0 < w.capacity)
    (h : writeLine w serialized room = .error after) :
    w.Failed room (serialized ++ [10]) after := by
  have hwrites := writes_writeLine hcapacity serialized room
  rwa [h] at hwrites

theorem buf_of_writeLine (h : writeLine w serialized room = .ok (after, left)) :
    after.buf = [] := by
  unfold writeLine at h
  cases hhanded : handOver w serialized room with
  | error failed =>
      rw [hhanded] at h
      contradiction
  | ok done =>
      rw [hhanded] at h
      exact BufWriter.buf_of_flushBuf h

theorem inner_of_writeLine (hcapacity : 0 < w.capacity)
    (h : writeLine w serialized room = .ok (after, left)) :
    after.inner = w.stream ++ (serialized ++ [10]) := by
  have hstream := (accepted_writeLine hcapacity h).stream
  rwa [BufWriter.stream, buf_of_writeLine h, List.append_nil] at hstream

/-- Once the line is handed over all of it is in the stream, once only its text is
that is, and before that part of the text. -/
theorem stream_of_writeLine_error (hcapacity : 1 < w.capacity)
    (h : writeLine w serialized room = .error after) :
    if (handOver w serialized room).isOk then
      after.stream = w.stream ++ (serialized ++ [10])
    else if (w.writeAll serialized room).isOk then
      after.stream = w.stream ++ serialized
    else ∃ taken, taken <+: serialized ∧ taken ≠ serialized ∧
      after.stream = w.stream ++ taken := by
  have hpositive : 0 < w.capacity := by omega
  have hwrites := writes_handOver hpositive serialized room
  unfold writeLine at h
  cases hhanded : handOver w serialized room with
  | ok done =>
      rw [hhanded] at h hwrites
      have hflush := BufWriter.writes_flushBuf done.1 done.2
      rw [show done.1.flushBuf done.2 = _ from h] at hflush
      obtain ⟨taken, htaken, hstream⟩ := hflush.stream
      rw [List.prefix_nil.mp htaken, List.append_nil] at hstream
      exact hstream.trans hwrites.stream
  | error failed =>
      rw [hhanded] at h
      cases h
      unfold handOver at hhanded
      have hfirst := BufWriter.writes_writeAll hpositive serialized room
      cases hserialized : w.writeAll serialized room with
      | error failed =>
          obtain ⟨taken, htaken, hlength, -, hstream⟩ :=
            BufWriter.exists_taken_of_writeAll_error hpositive hserialized
          rw [hserialized] at hhanded
          cases hhanded
          exact ⟨taken, htaken, fun heq => hlength.ne (congrArg _ heq), hstream⟩
      | ok done =>
          obtain ⟨written, rest⟩ := done
          rw [hserialized] at hhanded hfirst
          have hsame := BufWriter.stream_of_writeAll_error
            (hfirst.capacity ▸ hcapacity) hhanded
          exact hsame.trans hfirst.stream

end

namespace BufferedEngine

variable {c : Codecs} {s t failed : BufferedEngine} {op : WriteOp}
  {key other : String} {value : VersionedValue} {room : Nat}

theorem write_eq (c : Codecs) (s : BufferedEngine) (op : WriteOp) (room : Nat) :
    s.write c op room = s.put c op.key (op.value s.engine) room := by
  cases op <;> rfl

def stream (s : BufferedEngine) : Bytes := s.engine.wal.file ++ s.buf

/-- The engine once its log file has everything the writer has. -/
def settled (s : BufferedEngine) : StorageEngine :=
  { s.engine with wal := { s.engine.wal with file := s.stream } }

theorem one_lt_capacity (s : BufferedEngine) : 1 < s.writer.capacity := by
  change 1 < 8192
  decide

/-- A write that succeeds is one of the engine whose log is settled. -/
theorem put_ok (h : s.put c key value room = .ok t) :
    t = ⟨s.settled.put c key value, []⟩ := by
  unfold put append at h
  cases hline : writeLine s.writer (s.serialized c key value) room with
  | error w =>
      rw [hline] at h
      contradiction
  | ok done =>
      rw [hline] at h
      cases h
      have hinner :=
        inner_of_writeLine (Nat.zero_lt_of_lt s.one_lt_capacity) hline
      simp only [withLog, hinner, buf_of_writeLine hline]
      rfl

theorem put_error (h : s.put c key value room = .error failed) :
    ∃ w, writeLine s.writer (s.serialized c key value) room = .error w ∧
      failed = s.withLog w (s.engine.wal.sequence + 1) := by
  unfold put append at h
  cases hline : writeLine s.writer (s.serialized c key value) room with
  | error w =>
      rw [hline] at h
      cases h
      exact ⟨w, rfl, rfl⟩
  | ok done =>
      rw [hline] at h
      contradiction

theorem next_eq_some {action : WriteOp × Nat} :
    s.next c action = some t ↔
      s.put c action.1.key (action.1.value s.engine) action.2 = .ok t := by
  rw [next, write_eq]
  cases s.put c action.1.key (action.1.value s.engine) action.2 <;>
    simp [Except.toOption]

theorem exists_put_ok_iff :
    (∃ t, s.put c key value room = .ok t) ↔
      s.buf.length + (s.serialized c key value ++ [10]).length ≤ room := by
  have hpositive := Nat.zero_lt_of_lt s.one_lt_capacity
  constructor
  · rintro ⟨t, hput⟩
    unfold put append at hput
    cases hline : writeLine s.writer (s.serialized c key value) room with
    | error w =>
        rw [hline] at hput
        contradiction
    | ok done =>
        have hsent := (accepted_writeLine hpositive hline).sent
        rw [inner_of_writeLine hpositive hline, BufWriter.stream] at hsent
        simp only [writer, List.length_append] at hsent ⊢
        omega
  · intro hroom
    cases hput : s.put c key value room with
    | ok t => exact ⟨t, rfl⟩
    | error failed =>
        obtain ⟨w, hline, -⟩ := put_error hput
        exact absurd (failed_writeLine hpositive hline).short (not_lt.mpr hroom)

/-! ## What recovery yields -/

/-- The entry recovery yields for a key with these bytes in the log. -/
def entryWith (c : Codecs) (s : BufferedEngine) (file : Bytes) (key : String) :
    Option VersionedValue :=
  Disk.entry c ⟨file, s.engine.snapshots⟩ key

theorem entryWith_append {file : Bytes} (hclosed : Terminated 10 file)
    {piece : Bytes} {writes : List (String × VersionedValue)}
    (hpiece : logWrites c piece = writes) :
    s.entryWith c (file ++ piece) key =
      (lastWrite key writes).or (s.entryWith c file key) := by
  have hreplay : logWrites c (file ++ piece) = logWrites c file ++ writes := by
    rw [← hpiece, logWrites, WriteAheadLog.replay_append hclosed, List.map_append]
    rfl
  rw [entryWith, Disk.entry, hreplay]
  simp only [overlay, lastWrite_append, Option.or_assoc]
  rfl

theorem replay_open {piece : Bytes} (hpiece : (10 : UInt8) ∉ piece)
    (hne : piece ≠ []) :
    WriteAheadLog.replay c piece =
      (replayLine c (fromUtf8 piece)).toList := by
  have hlast : piece.getLast? ≠ some 10 := fun hlast =>
    hpiece (List.mem_of_getLast? hlast)
  rw [WriteAheadLog.replay, lines, splitAfter_of_notMem hpiece hne,
    List.map_singleton, chomp, if_neg hlast, List.filterMap_cons,
    List.filterMap_nil]
  cases replayLine c (fromUtf8 piece) <;> rfl

section

variable (hemits : ∀ entry, c.Emits entry)
  (hglue : ∀ text entry found,
    c.jsonFromStr (text ++ c.jsonToString entry) = some found → found = entry)
  (hcut : ∀ entry text, asBytes text <+: asBytes (c.jsonToString entry) →
    text ≠ c.jsonToString entry → c.jsonFromStr text = none)

include hemits

include hcut in
theorem entryWith_append_cut {file : Bytes} (hclosed : Terminated 10 file)
    {entry : WalEntry} {cut : Bytes}
    (hbegins : cut <+: asBytes (c.jsonToString entry))
    (hne : cut ≠ asBytes (c.jsonToString entry)) :
    s.entryWith c (file ++ cut) key = s.entryWith c file key := by
  have hnothing : logWrites c cut = [] := by
    rw [logWrites, List.map_eq_nil_iff]
    by_cases hempty : cut = []
    · rw [hempty, WriteAheadLog.replay_nil]
    · have hopen : (10 : UInt8) ∉ cut := fun hmem =>
        (hemits entry).newline_notMem (hbegins.subset hmem)
      rw [replay_open hopen hempty, Option.toList_eq_nil_iff]
      cases htext : fromUtf8 cut with
      | none => rfl
      | some text =>
          have hbytes := asBytes_of_fromUtf8 htext
          have hparsed : c.jsonFromStr text = none := by
            refine hcut entry text (hbytes ▸ hbegins) fun heq => ?_
            exact hne (hbytes ▸ congrArg asBytes heq)
          simp [replayLine, hparsed]
  rw [entryWith_append hclosed hnothing]
  rfl

theorem entryWith_append_line {file : Bytes} (hclosed : Terminated 10 file)
    {ending : Bytes} (hending : ending = [] ∨ ending = [10]) (key : String)
    (value : VersionedValue) :
    s.entryWith c (file ++ (s.serialized c key value ++ ending)) key =
      some value := by
  have hentry := hemits
    (WalEntry.new c (s.engine.wal.sequence + 1) key value)
  have hwrites : logWrites c (s.serialized c key value ++ ending) =
      [(key, value)] := by
    rcases hending with rfl | rfl
    · have hne : s.serialized c key value ≠ [] := by
        obtain ⟨body, hbody, -⟩ := hentry.asBytes_object
        rw [serialized, hbody]
        simp
      have htrim := hentry.not_trimIsEmpty_append ""
      rw [String.empty_append] at htrim
      have hopen : (10 : UInt8) ∉ s.serialized c key value :=
        hentry.newline_notMem
      rw [List.append_nil, logWrites, replay_open hopen hne, serialized,
        fromUtf8_asBytes]
      simp [replayLine, htrim, hentry.decodes]
    · rw [logWrites, serialized]
      change (WriteAheadLog.replay c (WriteAheadLog.encodeLine c _)).map _ = _
      rw [WriteAheadLog.replay_encodeLine hentry (WalEntry.verify_new ..)]
      rfl
  rw [entryWith_append hclosed hwrites]
  simp [lastWrite]

include hglue

/-! ## Continuations -/

include hcut

/-! ## A state in order -/

end

theorem exists_put_error (c : Codecs) (s : BufferedEngine) (key : String)
    (value : VersionedValue) : ∃ failed, s.put c key value 0 = .error failed := by
  cases hput : s.put c key value 0 with
  | error failed => exact ⟨failed, rfl⟩
  | ok t =>
      have hroom := exists_put_ok_iff.mp ⟨t, hput⟩
      simp at hroom

end BufferedEngine

end Rkv.Storage
