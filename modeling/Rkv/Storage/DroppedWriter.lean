import Rkv.Foundation.Simulation
import Rkv.Storage.FailedWrite

/-!
# The writer of the log when it is dropped

`truncate` opens the log file again, emptied, and only then drops the writer it
had.  What that one still holds goes to where its own handle stands, and the new
handle writes from the beginning of the file over it.  A clean stop drops the
writer as well.  As long as no write fails there is nothing to hand over; a write
that failed can come back either way.
-/

namespace Rkv.Storage

open Rkv.Foundation

/-- `open` opens the log file to append, `truncate` to write from the beginning,
where bytes of the writer before may lie. -/
inductive LogHandle where
  | appending
  | writing (beneath : Bytes)

namespace LogHandle

def beneath : LogHandle → Bytes
  | appending => []
  | writing beneath => beneath

/-- The file when its writer has handed these bytes over. -/
def file (handle : LogHandle) (written : Bytes) : Bytes :=
  written ++ handle.beneath.drop written.length

/-- What the handle, having written `offset` bytes, makes of an emptied file.  Past
the end of the file the gap reads as zeros. -/
def land (handle : LogHandle) (offset : Nat) (bytes : Bytes) : Bytes :=
  match handle with
  | appending => bytes
  | writing _ => if bytes = [] then [] else List.replicate offset 0 ++ bytes

@[simp] theorem land_nil (handle : LogHandle) (offset : Nat) :
    handle.land offset [] = [] := by
  cases handle <;> rfl

end LogHandle

/-- An engine and the handle its log writer writes through. -/
structure OpenEngine where
  buffered : BufferedEngine
  handle : LogHandle

inductive WriterOp where
  | write (op : WriteOp) (room : Nat)
  | flush (timestamp room : Nat)

/-! ## What a failed write has handed over -/

namespace BufferedEngine

variable {c : Codecs} {s failed : BufferedEngine} {key : String}
  {value : VersionedValue} {room : Nat}

theorem exists_taken_of_put_error (h : s.put c key value room = .error failed) :
    ∃ taken, taken <+: s.serialized c key value ++ [10] ∧
      failed.stream = s.stream ++ taken ∧
      ((s.writer.writeAll (s.serialized c key value) room).isOk = true ↔
        (s.serialized c key value).length ≤ taken.length) := by
  obtain ⟨w, hline, rfl⟩ := put_error h
  have hstream := stream_of_writeLine_error s.one_lt_capacity hline
  split at hstream
  · rename_i hhanded
    refine ⟨_, List.prefix_rfl, hstream, iff_of_true ?_ (by simp)⟩
    unfold handOver at hhanded
    cases hwritten : s.writer.writeAll (s.serialized c key value) room with
    | ok done => rfl
    | error w =>
        rw [hwritten] at hhanded
        contradiction
  · split at hstream
    · rename_i hwritten
      exact ⟨_, List.prefix_append _ _, hstream, iff_of_true hwritten le_rfl⟩
    · rename_i hwritten
      obtain ⟨taken, htaken, hne, htail⟩ := hstream
      refine ⟨taken, htaken.trans (List.prefix_append _ _), htail,
        iff_of_false hwritten fun hlength => hne ?_⟩
      exact htaken.eq_of_length_le hlength

/-- The failed call has put `room` bytes into the file. -/
theorem parts_of_put_error (h : s.put c key value room = .error failed)
    {taken : Bytes} (hstream : failed.stream = s.stream ++ taken) :
    failed.engine.wal.file = s.engine.wal.file ++ (s.buf ++ taken).take room ∧
      failed.buf = (s.buf ++ taken).drop room := by
  obtain ⟨w, hline, rfl⟩ := put_error h
  have hsent : w.inner.length = s.engine.wal.file.length + room :=
    (failed_writeLine (Nat.zero_lt_of_lt s.one_lt_capacity) hline).sent
  have hwhole : w.inner ++ w.buf = s.engine.wal.file ++ (s.buf ++ taken) :=
    hstream.trans (List.append_assoc _ _ _)
  have hlength := congrArg List.length hwhole
  rw [← List.take_append_drop room (s.buf ++ taken), ← List.append_assoc]
    at hwhole
  refine List.append_inj hwhole ?_
  change w.inner.length = _
  simp only [List.length_append, List.length_take] at hlength ⊢
  omega

section

variable (hemits : ∀ entry, c.Emits entry)
  (hcut : ∀ entry text, asBytes text <+: asBytes (c.jsonToString entry) →
    text ≠ c.jsonToString entry → c.jsonFromStr text = none)

include hemits hcut

/-- Behind whole lines, the beginning of a line shows once its text is there. -/
theorem entryWith_append_piece {file : Bytes} (hclosed : Terminated 10 file)
    {piece : Bytes} (hpiece : piece <+: s.serialized c key value ++ [10]) :
    s.entryWith c (file ++ piece) key =
      if (s.serialized c key value).length ≤ piece.length then some value
      else s.entryWith c file key := by
  split
  · rename_i hlength
    obtain ⟨ending, rfl⟩ :=
      List.prefix_of_prefix_length_le (List.prefix_append _ _) hpiece hlength
    have hending : ending <+: [10] :=
      (List.prefix_append_right_inj (s.serialized c key value)).mp hpiece
    refine entryWith_append_line hemits hclosed ?_ key value
    rcases List.prefix_cons_iff.mp hending with hnil | ⟨rest, hcons, hrest⟩
    · exact .inl hnil
    · rw [List.prefix_nil.mp hrest] at hcons
      exact .inr hcons
  · rename_i hlength
    have hbegins : piece <+: s.serialized c key value :=
      List.prefix_of_prefix_length_le hpiece (List.prefix_append _ _)
        (not_le.mp hlength).le
    refine entryWith_append_cut hemits hcut hclosed hbegins fun heq => hlength ?_
    exact (congrArg List.length heq).ge

/-- The file takes some of what is left from before and then of a line. -/
theorem entryWith_append_take {file left taken : Bytes}
    (hclosed : Terminated 10 (file ++ left))
    (htaken : taken <+: s.serialized c key value ++ [10]) (more : Nat) :
    s.entryWith c (file ++ (left ++ taken).take more) key =
      if (s.serialized c key value).length ≤ taken.length ∧
          left.length + (s.serialized c key value).length ≤ more then some value
      else s.entryWith c (file ++ left.take more) key := by
  by_cases hleft : left.length ≤ more
  · have hpiece : taken.take (more - left.length) <+:
        s.serialized c key value ++ [10] := (List.take_prefix _ _).trans htaken
    rw [List.take_append, List.take_of_length_le hleft, ← List.append_assoc,
      entryWith_append_piece hemits hcut hclosed hpiece]
    refine if_congr ?_ rfl rfl
    rw [List.length_take, le_min_iff]
    omega
  · -- the file stops within what was left before
    rw [if_neg (by omega), List.take_append_of_le_length (not_le.mp hleft).le]

end

/-- A text that fills the buffer behind what is left there is accepted, and its
newline is refused when the buffer cannot be emptied. -/
theorem newline_refused (hfills : s.buf.length +
      (s.serialized c key value).length = 8192) (hbuf : s.buf ≠ [])
    (hroom : room < 8192) :
    (s.writer.writeAll (s.serialized c key value) room).isOk = true ∧
      (handOver s.writer (s.serialized c key value) room).isOk = false ∧
      ∃ failed, s.put c key value room = .error failed := by
  have hleft := List.length_pos_iff.mpr hbuf
  have hwritten : s.writer.writeAll (s.serialized c key value) room =
      .ok (s.writer.fill (s.serialized c key value), room) := by
    refine BufWriter.writeAll_of_le_spare ?_ ?_ room
    · simp only [BufWriter.spareCapacity, writer]
      omega
    · change _ < 8192
      omega
  have hfull : (s.writer.fill (s.serialized c key value)).buf.length = 8192 := by
    rw [BufWriter.fill, List.length_append]
    exact hfills
  obtain ⟨after, hnewline⟩ :=
    BufWriter.writeAll_of_full hfull (List.cons_ne_nil 10 []) hroom
  have hhanded : handOver s.writer (s.serialized c key value) room =
      .error after := by
    rw [handOver, hwritten]
    exact hnewline
  refine ⟨by rw [hwritten]; rfl, by rw [hhanded]; rfl, ?_⟩
  cases hput : s.put c key value room with
  | error failed => exact ⟨failed, rfl⟩
  | ok t =>
      have henough := exists_put_ok_iff.mp ⟨t, hput⟩
      rw [List.length_append] at henough
      omega

end BufferedEngine

namespace OpenEngine

/-- As `open` leaves it. -/
def opened (engine : StorageEngine) : OpenEngine := ⟨⟨engine, []⟩, .appending⟩

def disk (s : OpenEngine) : Disk :=
  ⟨s.handle.file s.buffered.engine.wal.file, s.buffered.engine.snapshots⟩

def write (c : Codecs) (s : OpenEngine) (op : WriteOp) (room : Nat) :
    Except OpenEngine OpenEngine :=
  match s.buffered.write c op room with
  | .ok t => .ok { s with buffered := t }
  | .error failed => .error { s with buffered := failed }

/-- The file takes `room` bytes of the writer that is dropped.  An error there is
not seen. -/
def truncate (s : OpenEngine) (room : Nat) : OpenEngine where
  buffered := ⟨s.buffered.engine.truncateLog, []⟩
  handle := .writing (s.handle.land s.buffered.engine.wal.file.length
    (s.buffered.buf.take room))

def flush (c : Codecs) (s : OpenEngine) (timestamp room : Nat) : OpenEngine :=
  let engine := s.buffered.engine
  let data := engine.memtable.snapshot
  if data.isEmpty then s
  else
    let saved := (engine.saveSnapshot c data timestamp).cleanupSnapshots
    truncate ⟨⟨saved, s.buffered.buf⟩, s.handle⟩ room

/-- The disk after a clean stop. -/
def stop (s : OpenEngine) (room : Nat) : Disk :=
  ⟨s.handle.file (s.buffered.engine.wal.file ++ s.buffered.buf.take room),
    s.buffered.engine.snapshots⟩

/-- An operation, if it succeeds. -/
def next (c : Codecs) (s : OpenEngine) : WriterOp → Option OpenEngine
  | .write op room => (s.write c op room).toOption
  | .flush timestamp room => some (s.flush c timestamp room)

variable {c : Codecs} {s t failed : OpenEngine} {engine : StorageEngine}
  {op : WriteOp} {room timestamp : Nat}

theorem write_of_put {b : BufferedEngine}
    (h : s.buffered.put c op.key (op.value s.buffered.engine) room = .ok b) :
    s.write c op room = .ok ⟨b, s.handle⟩ := by
  rw [OpenEngine.write, BufferedEngine.write_eq, h]

theorem write_of_put_error {b : BufferedEngine}
    (h : s.buffered.put c op.key (op.value s.buffered.engine) room = .error b) :
    s.write c op room = .error ⟨b, s.handle⟩ := by
  rw [OpenEngine.write, BufferedEngine.write_eq, h]

theorem put_error_of_write (h : s.write c op room = .error failed) :
    ∃ b, s.buffered.put c op.key (op.value s.buffered.engine) room = .error b ∧
      failed = ⟨b, s.handle⟩ := by
  cases hput : s.buffered.put c op.key (op.value s.buffered.engine) room with
  | ok done =>
      rw [write_of_put hput] at h
      contradiction
  | error b =>
      rw [write_of_put_error hput] at h
      cases h
      exact ⟨b, rfl, rfl⟩

/-! ## While no write fails -/

/-- The engine without its writer. -/
def stepEngine (c : Codecs) (engine : StorageEngine) : WriterOp → StorageEngine
  | .write op _ => engine.put c op.key (op.value engine)
  | .flush timestamp _ => engine.flush c timestamp

structure Settled (s : OpenEngine) (engine : StorageEngine) : Prop where
  buffered : s.buffered = ⟨engine, []⟩
  beneath : s.handle.beneath = []

theorem Settled.disk (h : s.Settled engine) : s.disk = engine.disk := by
  rw [OpenEngine.disk, LogHandle.file, h.beneath, h.buffered, List.drop_nil,
    List.append_nil]
  rfl

theorem Settled.stop (h : s.Settled engine) (room : Nat) :
    s.stop room = engine.disk := by
  rw [OpenEngine.stop, LogHandle.file, h.beneath, h.buffered, List.drop_nil,
    List.take_nil, List.append_nil, List.append_nil]
  rfl

theorem Settled.next (h : s.Settled engine) {op : WriterOp}
    (hnext : s.next c op = some t) : t.Settled (stepEngine c engine op) := by
  cases op with
  | write op room =>
      rw [OpenEngine.next] at hnext
      cases hput : s.buffered.put c op.key (op.value s.buffered.engine) room with
      | error failed =>
          rw [write_of_put_error hput] at hnext
          contradiction
      | ok done =>
          rw [write_of_put hput] at hnext
          cases hnext
          refine ⟨?_, h.beneath⟩
          rw [BufferedEngine.put_ok hput, BufferedEngine.settled,
            BufferedEngine.stream, h.buffered, List.append_nil]
          rfl
  | flush timestamp room =>
      cases hnext
      rw [OpenEngine.flush, stepEngine, StorageEngine.flush, h.buffered]
      split
      · exact h
      · refine ⟨rfl, ?_⟩
        change s.handle.land _ (List.take room []) = []
        rw [List.take_nil, LogHandle.land_nil]

/-- An engine whose writes all succeed has the log file, between any two operations
and after a clean stop, that the engine without a writer has. -/
theorem disk_of_run {engine : StorageEngine} {ops : List WriterOp}
    (hrun : Run (next c) anyAction (opened engine) ops s) :
    s.buffered.engine = ops.foldl (stepEngine c) engine ∧
      s.disk = (ops.foldl (stepEngine c) engine).disk ∧
      ∀ room, s.stop room = (ops.foldl (stepEngine c) engine).disk := by
  have hstep : ∀ (s : OpenEngine) (engine : StorageEngine) (op : WriterOp)
      (t : OpenEngine), s.Settled engine → anyAction s op → s.next c op = some t →
        t.Settled (stepEngine c engine op) :=
    fun _ _ _ _ h _ hnext => h.next hnext
  have h : s.Settled (ops.foldl (stepEngine c) engine) :=
    hrun.simulates hstep ⟨rfl, rfl⟩
  exact ⟨congrArg BufferedEngine.engine h.buffered, h.disk, h.stop⟩

/-! ## After a write that failed -/

/-- The first line after a truncate is written over what the dropped writer has
left. -/
theorem wal_write_truncate {more : Nat}
    (h : (s.truncate room).write c op more = .ok t) :
    let line := WriteAheadLog.encodeLine c
      (.new c 1 op.key (op.value s.buffered.engine))
    t.disk.wal = line ++ (s.truncate room).handle.beneath.drop line.length := by
  have hvalue : op.value s.buffered.engine.truncateLog =
      op.value s.buffered.engine := by
    cases op <;> rfl
  cases hput : (s.truncate room).buffered.put c op.key
      (op.value s.buffered.engine.truncateLog) more with
  | error b =>
      rw [write_of_put_error hput] at h
      contradiction
  | ok b =>
      rw [write_of_put hput] at h
      cases h
      rw [← hvalue, BufferedEngine.put_ok hput]
      rfl

section

variable (hemits : ∀ entry, c.Emits entry)
  (hcut : ∀ entry text, asBytes text <+: asBytes (c.jsonToString entry) →
    text ≠ c.jsonToString entry → c.jsonFromStr text = none)

include hemits hcut

/-- A write that failed is on disk after a clean stop exactly when the writer took
its text and the file takes it from the writer at last; otherwise the stop leaves
what it would without the write. -/
theorem stop_after_failed_write (h : s.write c op room = .error failed)
    (hbeneath : s.handle.beneath.length ≤ s.buffered.engine.wal.file.length)
    (hclosed : Terminated 10 s.buffered.stream) (stopRoom : Nat) :
    let value := op.value s.buffered.engine
    let text := s.buffered.serialized c op.key value
    (failed.stop stopRoom).entry c op.key =
      if (s.buffered.writer.writeAll text room).isOk = true ∧
          s.buffered.buf.length + text.length ≤ room + stopRoom then some value
      else (s.stop (room + stopRoom)).entry c op.key := by
  intro value text
  obtain ⟨b, hput, rfl⟩ := put_error_of_write h
  obtain ⟨taken, htaken, hstream, haccepted⟩ :=
    BufferedEngine.exists_taken_of_put_error hput
  change _ ↔ text.length ≤ taken.length at haccepted
  obtain ⟨hfile, hbuf⟩ := BufferedEngine.parts_of_put_error hput hstream
  have hover : ∀ bytes : Bytes,
      s.handle.file (s.buffered.engine.wal.file ++ bytes) =
        s.buffered.engine.wal.file ++ bytes := by
    intro bytes
    rw [LogHandle.file, List.drop_eq_nil_of_le, List.append_nil]
    rw [List.length_append]
    omega
  have hsnapshots : b.engine.snapshots = s.buffered.engine.snapshots := by
    obtain ⟨w, -, rfl⟩ := BufferedEngine.put_error hput
    rfl
  rw [OpenEngine.stop, OpenEngine.stop, hfile, hbuf, List.append_assoc,
    ← List.take_add, hover, hover, hsnapshots]
  refine (BufferedEngine.entryWith_append_take (s := s.buffered) hemits hcut hclosed
    htaken (room + stopRoom)).trans (if_congr ?_ rfl rfl)
  exact and_congr_left fun _ => haccepted.symm

/-- After a flush the table has what it had, and the log what the dropped writer
held.  If none of the text of a failed write had reached the file, that is the
write exactly when the writer took its text and the file takes it at last. -/
theorem flush_after_failed_write (h : s.write c op room = .error failed)
    (hhandle : s.handle = .appending)
    (htable : s.buffered.engine.memtable.snapshot.isEmpty = false)
    (hroom : room ≤ s.buffered.buf.length)
    (hclosed : Terminated 10 (s.buffered.buf.drop room))
    (timestamp flushRoom : Nat) :
    let value := op.value s.buffered.engine
    let text := s.buffered.serialized c op.key value
    let flushed := failed.flush c timestamp flushRoom
    flushed.buffered.engine.memtable = s.buffered.engine.memtable ∧
      flushed.disk.wal = failed.buffered.buf.take flushRoom ∧
      flushed.disk.entry c op.key =
        if (s.buffered.writer.writeAll text room).isOk = true ∧
            s.buffered.buf.length + text.length ≤ room + flushRoom then some value
        else Disk.entry c ⟨(s.buffered.buf.drop room).take flushRoom,
          flushed.disk.snapshots⟩ op.key := by
  intro value text flushed
  obtain ⟨b, hput, rfl⟩ := put_error_of_write h
  obtain ⟨taken, htaken, hstream, haccepted⟩ :=
    BufferedEngine.exists_taken_of_put_error hput
  change _ ↔ text.length ≤ taken.length at haccepted
  have htables : b.engine.memtable = s.buffered.engine.memtable := by
    obtain ⟨w, -, rfl⟩ := BufferedEngine.put_error hput
    rfl
  have hflushed : flushed = truncate ⟨⟨(b.engine.saveSnapshot c
      b.engine.memtable.snapshot timestamp).cleanupSnapshots, b.buf⟩, s.handle⟩
        flushRoom :=
    if_neg (by simp [htables, htable])
  have hlog : flushed.disk.wal = b.buf.take flushRoom := by
    rw [hflushed, hhandle]
    rfl
  refine ⟨by rw [hflushed]; exact htables, hlog, ?_⟩
  -- what of the line was in the old file is gone with it
  rw [(BufferedEngine.parts_of_put_error hput hstream).2,
    List.drop_append_of_le_length hroom] at hlog
  change Disk.entry c ⟨flushed.disk.wal, flushed.disk.snapshots⟩ op.key = _
  rw [hlog]
  let after : BufferedEngine := ⟨{ s.buffered.engine with
    snapshots := flushed.disk.snapshots }, []⟩
  have hentry := BufferedEngine.entryWith_append_take (s := after) hemits hcut
    (show Terminated 10 ([] ++ s.buffered.buf.drop room) from hclosed) htaken
    flushRoom
  refine hentry.trans (if_congr ?_ rfl rfl)
  change text.length ≤ _ ∧ _ + text.length ≤ _ ↔ _
  rw [haccepted, List.length_drop]
  omega

/-- A write whose text filled the buffer while its newline was refused is not handed
over, and still a clean stop brings it back. -/
theorem stop_after_newline_refused
    (hfills : s.buffered.buf.length + (s.buffered.serialized c op.key
      (op.value s.buffered.engine)).length = 8192)
    (hbuf : s.buffered.buf ≠ []) (hroom : room < 8192)
    (hbeneath : s.handle.beneath.length ≤ s.buffered.engine.wal.file.length)
    (hclosed : Terminated 10 s.buffered.stream) :
    let value := op.value s.buffered.engine
    (handOver s.buffered.writer (s.buffered.serialized c op.key value)
        room).isOk = false ∧
      ∃ failed, s.write c op room = .error failed ∧
        ∀ stopRoom, 8192 ≤ room + stopRoom →
          (failed.stop stopRoom).entry c op.key = some value := by
  intro value
  obtain ⟨hwritten, hhanded, b, hput⟩ :=
    BufferedEngine.newline_refused hfills hbuf hroom
  have herror := write_of_put_error hput
  refine ⟨hhanded, _, herror, fun stopRoom henough => ?_⟩
  rw [stop_after_failed_write hemits hcut herror hbeneath hclosed stopRoom]
  exact if_pos ⟨hwritten, hfills.trans_le henough⟩

end

/-- A flush right after a put that failed: the table and the snapshot have the value
from before, and the emptied log has the one that failed. -/
theorem failed_write_outlives_flush :
    let c := referenceCodecs
    let v := VersionedValue.new [0] "node1" 0 1700000000000
    let w := VersionedValue.new [1] "node1" 0 1700000000001
    ∃ s failed,
      (opened (.fresh c ⟨1048576, 3, "node1"⟩)).write c (.put "k" v) 8192 =
        .ok s ∧
      s.write c (.put "k" w) 0 = .error failed ∧
      let flushed := failed.flush c 1700000000002 8192
      flushed.buffered.engine.getRaw "k" = some v ∧
        flushed.disk.entry c "k" = some w := by
  intro c v w
  let first : BufferedEngine := ⟨.fresh c ⟨1048576, 3, "node1"⟩, []⟩
  let s : OpenEngine := ⟨⟨first.settled.put c "k" v, []⟩, .appending⟩
  have hput : first.put c "k" v 8192 = .ok s.buffered := by
    obtain ⟨t, ht⟩ := BufferedEngine.exists_put_ok_iff.mpr
      (show first.buf.length + (first.serialized c "k" v ++ [10]).length ≤ 8192 by
        decide +kernel)
    rw [ht, BufferedEngine.put_ok ht]
  obtain ⟨b, hfailed⟩ := BufferedEngine.exists_put_error c s.buffered "k" w
  have herror : s.write c (.put "k" w) 0 = .error ⟨b, .appending⟩ :=
    write_of_put_error hfailed
  have hshort : (s.buffered.serialized c "k" w).length < 8192 := by decide +kernel
  have henough : s.buffered.buf.length + (s.buffered.serialized c "k" w).length ≤
      0 + 8192 := by
    rw [show s.buffered.buf.length = 0 from rfl]
    omega
  have hwritten : (s.buffered.writer.writeAll (s.buffered.serialized c "k" w)
      0).isOk = true := by
    have hspare : s.buffered.writer.spareCapacity = 8192 := rfl
    rw [BufWriter.writeAll_of_le_spare (hspare ▸ hshort.le) hshort]
    rfl
  obtain ⟨htable, -, hentry⟩ := flush_after_failed_write emits_referenceCodecs
    (fun _ _ => jsonFromStr_cut_referenceCodecs) herror rfl (by decide +kernel)
    (Nat.zero_le _) (terminated_nil 10) 1700000000002 8192
  refine ⟨s, ⟨b, .appending⟩, write_of_put hput, herror, ?_, ?_⟩
  · rw [StorageEngine.getRaw, htable]
    decide +kernel
  · exact hentry.trans (if_pos ⟨hwritten, henough⟩)

end OpenEngine

end Rkv.Storage
