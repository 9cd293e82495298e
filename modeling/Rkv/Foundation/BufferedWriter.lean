import Mathlib

/-!
# A buffered writer over a file that can fail

The writer of the Rust standard library.  Short data goes to the buffer, which
is emptied when it has no space left; data that would fill an empty buffer is
handed to the file directly.  What the file does not take stays in the buffer.

A file takes some number of symbols, its room, before it reports an error, so
one number says where in a sequence of writes the error falls.  A failed write
returns the writer it leaves behind.
-/

namespace Rkv.Foundation

structure BufWriter (α : Type*) where
  capacity : Nat
  inner : List α
  buf : List α
  deriving DecidableEq

namespace BufWriter

variable {α : Type*}

/-- Everything the writer has accepted. -/
def stream (w : BufWriter α) : List α := w.inner ++ w.buf

def spareCapacity (w : BufWriter α) : Nat := w.capacity - w.buf.length

def fill (w : BufWriter α) (data : List α) : BufWriter α :=
  { w with buf := w.buf ++ data }

def flushBuf (w : BufWriter α) (room : Nat) :
    Except (BufWriter α) (BufWriter α × Nat) :=
  if w.buf.length ≤ room then
    .ok (⟨w.capacity, w.stream, []⟩, room - w.buf.length)
  else .error ⟨w.capacity, w.inner ++ w.buf.take room, w.buf.drop room⟩

def writeInner (w : BufWriter α) (data : List α) (room : Nat) :
    Except (BufWriter α) (BufWriter α × Nat) :=
  if data.length ≤ room then
    .ok ({ w with inner := w.inner ++ data }, room - data.length)
  else .error { w with inner := w.inner ++ data.take room }

def writeAllCold (w : BufWriter α) (data : List α) (room : Nat) :
    Except (BufWriter α) (BufWriter α × Nat) := do
  let (w, room) ←
    if w.spareCapacity < data.length then w.flushBuf room else .ok (w, room)
  if w.capacity ≤ data.length then w.writeInner data room
  else .ok (w.fill data, room)

def writeAll (w : BufWriter α) (data : List α) (room : Nat) :
    Except (BufWriter α) (BufWriter α × Nat) :=
  if data.length < w.spareCapacity then .ok (w.fill data, room)
  else w.writeAllCold data room

/-! ## What a write does to the stream -/

structure Accepted (w : BufWriter α) (room : Nat) (data : List α)
    (after : BufWriter α) (left : Nat) : Prop where
  capacity : after.capacity = w.capacity
  stream : after.stream = w.stream ++ data
  sent : after.inner.length + left = w.inner.length + room

/-- The call has failed with the room used up and part of the data accepted. -/
structure Failed (w : BufWriter α) (room : Nat) (data : List α)
    (after : BufWriter α) : Prop where
  capacity : after.capacity = w.capacity
  stream : ∃ taken, taken <+: data ∧ after.stream = w.stream ++ taken
  sent : after.inner.length = w.inner.length + room
  short : room < w.buf.length + data.length

def Writes (w : BufWriter α) (room : Nat) (data : List α) :
    Except (BufWriter α) (BufWriter α × Nat) → Prop
  | .ok (after, left) => Accepted w room data after left
  | .error after => Failed w room data after

variable {w after : BufWriter α} {room left : Nat} {data more : List α}

theorem Accepted.length (h : Accepted w room data after left) :
    after.inner.length + after.buf.length =
      w.inner.length + w.buf.length + data.length := by
  have hlength := congrArg List.length h.stream
  simpa only [BufWriter.stream, List.length_append] using hlength

theorem Failed.inner (h : Failed w room data after) :
    after.inner = w.inner ++ (w.buf ++ data).take room := by
  obtain ⟨taken, htaken, hstream⟩ := h.stream
  have hbegins : after.inner <+: w.inner ++ (w.buf ++ data) := by
    have hinner : after.inner <+: after.stream := List.prefix_append _ _
    rw [hstream, BufWriter.stream, List.append_assoc] at hinner
    refine hinner.trans ((List.prefix_append_right_inj _).mpr ?_)
    exact (List.prefix_append_right_inj _).mpr htaken
  rw [List.prefix_iff_eq_take.mp hbegins, h.sent, List.take_length_add_append]

/-- One write and then another are one write of both. -/
theorem Writes.bind {result : Except (BufWriter α) (BufWriter α × Nat)}
    {next : BufWriter α × Nat → Except (BufWriter α) (BufWriter α × Nat)}
    (h : Writes w room data result)
    (hnext : ∀ after left, result = .ok (after, left) →
      Accepted w room data after left →
      Writes after left more (next (after, left))) :
    Writes w room (data ++ more) (result >>= next) := by
  cases result with
  | error after =>
      obtain ⟨hcapacity, ⟨taken, htaken, hstream⟩, hsent, hshort⟩ := h
      refine ⟨hcapacity, ⟨taken, htaken.trans (List.prefix_append _ _), hstream⟩,
        hsent, ?_⟩
      rw [List.length_append]
      omega
  | ok done =>
      obtain ⟨after, left⟩ := done
      have hfirst : Accepted w room data after left := h
      have hlength := hfirst.length
      have hsecond := hnext after left rfl hfirst
      change Writes w room (data ++ more) (next (after, left))
      cases hdone : next (after, left) with
      | ok last =>
          rw [hdone] at hsecond
          obtain ⟨hcapacity, hstream, hsent⟩ := hsecond
          refine ⟨hcapacity.trans hfirst.capacity, ?_, hsent.trans hfirst.sent⟩
          rw [hstream, hfirst.stream, List.append_assoc]
      | error last =>
          rw [hdone] at hsecond
          obtain ⟨hcapacity, ⟨taken, htaken, hstream⟩, hsent, hshort⟩ := hsecond
          refine ⟨hcapacity.trans hfirst.capacity, ⟨data ++ taken,
            (List.prefix_append_right_inj data).mpr htaken, ?_⟩,
            hsent.trans hfirst.sent, ?_⟩
          · rw [hstream, hfirst.stream, List.append_assoc]
          · have hused := hfirst.sent
            rw [List.length_append]
            omega

theorem writes_flushBuf (w : BufWriter α) (room : Nat) :
    Writes w room [] (w.flushBuf room) := by
  unfold flushBuf
  split
  · refine ⟨rfl, by simp [stream], ?_⟩
    simp only [stream, List.length_append]
    omega
  · refine ⟨rfl, ⟨[], List.nil_prefix, by simp [stream]⟩, ?_, ?_⟩
    · simp only [List.length_append, List.length_take]
      omega
    · simpa using ‹¬w.buf.length ≤ room›

theorem writes_writeInner (hbuf : w.buf = []) (data : List α) (room : Nat) :
    Writes w room data (w.writeInner data room) := by
  unfold writeInner
  split
  · refine ⟨rfl, by simp [stream, hbuf], ?_⟩
    simp only [List.length_append]
    omega
  · refine ⟨rfl, ⟨data.take room, List.take_prefix room data,
      by simp [stream, hbuf]⟩, ?_, ?_⟩
    · simp only [List.length_append, List.length_take]
      omega
    · simpa [hbuf] using ‹¬data.length ≤ room›

theorem writes_fill (w : BufWriter α) (data : List α) (room : Nat) :
    Writes w room data (.ok (w.fill data, room)) :=
  ⟨rfl, by simp [stream, fill], rfl⟩

theorem buf_of_flushBuf (h : w.flushBuf room = .ok (after, left)) :
    after.buf = [] := by
  unfold flushBuf at h
  split at h
  · cases h
    rfl
  · contradiction

theorem writes_writeAllCold (hcapacity : 0 < w.capacity)
    (hcold : ¬data.length < w.spareCapacity) (room : Nat) :
    Writes w room data (w.writeAllCold data room) := by
  unfold writeAllCold
  -- the buffer is empty where data goes past it
  have hrest : ∀ after left, after.capacity = w.capacity →
      (w.capacity ≤ data.length → after.buf = []) →
      Writes after left data
        (if after.capacity ≤ data.length then after.writeInner data left
        else .ok (after.fill data, left)) := by
    intro after left hsame hempty
    split
    · rename_i hlong
      exact writes_writeInner (hempty (hsame ▸ hlong)) data left
    · exact writes_fill after data left
  by_cases hfull : w.spareCapacity < data.length
  · rw [if_pos hfull]
    refine (writes_flushBuf w room).bind fun after left hflushed haccepted => ?_
    exact hrest after left haccepted.capacity
      fun _ => buf_of_flushBuf hflushed
  · rw [if_neg hfull]
    refine hrest w room rfl fun hlong => ?_
    rw [← List.length_eq_zero_iff]
    unfold spareCapacity at hcold hfull
    omega

theorem writes_writeAll (hcapacity : 0 < w.capacity) (data : List α)
    (room : Nat) : Writes w room data (w.writeAll data room) := by
  unfold writeAll
  split
  · exact writes_fill w data room
  · exact writes_writeAllCold hcapacity ‹_› room

theorem writeAll_of_le_spare (hspare : data.length ≤ w.spareCapacity)
    (hshort : data.length < w.capacity) (room : Nat) :
    w.writeAll data room = .ok (w.fill data, room) := by
  unfold writeAll writeAllCold
  split
  · rfl
  · rw [if_neg (by omega)]
    change (if w.capacity ≤ data.length then _ else _) = _
    rw [if_neg (by omega)]

theorem writeAll_of_full (hfull : w.buf.length = w.capacity) (hne : data ≠ [])
    (hroom : room < w.capacity) :
    ∃ after, w.writeAll data room = .error after := by
  have hlength := List.length_pos_iff.mpr hne
  unfold writeAll writeAllCold spareCapacity
  rw [if_neg (by omega), if_pos (by omega), flushBuf, if_neg (by omega)]
  exact ⟨_, rfl⟩

theorem stream_of_writeInner_error (hbuf : w.buf = [])
    (h : w.writeInner data room = .error after) :
    room < data.length ∧ after.stream = w.stream ++ data.take room := by
  unfold writeInner at h
  split at h
  · contradiction
  · rename_i hroom
    cases h
    exact ⟨not_le.mp hroom, by simp [stream, hbuf]⟩

/-- A write that fails has not accepted all of the data, and none of it if it fits
the buffer: then the buffer could not be emptied. -/
theorem exists_taken_of_writeAll_error (hcapacity : 0 < w.capacity)
    (h : w.writeAll data room = .error after) :
    ∃ taken, taken <+: data ∧ taken.length < data.length ∧
      (data.length < w.capacity → taken = []) ∧
      after.stream = w.stream ++ taken := by
  -- handed over behind an empty buffer
  have hrest : ∀ (mid : BufWriter α) (left : Nat), mid.capacity = w.capacity →
      mid.stream = w.stream → (w.capacity ≤ data.length → mid.buf = []) →
      (if mid.capacity ≤ data.length then mid.writeInner data left
        else .ok (mid.fill data, left)) =
        (.error after : Except (BufWriter α) (BufWriter α × Nat)) →
      ∃ taken, taken <+: data ∧ taken.length < data.length ∧
        (data.length < w.capacity → taken = []) ∧
        after.stream = w.stream ++ taken := by
    intro mid left hcapacity hstream hempty hdone
    split at hdone
    · rename_i hlong
      rw [hcapacity] at hlong
      obtain ⟨hroom, hafter⟩ := stream_of_writeInner_error (hempty hlong) hdone
      refine ⟨data.take left, List.take_prefix left data, ?_,
        fun hshort => absurd hlong (not_le.mpr hshort), hstream ▸ hafter⟩
      rw [List.length_take]
      omega
    · contradiction
  unfold writeAll at h
  split at h
  · contradiction
  · rename_i hcold
    unfold writeAllCold at h
    split at h
    · rename_i hfull
      have hwrites := writes_flushBuf w room
      cases hflush : w.flushBuf room with
      | ok done =>
          rw [hflush] at h hwrites
          exact hrest done.1 done.2 hwrites.capacity
            (hwrites.stream.trans (List.append_nil _))
            (fun _ => buf_of_flushBuf hflush) h
      | error failed =>
          rw [hflush] at h hwrites
          cases h
          obtain ⟨taken, htaken, hstream⟩ := hwrites.stream
          rw [List.prefix_nil.mp htaken] at hstream
          exact ⟨[], List.nil_prefix, Nat.zero_lt_of_lt hfull, fun _ => rfl, hstream⟩
    · rename_i hfull
      refine hrest w room rfl rfl (fun hlong => ?_) h
      rw [← List.length_eq_zero_iff]
      unfold spareCapacity at hcold hfull
      omega

theorem stream_of_writeAll_error (hshort : data.length < w.capacity)
    (h : w.writeAll data room = .error after) : after.stream = w.stream := by
  obtain ⟨taken, -, -, hnone, hstream⟩ :=
    exists_taken_of_writeAll_error (Nat.zero_lt_of_lt hshort) h
  rw [hstream, hnone hshort, List.append_nil]

end BufWriter

end Rkv.Foundation
