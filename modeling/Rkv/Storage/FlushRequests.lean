import Rkv.Foundation.Simulation
import Rkv.Storage.MemTable

/-!
# Requests for a flush

A `put` that finds the table full tells the background task to flush, after it
has let go of the table lock; a `delete` does not.  The task waits for its timer
or for such a request, copies the table, writes the copy out and waits again.  A
request made while nobody waits is kept, but only one of them.  Requests are not
lost: after a put that found the table full, and until the table is copied, the
task is on its way to a flush or does not wait for its timer to start one.
-/

namespace Rkv.Storage

open Rkv.Foundation

inductive TaskPc where
  | waiting
  | awake
  | flushing
  deriving DecidableEq

/-- The table, the threads that have found it full and have not said so yet, the
request that is kept, and the background task. -/
structure FlushState (T : Type) where
  memtable : MemTable
  due : T → Bool
  permit : Bool
  task : TaskPc

inductive FlushAction (T : Type) where
  | put (thread : T) (key : String) (value : VersionedValue)
  | delete (key : String) (tombstone : VersionedValue)
  | evict (now : Int64)
  | notify (thread : T)
  | timer
  | wake
  | copy
  | finish

namespace FlushState

variable {T : Type} [DecidableEq T] {s t : FlushState T}

/-- The steps of writers are those after their log append.  `notify` is
`notify_one`: it leaves one permit, which the task takes when it waits. -/
def next (s : FlushState T) : FlushAction T → Option (FlushState T)
  | .put thread key value =>
      if s.due thread then none
      else
        let (memtable, shouldFlush) := s.memtable.put key value
        some { s with
          memtable := memtable
          due := Function.update s.due thread shouldFlush }
  | .delete key tombstone =>
      some { s with memtable := (s.memtable.put key tombstone).1 }
  | .evict now => some { s with memtable := (s.memtable.evictExpired now).1 }
  | .notify thread =>
      if s.due thread then
        some { s with due := Function.update s.due thread false, permit := true }
      else none
  | .timer =>
      -- a permit that came at the same time is kept for the next round
      if s.task = .waiting then some { s with task := .awake } else none
  | .wake =>
      if s.task = .waiting ∧ s.permit = true then
        some { s with task := .awake, permit := false }
      else none
  | .copy =>
      if s.task = .awake then
        if s.memtable.snapshot.isEmpty then some { s with task := .waiting }
        else some { s with task := .flushing }
      else none
  | .finish =>
      if s.task = .flushing then some { s with task := .waiting } else none

/-- A flush that copies the table from now on is under way or asked for. -/
def Requested (s : FlushState T) : Prop :=
  (∃ thread, s.due thread = true) ∨ s.permit = true ∨ s.task = .awake

/-- The table has not been copied. -/
def NoCopy (_ : FlushState T) (action : FlushAction T) : Prop :=
  action ≠ .copy

theorem requested_put {thread : T} {key : String} {value : VersionedValue}
    (hfull : (s.memtable.put key value).2 = true)
    (hnext : s.next (.put thread key value) = some t) : t.Requested := by
  simp only [next] at hnext
  split at hnext
  · contradiction
  · cases hnext
    exact .inl ⟨thread, (Function.update_self ..).trans hfull⟩

theorem Requested.step (h : s.Requested) {action : FlushAction T}
    (hguard : s.NoCopy action) (hnext : s.next action = some t) :
    t.Requested := by
  cases action with
  | put thread key value =>
      simp only [next] at hnext
      split at hnext
      · contradiction
      · rename_i hnot
        cases hnext
        rcases h with ⟨other, hdue⟩ | hrest
        · have hne : other ≠ thread := by
            rintro rfl
            exact hnot hdue
          exact .inl ⟨other, (Function.update_of_ne hne ..).trans hdue⟩
        · exact .inr hrest
  | delete key tombstone =>
      cases hnext
      exact h
  | evict now =>
      cases hnext
      exact h
  | notify thread =>
      simp only [next] at hnext
      split at hnext <;> cases hnext
      exact .inr (.inl rfl)
  | timer =>
      simp only [next] at hnext
      split at hnext <;> cases hnext
      exact .inr (.inr rfl)
  | wake =>
      simp only [next] at hnext
      split at hnext <;> cases hnext
      exact .inr (.inr rfl)
  | copy => exact absurd rfl hguard
  | finish =>
      simp only [next] at hnext
      split at hnext
      · rename_i hflushing
        cases hnext
        rcases h with hdue | hpermit | hawake
        · exact .inl hdue
        · exact .inr (.inl hpermit)
        · rw [hawake] at hflushing
          contradiction
      · contradiction

/-- What the task does to the next copy by itself, without its timer. -/
def stepsToCopy (s : FlushState T) : List (FlushAction T) :=
  match s.task with
  | .awake => [.copy]
  | .waiting => [.wake, .copy]
  | .flushing => [.finish, .wake, .copy]

theorem exists_copy (s : FlushState T) (h : s.task = .awake) :
    ∃ t, s.next .copy = some t := by
  simp only [next, h, if_true]
  split
  · exact ⟨_, rfl⟩
  · exact ⟨_, rfl⟩

theorem Requested.copies (h : s.Requested) (hreturned : ∀ thread,
    s.due thread = false) : ∃ t, Run next anyAction s s.stepsToCopy t := by
  have hpending : s.permit = true ∨ s.task = .awake := by
    rcases h with ⟨thread, hdue⟩ | hrest
    · rw [hreturned thread] at hdue
      contradiction
    · exact hrest
  unfold stepsToCopy
  cases htask : s.task with
  | awake =>
      obtain ⟨t, ht⟩ := s.exists_copy htask
      exact ⟨t, .cons trivial ht (.nil t)⟩
  | waiting =>
      have hpermit : s.permit = true := hpending.resolve_right (by simp [htask])
      obtain ⟨t, ht⟩ := exists_copy { s with task := .awake, permit := false } rfl
      exact ⟨t, .cons trivial (by simp [next, htask, hpermit])
        (.cons trivial ht (.nil t))⟩
  | flushing =>
      have hpermit : s.permit = true := hpending.resolve_right (by simp [htask])
      obtain ⟨t, ht⟩ := exists_copy { s with task := .awake, permit := false } rfl
      refine ⟨t, .cons (t := { s with task := .waiting }) trivial ?_
        (.cons trivial ?_ (.cons trivial ht (.nil t)))⟩
      · simp [next, htask]
      · simp [next, hpermit]

end FlushState

/-- In every interleaving of any number of threads with the background task,
after a put that found the table full and until the table is copied, a flush is
asked for or about to copy; and once every put has returned, the task gets to its
copy by its own steps alone, without its timer. -/
theorem flush_request_kept {T : Type} [DecidableEq T] {s t : FlushState T}
    {thread : T} {key : String} {value : VersionedValue}
    (hfull : (s.memtable.put key value).2 = true)
    (hput : s.next (.put thread key value) = some t)
    {actions : List (FlushAction T)} {u : FlushState T}
    (hrun : Run FlushState.next FlushState.NoCopy t actions u) :
    u.Requested ∧ ((∀ other, u.due other = false) →
      ∃ flushed, Run FlushState.next anyAction u u.stepsToCopy flushed) := by
  have hrequested : u.Requested := hrun.invariant (fun _ _ _ h => h.step)
    (FlushState.requested_put hfull hput)
  exact ⟨hrequested, hrequested.copies⟩

/-- The request arrives while the task is still writing out an earlier copy. -/
theorem flush_request_kept_during_flush :
    let v := VersionedValue.new [0] "node1" 0 1700000000000
    let s : FlushState Bool := ⟨.new 64, fun _ => false, false, .flushing⟩
    ∃ t u flushed, s.next (.put true "k" v) = some t ∧
      Run FlushState.next FlushState.NoCopy t [.notify true] u ∧
      u.stepsToCopy = [.finish, .wake, .copy] ∧
      Run FlushState.next anyAction u u.stepsToCopy flushed := by
  intro v s
  have hfull : (s.memtable.put "k" v).2 = true := by decide +kernel
  let t : FlushState Bool :=
    ⟨(s.memtable.put "k" v).1, Function.update (fun _ => false) true true, false,
      .flushing⟩
  let u : FlushState Bool :=
    ⟨t.memtable, Function.update t.due true false, true, .flushing⟩
  have hput : s.next (.put true "k" v) = some t := by
    simp only [FlushState.next, s, t] at hfull ⊢
    rw [if_neg (by simp), hfull]
  have hrun : Run FlushState.next FlushState.NoCopy t [.notify true] u :=
    .cons (by simp [FlushState.NoCopy]) rfl (.nil _)
  obtain ⟨flushed, hflushed⟩ := (flush_request_kept hfull hput hrun).2
    (by decide)
  exact ⟨t, u, flushed, hput, hrun, rfl, hflushed⟩

end Rkv.Storage
