import Rkv.Foundation.Run
import Rkv.Storage.Engine
import Rkv.Storage.ReferenceCodec

/-!
# Sequential runs and crash recovery

One thread drives the engine.  An action is one of the steps a crash can come
between, so every state of a run is a crash point, and `crash` itself reopens
the engine on what the disk then holds.  The clock component is the last
wall-clock reading in milliseconds.

The invariant relates disk and table key by key.  The disk either has the
table's entry or, where the table has none, an entry that has expired: eviction
is not logged, and a clock that does not go back never revives what it dropped.
-/

namespace Rkv.Storage

open Rkv.Foundation

/-- `as_millis() as i64`. -/
def asI64 (millis : Nat) : Int64 := Int64.ofNat millis

def unexpired (now : Nat) (entry : Option VersionedValue) :
    Option VersionedValue :=
  entry.filter fun v => !v.isExpired (asI64 now)

inductive Phase where
  | idle
  | logged (key : String) (value : VersionedValue)
  | saved
  | cleaned
  deriving DecidableEq

structure SeqState where
  engine : StorageEngine
  phase : Phase
  clock : Nat

inductive SeqAction where
  | put (key : String) (value : VersionedValue)
  | putRaw (key : String) (value : Bytes) (ttlMs : Int64) (reading : Nat)
  | delete (key : String) (reading : Nat)
  | tableWrite
  | save (reading : Nat)
  | cleanup
  | truncate
  | evict (reading : Nat)
  | crash

namespace SeqState

def fresh (c : Codecs) (config : StorageConfig) (clock : Nat) : SeqState where
  engine := .fresh c config
  phase := .idle
  clock := clock

def beginWrite (c : Codecs) (s : SeqState) (key : String)
    (value : VersionedValue) (clock : Nat) : SeqState :=
  ⟨s.engine.logWrite c key value, .logged key value, clock⟩

def next (c : Codecs) (s : SeqState) : SeqAction → Option SeqState
  | .put key value =>
      match s.phase with
      | .idle => some (s.beginWrite c key value s.clock)
      | _ => none
  | .putRaw key value ttlMs reading =>
      match s.phase with
      | .idle => some (s.beginWrite c key
          (s.engine.newVersion key value ttlMs (asI64 reading)) reading)
      | _ => none
  | .delete key reading =>
      match s.phase with
      | .idle => some (s.beginWrite c key
          (s.engine.tombstoneFor key (asI64 reading)) reading)
      | _ => none
  | .tableWrite =>
      match s.phase with
      | .logged key value => some ⟨s.engine.tableWrite key value, .idle, s.clock⟩
      | _ => none
  | .save reading =>
      match s.phase with
      | .idle =>
          -- `flush` returns early on an empty table
          if s.engine.memtable.snapshot.isEmpty then
            some { s with clock := reading }
          else
            some ⟨s.engine.saveSnapshot c s.engine.memtable.snapshot reading,
              .saved, reading⟩
      | _ => none
  | .cleanup =>
      match s.phase with
      | .saved => some ⟨s.engine.cleanupSnapshots, .cleaned, s.clock⟩
      | _ => none
  | .truncate =>
      match s.phase with
      | .cleaned => some ⟨s.engine.truncateLog, .idle, s.clock⟩
      | _ => none
  | .evict reading =>
      match s.phase with
      | .idle => some ⟨s.engine.evictExpired (asI64 reading), .idle, reading⟩
      | _ => none
  | .crash =>
      match StorageEngine.openEngine c s.engine.config s.engine.disk with
      | .ok engine => some ⟨engine, .idle, s.clock⟩
      | .error _ => none

end SeqState

/-! ## Whole operations -/

section

variable {c : Codecs} {s : SeqState}

theorem run_write {action : SeqAction} {key : String} {value : VersionedValue}
    {clock : Nat}
    (hnext : s.next c action = some (s.beginWrite c key value clock)) :
    Run (SeqState.next c) anyAction s [action, .tableWrite]
      ⟨s.engine.put c key value, .idle, clock⟩ :=
  .cons trivial hnext (.cons trivial rfl (.nil _))

theorem run_put (hidle : s.phase = .idle) (key : String)
    (value : VersionedValue) :
    Run (SeqState.next c) anyAction s [.put key value, .tableWrite]
      ⟨s.engine.put c key value, .idle, s.clock⟩ :=
  run_write (by simp [SeqState.next, hidle])

theorem run_putRaw (hidle : s.phase = .idle) (key : String) (value : Bytes)
    (ttlMs : Int64) (reading : Nat) :
    Run (SeqState.next c) anyAction s
      [.putRaw key value ttlMs reading, .tableWrite]
      ⟨s.engine.putRaw c key value ttlMs (asI64 reading), .idle, reading⟩ :=
  run_write (by simp [SeqState.next, hidle])

theorem run_delete (hidle : s.phase = .idle) (key : String) (reading : Nat) :
    Run (SeqState.next c) anyAction s [.delete key reading, .tableWrite]
      ⟨s.engine.delete c key (asI64 reading), .idle, reading⟩ :=
  run_write (by simp [SeqState.next, hidle])

theorem run_flush (hidle : s.phase = .idle) (reading : Nat) :
    ∃ actions, Run (SeqState.next c) anyAction s actions
      ⟨s.engine.flush c reading, .idle, reading⟩ := by
  obtain ⟨engine, phase, clock⟩ := s
  obtain rfl : phase = .idle := hidle
  by_cases hempty : engine.memtable.snapshot.isEmpty = true
  · refine ⟨[.save reading], .cons trivial ?_ (.nil _)⟩
    simp [SeqState.next, StorageEngine.flush, hempty]
  · have hsave : SeqState.next c ⟨engine, .idle, clock⟩ (.save reading) =
        some ⟨engine.saveSnapshot c engine.memtable.snapshot reading, .saved,
          reading⟩ := by
      simp [SeqState.next, hempty]
    refine ⟨[.save reading, .cleanup, .truncate], ?_⟩
    rw [StorageEngine.flush, if_neg hempty]
    exact .cons trivial hsave (.cons trivial rfl (.cons trivial rfl (.nil _)))

end

/-- A later reading: the clock has not gone back, neither in milliseconds nor in
the `i64` the code keeps. -/
structure Later (clock reading : Nat) : Prop where
  millis : clock ≤ reading
  i64 : asI64 clock ≤ asI64 reading

/-- Every reading of a run is later than the ones before it and has `digits`
decimal digits. -/
def ClockForward (digits : Nat) (s : SeqState) : SeqAction → Prop
  | .putRaw _ _ _ reading | .delete _ reading | .save reading
  | .evict reading => Later s.clock reading ∧ reading.repr.length = digits
  | _ => True

theorem Later.refl (clock : Nat) : Later clock clock :=
  ⟨Nat.le_refl _, Int64.le_refl _⟩

/-! ## The overlay invariant -/

/-- The entry found is the entry held, or nothing is held and it has expired. -/
def AgreesAt (clock : Nat) (found held : Option VersionedValue) : Prop :=
  found = held ∨
    held = none ∧ ∃ v, found = some v ∧ v.isExpired (asI64 clock) = true

theorem AgreesAt.later {clock reading : Nat} (hlater : Later clock reading)
    {found held : Option VersionedValue} (h : AgreesAt clock found held) :
    AgreesAt reading found held := by
  rcases h with heq | ⟨hnone, v, hfound, hexpired⟩
  · exact .inl heq
  · exact .inr ⟨hnone, v, hfound,
      VersionedValue.isExpired_mono hlater.i64 hexpired⟩

theorem AgreesAt.unexpired_eq {clock : Nat} {found held : Option VersionedValue}
    (h : AgreesAt clock found held) :
    unexpired clock found = unexpired clock held := by
  rcases h with rfl | ⟨rfl, v, rfl, hexpired⟩
  · rfl
  · simp [unexpired, hexpired]

theorem AgreesAt.evict {clock : Nat} {found held : Option VersionedValue}
    (h : AgreesAt clock found held) :
    AgreesAt clock found (held.filter fun v => !v.isExpired (asI64 clock)) := by
  rcases h with rfl | ⟨rfl, hexpired⟩
  · cases found with
    | none => exact .inl rfl
    | some v =>
        by_cases hv : v.isExpired (asI64 clock) = true
        · right
          exact ⟨by simp [hv], v, rfl, hv⟩
        · left
          rw [Option.filter_some]
          simp [hv]
  · exact .inr ⟨rfl, hexpired⟩

/-- What the engine is about to hold: the write in flight counts as done. -/
def SeqState.pending (s : SeqState) (key : String) : Option VersionedValue :=
  match s.phase with
  | .logged k v => if k = key then some v else s.engine.getRaw key
  | _ => s.engine.getRaw key

structure Recoverable (c : Codecs) (config : StorageConfig) (digits : Nat)
    (s : SeqState) : Prop where
  config_eq : s.engine.config = config
  digits_eq : s.clock.repr.length = digits
  terminated : Terminated 10 s.engine.wal.file
  names : ∀ name ∈ s.engine.snapshots, isSnapshotName name →
    name ≤ snapshotName s.clock
  loads : ∃ snapshot,
    SnapshotManager.loadLatest c s.engine.snapshots = .ok snapshot
  flushed : s.phase = .saved ∨ s.phase = .cleaned →
    SnapshotManager.loadLatest c s.engine.snapshots =
      .ok (some s.engine.memtable.data)
  agrees : ∀ key, AgreesAt s.clock (s.engine.disk.entry c key) (s.pending key)

namespace Recoverable

variable {c : Codecs} {config : StorageConfig} {digits : Nat} {s : SeqState}

theorem init (c : Codecs) (config : StorageConfig) {clock : Nat}
    (hdigits : clock.repr.length = digits) :
    Recoverable c config digits (.fresh c config clock) where
  config_eq := rfl
  digits_eq := hdigits
  terminated := terminated_nil 10
  names := by simp [SeqState.fresh, StorageEngine.fresh]
  loads := ⟨none, SnapshotManager.loadLatest_empty c⟩
  flushed := by simp [SeqState.fresh]
  agrees := fun key => .inl (by
    simp [Disk.entry, SeqState.fresh, StorageEngine.fresh, StorageEngine.disk,
      SeqState.pending, StorageEngine.getRaw, SnapshotManager.loadLatest_empty,
      logWrites, WriteAheadLog.openLog])

theorem exists_opened (h : Recoverable c config digits s) :
    ∃ engine, StorageEngine.openEngine c config s.engine.disk = .ok engine ∧
      (∀ key, engine.getRaw key = s.engine.disk.entry c key) ∧
      engine.disk = s.engine.disk ∧ engine.config = config := by
  obtain ⟨snapshot, hloads⟩ := h.loads
  exact Disk.openEngine_ok hloads config

/-! ### One lemma for each kind of step -/

theorem beginWrite (hc : c.Lawful) (h : Recoverable c config digits s)
    (hidle : s.phase = .idle) {reading : Nat} (hlater : Later s.clock reading)
    (hdigits : reading.repr.length = digits) (key : String)
    (value : VersionedValue) :
    Recoverable c config digits (s.beginWrite c key value reading) where
  config_eq := h.config_eq
  digits_eq := hdigits
  terminated := WriteAheadLog.terminated_append h.terminated key value
  names := fun name hname hsnapshot => (h.names name hname hsnapshot).trans
    (SnapshotManager.snapshotName_le hlater.millis
      (h.digits_eq.trans hdigits.symm))
  loads := h.loads
  flushed := by simp [SeqState.beginWrite]
  agrees := by
    intro k
    have hold := (h.agrees k).later hlater
    simp only [SeqState.pending, hidle] at hold
    simp only [Disk.entry, StorageEngine.disk, SeqState.beginWrite,
      StorageEngine.logWrite, SeqState.pending,
      logWrites_append hc.emits h.terminated, overlay_concat]
    split
    · exact .inl rfl
    · exact hold

theorem tableWrite (h : Recoverable c config digits s) {key : String}
    {value : VersionedValue} (hlogged : s.phase = .logged key value) :
    Recoverable c config digits
      ⟨s.engine.tableWrite key value, .idle, s.clock⟩ where
  config_eq := h.config_eq
  digits_eq := h.digits_eq
  terminated := h.terminated
  names := h.names
  loads := h.loads
  flushed := by simp
  agrees := by
    intro k
    have hold := h.agrees k
    simp only [SeqState.pending, hlogged] at hold
    simpa [SeqState.pending, StorageEngine.tableWrite, StorageEngine.getRaw,
      StorageEngine.disk] using hold

theorem tick (h : Recoverable c config digits s) {reading : Nat}
    (hlater : Later s.clock reading) (hdigits : reading.repr.length = digits) :
    Recoverable c config digits { s with clock := reading } where
  config_eq := h.config_eq
  digits_eq := hdigits
  terminated := h.terminated
  names := fun name hname hsnapshot => (h.names name hname hsnapshot).trans
    (SnapshotManager.snapshotName_le hlater.millis
      (h.digits_eq.trans hdigits.symm))
  loads := h.loads
  flushed := h.flushed
  agrees := fun key => (h.agrees key).later hlater

theorem save (hc : c.Lawful) (h : Recoverable c config digits s)
    (hidle : s.phase = .idle) :
    Recoverable c config digits
      ⟨s.engine.saveSnapshot c s.engine.memtable.snapshot s.clock, .saved,
        s.clock⟩ where
  config_eq := h.config_eq
  digits_eq := h.digits_eq
  terminated := h.terminated
  names := by
    intro name hname hsnapshot
    simp only [StorageEngine.saveSnapshot, SnapshotManager.save] at hname
    rcases Std.ExtTreeMap.mem_insert.mp hname with heq | hmem
    · exact (compare_eq_iff_eq.mp heq).ge
    · exact h.names name hmem hsnapshot
  loads := ⟨_, SnapshotManager.loadLatest_save hc h.names _⟩
  flushed := fun _ => SnapshotManager.loadLatest_save hc h.names _
  agrees := by
    intro key
    have hold := h.agrees key
    simp only [SeqState.pending, hidle] at hold
    simp only [Disk.entry, StorageEngine.disk, StorageEngine.saveSnapshot,
      SeqState.pending,
      SnapshotManager.loadLatest_save hc h.names] at hold ⊢
    cases hlast : lastWrite key (logWrites c s.engine.wal.file) with
    | none =>
        left
        rw [overlay_of_lastWrite_eq_none hlast]
        rfl
    | some v =>
        rw [overlay_of_lastWrite_eq_some hlast] at hold ⊢
        exact hold

theorem cleanup (hkeep : 1 ≤ config.maxSnapshots)
    (h : Recoverable c config digits s) (hsaved : s.phase = .saved) :
    Recoverable c config digits
      ⟨s.engine.cleanupSnapshots, .cleaned, s.clock⟩ := by
  have hkept : SnapshotManager.loadLatest c
      s.engine.cleanupSnapshots.snapshots =
        SnapshotManager.loadLatest c s.engine.snapshots :=
    SnapshotManager.loadLatest_cleanup (h.config_eq ▸ hkeep)
  refine ⟨h.config_eq, h.digits_eq, h.terminated, ?_, ?_, ?_, ?_⟩
  · intro name hname
    exact h.names name (SnapshotManager.mem_of_mem_cleanup hname)
  · rw [hkept]
    exact h.loads
  · intro _
    rw [hkept]
    exact h.flushed (.inl hsaved)
  · intro key
    have hold := h.agrees key
    simp only [SeqState.pending, hsaved] at hold
    simp only [Disk.entry, StorageEngine.disk, hkept]
    exact hold

theorem truncate (h : Recoverable c config digits s)
    (hcleaned : s.phase = .cleaned) :
    Recoverable c config digits ⟨s.engine.truncateLog, .idle, s.clock⟩ where
  config_eq := h.config_eq
  digits_eq := h.digits_eq
  terminated := terminated_nil 10
  names := h.names
  loads := h.loads
  flushed := by simp
  agrees := by
    intro key
    left
    simp only [Disk.entry, StorageEngine.disk, StorageEngine.truncateLog,
      h.flushed (.inr hcleaned)]
    rfl

theorem evict (h : Recoverable c config digits s) (hidle : s.phase = .idle) :
    Recoverable c config digits
      ⟨s.engine.evictExpired (asI64 s.clock), .idle, s.clock⟩ where
  config_eq := h.config_eq
  digits_eq := h.digits_eq
  terminated := h.terminated
  names := h.names
  loads := h.loads
  flushed := by simp
  agrees := by
    intro key
    have hold := h.agrees key
    simp only [SeqState.pending, hidle] at hold
    simpa [SeqState.pending, StorageEngine.evictExpired, StorageEngine.getRaw,
      StorageEngine.disk] using hold.evict

theorem crash (h : Recoverable c config digits s) {engine : StorageEngine}
    (hopen : StorageEngine.openEngine c s.engine.config s.engine.disk =
      .ok engine) :
    Recoverable c config digits ⟨engine, .idle, s.clock⟩ := by
  obtain ⟨opened, hopened, hentries, hdisk, hconfig⟩ := h.exists_opened
  rw [h.config_eq] at hopen
  obtain rfl : opened = engine := Except.ok.inj (hopened.symm.trans hopen)
  have hwal : opened.wal.file = s.engine.wal.file := congrArg Disk.wal hdisk
  have hsnapshots : opened.snapshots = s.engine.snapshots :=
    congrArg Disk.snapshots hdisk
  refine ⟨hconfig, h.digits_eq, hwal ▸ h.terminated, hsnapshots ▸ h.names,
    hsnapshots ▸ h.loads, by simp, fun key => .inl ?_⟩
  rw [hdisk]
  exact (hentries key).symm

theorem step (hc : c.Lawful) (hkeep : 1 ≤ config.maxSnapshots)
    {action : SeqAction} {t : SeqState} (h : Recoverable c config digits s)
    (hclock : ClockForward digits s action) (hnext : s.next c action = some t) :
    Recoverable c config digits t := by
  cases action with
  | put key value =>
      simp only [SeqState.next] at hnext
      split at hnext <;> cases hnext
      rename_i hidle
      exact h.beginWrite hc hidle (.refl _) h.digits_eq key value
  | putRaw key value ttlMs reading =>
      simp only [SeqState.next] at hnext
      split at hnext <;> cases hnext
      rename_i hidle
      exact h.beginWrite hc hidle hclock.1 hclock.2 key _
  | delete key reading =>
      simp only [SeqState.next] at hnext
      split at hnext <;> cases hnext
      rename_i hidle
      exact h.beginWrite hc hidle hclock.1 hclock.2 key _
  | tableWrite =>
      simp only [SeqState.next] at hnext
      split at hnext <;> cases hnext
      rename_i hlogged
      exact h.tableWrite hlogged
  | save reading =>
      have hticked := h.tick hclock.1 hclock.2
      simp only [SeqState.next] at hnext
      split at hnext
      · rename_i hidle
        split at hnext <;> cases hnext
        · exact hticked
        · exact hticked.save hc hidle
      · contradiction
  | cleanup =>
      simp only [SeqState.next] at hnext
      split at hnext <;> cases hnext
      rename_i hsaved
      exact h.cleanup hkeep hsaved
  | truncate =>
      simp only [SeqState.next] at hnext
      split at hnext <;> cases hnext
      rename_i hcleaned
      exact h.truncate hcleaned
  | evict reading =>
      have hticked := h.tick hclock.1 hclock.2
      simp only [SeqState.next] at hnext
      split at hnext <;> cases hnext
      rename_i hidle
      exact hticked.evict hidle
  | crash =>
      simp only [SeqState.next] at hnext
      split at hnext <;> cases hnext
      rename_i hopen
      exact h.crash hopen

end Recoverable

/-- The engine opens again on what a crash leaves and holds, up to expired
entries, what it held; the key of a write in flight may already have its new
entry. -/
def SeqState.Recovers (c : Codecs) (config : StorageConfig) (s : SeqState) :
    Prop :=
  ∃ engine, StorageEngine.openEngine c config s.engine.disk = .ok engine ∧
    ∀ now, Later s.clock now → ∀ key,
      ((∀ value, s.phase ≠ .logged key value) →
        unexpired now (engine.getRaw key) =
          unexpired now (s.engine.getRaw key)) ∧
      (∀ value, s.phase = .logged key value →
        unexpired now (engine.getRaw key) =
            unexpired now (s.engine.getRaw key) ∨
          unexpired now (engine.getRaw key) = unexpired now (some value))

/-- Whatever state of a sequential run a crash comes in, the engine recovers. -/
theorem open_after_crash {c : Codecs} (hc : c.Lawful) {config : StorageConfig}
    (hkeep : 1 ≤ config.maxSnapshots) {clock : Nat} {actions : List SeqAction}
    {s : SeqState}
    (hrun : Run (SeqState.next c) (ClockForward clock.repr.length)
      (.fresh c config clock) actions s) :
    s.Recovers c config := by
  have h : Recoverable c config clock.repr.length s :=
    hrun.invariant (fun _ _ _ hs => hs.step hc hkeep) (.init c config rfl)
  obtain ⟨engine, hopen, hentries, -, -⟩ := h.exists_opened
  refine ⟨engine, hopen, fun now hlater key => ?_⟩
  have hagrees := ((h.agrees key).later hlater).unexpired_eq
  rw [hentries, hagrees]
  constructor
  · intro hnot
    unfold SeqState.pending
    split
    · rename_i k v hlogged
      by_cases hk : k = key
      · exact absurd (hk ▸ hlogged) (hnot v)
      · rw [if_neg hk]
    · rfl
  · intro value hlogged
    right
    simp [SeqState.pending, hlogged]

theorem open_after_crash_inside_flush :
    ∃ s, Run (SeqState.next referenceCodecs)
        (ClockForward (1700000000000).repr.length)
        (.fresh referenceCodecs ⟨1048576, 3, "node1"⟩ 1700000000000)
        [.putRaw "k" [1] 0 1700000000001, .tableWrite, .save 1700000000002] s ∧
      s.phase = .saved ∧
      s.Recovers referenceCodecs ⟨1048576, 3, "node1"⟩ := by
  have hrun : Run (SeqState.next referenceCodecs)
      (ClockForward (1700000000000).repr.length)
      (.fresh referenceCodecs ⟨1048576, 3, "node1"⟩ 1700000000000)
      [.putRaw "k" [1] 0 1700000000001, .tableWrite, .save 1700000000002] _ :=
    .cons ⟨⟨by decide, by decide⟩, by decide⟩ rfl
      (.cons trivial rfl
        (.cons ⟨⟨by decide, by decide⟩, by decide⟩ rfl (.nil _)))
  exact ⟨_, hrun, rfl, open_after_crash lawful_referenceCodecs (by decide) hrun⟩

end Rkv.Storage
