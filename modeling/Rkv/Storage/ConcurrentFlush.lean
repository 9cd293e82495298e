import Rkv.Storage.ReferenceCodec
import Rkv.Storage.Threads

/-!
# A flush beside a writer

One writer and the background flush.  A flush truncates the log under a later
lock than the one it copied the table under, so it can drop a log entry that
its copy does not have: one appended since, or one appended before and put into
the table after.  As long as no truncate does that, the disk always has the
last acknowledged write to every key or the one in flight.
-/

namespace Rkv.Storage

open Rkv.Foundation

namespace ThreadState

variable {s : ThreadState Unit} {c : Codecs}

/-- The value a call that has not returned writes to a key. -/
def inFlight (s : ThreadState Unit) (key : String) : Option VersionedValue :=
  match s.writers () with
  | .called k v | .logged k v _ | .inserted k v => if k = key then some v else none
  | .idle => none

/-- The latest snapshot loads, and overlaid with the log it has at every key the
last acknowledged write or the one in flight. -/
def Durable (c : Codecs) (s : ThreadState Unit) : Prop :=
  (∃ snapshot, SnapshotManager.loadLatest c s.engine.snapshots = .ok snapshot) ∧
    ∀ key, s.engine.disk.entry c key = s.acked key ∨
      ∃ v, s.inFlight key = some v ∧ s.engine.disk.entry c key = some v

/-- No truncate drops a write: none is between its append and its insert, and
the copy has the last write of the log to each key.  A save sorts behind every
snapshot there is. -/
def FlushCovers (c : Codecs) (s : ThreadState Unit) : ThreadAction Unit → Prop
  | .flusher (.save timestamp) =>
      ∀ name ∈ s.engine.snapshots, isSnapshotName name →
        name ≤ snapshotName timestamp
  | .flusher .truncate =>
      (∀ key value ticket, s.writers () ≠ .logged key value ticket) ∧
        ∀ data, s.flusher = .cleaned data → ∀ key value,
          lastWrite key (logWrites c s.engine.wal.file) = some value →
            data[key]? = some value
  | _ => True

/-! ## The invariant -/

/-- What the table holds: acknowledged writes and the one about to return. -/
def tabled (s : ThreadState Unit) (key : String) : Option VersionedValue :=
  match s.writers () with
  | .inserted k v => if k = key then some v else s.acked key
  | _ => s.acked key

/-- What the log and the snapshots hold: a write counts from its append on. -/
def durable (s : ThreadState Unit) (key : String) : Option VersionedValue :=
  match s.writers () with
  | .logged k v _ | .inserted k v => if k = key then some v else s.acked key
  | _ => s.acked key

/-- The copy a flush in progress works on. -/
def copy? (s : ThreadState Unit) : Option TableMap :=
  match s.flusher with
  | .copied data | .saved data | .cleaned data => some data
  | .idle => none

structure Covered (c : Codecs) (s : ThreadState Unit) : Prop where
  keep : 1 ≤ s.engine.config.maxSnapshots
  terminated : Terminated 10 s.engine.wal.file
  loads : ∃ snapshot,
    SnapshotManager.loadLatest c s.engine.snapshots = .ok snapshot
  latest : ∀ data, s.flusher = .saved data ∨ s.flusher = .cleaned data →
    SnapshotManager.loadLatest c s.engine.snapshots = .ok (some data)
  table : ∀ key, s.engine.getRaw key = s.tabled key
  disk : ∀ key, s.engine.disk.entry c key = s.durable key
  logged : ∀ key value ticket, s.writers () = .logged key value ticket →
    lastWrite key (logWrites c s.engine.wal.file) = some value
  copied : ∀ data, s.copy? = some data → ∀ key,
    lastWrite key (logWrites c s.engine.wal.file) = none →
      data[key]? = s.durable key

theorem Covered.tabled_eq_durable (h : s.Covered c) {key : String}
    (hnone : lastWrite key (logWrites c s.engine.wal.file) = none) :
    s.tabled key = s.durable key := by
  cases hpc : s.writers () with
  | idle => simp [tabled, ThreadState.durable, hpc]
  | called k v => simp [tabled, ThreadState.durable, hpc]
  | logged k v ticket =>
      have hne : k ≠ key := by
        rintro rfl
        rw [h.logged k v ticket hpc] at hnone
        contradiction
      simp [tabled, ThreadState.durable, hpc, hne]
  | inserted k v => simp [tabled, ThreadState.durable, hpc]

theorem Covered.durable (h : s.Covered c) : s.Durable c := by
  refine ⟨h.loads, fun key => ?_⟩
  rw [h.disk]
  cases hpc : s.writers () with
  | idle => simp [ThreadState.durable, inFlight, hpc]
  | called k v => simp [ThreadState.durable, inFlight, hpc]
  | logged k v ticket =>
      by_cases hk : k = key <;> simp [ThreadState.durable, inFlight, hpc, hk]
  | inserted k v =>
      by_cases hk : k = key <;> simp [ThreadState.durable, inFlight, hpc, hk]

/-! ## Steps of the writer -/

theorem Covered.setWriter (h : s.Covered c) {pc : WriterPc}
    (htabled : (s.setWriter () pc).tabled = s.tabled)
    (hdurable : (s.setWriter () pc).durable = s.durable)
    (hlogged : ∀ key value ticket, pc ≠ .logged key value ticket) :
    (s.setWriter () pc).Covered c where
  keep := h.keep
  terminated := h.terminated
  loads := h.loads
  latest := h.latest
  table := fun key => by
    rw [htabled]
    exact h.table key
  disk := fun key => by
    rw [hdurable]
    exact h.disk key
  logged := fun key value ticket hpc => by
    simp only [ThreadState.setWriter, Function.update_self] at hpc
    exact absurd hpc (hlogged key value ticket)
  copied := fun data hdata key hnone => by
    rw [hdurable]
    exact h.copied data hdata key hnone

theorem Covered.called (h : s.Covered c) (hidle : s.writers () = .idle)
    (key : String) (value : VersionedValue) :
    (s.setWriter () (.called key value)).Covered c := by
  apply h.setWriter
  · funext k
    simp [tabled, ThreadState.setWriter, hidle]
  · funext k
    simp [ThreadState.durable, ThreadState.setWriter, hidle]
  · simp

theorem Covered.append (hc : c.Lawful) (h : s.Covered c) {key : String}
    {value : VersionedValue} (hcalled : s.writers () = .called key value) :
    Covered c { s.setWriter () (.logged key value s.appends) with
      engine := s.engine.logWrite c key value
      appends := s.appends + 1 } where
  keep := h.keep
  terminated := WriteAheadLog.terminated_append h.terminated key value
  loads := h.loads
  latest := h.latest
  table := fun k => by
    have hold := h.table k
    simp only [tabled, hcalled] at hold
    simpa [tabled, ThreadState.setWriter, StorageEngine.getRaw,
      StorageEngine.logWrite] using hold
  disk := fun k => by
    have hold := h.disk k
    simp only [ThreadState.durable, hcalled] at hold
    simp only [ThreadState.durable, ThreadState.setWriter,
      Function.update_self, Disk.entry, StorageEngine.disk,
      StorageEngine.logWrite, logWrites_append hc.emits h.terminated,
      overlay_concat]
    split
    · rfl
    · exact hold
  logged := fun k v ticket hlogged => by
    simp only [ThreadState.setWriter, Function.update_self,
      WriterPc.logged.injEq] at hlogged
    obtain ⟨rfl, rfl, -⟩ := hlogged
    simp [StorageEngine.logWrite, logWrites_append hc.emits h.terminated,
      lastWrite_append, lastWrite]
  copied := fun data hdata k hnone => by
    simp only [StorageEngine.logWrite, logWrites_append hc.emits h.terminated,
      lastWrite_append, Option.or_eq_none_iff, lastWrite, Option.none_or] at hnone
    have hne : key ≠ k := by
      intro heq
      simp [heq] at hnone
    have hold := h.copied data hdata k hnone.2
    simp only [ThreadState.durable, hcalled] at hold
    simpa [ThreadState.durable, ThreadState.setWriter, hne] using hold

theorem Covered.insert (h : s.Covered c) {key : String}
    {value : VersionedValue} {ticket : Nat}
    (hlogged : s.writers () = .logged key value ticket) :
    Covered c { s.setWriter () (.inserted key value) with
      engine := s.engine.tableWrite key value } where
  keep := h.keep
  terminated := h.terminated
  loads := h.loads
  latest := h.latest
  table := fun k => by
    have hold := h.table k
    simp only [tabled, hlogged] at hold
    simp [tabled, ThreadState.setWriter, StorageEngine.getRaw,
      StorageEngine.tableWrite, ← hold]
  disk := fun k => by
    have hold := h.disk k
    simp only [ThreadState.durable, hlogged] at hold
    simpa [ThreadState.durable, ThreadState.setWriter, StorageEngine.disk,
      StorageEngine.tableWrite] using hold
  logged := by simp [ThreadState.setWriter]
  copied := fun data hdata k hnone => by
    have hold := h.copied data hdata k hnone
    simp only [ThreadState.durable, hlogged] at hold
    simpa [ThreadState.durable, ThreadState.setWriter] using hold

theorem Covered.ret (h : s.Covered c) {key : String} {value : VersionedValue}
    (hinserted : s.writers () = .inserted key value) :
    Covered c { s.setWriter () .idle with
      acked := Function.update s.acked key (some value) } := by
  have htabled : tabled { s.setWriter () .idle with
      acked := Function.update s.acked key (some value) } = s.tabled := by
    funext k
    simp [tabled, ThreadState.setWriter, hinserted, Function.update_apply,
      eq_comm]
  have hdurable : ThreadState.durable { s.setWriter () .idle with
      acked := Function.update s.acked key (some value) } = s.durable := by
    funext k
    simp [ThreadState.durable, ThreadState.setWriter, hinserted,
      Function.update_apply, eq_comm]
  exact ⟨h.keep, h.terminated, h.loads, h.latest, fun k => htabled ▸ h.table k,
    fun k => hdurable ▸ h.disk k, by simp [ThreadState.setWriter],
    fun data hdata k hnone => hdurable ▸ h.copied data hdata k hnone⟩

/-! ## Steps of the flush -/

theorem Covered.copy (h : s.Covered c) :
    Covered c { s with flusher := .copied s.engine.memtable.snapshot } where
  keep := h.keep
  terminated := h.terminated
  loads := h.loads
  latest := by simp
  table := h.table
  disk := h.disk
  logged := h.logged
  copied := fun data hdata key hnone => by
    simp only [copy?, Option.some.injEq] at hdata
    subst hdata
    exact (h.table key).trans (h.tabled_eq_durable hnone)

theorem Covered.save (hc : c.Lawful) (h : s.Covered c) {data : TableMap}
    (hcopied : s.flusher = .copied data) {timestamp : Nat}
    (hnames : ∀ name ∈ s.engine.snapshots, isSnapshotName name →
      name ≤ snapshotName timestamp) :
    Covered c { s with
      engine := s.engine.saveSnapshot c data timestamp
      flusher := .saved data } := by
  have hload := SnapshotManager.loadLatest_save hc hnames data
  have hdata := h.copied data (by simp [copy?, hcopied])
  refine ⟨h.keep, h.terminated, ⟨_, hload⟩, ?_, h.table, ?_, h.logged, ?_⟩
  · rintro other (heq | heq)
    · cases heq
      exact hload
    · contradiction
  · intro key
    have hold : overlay _ _ key = s.durable key := h.disk key
    simp only [Disk.entry, StorageEngine.disk, StorageEngine.saveSnapshot, hload]
    cases hlast : lastWrite key (logWrites c s.engine.wal.file) with
    | none =>
        rw [overlay_of_lastWrite_eq_none hlast]
        exact hdata key hlast
    | some v =>
        rw [StorageEngine.disk, overlay_of_lastWrite_eq_some hlast] at hold
        rw [overlay_of_lastWrite_eq_some hlast]
        exact hold
  · intro other hother key hnone
    simp only [copy?, Option.some.injEq] at hother
    subst hother
    exact hdata key hnone

theorem Covered.cleanup (h : s.Covered c) {data : TableMap}
    (hsaved : s.flusher = .saved data) :
    Covered c { s with
      engine := s.engine.cleanupSnapshots
      flusher := .cleaned data } := by
  have hkept : SnapshotManager.loadLatest c
      s.engine.cleanupSnapshots.snapshots =
        SnapshotManager.loadLatest c s.engine.snapshots :=
    SnapshotManager.loadLatest_cleanup h.keep
  refine ⟨h.keep, h.terminated, hkept ▸ h.loads, ?_, h.table, ?_, h.logged, ?_⟩
  · rintro other (heq | heq)
    · contradiction
    · cases heq
      rw [hkept]
      exact h.latest data (.inl hsaved)
  · intro key
    have hold := h.disk key
    simp only [Disk.entry, StorageEngine.disk, hkept]
    exact hold
  · intro other hother
    simp only [copy?, Option.some.injEq] at hother
    subst hother
    exact h.copied data (by simp [copy?, hsaved])

theorem Covered.truncate (h : s.Covered c) {data : TableMap}
    (hcleaned : s.flusher = .cleaned data)
    (hidle : ∀ key value ticket, s.writers () ≠ .logged key value ticket)
    (hcovers : ∀ key value,
      lastWrite key (logWrites c s.engine.wal.file) = some value →
        data[key]? = some value) :
    Covered c { s with
      engine := s.engine.truncateLog
      flusher := .idle } := by
  have hlatest := h.latest data (.inr hcleaned)
  refine ⟨h.keep, terminated_nil 10, h.loads, by simp, h.table, ?_, ?_, ?_⟩
  · intro key
    have hold : overlay _ _ key = s.durable key := h.disk key
    simp only [Disk.entry, StorageEngine.disk, StorageEngine.truncateLog,
      hlatest]
    change data[key]? = s.durable key
    cases hlast : lastWrite key (logWrites c s.engine.wal.file) with
    | none => exact h.copied data (by simp [copy?, hcleaned]) key hlast
    | some v =>
        rw [StorageEngine.disk, overlay_of_lastWrite_eq_some hlast] at hold
        rw [hcovers key v hlast]
        exact hold
  · intro key value ticket hlogged
    exact absurd hlogged (hidle key value ticket)
  · simp [copy?]

theorem Covered.step (hc : c.Lawful) {action : ThreadAction Unit}
    {t : ThreadState Unit} (h : s.Covered c) (hguard : s.FlushCovers c action)
    (hnext : s.next c action = some t) : t.Covered c := by
  match action with
  | .writer () step =>
      rcases nextWriter_cases hnext with ⟨key, value, hidle, rfl⟩ |
        ⟨key, value, hcalled, rfl⟩ | ⟨key, value, ticket, -, hlogged, rfl⟩ |
        ⟨key, value, hinserted, rfl⟩
      · exact h.called hidle key value
      · exact h.append hc hcalled
      · exact h.insert hlogged
      · exact h.ret hinserted
  | .flusher .copy =>
      simp only [next, nextFlusher] at hnext
      split at hnext
      · split at hnext <;> cases hnext
        · exact h
        · exact h.copy
      · contradiction
  | .flusher (.save timestamp) =>
      simp only [next, nextFlusher] at hnext
      split at hnext <;> cases hnext
      rename_i hcopied
      exact h.save hc hcopied hguard
  | .flusher .cleanup =>
      simp only [next, nextFlusher] at hnext
      split at hnext <;> cases hnext
      rename_i hsaved
      exact h.cleanup hsaved
  | .flusher .truncate =>
      simp only [next, nextFlusher] at hnext
      split at hnext <;> cases hnext
      rename_i hcleaned
      exact h.truncate hcleaned hguard.1 (hguard.2 _ hcleaned)

theorem Covered.init {config : StorageConfig} {disk : Disk}
    {engine : StorageEngine}
    (hopen : StorageEngine.openEngine c config disk = .ok engine)
    (hdisk : Terminated 10 disk.wal) (hkeep : 1 ≤ config.maxSnapshots) :
    (start Unit engine).Covered c := by
  obtain ⟨hreplayed, rfl, hloads, hentries⟩ :=
    StorageEngine.replayed_openEngine hopen hdisk
  exact ⟨hkeep, hreplayed.terminated, hloads, by simp [start], fun _ => rfl,
    hentries, by simp [start], by simp [start, copy?]⟩

end ThreadState

/-- Every run whose truncates drop only writes that the flush's copy has keeps
every acknowledged write on disk. -/
theorem durable_of_flushCovers {c : Codecs} (hc : c.Lawful)
    {config : StorageConfig} (hkeep : 1 ≤ config.maxSnapshots) {disk : Disk}
    (hdisk : Terminated 10 disk.wal) {engine : StorageEngine}
    (hopen : StorageEngine.openEngine c config disk = .ok engine)
    {actions : List (ThreadAction Unit)} {s : ThreadState Unit}
    (hrun : Run (ThreadState.next c) (ThreadState.FlushCovers c)
      (.start Unit engine) actions s) :
    s.Durable c :=
  (hrun.invariant (fun _ _ _ => ThreadState.Covered.step hc)
    (.init hopen hdisk hkeep)).durable

/-- The first put returns and the second one begins inside the flush; the second
is appended once the log is empty. -/
theorem durable_of_flush_amid_writes :
    let c := referenceCodecs
    let config : StorageConfig := ⟨1048576, 3, "node1"⟩
    let v := VersionedValue.new [0] "node1" 0 1700000000000
    let w := VersionedValue.new [1] "node1" 0 1700000000001
    ∃ s, Run (ThreadState.next c) (ThreadState.FlushCovers c)
        (.start Unit (.fresh c config))
        [.writer () (.put "k" v), .writer () .append, .writer () .insert,
          .flusher .copy, .writer () .ret, .flusher (.save 1700000000001),
          .writer () (.put "k" w), .flusher .cleanup, .flusher .truncate,
          .writer () .append] s ∧
      s.acked "k" = some v ∧ s.inFlight "k" = some w ∧ s.Durable c := by
  intro c config v w
  have hlog : ∀ key value, lastWrite key (logWrites c
      ((WriteAheadLog.openLog c []).append c "k" v).1.file) = some value →
        ((∅ : TableMap).insert "k" v)[key]? = some value := by
    intro key value
    rw [logWrites_append emits_referenceCodecs (terminated_nil 10)]
    change lastWrite key [("k", v)] = some value → _
    simp [lastWrite, Std.ExtTreeMap.getElem?_insert]
  have hrun : Run (ThreadState.next c) (ThreadState.FlushCovers c)
      (.start Unit (.fresh c config))
      [.writer () (.put "k" v), .writer () .append, .writer () .insert,
        .flusher .copy, .writer () .ret, .flusher (.save 1700000000001),
        .writer () (.put "k" w), .flusher .cleanup, .flusher .truncate,
        .writer () .append] _ :=
    .cons trivial rfl (.cons trivial rfl (.cons trivial rfl (.cons trivial rfl
      (.cons trivial rfl (.cons (by simp [ThreadState.FlushCovers,
          ThreadState.setWriter, ThreadState.start, StorageEngine.fresh,
          StorageEngine.tableWrite, StorageEngine.logWrite]) rfl
        (.cons trivial rfl (.cons trivial rfl
          (.cons ⟨by simp [ThreadState.setWriter], fun data hdata => by
            cases hdata
            exact hlog⟩ rfl (.cons trivial rfl (.nil _))))))))))
  exact ⟨_, hrun, rfl, rfl, durable_of_flushCovers lawful_referenceCodecs
    (by decide) (terminated_nil 10) (StorageEngine.openEngine_empty c config)
    hrun⟩

/-- A write acknowledged between the copy and the truncate of a flush is on disk
no more. -/
theorem overtaken_write_lost {c : Codecs} (hc : c.Lawful)
    {config : StorageConfig} (hkeep : 1 ≤ config.maxSnapshots)
    {v w : VersionedValue} (hne : v ≠ w) (timestamp : Nat) :
    ∃ s, Run (ThreadState.next c) anyAction (.start Unit (.fresh c config))
        [.writer () (.put "k" v), .writer () .append, .writer () .insert,
          .writer () .ret, .flusher .copy,
          .writer () (.put "k" w), .writer () .append, .writer () .insert,
          .writer () .ret,
          .flusher (.save timestamp), .flusher .cleanup,
          .flusher .truncate] s ∧
      s.acked "k" = some w ∧ s.engine.disk.entry c "k" = some v ∧
      ¬s.Durable c := by
  have hload : SnapshotManager.loadLatest c (SnapshotManager.cleanup
      (SnapshotManager.save c ∅ ((∅ : TableMap).insert "k" v) timestamp)
        config.maxSnapshots).1 = .ok (some ((∅ : TableMap).insert "k" v)) := by
    rw [SnapshotManager.loadLatest_cleanup hkeep,
      SnapshotManager.loadLatest_save hc (by simp)]
  have hlost : ∀ s : ThreadState Unit, s.acked "k" = some w →
      s.writers () = .idle →
      s.engine.disk = ⟨[], (SnapshotManager.cleanup
        (SnapshotManager.save c ∅ ((∅ : TableMap).insert "k" v) timestamp)
          config.maxSnapshots).1⟩ →
      s.acked "k" = some w ∧ s.engine.disk.entry c "k" = some v ∧
        ¬s.Durable c := by
    intro s hacked hidle hdisk
    have hentry : s.engine.disk.entry c "k" = some v := by
      rw [hdisk]
      simp only [Disk.entry, hload]
      rfl
    refine ⟨hacked, hentry, fun hdurable => ?_⟩
    rcases hdurable.2 "k" with hkept | ⟨u, hflight, -⟩
    · rw [hentry, hacked] at hkept
      exact hne (Option.some.inj hkept)
    · simp [ThreadState.inFlight, hidle] at hflight
  refine ⟨_, .cons trivial rfl (.cons trivial rfl (.cons trivial rfl
    (.cons trivial rfl (.cons trivial rfl (.cons trivial rfl (.cons trivial rfl
      (.cons trivial rfl (.cons trivial rfl (.cons trivial rfl
        (.cons trivial rfl (.cons trivial rfl (.nil _)))))))))))),
    hlost _ ?_ ?_ ?_⟩
  · rfl
  · rfl
  · rfl

theorem flush_loses_acked_write :
    let v := VersionedValue.new [0] "node1" 0 1700000000000
    let w := VersionedValue.new [1] "node1" 0 1700000000001
    ∃ s, Run (ThreadState.next referenceCodecs) anyAction
        (.start Unit (.fresh referenceCodecs ⟨1048576, 3, "node1"⟩))
        [.writer () (.put "k" v), .writer () .append, .writer () .insert,
          .writer () .ret, .flusher .copy,
          .writer () (.put "k" w), .writer () .append, .writer () .insert,
          .writer () .ret,
          .flusher (.save 1700000000002), .flusher .cleanup,
          .flusher .truncate] s ∧
      s.acked "k" = some w ∧
      s.engine.disk.entry referenceCodecs "k" = some v ∧
      ¬s.Durable referenceCodecs :=
  overtaken_write_lost lawful_referenceCodecs (by decide) (by decide) _

end Rkv.Storage
