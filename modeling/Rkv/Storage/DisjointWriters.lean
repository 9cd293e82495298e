import Rkv.Foundation.Simulation
import Rkv.Storage.ConcurrentWriters

/-!
# Writers with keys of their own

Two writes to one key can reach the log and the table in different orders only
if two threads write it.  Where every key is written by one thread, a crash in
any state of any interleaving loses nothing: the engine that opens again holds
what the table held, and of a key whose write has been logged and not yet
inserted the new version.  Nor do such threads see each other while they run,
beside a flusher or not: what one of them does to its keys is what it would do
by itself.
-/

namespace Rkv.Storage

open Rkv.Foundation

/-- The key a thread is in the middle of writing. -/
def WriterPc.key : WriterPc → Option String
  | idle => none
  | called key _ | logged key _ _ | inserted key _ => some key

namespace ThreadState

variable {T : Type} [DecidableEq T] {s t : ThreadState T} {c : Codecs}
  {owner : String → T}

/-- A thread begins writes to its own keys only. -/
def OwnKeys (owner : String → T) (_ : ThreadState T) : ThreadAction T → Prop
  | .writer thread (.put key _) => owner key = thread
  | .writer thread (.delete key _) => owner key = thread
  | _ => True

/-- The same, and none of the steps is a flush's. -/
def WritesOwn (owner : String → T) (s : ThreadState T)
    (action : ThreadAction T) : Prop :=
  s.OwnKeys owner action ∧ ∀ step, action ≠ .flusher step

def Owned (owner : String → T) (s : ThreadState T) : Prop :=
  ∀ thread key, (s.writers thread).key = some key → owner key = thread

omit [DecidableEq T] in
theorem owned_start (owner : String → T) (engine : StorageEngine) :
    (start T engine).Owned owner := by
  intro thread key hkey
  simp [start, WriterPc.key] at hkey

theorem Owned.setWriter (h : s.Owned owner) {thread : T} {pc : WriterPc}
    (hpc : ∀ key, pc.key = some key → owner key = thread) :
    (s.setWriter thread pc).Owned owner := by
  intro other key hkey
  simp only [ThreadState.setWriter, Function.update_apply] at hkey
  split at hkey
  · rename_i heq
    rw [heq]
    exact hpc key hkey
  · exact h other key hkey

omit [DecidableEq T] in
/-- A flush leaves the writers and the table alone. -/
theorem flusher_frame {step : FlushStep}
    (hnext : s.nextFlusher c step = some t) :
    t.writers = s.writers ∧ t.engine.config = s.engine.config ∧
      t.engine.getRaw = s.engine.getRaw := by
  cases step with
  | copy =>
      simp only [nextFlusher] at hnext
      split at hnext
      · split at hnext <;> cases hnext <;> exact ⟨rfl, rfl, rfl⟩
      · contradiction
  | save timestamp =>
      simp only [nextFlusher] at hnext
      split at hnext <;> cases hnext
      exact ⟨rfl, rfl, rfl⟩
  | cleanup =>
      simp only [nextFlusher] at hnext
      split at hnext <;> cases hnext
      exact ⟨rfl, rfl, rfl⟩
  | truncate =>
      simp only [nextFlusher] at hnext
      split at hnext <;> cases hnext
      exact ⟨rfl, rfl, rfl⟩

theorem Owned.step (h : s.Owned owner) {action : ThreadAction T}
    (hguard : s.OwnKeys owner action) (hnext : s.next c action = some t) :
    t.Owned owner := by
  match action with
  | .flusher step =>
      intro thread key hkey
      rw [(flusher_frame hnext).1] at hkey
      exact h thread key hkey
  | .writer thread step =>
      cases step with
      | put key value =>
          simp only [next, nextWriter] at hnext
          split at hnext <;> cases hnext
          exact h.setWriter fun k hk => Option.some.inj hk ▸ hguard
      | delete key now =>
          simp only [next, nextWriter] at hnext
          split at hnext <;> cases hnext
          exact h.setWriter fun k hk => Option.some.inj hk ▸ hguard
      | append =>
          simp only [next, nextWriter] at hnext
          split at hnext <;> cases hnext
          rename_i key value hcalled
          exact h.setWriter fun k hk => h thread k (by rw [hcalled]; exact hk)
      | insert =>
          simp only [next, nextWriter] at hnext
          split at hnext <;> cases hnext
          rename_i key value ticket hlogged
          exact h.setWriter fun k hk => h thread k (by rw [hlogged]; exact hk)
      | ret =>
          simp only [next, nextWriter] at hnext
          split at hnext <;> cases hnext
          exact h.setWriter fun k hk => by contradiction

omit [DecidableEq T] in
/-- No other thread has logged a write to a thread's key. -/
theorem Owned.insertsInLogOrder (h : s.Owned owner) {action : ThreadAction T}
    (hguard : s.WritesOwn owner action) : s.InsertsInLogOrder action := by
  match action with
  | .flusher step => exact absurd rfl (hguard.2 step)
  | .writer thread step =>
      cases step with
      | insert =>
          intro key value ticket hlogged other v later hne hother
          have hself := h thread key (by rw [hlogged]; rfl)
          have hsame := h other key (by rw [hother]; rfl)
          exact absurd (hsame.symm.trans hself) hne
      | put key value => trivial
      | delete key now => trivial
      | append => trivial
      | ret => trivial

/-! ## The disk -/

/-- Without a flush the snapshots and the configuration stay. -/
theorem snapshots_step {action : ThreadAction T}
    (hguard : s.InsertsInLogOrder action) (hnext : s.next c action = some t) :
    t.engine.snapshots = s.engine.snapshots ∧
      t.engine.config = s.engine.config := by
  match action with
  | .flusher step => exact absurd hguard id
  | .writer thread step =>
      rcases nextWriter_cases hnext with ⟨_, _, _, rfl⟩ | ⟨_, _, _, rfl⟩ |
        ⟨_, _, _, _, _, rfl⟩ | ⟨_, _, _, rfl⟩
      · exact ⟨rfl, rfl⟩
      · exact ⟨rfl, rfl⟩
      · exact ⟨rfl, rfl⟩
      · exact ⟨rfl, rfl⟩

def snapshotEntry (c : Codecs) (snapshots : SnapshotDir) (key : String) :
    Option VersionedValue :=
  match SnapshotManager.loadLatest c snapshots with
  | .ok (some data) => data[key]?
  | _ => none

omit [DecidableEq T] in
theorem logOrdered_start {engine : StorageEngine} (h : engine.Replayed c)
    (hentries : ∀ key, engine.disk.entry c key = engine.getRaw key) :
    (start T engine).LogOrdered c (snapshotEntry c engine.snapshots) where
  terminated := h.terminated
  tickets := by simp [start, Pending]
  agrees := fun key => .inl ⟨by simp [start, Pending], hentries key⟩

end ThreadState

/-- In every state of every interleaving of threads that write keys of their own,
the engine can be opened again on what is on disk.  It then holds each key as the
table does or, where the key's thread is between log and table, with the version
it is writing. -/
theorem disjoint_writers_recover {T : Type} [DecidableEq T] {c : Codecs}
    (hc : c.Lawful) {config : StorageConfig} {disk : Disk}
    (hdisk : Terminated 10 disk.wal) {engine : StorageEngine}
    (hopen : StorageEngine.openEngine c config disk = .ok engine)
    (owner : String → T) {actions : List (ThreadAction T)} {s : ThreadState T}
    (hrun : Run (ThreadState.next c) (ThreadState.WritesOwn owner)
      (.start T engine) actions s) :
    ∃ opened, StorageEngine.openEngine c config s.engine.disk = .ok opened ∧
      ∀ key,
        ((∀ value ticket, s.writers (owner key) ≠ .logged key value ticket) →
          opened.getRaw key = s.engine.getRaw key) ∧
        ∀ value ticket, s.writers (owner key) = .logged key value ticket →
          opened.getRaw key = some value := by
  obtain ⟨hreplayed, hconfig, ⟨snapshot, hload⟩, hentries⟩ :=
    StorageEngine.replayed_openEngine hopen hdisk
  have howned : s.Owned owner := hrun.invariant
    (fun _ _ _ h hguard => h.step hguard.1) (ThreadState.owned_start owner engine)
  have hordered := hrun.reguard (fun _ _ _ h hguard => h.step hguard.1)
    (fun _ _ h => h.insertsInLogOrder) (ThreadState.owned_start owner engine)
  have hlog : s.LogOrdered c (ThreadState.snapshotEntry c engine.snapshots) :=
    hordered.invariant (fun _ _ _ h => h.step hc)
      (ThreadState.logOrdered_start hreplayed hentries)
  have hsame : s.engine.snapshots = engine.snapshots ∧
      s.engine.config = engine.config :=
    hordered.invariant (I := fun t => t.engine.snapshots = engine.snapshots ∧
        t.engine.config = engine.config)
      (fun _ _ _ h hguard hnext => by
        obtain ⟨hsnapshots, hconfigs⟩ := ThreadState.snapshots_step hguard hnext
        exact ⟨hsnapshots.trans h.1, hconfigs.trans h.2⟩) ⟨rfl, rfl⟩
  obtain ⟨opened, hopened, hraw, -, -⟩ :=
    Disk.openEngine_ok (show SnapshotManager.loadLatest c
      s.engine.disk.snapshots = .ok snapshot by
        rw [StorageEngine.disk, hsame.1, hload]) config
  refine ⟨opened, hopened, fun key => ?_⟩
  have hdiskEntry : opened.getRaw key = overlay (logWrites c s.engine.wal.file)
      (ThreadState.snapshotEntry c engine.snapshots) key := by
    rw [hraw, Disk.entry, ← hsame.1]
    rfl
  rw [hdiskEntry]
  rcases hlog.agrees key with ⟨hnone, hagrees⟩ |
    ⟨thread, v, t, hpending, -, hagrees⟩
  · refine ⟨fun _ => hagrees, fun value ticket hlogged => ?_⟩
    exact absurd hlogged (hnone (owner key) value ticket)
  · have hthread : owner key = thread := howned thread key (by
      rw [show s.writers thread = .logged key v t from hpending]
      rfl)
    have hlogged : s.writers (owner key) = .logged key v t := hthread ▸ hpending
    refine ⟨fun hnot => absurd hlogged (hnot v t), fun value ticket hvalue => ?_⟩
    rw [hlogged] at hvalue
    cases hvalue
    exact hagrees

theorem disjoint_writers_recover_between_log_and_table :
    let c := referenceCodecs
    let config : StorageConfig := ⟨1048576, 3, "node1"⟩
    let owner : String → Bool := fun key => key == "b"
    let v := VersionedValue.new [0] "node1" 0 1700000000000
    let w := VersionedValue.new [1] "node1" 0 1700000000001
    ∃ s opened, Run (ThreadState.next c) (ThreadState.WritesOwn owner)
        (.start Bool (.fresh c config))
        [.writer false (.put "a" v), .writer true (.put "b" w),
          .writer false .append, .writer true .append,
          .writer true .insert] s ∧
      StorageEngine.openEngine c config s.engine.disk = .ok opened ∧
      s.engine.getRaw "a" = none ∧ opened.getRaw "a" = some v ∧
      opened.getRaw "b" = s.engine.getRaw "b" := by
  intro c config owner v w
  have hrun : Run (ThreadState.next c) (ThreadState.WritesOwn owner)
      (.start Bool (.fresh c config))
      [.writer false (.put "a" v), .writer true (.put "b" w),
        .writer false .append, .writer true .append,
        .writer true .insert] _ :=
    .cons ⟨show owner "a" = false by decide, by simp⟩ rfl
      (.cons ⟨show owner "b" = true by decide, by simp⟩ rfl
        (.cons ⟨trivial, by simp⟩ rfl (.cons ⟨trivial, by simp⟩ rfl
          (.cons ⟨trivial, by simp⟩ rfl (.nil _)))))
  obtain ⟨opened, hopened, hkeys⟩ :=
    disjoint_writers_recover lawful_referenceCodecs (terminated_nil 10)
      (StorageEngine.openEngine_empty c config) owner hrun
  refine ⟨_, opened, hrun, hopened, ?_, (hkeys "a").2 v 0 rfl, ?_⟩
  · change ((MemTable.new config.memtableMaxBytes).put "b" w).1.getRaw "a" = none
    simp
  · refine (hkeys "b").1 fun value ticket hlogged => ?_
    cases hlogged

/-! ## One thread by itself -/

/-- The point a thread is at, without the number of its append. -/
def WriterPc.unnumbered : WriterPc → WriterPc
  | logged key value _ => .logged key value 0
  | pc => pc

def ThreadAction.isBy {T : Type} [DecidableEq T] (thread : T) :
    ThreadAction T → Bool
  | .writer other _ => decide (other = thread)
  | .flusher _ => false

namespace ThreadState

variable {T : Type} [DecidableEq T] {s t alone : ThreadState T} {c : Codecs}
  {owner : String → T} {thread : T}

/-- A thread's keys and the point it is at are as they are in a second state. -/
structure Alone (owner : String → T) (thread : T) (s alone : ThreadState T) :
    Prop where
  config : alone.engine.config = s.engine.config
  pc : (alone.writers thread).unnumbered = (s.writers thread).unnumbered
  table : ∀ key, owner key = thread →
    alone.engine.getRaw key = s.engine.getRaw key

theorem setWriter_writers (s : ThreadState T) (thread : T) (pc : WriterPc) :
    (s.setWriter thread pc).writers thread = pc :=
  Function.update_self ..

theorem Alone.called (h : s.Alone owner thread alone)
    (hpc : s.writers thread = .idle) (key : String) {value v : VersionedValue}
    (hvalue : value = v) :
    alone.writers thread = .idle ∧
      (s.setWriter thread (.called key value)).Alone owner thread
        (alone.setWriter thread (.called key v)) := by
  refine ⟨?_, h.config, ?_, h.table⟩
  · have hsame := h.pc
    rw [hpc] at hsame
    cases ha : alone.writers thread <;> simp [WriterPc.unnumbered, ha] at hsame
    rfl
  · rw [setWriter_writers, setWriter_writers, hvalue]

omit [DecidableEq T] in
theorem Alone.tombstoneFor (h : s.Alone owner thread alone) {key : String}
    (hown : owner key = thread) (now : Int64) :
    s.engine.tombstoneFor key now = alone.engine.tombstoneFor key now := by
  rw [StorageEngine.tombstoneFor, StorageEngine.tombstoneFor,
    StorageEngine.nodeId, StorageEngine.nodeId, StorageEngine.storedClock,
    StorageEngine.storedClock, h.config, h.table key hown]

/-- The thread's own steps can be taken by it alone. -/
theorem Alone.own_step (h : s.Alone owner thread alone) {step : WriterStep}
    (hguard : s.OwnKeys owner (.writer thread step))
    (hnext : s.nextWriter c thread step = some t) :
    ∃ after, alone.nextWriter c thread step = some after ∧
      t.Alone owner thread after := by
  cases step with
  | put key value =>
      simp only [nextWriter] at hnext
      split at hnext <;> cases hnext
      rename_i hidle
      obtain ⟨hsame, hafter⟩ := h.called hidle key (Eq.refl value)
      exact ⟨_, by rw [nextWriter, hsame], hafter⟩
  | delete key now =>
      simp only [nextWriter] at hnext
      split at hnext <;> cases hnext
      rename_i hidle
      obtain ⟨hsame, hafter⟩ := h.called hidle key (h.tombstoneFor hguard now)
      exact ⟨_, by rw [nextWriter, hsame], hafter⟩
  | append =>
      simp only [nextWriter] at hnext
      split at hnext <;> cases hnext
      rename_i key value hcalled
      have hsame := h.pc
      rw [hcalled] at hsame
      cases ha : alone.writers thread <;> simp [WriterPc.unnumbered, ha] at hsame
      obtain ⟨rfl, rfl⟩ := hsame
      rename_i key value
      have hafter : alone.nextWriter c thread .append =
          some { alone.setWriter thread (.logged key value alone.appends) with
            engine := alone.engine.logWrite c key value
            appends := alone.appends + 1 } := by rw [nextWriter, ha]
      refine ⟨_, hafter, h.config, ?_, h.table⟩
      dsimp only
      rw [setWriter_writers, setWriter_writers]
      rfl
  | insert =>
      simp only [nextWriter] at hnext
      split at hnext <;> cases hnext
      rename_i key value ticket hlogged
      have hsame := h.pc
      rw [hlogged] at hsame
      cases ha : alone.writers thread <;> simp [WriterPc.unnumbered, ha] at hsame
      obtain ⟨rfl, rfl⟩ := hsame
      rename_i key value number
      have hafter : alone.nextWriter c thread .insert =
          some { alone.setWriter thread (.inserted key value) with
            engine := alone.engine.tableWrite key value } := by
        rw [nextWriter, ha]
      refine ⟨_, hafter, h.config, ?_, fun other hother => ?_⟩
      · dsimp only
        rw [setWriter_writers, setWriter_writers]
      · have hold := h.table other hother
        simp only [StorageEngine.getRaw, StorageEngine.tableWrite,
          MemTable.getRaw_put] at hold ⊢
        rw [hold]
  | ret =>
      simp only [nextWriter] at hnext
      split at hnext <;> cases hnext
      rename_i key value hinserted
      have hsame := h.pc
      rw [hinserted] at hsame
      cases ha : alone.writers thread <;> simp [WriterPc.unnumbered, ha] at hsame
      obtain ⟨rfl, rfl⟩ := hsame
      rename_i key value
      have hafter : alone.nextWriter c thread .ret =
          some { alone.setWriter thread .idle with
            acked := Function.update alone.acked key (some value) } := by
        rw [nextWriter, ha]
      refine ⟨_, hafter, h.config, ?_, h.table⟩
      dsimp only
      rw [setWriter_writers, setWriter_writers]

/-- What another thread or a flush does is not seen by the thread. -/
theorem Alone.other_step (h : s.Alone owner thread alone) (howned : s.Owned owner)
    {action : ThreadAction T} (hother : action.isBy thread = false)
    (hnext : s.next c action = some t) : t.Alone owner thread alone := by
  match action with
  | .flusher step =>
      obtain ⟨hwriters, hconfig, htable⟩ := flusher_frame hnext
      refine ⟨h.config.trans hconfig.symm, ?_, fun key hkey => ?_⟩
      · rw [hwriters]
        exact h.pc
      · rw [htable]
        exact h.table key hkey
  | .writer other step =>
      have hne : thread ≠ other := Ne.symm (of_decide_eq_false hother)
      have hpc : ∀ pc, (s.setWriter other pc).writers thread = s.writers thread :=
        fun pc => Function.update_of_ne hne ..
      rcases nextWriter_cases hnext with ⟨_, _, _, rfl⟩ | ⟨_, _, _, rfl⟩ |
        ⟨key, value, ticket, _, hlogged, rfl⟩ | ⟨_, _, _, rfl⟩
      · exact ⟨h.config, h.pc.trans (congrArg _ (hpc _)).symm, h.table⟩
      · exact ⟨h.config, h.pc.trans (congrArg _ (hpc _)).symm, h.table⟩
      · refine ⟨h.config, h.pc.trans (congrArg _ (hpc _)).symm, fun k hk => ?_⟩
        have hkey : key ≠ k := by
          rintro rfl
          exact hne (hk.symm.trans (howned other key (by rw [hlogged]; rfl)))
        have hold := h.table k hk
        simp only [StorageEngine.getRaw, StorageEngine.tableWrite,
          MemTable.getRaw_put, if_neg hkey] at hold ⊢
        exact hold
      · exact ⟨h.config, h.pc.trans (congrArg _ (hpc _)).symm, h.table⟩

end ThreadState

/-- Threads that write keys of their own do not see each other: in every
interleaving with each other and with a flusher, the steps a thread takes can be
taken by it alone, and leave it and its keys where the interleaving leaves
them. -/
theorem disjoint_writers_serial {T : Type} [DecidableEq T] (c : Codecs)
    (engine : StorageEngine) (owner : String → T)
    {actions : List (ThreadAction T)} {s : ThreadState T}
    (hrun : Run (ThreadState.next c) (ThreadState.OwnKeys owner)
      (.start T engine) actions s) (thread : T) :
    ∃ alone, Run (ThreadState.next c) anyAction (.start T engine)
        (actions.filter (ThreadAction.isBy thread)) alone ∧
      (alone.writers thread).unnumbered = (s.writers thread).unnumbered ∧
      ∀ key, owner key = thread →
        alone.engine.getRaw key = s.engine.getRaw key := by
  obtain ⟨alone, halone, -, hend⟩ : ∃ alone, Run (ThreadState.next c) anyAction
      (.start T engine) (actions.filter (ThreadAction.isBy thread)) alone ∧
      s.Owned owner ∧ s.Alone owner thread alone := hrun.project
    (R := fun s alone => s.Owned owner ∧ s.Alone owner thread alone)
    (fun s a action t h hguard hnext hby => by
      match action with
      | .flusher step => contradiction
      | .writer other step =>
          obtain rfl : other = thread := of_decide_eq_true hby
          obtain ⟨after, hafter, halone⟩ := h.2.own_step hguard hnext
          exact ⟨after, hafter, h.1.step hguard hnext, halone⟩)
    (fun s a action t h hguard hnext hother =>
      ⟨h.1.step hguard hnext, h.2.other_step h.1 hother hnext⟩)
    ⟨ThreadState.owned_start owner engine, rfl, rfl, fun _ _ => rfl⟩
  exact ⟨alone, halone, hend.pc, hend.table⟩

theorem disjoint_writers_serial_delete_beside_flush :
    let c := referenceCodecs
    let engine := StorageEngine.fresh c ⟨1048576, 3, "node1"⟩
    let owner : String → Bool := fun key => key == "b"
    let v := VersionedValue.new [0] "node1" 0 1700000000000
    ∃ s alone : ThreadState Bool,
      Run (ThreadState.next c) (ThreadState.OwnKeys owner) (.start Bool engine)
        [.writer false (.put "a" v), .writer true (.delete "b" 1700000000001),
          .writer false .append, .writer true .append, .writer true .insert,
          .flusher .copy, .writer false .insert] s ∧
      Run (ThreadState.next c) anyAction (.start Bool engine)
        [.writer true (.delete "b" 1700000000001), .writer true .append,
          .writer true .insert] alone ∧
      alone.engine.getRaw "b" = s.engine.getRaw "b" := by
  intro c engine owner v
  have hrun : Run (ThreadState.next c) (ThreadState.OwnKeys owner)
      (.start Bool engine)
      [.writer false (.put "a" v), .writer true (.delete "b" 1700000000001),
        .writer false .append, .writer true .append, .writer true .insert,
        .flusher .copy, .writer false .insert] _ :=
    .cons (show owner "a" = false by decide) rfl
      (.cons (show owner "b" = true by decide) rfl (.cons trivial rfl
        (.cons trivial rfl (.cons trivial rfl (.cons trivial
          (by simp only [ThreadState.next, ThreadState.nextFlusher]; rfl)
          (.cons trivial rfl (.nil _)))))))
  obtain ⟨alone, halone, -, htable⟩ :=
    disjoint_writers_serial c engine owner hrun true
  exact ⟨_, alone, hrun, halone, htable "b" (by decide)⟩

end Rkv.Storage
