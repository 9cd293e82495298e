import Rkv.Storage.ReferenceCodec
import Rkv.Storage.Threads

/-!
# Writers beside each other

Any number of threads write, none flushes.  The log mutex is released before
the table lock is taken, so two writes to one key can be logged in one order
and inserted in the other; the log then replays to a value the table does not
serve.  If writes to a key are inserted in the order they were logged, replay
and table agree as soon as every call has returned.
-/

namespace Rkv.Storage

open Rkv.Foundation

namespace ThreadState

variable {T : Type} [DecidableEq T] {s : ThreadState T} {c : Codecs}
  {base : String → Option VersionedValue}

/-- Only writers step, and a thread inserts its write to a key before every
write to that key that was logged later. -/
def InsertsInLogOrder (s : ThreadState T) : ThreadAction T → Prop
  | .writer thread .insert =>
      ∀ key value ticket, s.writers thread = .logged key value ticket →
        ∀ other v later, other ≠ thread →
          s.writers other = .logged key v later → ticket < later
  | .writer _ _ => True
  | .flusher _ => False

def Pending (s : ThreadState T) (key : String) (thread : T)
    (value : VersionedValue) (ticket : Nat) : Prop :=
  s.writers thread = .logged key value ticket

/-- Replaying the log gives what the table holds or, while writes to the key are
pending, the one of them logged last. -/
def AgreesOn (c : Codecs) (base : String → Option VersionedValue)
    (s : ThreadState T) (key : String) : Prop :=
  let replayed := overlay (logWrites c s.engine.wal.file) base key
  (∀ thread value ticket, ¬s.Pending key thread value ticket) ∧
      replayed = s.engine.getRaw key ∨
    ∃ thread value ticket, s.Pending key thread value ticket ∧
      (∀ other v t, s.Pending key other v t → t ≤ ticket) ∧
      replayed = some value

structure LogOrdered (c : Codecs) (base : String → Option VersionedValue)
    (s : ThreadState T) : Prop where
  terminated : Terminated 10 s.engine.wal.file
  tickets : ∀ key thread value ticket,
    s.Pending key thread value ticket → ticket < s.appends
  agrees : ∀ key, s.AgreesOn c base key

/-! ## Steps -/

theorem pending_setWriter {key : String} {thread other : T} {pc : WriterPc}
    {value : VersionedValue} {ticket : Nat} :
    (s.setWriter thread pc).Pending key other value ticket ↔
      if other = thread then pc = .logged key value ticket
      else s.Pending key other value ticket := by
  simp only [Pending, setWriter, Function.update_apply]
  split <;> rfl

theorem LogOrdered.setWriter (h : s.LogOrdered c base) {thread : T}
    {pc : WriterPc}
    (hbefore : ∀ key value ticket,
      s.writers thread ≠ .logged key value ticket)
    (hafter : ∀ key value ticket, pc ≠ .logged key value ticket) :
    (s.setWriter thread pc).LogOrdered c base := by
  have hpending : (s.setWriter thread pc).Pending = s.Pending := by
    funext key other value ticket
    rw [pending_setWriter]
    split
    · rename_i heq
      subst heq
      simp [hafter, Pending, hbefore]
    · rfl
  refine ⟨h.terminated, ?_, fun key => ?_⟩
  · rw [hpending]
    exact h.tickets
  · unfold AgreesOn
    rw [hpending]
    exact h.agrees key

theorem LogOrdered.append (hc : c.Lawful) (h : s.LogOrdered c base)
    {thread : T} {key : String} {value : VersionedValue}
    (hcalled : s.writers thread = .called key value) :
    LogOrdered c base { s.setWriter thread (.logged key value s.appends) with
      engine := s.engine.logWrite c key value
      appends := s.appends + 1 } where
  terminated := WriteAheadLog.terminated_append h.terminated key value
  tickets := fun k other v t hpending => by
    change t < s.appends + 1
    rcases eq_or_ne other thread with rfl | hne
    · have hlogged := pending_setWriter.mp hpending
      simp only [if_pos, WriterPc.logged.injEq] at hlogged
      omega
    · have hlogged := pending_setWriter.mp hpending
      rw [if_neg hne] at hlogged
      have hlt := h.tickets k other v t hlogged
      omega
  agrees := fun k => by
    unfold AgreesOn
    simp only [StorageEngine.logWrite, logWrites_append hc.emits h.terminated,
      overlay_concat]
    by_cases hk : key = k
    · -- the new write is the last one logged
      subst hk
      right
      refine ⟨thread, value, s.appends, ?_, fun other v t hpending => ?_, ?_⟩
      · exact pending_setWriter.mpr (by simp)
      · have hlogged := pending_setWriter.mp hpending
        split at hlogged
        · cases hlogged
          exact le_rfl
        · exact (h.tickets key other v t hlogged).le
      · simp
    · have hsame : ∀ other v t,
          (s.setWriter thread (.logged key value s.appends)).Pending k other v t ↔
            s.Pending k other v t := by
        intro other v t
        rw [pending_setWriter]
        split
        · rename_i heq
          subst heq
          simp [hk, Pending, hcalled]
        · rfl
      have hold := h.agrees k
      simp only [AgreesOn, if_neg hk] at hold ⊢
      rcases hold with ⟨hnone, hagrees⟩ | ⟨last, v, t, hlast, hmax, hagrees⟩
      · left
        exact ⟨fun other v t hp => hnone other v t ((hsame other v t).mp hp),
          hagrees⟩
      · right
        exact ⟨last, v, t, (hsame last v t).mpr hlast,
          fun other w u hp => hmax other w u ((hsame other w u).mp hp), hagrees⟩

theorem LogOrdered.insert (h : s.LogOrdered c base) {thread : T} {key : String}
    {value : VersionedValue} {ticket : Nat}
    (hlogged : s.writers thread = .logged key value ticket)
    (horder : ∀ other v later, other ≠ thread →
      s.writers other = .logged key v later → ticket < later) :
    LogOrdered c base { s.setWriter thread (.inserted key value) with
      engine := s.engine.tableWrite key value } := by
  have hothers : ∀ k other v t,
      (s.setWriter thread (.inserted key value)).Pending k other v t ↔
        other ≠ thread ∧ s.Pending k other v t := by
    intro k other v t
    rw [pending_setWriter]
    split
    · rename_i heq
      simp [heq]
    · rename_i hne
      simp [hne]
  refine ⟨h.terminated, fun k other v t hp =>
    h.tickets k other v t ((hothers k other v t).mp hp).2, fun k => ?_⟩
  have hold := h.agrees k
  unfold AgreesOn at hold ⊢
  simp only [StorageEngine.tableWrite, StorageEngine.getRaw,
    MemTable.getRaw_put] at hold ⊢
  rcases hold with ⟨hnone, hagrees⟩ | ⟨last, v, t, hlast, hmax, hagrees⟩
  · left
    refine ⟨fun other w u hp => hnone other w u ((hothers k other w u).mp hp).2,
      ?_⟩
    have hne : key ≠ k := by
      rintro rfl
      exact hnone thread value ticket hlogged
    rw [if_neg hne]
    exact hagrees
  · by_cases hself : last = thread
    · -- the write logged last goes in, so no other one is pending
      subst hself
      cases hlogged.symm.trans hlast
      left
      refine ⟨fun other w u hp => ?_, by simpa using hagrees⟩
      obtain ⟨hne, hpending⟩ := (hothers key other w u).mp hp
      have hlt := horder other w u hne hpending
      have hle := hmax other w u hpending
      omega
    · right
      exact ⟨last, v, t, (hothers k last v t).mpr ⟨hself, hlast⟩,
        fun other w u hp => hmax other w u ((hothers k other w u).mp hp).2,
        hagrees⟩

theorem LogOrdered.ret (h : s.LogOrdered c base) {thread : T} {key : String}
    {value : VersionedValue}
    (hinserted : s.writers thread = .inserted key value) :
    LogOrdered c base { s.setWriter thread .idle with
      acked := Function.update s.acked key (some value) } := by
  have hidle : (s.setWriter thread .idle).LogOrdered c base :=
    h.setWriter (by simp [hinserted]) (by simp)
  exact ⟨hidle.terminated, hidle.tickets, hidle.agrees⟩

theorem LogOrdered.step (hc : c.Lawful) {action : ThreadAction T}
    {t : ThreadState T} (h : s.LogOrdered c base)
    (hguard : s.InsertsInLogOrder action) (hnext : s.next c action = some t) :
    t.LogOrdered c base := by
  match action with
  | .writer thread step =>
      rcases nextWriter_cases hnext with ⟨key, value, hidle, rfl⟩ |
        ⟨key, value, hcalled, rfl⟩ | ⟨key, value, ticket, rfl, hlogged, rfl⟩ |
        ⟨key, value, hinserted, rfl⟩
      · exact h.setWriter (by simp [hidle]) (by simp)
      · exact h.append hc hcalled
      · exact h.insert hlogged (hguard _ _ _ hlogged)
      · exact h.ret hinserted
  | .flusher step => exact absurd hguard id

omit [DecidableEq T] in
theorem LogOrdered.init {engine : StorageEngine} (h : engine.Replayed c) :
    (start T engine).LogOrdered c engine.getRaw where
  terminated := h.terminated
  tickets := by simp [start, Pending]
  agrees := fun key => by
    left
    refine ⟨by simp [start, Pending], ?_⟩
    change overlay (logWrites c engine.wal.file) engine.getRaw key =
      engine.getRaw key
    cases hlast : lastWrite key (logWrites c engine.wal.file) with
    | none => exact overlay_of_lastWrite_eq_none hlast _
    | some v =>
        rw [overlay_of_lastWrite_eq_some hlast, h.lastWrites key v hlast]

end ThreadState

/-- Every run in which each key's writes reach the table in the order they
reached the log ends, once all calls have returned, with a log that replays over
the starting table to the table. -/
theorem replay_eq_table_of_insertsInLogOrder {T : Type} [DecidableEq T]
    {c : Codecs} (hc : c.Lawful) {config : StorageConfig} {disk : Disk}
    (hdisk : Terminated 10 disk.wal) {engine : StorageEngine}
    (hopen : StorageEngine.openEngine c config disk = .ok engine)
    {actions : List (ThreadAction T)} {s : ThreadState T}
    (hrun : Run (ThreadState.next c) ThreadState.InsertsInLogOrder
      (.start T engine) actions s)
    (hreturned : ∀ thread, s.writers thread = .idle) (key : String) :
    (engine.memtable.putAll (logWrites c s.engine.wal.file)).getRaw key =
      s.engine.getRaw key := by
  have hreplayed := (StorageEngine.replayed_openEngine hopen hdisk).1
  have h : s.LogOrdered c engine.getRaw :=
    hrun.invariant (fun _ _ _ => ThreadState.LogOrdered.step hc)
      (.init hreplayed)
  rw [MemTable.getRaw_putAll]
  rcases h.agrees key with ⟨-, hagrees⟩ | ⟨thread, v, ticket, hpending, -, -⟩
  · exact hagrees
  · have hlogged : s.writers thread = .logged key v ticket := hpending
    rw [hreturned thread] at hlogged
    contradiction

theorem replay_eq_table_of_two_writers :
    let c := referenceCodecs
    let v := VersionedValue.new [0] "node1" 0 1700000000000
    let w := VersionedValue.new [1] "node1" 0 1700000000001
    ∃ s, Run (ThreadState.next c) ThreadState.InsertsInLogOrder
        (.start Bool (.fresh c ⟨1048576, 3, "node1"⟩))
        [.writer false (.put "k" v), .writer true (.put "k" w),
          .writer false .append, .writer true .append,
          .writer false .insert, .writer true .insert,
          .writer false .ret, .writer true .ret] s ∧
      (∀ thread, s.writers thread = .idle) ∧
      ((StorageEngine.fresh c ⟨1048576, 3, "node1"⟩).memtable.putAll
        (logWrites c s.engine.wal.file)).getRaw "k" = s.engine.getRaw "k" := by
  intro c v w
  obtain ⟨s, hrun, hidle⟩ : ∃ s, Run (ThreadState.next c)
      ThreadState.InsertsInLogOrder
      (.start Bool (.fresh c ⟨1048576, 3, "node1"⟩))
      [.writer false (.put "k" v), .writer true (.put "k" w),
        .writer false .append, .writer true .append,
        .writer false .insert, .writer true .insert,
        .writer false .ret, .writer true .ret] s ∧
      ∀ thread, s.writers thread = .idle := by
    refine ⟨_, .cons trivial rfl (.cons trivial rfl (.cons trivial rfl
      (.cons trivial rfl (.cons ?_ rfl (.cons ?_ rfl (.cons trivial rfl
        (.cons trivial rfl (.nil _)))))))), fun thread => by cases thread <;> rfl⟩
    · rintro key value ticket hlogged (_ | _) u later hne hother
      · exact absurd rfl hne
      · cases hlogged
        cases hother
        decide
    · rintro key value ticket hlogged (_ | _) u later hne hother
      · cases hother
      · exact absurd rfl hne
  exact ⟨s, hrun, hidle, replay_eq_table_of_insertsInLogOrder
    lawful_referenceCodecs (terminated_nil 10)
    (StorageEngine.openEngine_empty c _) hrun hidle "k"⟩

/-- Two writes to one key that are logged in one order and inserted in the other
leave a log that does not replay to the table. -/
theorem crossed_writes_disagree {c : Codecs} (hc : c.Lawful)
    (config : StorageConfig) {v w : VersionedValue} (hne : v ≠ w) :
    ∃ s, Run (ThreadState.next c) anyAction (.start Bool (.fresh c config))
        [.writer false (.put "k" v), .writer true (.put "k" w),
          .writer false .append, .writer true .append,
          .writer true .insert, .writer false .insert,
          .writer false .ret, .writer true .ret] s ∧
      (∀ thread, s.writers thread = .idle) ∧
      ((StorageEngine.fresh c config).memtable.putAll
        (logWrites c s.engine.wal.file)).getRaw "k" = some w ∧
      s.engine.getRaw "k" = some v ∧
      ((StorageEngine.fresh c config).memtable.putAll
        (logWrites c s.engine.wal.file)).getRaw "k" ≠ s.engine.getRaw "k" := by
  have hlog : logWrites c (((WriteAheadLog.openLog c []).append c "k" v).1.append
      c "k" w).1.file = [("k", v), ("k", w)] := by
    rw [logWrites_append hc.emits
        (WriteAheadLog.terminated_append (terminated_nil 10) "k" v),
      logWrites_append hc.emits (terminated_nil 10)]
    rfl
  have hreplayed : ((StorageEngine.fresh c config).memtable.putAll (logWrites c
      (((WriteAheadLog.openLog c []).append c "k" v).1.append c "k"
        w).1.file)).getRaw "k" = some w := by
    rw [hlog, MemTable.getRaw_putAll]
    rfl
  have hserved : (((MemTable.new config.memtableMaxBytes).put "k" w).1.put "k"
      v).1.getRaw "k" = some v := by simp
  refine ⟨_, .cons trivial rfl (.cons trivial rfl (.cons trivial rfl
    (.cons trivial rfl (.cons trivial rfl (.cons trivial rfl (.cons trivial rfl
      (.cons trivial rfl (.nil _)))))))), fun thread => by cases thread <;> rfl,
    hreplayed, hserved, fun hsame => ?_⟩
  exact hne (Option.some.inj (hserved.symm.trans (hsame.symm.trans hreplayed)))

theorem crossed_writes_lose_order :
    let v := VersionedValue.new [0] "node1" 0 1700000000000
    let w := VersionedValue.new [1] "node1" 0 1700000000001
    let engine := StorageEngine.fresh referenceCodecs ⟨1048576, 3, "node1"⟩
    ∃ s, Run (ThreadState.next referenceCodecs) anyAction (.start Bool engine)
        [.writer false (.put "k" v), .writer true (.put "k" w),
          .writer false .append, .writer true .append,
          .writer true .insert, .writer false .insert,
          .writer false .ret, .writer true .ret] s ∧
      (∀ thread, s.writers thread = .idle) ∧
      (engine.memtable.putAll
        (logWrites referenceCodecs s.engine.wal.file)).getRaw "k" = some w ∧
      s.engine.getRaw "k" = some v ∧
      (engine.memtable.putAll
        (logWrites referenceCodecs s.engine.wal.file)).getRaw "k" ≠
          s.engine.getRaw "k" :=
  crossed_writes_disagree lawful_referenceCodecs _ (by decide)

end Rkv.Storage
