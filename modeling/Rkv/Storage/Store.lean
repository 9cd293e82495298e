import Rkv.Foundation.Simulation
import Rkv.Storage.Eviction
import Rkv.Storage.Recovery

/-!
# The store an engine implements

What the engine is for: a map from keys to values, some of them with a deadline
after which they are not shown.  A deletion takes the key out.  There is no log,
no snapshot, no tombstone, no clock and no table that forgets what has expired.
Every run of one thread, with crashes between any two of its steps, serves what
this store holds after the writes of the run.
-/

namespace Rkv.Storage

open Std (ExtTreeMap)
open Rkv.Foundation

structure Item where
  value : Bytes
  deadline : Option Int64
  deriving DecidableEq

def Item.shownAt (now : Int64) (item : Item) : Bool :=
  item.deadline.all fun deadline => now ≤ deadline

/-- A lifetime that is not positive never ends; the sum wraps as the code's. -/
def deadlineOf (timestampMs ttlMs : Int64) : Option Int64 :=
  if ttlMs ≤ 0 then none else some (timestampMs + ttlMs)

abbrev Store := ExtTreeMap String Item

namespace Store

def get (store : Store) (key : String) (now : Int64) : Option Bytes :=
  ((store[key]?).filter (·.shownAt now)).map (·.value)

def visible (store : Store) (start stop : String) (now : Int64) :
    List (String × Bytes) :=
  (store.toList.filter fun p =>
    start ≤ p.1 && p.1 < stop && p.2.shownAt now).map fun p => (p.1, p.2.value)

def scan (store : Store) (start stop : String) (limit : Nat) (now : Int64) :
    List (String × Bytes) :=
  (store.visible start stop now).take limit

def write (store : Store) (key : String) (v : VersionedValue) : Store :=
  if v.deleted then store.erase key
  else store.insert key ⟨v.value, deadlineOf v.timestampMs v.ttlMs⟩

/-- What the steps of one thread do to the store: the writes, and nothing else. -/
def step (store : Store) : SeqAction → Store
  | .put key v => store.write key v
  | .putRaw key value ttlMs reading =>
      store.insert key ⟨value, deadlineOf (asI64 reading) ttlMs⟩
  | .delete key _ => store.erase key
  | .tableWrite | .save _ | .cleanup | .truncate | .evict _ | .crash => store

theorem mem_visible (store : Store) (start stop : String) (now : Int64)
    (key : String) (bytes : Bytes) :
    (key, bytes) ∈ store.visible start stop now ↔
      (start ≤ key ∧ key < stop) ∧ store.get key now = some bytes := by
  simp only [visible, get, List.mem_map, List.mem_filter, Prod.mk.injEq,
    Option.map_eq_some_iff, Option.filter_eq_some_iff, Bool.and_eq_true,
    decide_eq_true_eq]
  constructor
  · rintro ⟨⟨k, item⟩, ⟨hentry, hrange, hshown⟩, rfl, rfl⟩
    exact ⟨hrange, item, ⟨ExtTreeMap.mem_toList_iff_getElem?_eq_some.mp hentry,
      hshown⟩, rfl⟩
  · rintro ⟨hrange, item, ⟨hentry, hshown⟩, rfl⟩
    exact ⟨(key, item), ⟨ExtTreeMap.mem_toList_iff_getElem?_eq_some.mpr hentry,
      hrange, hshown⟩, rfl, rfl⟩

theorem sorted_visible (store : Store) (start stop : String) (now : Int64) :
    (store.visible start stop now).Pairwise fun p q => p.1 < q.1 := by
  have hsorted : store.toList.Pairwise fun p q => p.1 < q.1 :=
    store.ordered_keys_toList.imp compare_lt_iff_lt.mp
  exact List.pairwise_map.mpr (hsorted.filter _)

end Store

/-! ## What an entry shows -/

def shown (now : Int64) (entry : Option VersionedValue) : Option Bytes :=
  (entry.filter fun v => !v.isExpired now && !v.deleted).map (·.value)

theorem shownAt_eq (v : VersionedValue) (now : Int64) :
    Item.shownAt now ⟨v.value, deadlineOf v.timestampMs v.ttlMs⟩ =
      !v.isExpired now := by
  unfold Item.shownAt deadlineOf VersionedValue.isExpired
  split
  · rfl
  · simp only [Option.all_some, ← decide_not, Int64.not_lt]

theorem get_write (store : Store) (key : String) (v : VersionedValue)
    (k : String) (now : Int64) :
    (store.write key v).get k now =
      if key = k then shown now (some v) else store.get k now := by
  unfold Store.write Store.get shown
  cases hdeleted : v.deleted with
  | true =>
      rw [if_pos rfl, ExtTreeMap.getElem?_erase]
      simp only [compare_eq_iff_eq]
      split
      · simp [hdeleted]
      · rfl
  | false =>
      rw [if_neg (by simp), ExtTreeMap.getElem?_insert]
      simp only [compare_eq_iff_eq]
      split
      · simp only [Option.filter_some, shownAt_eq, hdeleted, Bool.not_false,
          Bool.and_true]
        split <;> rfl
      · rfl

theorem shown_congr {clock now : Nat} (hlater : Later clock now)
    {found held : Option VersionedValue} (h : AgreesAt clock found held) :
    shown (asI64 now) found = shown (asI64 now) held := by
  rcases h.later hlater with rfl | ⟨rfl, v, rfl, hexpired⟩
  · rfl
  · simp [shown, hexpired]

theorem shown_getRaw (engine : StorageEngine) (key : String) (now : Int64) :
    (engine.get key now).map (·.value) = shown now (engine.getRaw key) := by
  cases hraw : engine.getRaw key with
  | none =>
      have hfound : engine.memtable.data[key]? = none := hraw
      simp [StorageEngine.get, MemTable.get, hfound, shown]
  | some v =>
      have hfound : engine.memtable.data[key]? = some v := hraw
      cases hexpired : v.isExpired now with
      | true => simp [StorageEngine.get, MemTable.get, hfound, shown, hexpired]
      | false =>
          cases hdeleted : v.deleted with
          | true =>
              simp [StorageEngine.get, MemTable.get, hfound, shown, hexpired,
                hdeleted]
          | false =>
              simp [StorageEngine.get, MemTable.get, hfound, shown, hexpired,
                hdeleted]

namespace StorageEngine

/-- At this reading the engine's `get` and `scan` answer as the store does. -/
structure Serves (engine : StorageEngine) (store : Store) (now : Int64) :
    Prop where
  get_eq : ∀ key, (engine.get key now).map (·.value) = store.get key now
  scan_eq : ∀ start stop limit, start ≤ stop →
    (engine.scan start stop limit now).map valueBytes =
      some (store.scan start stop limit now)

theorem serves_of_shown {engine : StorageEngine} {store : Store} {now : Int64}
    (h : ∀ key, shown now (engine.getRaw key) = store.get key now) :
    engine.Serves store now := by
  have hget : ∀ key, (engine.get key now).map (·.value) = store.get key now :=
    fun key => (shown_getRaw engine key now).trans (h key)
  refine ⟨hget, fun start stop limit hle => ?_⟩
  obtain ⟨entries, hshows, -, hscan⟩ := engine.memtable.exists_shows hle now
  have hsame : valueBytes entries = store.visible start stop now := by
    apply (sorted_valueBytes_of_shows hshows).eq_of_mem_iff
      (store.sorted_visible start stop now)
    rintro ⟨key, bytes⟩
    rw [mem_valueBytes_of_shows hshows, store.mem_visible, hget]
  rw [scan, hscan, Option.map_some, valueBytes, List.map_take, Store.scan,
    ← hsame]
  rfl

end StorageEngine

/-! ## The simulation -/

/-- The engine recovers, and with the write in flight counted as done it shows
what the store holds, now and at every later reading. -/
structure Implements (c : Codecs) (config : StorageConfig) (digits : Nat)
    (s : SeqState) (store : Store) : Prop where
  recoverable : Recoverable c config digits s
  shows : ∀ now, Later s.clock now → ∀ key,
    shown (asI64 now) (s.pending key) = store.get key (asI64 now)

theorem Later.trans {clock reading now : Nat} (h : Later clock reading)
    (hnow : Later reading now) : Later clock now :=
  ⟨h.millis.trans hnow.millis, Int64.le_trans h.i64 hnow.i64⟩

namespace Implements

variable {c : Codecs} {config : StorageConfig} {digits : Nat} {s t : SeqState}
  {store : Store}

theorem init (c : Codecs) (config : StorageConfig) (clock : Nat) :
    Implements c config clock.repr.length (.fresh c config clock) ∅ where
  recoverable := .init c config rfl
  shows := fun now _ key => by
    simp [SeqState.pending, SeqState.fresh, shown, Store.get]

/-- A write shows in the store as soon as it is logged. -/
theorem beginWrite (h : Implements c config digits s store)
    (hidle : s.phase = .idle) {reading : Nat} (hlater : Later s.clock reading)
    (key : String) (v : VersionedValue)
    (hnext : Recoverable c config digits (s.beginWrite c key v reading)) :
    Implements c config digits (s.beginWrite c key v reading)
      (store.write key v) where
  recoverable := hnext
  shows := fun now hnow k => by
    have hold := h.shows now (hlater.trans hnow) k
    simp only [SeqState.pending, hidle] at hold
    rw [get_write, ← hold]
    simp only [SeqState.pending, SeqState.beginWrite]
    split <;> rfl

/-- A step that changes nothing in what is shown from its own reading on. -/
theorem quiet (h : Implements c config digits s store)
    (hnext : Recoverable c config digits t) (hlater : Later s.clock t.clock)
    (hsame : ∀ now, Later t.clock now → ∀ key,
      shown (asI64 now) (t.pending key) = shown (asI64 now) (s.pending key)) :
    Implements c config digits t store where
  recoverable := hnext
  shows := fun now hnow key => by
    rw [hsame now hnow]
    exact h.shows now (hlater.trans hnow) key

theorem evict (h : Implements c config digits s store) (hidle : s.phase = .idle)
    {reading : Nat} (hlater : Later s.clock reading)
    (hnext : Recoverable c config digits
      ⟨s.engine.evictExpired (asI64 reading), .idle, reading⟩) :
    Implements c config digits
      ⟨s.engine.evictExpired (asI64 reading), .idle, reading⟩ store := by
  refine h.quiet hnext hlater fun now hnow key => ?_
  have hraw : (s.engine.evictExpired (asI64 reading)).getRaw key =
      (s.engine.getRaw key).filter fun v => !v.isExpired (asI64 reading) :=
    MemTable.getRaw_evictExpired _ _ _
  simp only [SeqState.pending, hidle, hraw]
  exact (shown_congr hnow (AgreesAt.evict (.inl rfl))).symm

theorem crash (h : Implements c config digits s store) {engine : StorageEngine}
    (hopen : StorageEngine.openEngine c config s.engine.disk = .ok engine)
    (hnext : Recoverable c config digits ⟨engine, .idle, s.clock⟩) :
    Implements c config digits ⟨engine, .idle, s.clock⟩ store := by
  refine h.quiet hnext (.refl _) fun now hnow key => ?_
  obtain ⟨opened, hopened, hentries, -, -⟩ := h.recoverable.exists_opened
  obtain rfl : opened = engine := Except.ok.inj (hopened.symm.trans hopen)
  change shown (asI64 now) (opened.getRaw key) = _
  rw [hentries]
  exact shown_congr hnow (h.recoverable.agrees key)

theorem step (hc : c.Lawful) (hkeep : 1 ≤ config.maxSnapshots)
    {action : SeqAction} (h : Implements c config digits s store)
    (hclock : ClockForward digits s action) (hnext : s.next c action = some t) :
    Implements c config digits t (store.step action) := by
  have hrecoverable := h.recoverable.step hc hkeep hclock hnext
  cases action with
  | put key value =>
      simp only [SeqState.next] at hnext
      split at hnext <;> cases hnext
      rename_i hidle
      exact h.beginWrite hidle (.refl _) key value hrecoverable
  | putRaw key value ttlMs reading =>
      simp only [SeqState.next] at hnext
      split at hnext <;> cases hnext
      rename_i hidle
      exact h.beginWrite hidle hclock.1 key _ hrecoverable
  | delete key reading =>
      simp only [SeqState.next] at hnext
      split at hnext <;> cases hnext
      rename_i hidle
      exact h.beginWrite hidle hclock.1 key _ hrecoverable
  | tableWrite =>
      simp only [SeqState.next] at hnext
      split at hnext <;> cases hnext
      rename_i key value hlogged
      refine h.quiet hrecoverable (.refl _) fun now _ k => ?_
      simp [SeqState.pending, hlogged, StorageEngine.tableWrite,
        StorageEngine.getRaw]
  | save reading =>
      simp only [SeqState.next] at hnext
      split at hnext
      · rename_i hidle
        split at hnext <;> cases hnext
        · exact h.quiet hrecoverable hclock.1 fun now _ k => rfl
        · refine h.quiet hrecoverable hclock.1 fun now _ k => ?_
          simp [SeqState.pending, hidle, StorageEngine.saveSnapshot,
            StorageEngine.getRaw]
      · contradiction
  | cleanup =>
      simp only [SeqState.next] at hnext
      split at hnext <;> cases hnext
      rename_i hsaved
      refine h.quiet hrecoverable (.refl _) fun now _ k => ?_
      simp [SeqState.pending, hsaved, StorageEngine.cleanupSnapshots,
        StorageEngine.getRaw]
  | truncate =>
      simp only [SeqState.next] at hnext
      split at hnext <;> cases hnext
      rename_i hcleaned
      refine h.quiet hrecoverable (.refl _) fun now _ k => ?_
      simp [SeqState.pending, hcleaned, StorageEngine.truncateLog,
        StorageEngine.getRaw]
  | evict reading =>
      simp only [SeqState.next] at hnext
      split at hnext <;> cases hnext
      rename_i hidle
      exact h.evict hidle hclock.1 hrecoverable
  | crash =>
      simp only [SeqState.next] at hnext
      split at hnext <;> cases hnext
      rename_i hopen
      exact h.crash (h.recoverable.config_eq ▸ hopen) hrecoverable

/-- An engine that is not between logging a write and storing it serves the
store. -/
theorem serves (h : Implements c config digits s store)
    (hstored : ∀ key value, s.phase ≠ .logged key value) {now : Nat}
    (hlater : Later s.clock now) : s.engine.Serves store (asI64 now) := by
  refine StorageEngine.serves_of_shown fun key => ?_
  rw [← h.shows now hlater key, SeqState.pending]
  split
  · rename_i k v hlogged
    exact absurd hlogged (hstored k v)
  · rfl

/-- Wherever it stops, the engine opens again and serves the store. -/
theorem reopens (h : Implements c config digits s store) :
    ∃ engine, StorageEngine.openEngine c config s.engine.disk = .ok engine ∧
      ∀ now, Later s.clock now → engine.Serves store (asI64 now) := by
  obtain ⟨engine, hopen, hentries, -, -⟩ := h.recoverable.exists_opened
  refine ⟨engine, hopen, fun now hlater =>
    StorageEngine.serves_of_shown fun key => ?_⟩
  rw [hentries, ← h.shows now hlater key]
  exact shown_congr hlater (h.recoverable.agrees key)

end Implements

/-! ## Whole calls -/

namespace Implements

variable {c : Codecs} {config : StorageConfig} {digits clock reading : Nat}
  {engine : StorageEngine} {store : Store}

theorem tick (h : Implements c config digits ⟨engine, .idle, clock⟩ store)
    (hlater : Later clock reading) (hdigits : reading.repr.length = digits) :
    Implements c config digits ⟨engine, .idle, reading⟩ store :=
  h.quiet (h.recoverable.tick hlater hdigits) hlater fun _ _ _ => rfl

theorem put (hc : c.Lawful) (hkeep : 1 ≤ config.maxSnapshots)
    (h : Implements c config digits ⟨engine, .idle, clock⟩ store) (key : String)
    (v : VersionedValue) :
    Implements c config digits ⟨engine.put c key v, .idle, clock⟩
      (store.write key v) := by
  have hlogged := h.step hc hkeep
    (show ClockForward digits _ (.put key v) from trivial) rfl
  exact hlogged.step hc hkeep
    (show ClockForward digits _ .tableWrite from trivial) rfl

theorem flush (hc : c.Lawful) (hkeep : 1 ≤ config.maxSnapshots)
    (h : Implements c config digits ⟨engine, .idle, clock⟩ store)
    (hlater : Later clock reading) (hdigits : reading.repr.length = digits) :
    Implements c config digits ⟨engine.flush c reading, .idle, reading⟩ store := by
  have hforward : ClockForward digits ⟨engine, .idle, clock⟩ (.save reading) :=
    ⟨hlater, hdigits⟩
  by_cases hempty : engine.memtable.snapshot.isEmpty = true
  · rw [StorageEngine.flush, if_pos hempty]
    exact h.tick hlater hdigits
  · have hsaved := h.step hc hkeep hforward
      (t := ⟨engine.saveSnapshot c engine.memtable.snapshot reading, .saved,
        reading⟩) (by simp [SeqState.next, hempty])
    have hcleaned := hsaved.step hc hkeep
      (show ClockForward digits _ .cleanup from trivial) rfl
    rw [StorageEngine.flush, if_neg hempty]
    exact hcleaned.step hc hkeep
      (show ClockForward digits _ .truncate from trivial) rfl

theorem reopen (hc : c.Lawful) (hkeep : 1 ≤ config.maxSnapshots)
    (h : Implements c config digits ⟨engine, .idle, clock⟩ store) :
    ∃ opened, StorageEngine.openEngine c config engine.disk = .ok opened ∧
      Implements c config digits ⟨opened, .idle, clock⟩ store := by
  obtain ⟨opened, hopen, -, -, -⟩ := h.recoverable.exists_opened
  have hconfig : engine.config = config := h.recoverable.config_eq
  refine ⟨opened, hopen, h.step hc hkeep
    (show ClockForward digits _ .crash from trivial) ?_⟩
  simp only [SeqState.next, hconfig, hopen]

end Implements

/-- After every run of one thread with crashes anywhere, `get` and `scan` answer
as the store that took the run's writes does: before a crash unless a write is
between log and table, and after one in any case. -/
theorem engine_implements_store {c : Codecs} (hc : c.Lawful)
    {config : StorageConfig} (hkeep : 1 ≤ config.maxSnapshots) {clock : Nat}
    {actions : List SeqAction} {s : SeqState}
    (hrun : Run (SeqState.next c) (ClockForward clock.repr.length)
      (.fresh c config clock) actions s) :
    let store : Store := actions.foldl Store.step ∅
    ((∀ key value, s.phase ≠ .logged key value) →
      ∀ now, Later s.clock now → s.engine.Serves store (asI64 now)) ∧
    ∃ engine, StorageEngine.openEngine c config s.engine.disk = .ok engine ∧
      ∀ now, Later s.clock now → engine.Serves store (asI64 now) := by
  intro store
  have h : Implements c config clock.repr.length s store :=
    hrun.simulates (fun _ _ _ _ hs => hs.step hc hkeep) (.init c config clock)
  exact ⟨fun hstored now hlater => h.serves hstored hlater, h.reopens⟩

/-- A crash between the log and the table of a delete. -/
theorem engine_implements_store_cut_delete :
    let actions : List SeqAction :=
      [.putRaw "a" [1] 0 1700000000001, .tableWrite,
        .putRaw "b" [2] 60000 1700000000002, .tableWrite,
        .delete "a" 1700000000003]
    ∃ s, Run (SeqState.next referenceCodecs)
        (ClockForward (1700000000000).repr.length)
        (.fresh referenceCodecs ⟨1048576, 3, "node1"⟩ 1700000000000) actions s ∧
      ∃ engine, StorageEngine.openEngine referenceCodecs
          ⟨1048576, 3, "node1"⟩ s.engine.disk = .ok engine ∧
        (engine.get "a" 1700000000004).map (·.value) = none ∧
        (engine.get "b" 1700000000004).map (·.value) = some [2] ∧
        (engine.scan "a" "z" 10 1700000000004).map valueBytes =
          some [("b", [2])] := by
  intro actions
  have hrun : Run (SeqState.next referenceCodecs)
      (ClockForward (1700000000000).repr.length)
      (.fresh referenceCodecs ⟨1048576, 3, "node1"⟩ 1700000000000) actions _ :=
    .cons ⟨⟨by decide, by decide⟩, by decide⟩ rfl (.cons trivial rfl
      (.cons ⟨⟨by decide, by decide⟩, by decide⟩ rfl (.cons trivial rfl
        (.cons ⟨⟨by decide, by decide⟩, by decide⟩ rfl (.nil _)))))
  obtain ⟨-, engine, hopen, hserves⟩ :=
    engine_implements_store lawful_referenceCodecs (by decide) hrun
  have hnow := hserves 1700000000004 ⟨by decide, by decide⟩
  refine ⟨_, hrun, engine, hopen, ?_, ?_, ?_⟩
  · exact (hnow.get_eq "a").trans (by decide +kernel)
  · exact (hnow.get_eq "b").trans (by decide +kernel)
  · exact (hnow.scan_eq "a" "z" 10 (by decide)).trans (by decide +kernel)

end Rkv.Storage
