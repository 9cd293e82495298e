import Rkv.Storage.Engine
import Rkv.Storage.ReferenceCodec

/-!
# Which snapshot a flush leaves to recovery

A flush names its file by a wall-clock reading and then empties the log, while
recovery goes by the greatest name.  When the clock has gone back behind the
file of an earlier flush, that file is still the one recovery reads.
-/

namespace Rkv.Storage

open Rkv.Foundation

namespace SnapshotManager

theorem snapshotName_injective : Function.Injective snapshotName := by
  intro t u h
  have hchars := congrArg String.toList h
  simp only [snapshotName, String.toList_append, Nat.toList_repr,
    List.append_cancel_right_eq, List.append_cancel_left_eq] at hchars
  exact decimal_injective hchars

theorem snapshotName_lt {t u : Nat} (hlt : t < u)
    (hlen : t.repr.length = u.repr.length) :
    snapshotName t < snapshotName u :=
  (snapshotName_le hlt.le hlen).lt_of_ne
    (snapshotName_injective.ne hlt.ne)

end SnapshotManager

namespace StorageEngine

variable {c : Codecs} {engine : StorageEngine} {timestamp : Nat}

theorem wal_flush (hdata : engine.memtable.snapshot.isEmpty = false) :
    (engine.flush c timestamp).wal.file = [] := by
  simp [flush, hdata, truncateLog, WriteAheadLog.truncate]

theorem loadLatest_flush (hdata : engine.memtable.snapshot.isEmpty = false)
    (hkeep : 1 ≤ engine.config.maxSnapshots) :
    SnapshotManager.loadLatest c (engine.flush c timestamp).snapshots =
      SnapshotManager.loadLatest c (SnapshotManager.save c engine.snapshots
        engine.memtable.snapshot timestamp) := by
  simp only [flush, hdata, Bool.false_eq_true, if_false]
  exact SnapshotManager.loadLatest_cleanup hkeep

theorem loadLatest_flush_behind
    (hdata : engine.memtable.snapshot.isEmpty = false)
    (hkeep : 1 ≤ engine.config.maxSnapshots) {newer : String}
    (hnewer : newer ∈ engine.snapshots) (hsnapshot : isSnapshotName newer = true)
    (hlt : snapshotName timestamp < newer) :
    SnapshotManager.loadLatest c (engine.flush c timestamp).snapshots =
      SnapshotManager.loadLatest c engine.snapshots := by
  rw [loadLatest_flush hdata hkeep]
  exact SnapshotManager.loadLatest_insert_smaller hnewer hsnapshot hlt _

/-- The flushed table is what recovery reads exactly when no snapshot has a
greater name than the new one, or the latest has the same table already. -/
theorem flushed_snapshot_recovered_iff (hc : c.Lawful)
    (hkeep : 1 ≤ engine.config.maxSnapshots)
    (hdata : engine.memtable.snapshot.isEmpty = false) :
    SnapshotManager.loadLatest c (engine.flush c timestamp).snapshots =
        .ok (some engine.memtable.snapshot) ↔
      (∀ name ∈ engine.snapshots, isSnapshotName name = true →
        name ≤ snapshotName timestamp) ∨
      SnapshotManager.loadLatest c engine.snapshots =
        .ok (some engine.memtable.snapshot) := by
  by_cases hgreatest : ∀ name ∈ engine.snapshots, isSnapshotName name = true →
      name ≤ snapshotName timestamp
  · refine iff_of_true ?_ (.inl hgreatest)
    rw [loadLatest_flush hdata hkeep,
      SnapshotManager.loadLatest_save hc hgreatest]
  · rw [or_iff_right hgreatest]
    push Not at hgreatest
    obtain ⟨newer, hnewer, hsnapshot, hlt⟩ := hgreatest
    rw [loadLatest_flush_behind hdata hkeep hnewer hsnapshot hlt]

/-- A clock that has gone back behind an earlier flush loses the table: nothing
but the older snapshot is left. -/
theorem open_after_clock_back (hkeep : 1 ≤ engine.config.maxSnapshots)
    (hdata : engine.memtable.snapshot.isEmpty = false) {earlier : Nat}
    (hearlier : snapshotName earlier ∈ engine.snapshots)
    (hback : timestamp < earlier)
    (hlen : timestamp.repr.length = earlier.repr.length) {older : TableMap}
    (holder : SnapshotManager.loadLatest c engine.snapshots =
      .ok (some older)) :
    ∃ recovered, openEngine c engine.config (engine.flush c timestamp).disk =
        .ok recovered ∧
      ∀ key, recovered.getRaw key = older[key]? := by
  have hload : SnapshotManager.loadLatest c
      (engine.flush c timestamp).disk.snapshots = .ok (some older) :=
    (loadLatest_flush_behind hdata hkeep hearlier
      (SnapshotManager.isSnapshotName_snapshotName earlier)
      (SnapshotManager.snapshotName_lt hback hlen)).trans holder
  obtain ⟨recovered, hopen, hentries, -, -⟩ :=
    Disk.openEngine_ok hload engine.config
  refine ⟨recovered, hopen, fun key => ?_⟩
  have hlog : (engine.flush c timestamp).disk.wal = [] := wal_flush hdata
  rw [hentries, Disk.entry, hload, hlog]
  simp [logWrites]

def writtenOnce (c : Codecs) : StorageEngine :=
  (fresh c ⟨1048576, 3, "node1"⟩).putRaw c "k" [1] 0 1700000060000

def writtenTwice (c : Codecs) : StorageEngine :=
  ((writtenOnce c).flush c 1700000060000).putRaw c "j" [2] 0 1700000060001

theorem snapshots_writtenTwice (c : Codecs) :
    (writtenTwice c).snapshots = SnapshotManager.save c ∅
      (writtenOnce c).memtable.snapshot 1700000060000 := rfl

theorem snapshot_writtenOnce_ne (c : Codecs) :
    (writtenOnce c).memtable.snapshot ≠ (writtenTwice c).memtable.snapshot := by
  intro hsame
  have hfirst : (writtenOnce c).memtable.snapshot["j"]? = none := rfl
  have hsecond : ((writtenTwice c).memtable.snapshot["j"]?).isSome = true := rfl
  rw [← hsame, hfirst] at hsecond
  contradiction

theorem second_flush_recovered :
    let c := referenceCodecs
    let engine := writtenTwice c
    c.Lawful ∧ 1 ≤ engine.config.maxSnapshots ∧
      engine.memtable.snapshot.isEmpty = false ∧
      SnapshotManager.loadLatest c (engine.flush c 1700000060001).snapshots =
        .ok (some engine.memtable.snapshot) := by
  intro c engine
  have hkeep : 1 ≤ engine.config.maxSnapshots := by decide
  have hdata : engine.memtable.snapshot.isEmpty = false := rfl
  refine ⟨lawful_referenceCodecs, hkeep, hdata,
    (flushed_snapshot_recovered_iff lawful_referenceCodecs hkeep hdata).mpr
      (.inl fun name hname _ => ?_)⟩
  rw [snapshots_writtenTwice, SnapshotManager.save] at hname
  simp only [Std.ExtTreeMap.mem_insert, compare_eq_iff_eq,
    Std.ExtTreeMap.not_mem_empty, or_false] at hname
  exact hname ▸ SnapshotManager.snapshotName_le (by decide) (by decide)

/-- With the clock set back a minute before the second flush, recovery reads the
first one's file. -/
theorem flush_behind_older_snapshot :
    let c := referenceCodecs
    let engine := writtenTwice c
    c.Lawful ∧ 1 ≤ engine.config.maxSnapshots ∧
      engine.memtable.snapshot.isEmpty = false ∧
      SnapshotManager.loadLatest c (engine.flush c 1700000000000).snapshots ≠
        .ok (some engine.memtable.snapshot) := by
  intro c engine
  have hkeep : 1 ≤ engine.config.maxSnapshots := by decide
  have hdata : engine.memtable.snapshot.isEmpty = false := rfl
  refine ⟨lawful_referenceCodecs, hkeep, hdata, ?_⟩
  have hmem : snapshotName 1700000060000 ∈ engine.snapshots := by
    rw [snapshots_writtenTwice]
    exact Std.ExtTreeMap.mem_insert_self
  have hlt : snapshotName 1700000000000 < snapshotName 1700000060000 :=
    SnapshotManager.snapshotName_lt (by decide) (by decide)
  have holder : SnapshotManager.loadLatest c engine.snapshots =
      .ok (some (writtenOnce c).memtable.snapshot) := by
    rw [snapshots_writtenTwice]
    exact SnapshotManager.loadLatest_save lawful_referenceCodecs (by simp) _
  rw [loadLatest_flush_behind hdata hkeep hmem
    (SnapshotManager.isSnapshotName_snapshotName _) hlt, holder]
  intro hsame
  exact snapshot_writtenOnce_ne c (Option.some.inj (Except.ok.inj hsame))

end StorageEngine

end Rkv.Storage
