import Rkv.Storage.Recovery

/-!
# A snapshot file cut short

`save` writes the new file under its final name, so a crash inside it leaves a
strict prefix of the file where `find_latest` looks first.  Each prefix fails
in its own way (too short for the checksum, checksum mismatch, truncated data),
and `open` passes the error on although the log still holds everything.  Only a
snapshot with a greater name, one written before the clock went back, hides the
cut file.
-/

namespace Rkv.Storage

open Rkv.Foundation

namespace SnapshotManager

variable {c : Codecs}

theorem loadSnapshot_cut (hcut : c.RejectsCut) {data : TableMap} {cut : Bytes}
    (hbegins : cut <+: fileBytes c data) (hne : cut ≠ fileBytes c data) :
    ∃ e, loadSnapshot c cut = .error e := by
  by_cases hshort : cut.length < 4
  · exact ⟨.unexpectedEof, by simp [loadSnapshot, hshort]⟩
  · have hhead : leBytes 4 (c.crc32 (c.bincodeSerialize data)).toNat <+: cut :=
      List.prefix_of_prefix_length_le (List.prefix_append _ _) hbegins
        (by simpa using Nat.le_of_not_lt hshort)
    obtain ⟨rest, rfl⟩ := hhead
    have hrest : rest <+: c.bincodeSerialize data :=
      (List.prefix_append_right_inj _).mp hbegins
    have hrestNe : rest ≠ c.bincodeSerialize data := by
      rintro rfl
      exact hne rfl
    unfold loadSnapshot
    rw [if_neg hshort, List.drop_left' (length_leBytes 4 _)]
    dsimp only
    split
    · exact ⟨_, rfl⟩
    · exact ⟨.invalidData, by rw [hcut data rest hrest hrestNe]⟩

def Valid (c : Codecs) (dir : SnapshotDir) : Prop :=
  ∀ name bytes, dir[name]? = some bytes → isSnapshotName name = true →
    ∃ data, loadSnapshot c bytes = .ok data

theorem Valid.loadLatest {dir : SnapshotDir} (h : Valid c dir) :
    ∃ snapshot, loadLatest c dir = .ok snapshot := by
  cases hlatest : findLatest dir with
  | none => exact ⟨none, by simp [SnapshotManager.loadLatest, hlatest]⟩
  | some latest =>
      obtain ⟨hmem, hsnapshot⟩ := (findLatest_eq_some_iff.mp hlatest).1
      obtain ⟨bytes, hbytes⟩ := Option.isSome_iff_exists.mp
        (Std.ExtTreeMap.isSome_getElem?_iff_mem.mpr hmem)
      obtain ⟨data, hdata⟩ := h latest bytes hbytes hsnapshot
      refine ⟨some data, ?_⟩
      simp only [SnapshotManager.loadLatest, hlatest, hbytes, hdata]
      rfl

end SnapshotManager

/-- What a crash inside the `save` of a flush leaves on disk. -/
def StorageEngine.diskInsideSave (engine : StorageEngine) (timestamp : Nat)
    (cut : Bytes) : Disk :=
  ⟨engine.wal.file, engine.snapshots.insert (snapshotName timestamp) cut⟩

/-- Opening recovers what it would have without the flush exactly when an older
snapshot has a greater name than the new one. -/
theorem open_inside_save_iff {c : Codecs} (hcut : c.RejectsCut)
    (engine : StorageEngine)
    (hvalid : SnapshotManager.Valid c engine.snapshots) (timestamp : Nat)
    (cut : Bytes)
    (hbegins : cut <+: SnapshotManager.fileBytes c engine.memtable.snapshot)
    (hne : cut ≠ SnapshotManager.fileBytes c engine.memtable.snapshot) :
    (∃ recovered baseline,
      StorageEngine.openEngine c engine.config
        (engine.diskInsideSave timestamp cut) = .ok recovered ∧
      StorageEngine.openEngine c engine.config engine.disk = .ok baseline ∧
      ∀ now key, unexpired now (recovered.getRaw key) =
        unexpired now (baseline.getRaw key)) ↔
      ∃ newer ∈ engine.snapshots, isSnapshotName newer = true ∧
        snapshotName timestamp < newer := by
  constructor
  · rintro ⟨recovered, -, hopen, -, -⟩
    by_contra hnone
    have hgreatest : ∀ other ∈ engine.snapshots, isSnapshotName other →
        other ≤ snapshotName timestamp := by
      intro other hother hsnapshot
      by_contra hlt
      exact hnone ⟨other, hother, hsnapshot, not_le.mp hlt⟩
    obtain ⟨e, herror⟩ := SnapshotManager.loadSnapshot_cut hcut hbegins hne
    have hload : SnapshotManager.loadLatest c
        (engine.diskInsideSave timestamp cut).snapshots = .error e := by
      rw [StorageEngine.diskInsideSave,
        SnapshotManager.loadLatest_insert_greatest
          (SnapshotManager.isSnapshotName_snapshotName _) hgreatest, herror]
      rfl
    simp [StorageEngine.openEngine, hload] at hopen
  · rintro ⟨newer, hnewer, hsnapshot, hlt⟩
    obtain ⟨snapshot, hload⟩ := hvalid.loadLatest
    have hsame : SnapshotManager.loadLatest c
        (engine.diskInsideSave timestamp cut).snapshots = .ok snapshot := by
      rw [← hload]
      exact SnapshotManager.loadLatest_insert_smaller hnewer hsnapshot hlt cut
    obtain ⟨recovered, hopen, hentries, -, -⟩ :=
      Disk.openEngine_ok hsame engine.config
    have hbefore : SnapshotManager.loadLatest c engine.disk.snapshots =
        .ok snapshot := hload
    obtain ⟨baseline, hbase, hbaseline, -, -⟩ :=
      Disk.openEngine_ok hbefore engine.config
    refine ⟨recovered, baseline, hopen, hbase, fun now key => ?_⟩
    have hdisk : (engine.diskInsideSave timestamp cut).entry c key =
        engine.disk.entry c key := by
      simp only [Disk.entry, hsame]
      simp only [StorageEngine.disk, hload]
      rfl
    rw [hentries, hbaseline, hdisk]

theorem open_inside_first_save :
    let c := referenceCodecs
    let engine := (StorageEngine.fresh c ⟨1048576, 3, "node1"⟩).putRaw c "k" [1] 0
      1700000000000
    c.RejectsCut ∧ SnapshotManager.Valid c engine.snapshots ∧
      [] <+: SnapshotManager.fileBytes c engine.memtable.snapshot ∧
      [] ≠ SnapshotManager.fileBytes c engine.memtable.snapshot ∧
      ((∃ recovered baseline,
        StorageEngine.openEngine c engine.config
          (engine.diskInsideSave 1700000000001 []) = .ok recovered ∧
        StorageEngine.openEngine c engine.config engine.disk = .ok baseline ∧
        ∀ now key, unexpired now (recovered.getRaw key) =
          unexpired now (baseline.getRaw key)) ↔
        ∃ newer ∈ engine.snapshots, isSnapshotName newer = true ∧
          snapshotName 1700000000001 < newer) := by
  intro c engine
  have hvalid : SnapshotManager.Valid c engine.snapshots := by
    intro name bytes hbytes
    change (∅ : SnapshotDir)[name]? = some bytes at hbytes
    simp at hbytes
  have hne : [] ≠ SnapshotManager.fileBytes c engine.memtable.snapshot := by
    simp [SnapshotManager.fileBytes, leBytes]
  exact ⟨rejectsCut_referenceCodecs, hvalid, List.nil_prefix, hne,
    open_inside_save_iff rejectsCut_referenceCodecs engine hvalid 1700000000001
      [] List.nil_prefix hne⟩

/-- A first flush that stops before its first byte makes the engine unable to
open, although the log has all its entries. -/
theorem empty_snapshot_blocks_open :
    let c := referenceCodecs
    let engine := (StorageEngine.fresh c ⟨1048576, 3, "node1"⟩).putRaw c "k" [1] 0
      1700000000000
    engine.memtable.snapshot.isEmpty = false ∧
      SnapshotManager.Valid c engine.snapshots ∧
      [] <+: SnapshotManager.fileBytes c engine.memtable.snapshot ∧
      [] ≠ SnapshotManager.fileBytes c engine.memtable.snapshot ∧
      StorageEngine.openEngine c engine.config
        (engine.diskInsideSave 1700000000001 []) = .error .unexpectedEof := by
  intro c engine
  refine ⟨rfl, fun name bytes hbytes => ?_, List.nil_prefix, ?_, ?_⟩
  · change (∅ : SnapshotDir)[name]? = some bytes at hbytes
    simp at hbytes
  · simp [SnapshotManager.fileBytes, leBytes]
  · have hload : SnapshotManager.loadLatest c
        (engine.diskInsideSave 1700000000001 []).snapshots =
          .error .unexpectedEof := by
      change SnapshotManager.loadLatest c
        ((∅ : SnapshotDir).insert (snapshotName 1700000000001) []) = _
      rw [SnapshotManager.loadLatest_insert_greatest
        (SnapshotManager.isSnapshotName_snapshotName _) (by simp)]
      rfl
    simp [StorageEngine.openEngine, hload]

end Rkv.Storage
