import Rkv.Foundation.Decimal
import Rkv.Storage.Wal

/-!
# Snapshot files

`storage/snapshot.rs` over a directory of named files.  Recovery takes the
snapshot whose name is greatest, and names are compared as strings; a save
names its file by a wall-clock reading in milliseconds.
-/

namespace Rkv.Storage

open Std (ExtTreeMap)
open Rkv.Foundation

abbrev SnapshotDir := ExtTreeMap String Bytes

inductive SnapshotError where
  | notFound
  | unexpectedEof
  | checksumMismatch (expected actual : UInt32)
  | invalidData
  deriving DecidableEq, Repr

def snapshotName (timestamp : Nat) : String :=
  "snapshot_" ++ timestamp.repr ++ ".dat"

def isSnapshotName (name : String) : Bool :=
  "snapshot_".toList.isPrefixOf name.toList &&
    ".dat".toList.isSuffixOf name.toList

namespace SnapshotManager

/-- Checksum (four bytes, little-endian), then the serialized table. -/
def fileBytes (c : Codecs) (data : TableMap) : Bytes :=
  let serialized := c.bincodeSerialize data
  leBytes 4 (c.crc32 serialized).toNat ++ serialized

def save (c : Codecs) (dir : SnapshotDir) (data : TableMap)
    (timestamp : Nat) : SnapshotDir :=
  dir.insert (snapshotName timestamp) (fileBytes c data)

def loadSnapshot (c : Codecs) (bytes : Bytes) : Except SnapshotError TableMap :=
  if bytes.length < 4 then .error .unexpectedEof
  else
    let expected := UInt32.ofNat (ofLeBytes (bytes.take 4))
    let actual := c.crc32 (bytes.drop 4)
    if expected ≠ actual then .error (.checksumMismatch expected actual)
    else
      match c.bincodeDeserialize (bytes.drop 4) with
      | some data => .ok data
      | none => .error .invalidData

def snapshotNames (listing : List String) : List String :=
  (listing.filter isSnapshotName).insertionSort (· ≤ ·)

def findLatest (dir : SnapshotDir) : Option String :=
  (snapshotNames dir.keys).getLast?

def loadLatest (c : Codecs) (dir : SnapshotDir) :
    Except SnapshotError (Option TableMap) :=
  match findLatest dir with
  | none => .ok none
  | some name =>
      match dir[name]? with
      | none => .error .notFound
      | some bytes => (loadSnapshot c bytes).map some

/-- Removes the oldest snapshots; returns how many it removed. -/
def cleanup (dir : SnapshotDir) (keep : Nat) : SnapshotDir × Nat :=
  let snapshots := snapshotNames dir.keys
  if keep < snapshots.length then
    let toRemove := snapshots.take (snapshots.length - keep)
    (toRemove.foldl (fun d name => d.erase name) dir, toRemove.length)
  else (dir, 0)

/-! ## Names -/

theorem isSnapshotName_snapshotName (timestamp : Nat) :
    isSnapshotName (snapshotName timestamp) = true := by
  simp only [isSnapshotName, snapshotName, String.toList_append,
    Bool.and_eq_true, List.isPrefixOf_iff_prefix, List.isSuffixOf_iff_suffix]
  refine ⟨?_, List.suffix_append _ _⟩
  rw [List.append_assoc]
  exact List.prefix_append _ _

theorem snapshotName_le {t u : Nat} (hle : t ≤ u)
    (hlen : t.repr.length = u.repr.length) :
    snapshotName t ≤ snapshotName u := by
  have hdigits : (decimal t).length = (decimal u).length := by
    simpa only [decimal, ← Nat.toList_repr, String.length_toList] using hlen
  rw [String.le_iff_toList_le]
  simpa [snapshotName, decimal] using
    append_decimal_le hle hdigits "snapshot_".toList ".dat".toList

/-! ## The latest snapshot -/

theorem mem_snapshotNames {listing : List String} {name : String} :
    name ∈ snapshotNames listing ↔ name ∈ listing ∧ isSnapshotName name := by
  simp [snapshotNames, List.mem_insertionSort]

theorem snapshotNames_sorted (listing : List String) :
    (snapshotNames listing).Pairwise (· ≤ ·) :=
  List.pairwise_insertionSort _ _

private theorem getLast?_eq_some_iff_of_sorted {names : List String}
    (h : names.Pairwise (· ≤ ·)) {name : String} :
    names.getLast? = some name ↔
      name ∈ names ∧ ∀ other ∈ names, other ≤ name := by
  constructor
  · intro hlast
    obtain ⟨init, rfl⟩ := List.getLast?_eq_some_iff.mp hlast
    refine ⟨by simp, fun other hother => ?_⟩
    rcases List.mem_append.mp hother with hinit | hself
    · exact (List.pairwise_append.mp h).2.2 other hinit name (by simp)
    · exact (List.mem_singleton.mp hself).le
  · rintro ⟨hmem, hmax⟩
    have hne : names ≠ [] := List.ne_nil_of_mem hmem
    obtain ⟨last, hlast⟩ : ∃ last, names.getLast? = some last :=
      ⟨_, List.getLast?_eq_some_getLast hne⟩
    obtain ⟨init, rfl⟩ := List.getLast?_eq_some_iff.mp hlast
    have hle : last ≤ name := hmax last (by simp)
    have hge : name ≤ last := by
      rcases List.mem_append.mp hmem with hinit | hself
      · exact (List.pairwise_append.mp h).2.2 name hinit last (by simp)
      · exact (List.mem_singleton.mp hself).le
    rw [hlast, le_antisymm hle hge]

theorem findLatest_eq_some_iff {dir : SnapshotDir} {name : String} :
    findLatest dir = some name ↔
      (name ∈ dir ∧ isSnapshotName name) ∧
        ∀ other ∈ dir, isSnapshotName other → other ≤ name := by
  rw [findLatest, getLast?_eq_some_iff_of_sorted (snapshotNames_sorted _)]
  simp [mem_snapshotNames]

/-- A file whose name no snapshot exceeds is the one recovery reads. -/
theorem loadLatest_insert_greatest {c : Codecs} {dir : SnapshotDir}
    {name : String} (hname : isSnapshotName name = true)
    (hgreatest : ∀ other ∈ dir, isSnapshotName other → other ≤ name)
    (bytes : Bytes) :
    loadLatest c (dir.insert name bytes) = (loadSnapshot c bytes).map some := by
  have hlatest : findLatest (dir.insert name bytes) = some name := by
    rw [findLatest_eq_some_iff]
    refine ⟨⟨by simp, hname⟩, fun other hother hsnapshot => ?_⟩
    rcases ExtTreeMap.mem_insert.mp hother with heq | hmem
    · exact (compare_eq_iff_eq.mp heq).ge
    · exact hgreatest other hmem hsnapshot
  simp [loadLatest, hlatest]

theorem loadLatest_insert_smaller {c : Codecs} {dir : SnapshotDir}
    {name newer : String} (hnewer : newer ∈ dir)
    (hsnapshot : isSnapshotName newer = true) (hlt : name < newer)
    (bytes : Bytes) :
    loadLatest c (dir.insert name bytes) = loadLatest c dir := by
  have hnonempty : snapshotNames dir.keys ≠ [] :=
    List.ne_nil_of_mem (mem_snapshotNames.mpr
      ⟨ExtTreeMap.mem_keys.mpr hnewer, hsnapshot⟩)
  obtain ⟨latest, hlatest⟩ : ∃ latest, findLatest dir = some latest :=
    ⟨_, List.getLast?_eq_some_getLast hnonempty⟩
  have hspec := findLatest_eq_some_iff.mp hlatest
  have hbelow : name < latest := hlt.trans_le (hspec.2 newer hnewer hsnapshot)
  have hinserted : findLatest (dir.insert name bytes) = some latest := by
    rw [findLatest_eq_some_iff]
    refine ⟨⟨by simp [hspec.1.1], hspec.1.2⟩, fun other hother ho => ?_⟩
    rcases ExtTreeMap.mem_insert.mp hother with heq | hmem
    · exact (compare_eq_iff_eq.mp heq) ▸ hbelow.le
    · exact hspec.2 other hmem ho
  simp only [loadLatest, hlatest, hinserted, ExtTreeMap.getElem?_insert]
  rw [if_neg (by simpa using hbelow.ne)]

/-! ## Save and load -/

theorem loadLatest_empty (c : Codecs) : loadLatest c ∅ = .ok none := rfl

theorem loadSnapshot_fileBytes {c : Codecs} (hc : c.Lawful) (data : TableMap) :
    loadSnapshot c (fileBytes c data) = .ok data := by
  have hchecksum : ∀ checksum : UInt32,
      UInt32.ofNat (ofLeBytes (leBytes 4 checksum.toNat)) = checksum := by
    intro checksum
    rw [ofLeBytes_leBytes _ _ (by simpa using checksum.toNat_lt)]
    simp
  have htake : ∀ checksum rest, (leBytes 4 checksum ++ rest).take 4 =
      leBytes 4 checksum := fun checksum rest => by
    rw [List.take_left' (length_leBytes 4 checksum)]
  have hdrop : ∀ checksum rest, (leBytes 4 checksum ++ rest).drop 4 = rest :=
    fun checksum rest => by
      rw [List.drop_left' (length_leBytes 4 checksum)]
  simp [loadSnapshot, fileBytes, htake, hdrop, hchecksum, hc.roundTrip]

theorem loadLatest_save {c : Codecs} (hc : c.Lawful) {dir : SnapshotDir}
    {timestamp : Nat}
    (hnames : ∀ name ∈ dir, isSnapshotName name →
      name ≤ snapshotName timestamp) (data : TableMap) :
    loadLatest c (save c dir data timestamp) = .ok (some data) := by
  rw [save, loadLatest_insert_greatest (isSnapshotName_snapshotName _) hnames,
    loadSnapshot_fileBytes hc]
  rfl

/-! ## Cleanup -/

theorem getElem?_foldl_erase (names : List String) (dir : SnapshotDir)
    (name : String) :
    (names.foldl (fun d n => d.erase n) dir)[name]? =
      if name ∈ names then none else dir[name]? := by
  induction names generalizing dir with
  | nil => simp
  | cons head names ih =>
      rw [List.foldl_cons, ih, ExtTreeMap.getElem?_erase]
      by_cases hmem : name ∈ names
      · simp [hmem]
      · by_cases hhead : head = name
        · simp [hhead]
        · simp [hmem, hhead, Ne.symm hhead]

theorem mem_foldl_erase {dir : SnapshotDir} {names : List String}
    {name : String} :
    name ∈ names.foldl (fun d n => d.erase n) dir ↔
      name ∈ dir ∧ name ∉ names := by
  rw [← ExtTreeMap.isSome_getElem?_iff_mem, getElem?_foldl_erase]
  split
  · rename_i hmem
    simp [hmem]
  · rename_i hkept
    rw [ExtTreeMap.isSome_getElem?_iff_mem]
    simp [hkept]

/-- All but the last `keep` names are removed. -/
theorem cleanup_eq (dir : SnapshotDir) (keep : Nat) :
    (cleanup dir keep).1 = ((snapshotNames dir.keys).take
      ((snapshotNames dir.keys).length - keep)).foldl
        (fun d name => d.erase name) dir := by
  unfold cleanup
  dsimp only
  split
  · rfl
  · rename_i hfew
    rw [Nat.sub_eq_zero_of_le (not_lt.mp hfew), List.take_zero, List.foldl_nil]

theorem mem_of_mem_cleanup {dir : SnapshotDir} {keep : Nat} {name : String}
    (h : name ∈ (cleanup dir keep).1) : name ∈ dir := by
  rw [cleanup_eq] at h
  exact (mem_foldl_erase.mp h).1

theorem snapshotNames_nodup (dir : SnapshotDir) :
    (snapshotNames dir.keys).Nodup := by
  rw [snapshotNames, List.Perm.nodup_iff (List.perm_insertionSort _ _)]
  apply List.Nodup.filter
  refine dir.distinct_keys.imp fun hne heq => ?_
  exact hne (compare_eq_iff_eq.mpr heq)

theorem snapshotNames_strictly_sorted (dir : SnapshotDir) :
    (snapshotNames dir.keys).Pairwise (· < ·) :=
  (snapshotNames_sorted dir.keys).imp₂ (fun _ _ => lt_of_le_of_ne)
    (snapshotNames_nodup dir)

theorem lt_of_mem_take_of_mem_drop (dir : SnapshotDir) {n : Nat}
    {name kept : String} (hname : name ∈ (snapshotNames dir.keys).take n)
    (hkept : kept ∈ (snapshotNames dir.keys).drop n) : name < kept := by
  have hsorted := snapshotNames_strictly_sorted dir
  rw [← List.take_append_drop n (snapshotNames dir.keys)] at hsorted
  exact (List.pairwise_append.mp hsorted).2.2 name hname kept hkept

theorem latest_mem_drop {dir : SnapshotDir} {latest : String}
    (h : findLatest dir = some latest) {keep : Nat} (hkeep : 1 ≤ keep) :
    latest ∈ (snapshotNames dir.keys).drop
      ((snapshotNames dir.keys).length - keep) := by
  obtain ⟨init, hinit⟩ := List.getLast?_eq_some_iff.mp h
  rw [hinit, List.drop_append_of_le_length (by simp; omega)]
  simp

/-- The greatest name is not among those removed while one is to be kept. -/
theorem latest_notMem_take {dir : SnapshotDir} {latest : String}
    (h : findLatest dir = some latest) {keep : Nat} (hkeep : 1 ≤ keep) :
    latest ∉ (snapshotNames dir.keys).take
      ((snapshotNames dir.keys).length - keep) := by
  intro htaken
  have hlt := lt_of_mem_take_of_mem_drop dir htaken (latest_mem_drop h hkeep)
  exact absurd hlt (lt_irrefl latest)

/-- Removing other files does not change which snapshot is the latest. -/
theorem findLatest_foldl_erase {dir : SnapshotDir} {names : List String}
    (h : ∀ latest, findLatest dir = some latest → latest ∉ names) :
    findLatest (names.foldl (fun d n => d.erase n) dir) = findLatest dir := by
  cases hlatest : findLatest dir with
  | some latest =>
      obtain ⟨⟨hmem, hsnapshot⟩, hgreatest⟩ := findLatest_eq_some_iff.mp hlatest
      rw [findLatest_eq_some_iff]
      refine ⟨⟨mem_foldl_erase.mpr ⟨hmem, h latest hlatest⟩, hsnapshot⟩, ?_⟩
      intro other hother
      exact hgreatest other (mem_foldl_erase.mp hother).1
  | none =>
      rw [findLatest, List.getLast?_eq_none_iff] at hlatest ⊢
      rw [List.eq_nil_iff_forall_not_mem] at hlatest ⊢
      intro name hname
      obtain ⟨hlisted, hsnapshot⟩ := mem_snapshotNames.mp hname
      have hmem := (mem_foldl_erase.mp (ExtTreeMap.mem_keys.mp hlisted)).1
      exact hlatest name
        (mem_snapshotNames.mpr ⟨ExtTreeMap.mem_keys.mpr hmem, hsnapshot⟩)

theorem loadLatest_cleanup {c : Codecs} {dir : SnapshotDir} {keep : Nat}
    (hkeep : 1 ≤ keep) :
    loadLatest c (cleanup dir keep).1 = loadLatest c dir := by
  rw [cleanup_eq]
  unfold loadLatest
  rw [findLatest_foldl_erase fun latest hlatest =>
    latest_notMem_take hlatest hkeep]
  cases hlatest : findLatest dir with
  | none => rfl
  | some latest =>
      dsimp only
      rw [getElem?_foldl_erase, if_neg (latest_notMem_take hlatest hkeep)]

end SnapshotManager

end Rkv.Storage
