import Rkv.Storage.Snapshot

/-!
# Cleaning up snapshots

`find_latest` and `cleanup` list the directory, keep the snapshot names and sort
them.  The listing comes in any order, and `cleanup` stops at the first file it
cannot remove.  What it has removed by then are the smallest names, so the
snapshot that recovery would read is never among them.
-/

namespace Rkv.Storage

open Std (ExtTreeMap)

namespace SnapshotManager

/-- The names that `read_dir` yields: every file once, in some order. -/
def Lists (listing : List String) (dir : SnapshotDir) : Prop :=
  listing.Perm dir.keys

instance (listing : List String) (dir : SnapshotDir) :
    Decidable (Lists listing dir) :=
  inferInstanceAs (Decidable (List.Perm _ _))

def findLatestIn (listing : List String) : Option String :=
  (snapshotNames listing).getLast?

/-- The loop of `cleanup`; `none` is the error of a failing `remove_file`. -/
def removeFiles (fails : String → Bool) :
    List String → SnapshotDir → Nat → SnapshotDir × Option Nat
  | [], dir, removed => (dir, some removed)
  | name :: rest, dir, removed =>
      if fails name then (dir, none)
      else removeFiles fails rest (dir.erase name) (removed + 1)

def cleanupIn (listing : List String) (fails : String → Bool)
    (dir : SnapshotDir) (keep : Nat) : SnapshotDir × Option Nat :=
  let snapshots := snapshotNames listing
  if keep < snapshots.length then
    removeFiles fails (snapshots.take (snapshots.length - keep)) dir 0
  else (dir, some 0)

variable {dir : SnapshotDir} {listing : List String} {fails : String → Bool}

/-! ## The order of the listing -/

theorem snapshotNames_eq_of_lists (h : Lists listing dir) :
    snapshotNames listing = snapshotNames dir.keys := by
  have hperm : (snapshotNames listing).Perm (snapshotNames dir.keys) :=
    ((List.perm_insertionSort _ _).trans (h.filter _)).trans
      (List.perm_insertionSort _ _).symm
  exact hperm.eq_of_pairwise (fun _ _ _ _ => le_antisymm)
    (snapshotNames_sorted listing) (snapshotNames_sorted dir.keys)

theorem findLatestIn_eq (h : Lists listing dir) :
    findLatestIn listing = findLatest dir := by
  rw [findLatestIn, snapshotNames_eq_of_lists h, findLatest]

/-! ## The removals -/

/-- What has been removed when the loop ends is a first part of the list. -/
theorem removeFiles_spec (fails : String → Bool) (names : List String)
    (dir : SnapshotDir) (removed : Nat) :
    ∃ done rest, names = done ++ rest ∧
      (removeFiles fails names dir removed).1 =
        done.foldl (fun d name => d.erase name) dir ∧
      ((∀ name ∈ names, fails name = false) → rest = [] ∧
        (removeFiles fails names dir removed).2 =
          some (removed + names.length)) := by
  induction names generalizing dir removed with
  | nil => exact ⟨[], [], rfl, rfl, fun _ => ⟨rfl, rfl⟩⟩
  | cons name names ih =>
      rw [removeFiles]
      cases hfails : fails name with
      | true =>
          refine ⟨[], name :: names, rfl, rfl, fun hall => ?_⟩
          rw [hall name List.mem_cons_self] at hfails
          contradiction
      | false =>
          obtain ⟨done, rest, rfl, hdir, hcount⟩ :=
            ih (dir.erase name) (removed + 1)
          refine ⟨name :: done, rest, rfl, hdir, fun hall => ?_⟩
          obtain ⟨hrest, hcount⟩ :=
            hcount fun n hn => hall n (List.mem_cons_of_mem _ hn)
          refine ⟨hrest, hcount.trans ?_⟩
          rw [List.length_cons, Nat.add_assoc, Nat.add_comm 1]

/-- `cleanup` is the loop over all but the last `keep` names. -/
theorem cleanupIn_eq (listing : List String) (fails : String → Bool)
    (dir : SnapshotDir) (keep : Nat) :
    cleanupIn listing fails dir keep =
      removeFiles fails ((snapshotNames listing).take
        ((snapshotNames listing).length - keep)) dir 0 := by
  unfold cleanupIn
  dsimp only
  split
  · rfl
  · rename_i hfew
    rw [Nat.sub_eq_zero_of_le (not_lt.mp hfew), List.take_zero, removeFiles]

/-- Without failures and with the names in order it is the cleanup of a flush. -/
theorem cleanupIn_keys (dir : SnapshotDir) (keep : Nat) :
    cleanupIn dir.keys (fun _ => false) dir keep =
      ((cleanup dir keep).1, some (cleanup dir keep).2) := by
  have hloop : ∀ (names : List String) (d : SnapshotDir) (removed : Nat),
      removeFiles (fun _ => false) names d removed =
        (names.foldl (fun d name => d.erase name) d,
          some (removed + names.length)) := by
    intro names
    induction names with
    | nil => exact fun _ _ => rfl
    | cons name names ih =>
        intro d removed
        rw [removeFiles, if_neg Bool.false_ne_true, ih, List.foldl_cons,
          List.length_cons, Nat.add_assoc, Nat.add_comm 1]
  unfold cleanupIn cleanup
  dsimp only
  split
  · rw [hloop, Nat.zero_add]
  · rfl

/-! ## What is left -/

/-- Once the first names are removed the others are the snapshots. -/
theorem length_snapshotNames_foldl_erase (dir : SnapshotDir) (n : Nat) :
    (snapshotNames (((snapshotNames dir.keys).take n).foldl
      (fun d name => d.erase name) dir).keys).length =
        ((snapshotNames dir.keys).drop n).length := by
  apply List.Perm.length_eq
  refine (List.perm_ext_iff_of_nodup (snapshotNames_nodup _)
    ((snapshotNames_nodup dir).sublist (List.drop_sublist _ _))).mpr ?_
  intro name
  rw [mem_snapshotNames, ExtTreeMap.mem_keys, mem_foldl_erase]
  constructor
  · rintro ⟨⟨hmem, hnot⟩, hsnapshot⟩
    have hname : name ∈ snapshotNames dir.keys :=
      mem_snapshotNames.mpr ⟨ExtTreeMap.mem_keys.mpr hmem, hsnapshot⟩
    rw [← List.take_append_drop n (snapshotNames dir.keys)] at hname
    exact (List.mem_append.mp hname).resolve_left hnot
  · intro hname
    obtain ⟨hlisted, hsnapshot⟩ := mem_snapshotNames.mp (List.mem_of_mem_drop hname)
    refine ⟨⟨ExtTreeMap.mem_keys.mp hlisted, fun hremoved => ?_⟩, hsnapshot⟩
    exact absurd (lt_of_mem_take_of_mem_drop dir hremoved hname) (lt_irrefl name)

/-- Whether it completes or stops at a failing removal, `cleanup` removes only
snapshots smaller than those it was to keep, and the latest one stays.  Without
a failure it keeps as many as asked for or as there are. -/
theorem cleanup_keeps_latest (dir : SnapshotDir) (listing : List String)
    (hlisting : Lists listing dir) (fails : String → Bool) (keep : Nat)
    (hkeep : 1 ≤ keep) :
    let snapshots := snapshotNames listing
    let count := snapshots.length - keep
    let result := cleanupIn listing fails dir keep
    (∀ name, result.1[name]? = dir[name]? ∨
      (result.1[name]? = none ∧ isSnapshotName name = true ∧
        ∀ kept ∈ snapshots.drop count, name < kept)) ∧
    (∀ relisting, Lists relisting result.1 →
      findLatestIn relisting = findLatestIn listing) ∧
    ((∀ name ∈ snapshots.take count, fails name = false) →
      result.2 = some (snapshots.length - min snapshots.length keep) ∧
        ∀ relisting, Lists relisting result.1 →
          (snapshotNames relisting).length = min snapshots.length keep) := by
  intro snapshots count result
  have hnames : snapshots = snapshotNames dir.keys :=
    snapshotNames_eq_of_lists hlisting
  obtain ⟨done, rest, hsplit, hdir, hall⟩ :=
    removeFiles_spec fails (snapshots.take count) dir 0
  rw [← cleanupIn_eq] at hdir hall
  change result.1 = _ at hdir
  have hdone : ∀ name ∈ done, name ∈ snapshots.take count := fun name hname =>
    hsplit ▸ List.mem_append_left rest hname
  refine ⟨fun name => ?_, fun relisting hrelisting => ?_, fun hnone => ?_⟩
  · rw [hdir, getElem?_foldl_erase]
    split
    · rename_i hname
      have hremoved := hdone name hname
      refine .inr ⟨rfl, ?_, fun kept hkept => ?_⟩
      · exact (mem_snapshotNames.mp (List.mem_of_mem_take hremoved)).2
      · rw [hnames] at hremoved hkept
        exact lt_of_mem_take_of_mem_drop dir hremoved hkept
    · exact .inl rfl
  · rw [findLatestIn_eq hrelisting, findLatestIn_eq hlisting, hdir]
    apply findLatest_foldl_erase
    intro latest hlatest hremoved
    have hkept : latest ∉ snapshots.take (snapshots.length - keep) := by
      rw [hnames]
      exact latest_notMem_take hlatest hkeep
    exact hkept (hdone latest hremoved)
  · obtain ⟨rfl, hcount⟩ := hall hnone
    rw [List.append_nil] at hsplit
    refine ⟨hcount.trans ?_, fun relisting hrelisting => ?_⟩
    · rw [List.length_take, Nat.zero_add]
      congr 1
      omega
    · rw [snapshotNames_eq_of_lists hrelisting, hdir, ← hsplit, hnames,
        length_snapshotNames_foldl_erase, List.length_drop, ← hnames]
      omega

/-- Three snapshots and another file listed out of order, two to keep: the
removal of the oldest fails, or succeeds. -/
theorem cleanup_keeps_latest_of_three :
    let files : List (String × Bytes) := [("snapshot_1700000000000.dat", [1]),
      ("snapshot_1700000060000.dat", [2]), ("snapshot_1700000120000.dat", [3]),
      ("notes.txt", [])]
    let dir : SnapshotDir := .ofList files
    let listing := ["snapshot_1700000120000.dat", "notes.txt",
      "snapshot_1700000000000.dat", "snapshot_1700000060000.dat"]
    Lists listing dir ∧
      (∀ relisting, Lists relisting (cleanupIn listing (fun _ => true) dir 2).1 →
        findLatestIn relisting = findLatestIn listing) ∧
      (cleanupIn listing (fun _ => false) dir 2).2 = some 1 := by
  intro files dir listing
  have hlisting : Lists listing dir := by decide +kernel
  obtain ⟨-, hlatest, -⟩ :=
    cleanup_keeps_latest dir listing hlisting (fun _ => true) 2 (by decide)
  obtain ⟨-, -, hcount⟩ :=
    cleanup_keeps_latest dir listing hlisting (fun _ => false) 2 (by decide)
  refine ⟨hlisting, hlatest, (hcount fun _ _ => rfl).1.trans ?_⟩
  decide +kernel

end SnapshotManager

end Rkv.Storage
