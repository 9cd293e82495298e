import Rkv.Foundation.Paging
import Rkv.Grpc.Internal
import Rkv.Storage.ReferenceCodec
import Rkv.Storage.Scan

/-!
# Scans over the wire

`KvServiceImpl::scan` answers from the node's own table.  A client reads a long
range page by page, each page from right above the last key of the one before,
and loses and repeats nothing.  The pairs of an answer are what `TransferKeys`
takes, so a range can be moved to another node; the lifetimes stay behind.
-/

namespace Rkv.Grpc

open Rkv.Foundation
open Rkv.Storage (Codecs StorageEngine VersionedValue)

/-- A limit of 0 stands for 100. -/
def pageSize (limit : Nat) : Nat := if limit = 0 then 100 else limit

def keyValue (entry : String × VersionedValue) : Proto.KeyValue :=
  ⟨entry.1, entry.2.value, some (toProtoVectorClock entry.2.vectorClock)⟩

/-- `KvService.scan`; a range that ends before it starts panics. -/
def kvScan (engine : StorageEngine) (req : Proto.ScanRequest) (now : Int64) :
    Option Proto.ScanResponse :=
  (engine.scan req.startKey req.endKey (pageSize req.limit) now).map
    fun results => ⟨results.map keyValue⟩

theorem pageSize_pos (limit : Nat) : 0 < pageSize limit := by
  unfold pageSize
  split <;> omega

/-! ## The next key -/

/-- The least key above another. -/
def keyAbove (key : String) : String := key.push (Char.ofNat 0)

theorem lt_concat_zero_iff (chars other : List Char) :
    other < chars ++ [Char.ofNat 0] ↔ ¬chars < other := by
  induction chars generalizing other with
  | nil =>
      cases other with
      | nil => simp
      | cons a other =>
          have hleast : ¬a < Char.ofNat 0 := by simp [Char.lt_def]
          simp [List.cons_lt_cons_iff, hleast]
  | cons b chars ih =>
      cases other with
      | nil => simp
      | cons a other =>
          simp only [List.cons_append, List.cons_lt_cons_iff, ih]
          rcases lt_trichotomy a b with hlt | heq | hgt
          · simp [hlt, hlt.not_gt, hlt.ne']
          · simp [heq]
          · simp [hgt, hgt.not_gt, hgt.ne']

theorem keyAbove_le_iff (key other : String) :
    keyAbove key ≤ other ↔ key < other := by
  rw [← not_lt, keyAbove, String.lt_iff_toList_lt, String.toList_push,
    lt_concat_zero_iff, not_not, ← String.lt_iff_toList_lt]

/-! ## Pages -/

/-- A client that reads up to `fuel` pages. -/
def scanPages (engine : StorageEngine) (endKey : String) (limit : Nat)
    (now : Int64) (fuel : Nat) (startKey : String) :
    Option (List Proto.KeyValue) :=
  pages Proto.KeyValue.key keyAbove
    (fun start => (kvScan engine ⟨start, endKey, limit⟩ now).map (·.pairs)) fuel
    startKey

/-- From any key up to its end, a range is the part of it from that key on. -/
theorem kvScan_eq_page {engine : StorageEngine} {startKey endKey : String}
    {now : Int64} {entries : List (String × VersionedValue)}
    (hshows : engine.memtable.Shows startKey endKey now entries)
    {start : String} (hfirst : startKey ≤ start) (hstart : start ≤ endKey)
    (limit : Nat) :
    (kvScan engine ⟨start, endKey, limit⟩ now).map (·.pairs) =
      some (page Proto.KeyValue.key (entries.map keyValue) (pageSize limit)
        start) := by
  obtain ⟨found, hfound, -, hscan⟩ := engine.memtable.exists_shows hstart now
  have hsame : found = entries.filter fun p => start ≤ p.1 := by
    apply hfound.sorted.eq_of_mem_iff (hshows.sorted.filter _)
    rintro ⟨key, v⟩
    rw [hfound.mem_iff, List.mem_filter, hshows.mem_iff, decide_eq_true_eq]
    constructor
    · rintro ⟨⟨hge, hlt⟩, hget⟩
      exact ⟨⟨⟨hfirst.trans hge, hlt⟩, hget⟩, hge⟩
    · rintro ⟨⟨⟨-, hlt⟩, hget⟩, hge⟩
      exact ⟨⟨hge, hlt⟩, hget⟩
  have hpage : (entries.map keyValue).filter (fun kv => start ≤ kv.key) =
      (entries.filter fun p => start ≤ p.1).map keyValue := by
    rw [List.filter_map]
    rfl
  rw [kvScan, StorageEngine.scan, hscan, Option.map_some, Option.map_some, page,
    hpage, hsame, List.map_take]

/-- The pages of a range are what the node shows of it, in the order of the keys
and without a gap or a repetition, as far as they reach: with enough of them it
is all that `get` shows. -/
theorem scan_pages_exact (engine : StorageEngine) {startKey endKey : String}
    (hle : startKey ≤ endKey) (limit : Nat) (now : Int64) :
    ∃ entries, engine.memtable.Shows startKey endKey now entries ∧
      entries.length ≤ engine.memtable.data.size ∧
      ∀ fuel, scanPages engine endKey limit now fuel startKey =
        some ((entries.map keyValue).take (fuel * pageSize limit)) := by
  obtain ⟨entries, hshows, hsize, -⟩ := engine.memtable.exists_shows hle now
  refine ⟨entries, hshows, hsize, fun fuel => ?_⟩
  have hsorted : (entries.map keyValue).Pairwise fun a b => a.key < b.key :=
    List.pairwise_map.mpr hshows.sorted
  have hrange : ∀ kv ∈ entries.map keyValue, startKey ≤ kv.key ∧
      kv.key < endKey := by
    intro kv hkv
    obtain ⟨⟨key, v⟩, hentry, rfl⟩ := List.mem_map.mp hkv
    exact ((hshows.mem_iff key v).mp hentry).1
  have hpages := pages_eq keyAbove_le_iff hsorted (pageSize_pos limit)
    (fun start (hstart : startKey ≤ start ∧ start ≤ endKey) =>
      kvScan_eq_page hshows hstart.1 hstart.2 limit)
    (fun kv hkv => ⟨(hrange kv hkv).1.trans
        ((keyAbove_le_iff _ _).mp le_rfl).le,
      (keyAbove_le_iff _ _).mpr (hrange kv hkv).2⟩) fuel ⟨le_rfl, hle⟩
  have hall : (entries.map keyValue).filter (fun kv => startKey ≤ kv.key) =
      entries.map keyValue :=
    List.filter_eq_self.mpr fun kv hkv => by simpa using (hrange kv hkv).1
  rw [scanPages, hpages, hall]

def threeKeys (c : Codecs) : StorageEngine :=
  (((StorageEngine.fresh c ⟨1048576, 3, "node1"⟩).putRaw c "a" [1] 0
    1700000000000).putRaw c "b" [2] 0 1700000000000).putRaw c "c" [3] 0
      1700000000000

theorem scan_pages_of_three :
    let engine := threeKeys Storage.referenceCodecs
    ∃ entries, engine.memtable.Shows "a" "z" 1700000000001 entries ∧
      ("b", engine.newVersion "b" [2] 0 1700000000000) ∈ entries ∧
      scanPages engine "z" 2 1700000000001 2 "a" =
        some (entries.map keyValue) := by
  intro engine
  obtain ⟨entries, hshows, hsize, hpages⟩ :=
    scan_pages_exact engine (show "a" ≤ "z" by decide) 2 1700000000001
  refine ⟨entries, hshows, (hshows.mem_iff _ _).mpr ⟨by decide, ?_⟩, ?_⟩
  · decide +kernel
  · rw [hpages, List.take_of_length_le]
    rw [List.length_map]
    exact hsize.trans (by decide +kernel)

/-! ## Moving a range -/

/-- Requests one after the other, each at its own reading, with what they
accepted in total. -/
def transferAll (c : Codecs) :
    StorageEngine → List (Proto.TransferRequest × Int64) → StorageEngine × Nat
  | engine, [] => (engine, 0)
  | engine, (req, now) :: rest =>
      let (engine, response) := InternalService.transferKeys c engine req now
      let (engine, accepted) := transferAll c engine rest
      (engine, response.accepted + accepted)

def moves (batches : List (Proto.TransferRequest × Int64)) :
    List (String × InternalService.Arrival) :=
  batches.flatMap fun (req, now) => req.pairs.map fun kv =>
    (kv.key, .version (InternalService.transferred now kv))

variable {c : Codecs}

theorem acceptPairs_accepted (now : Int64) (engine : StorageEngine)
    (accepted : Nat) (pairs : List Proto.KeyValue) :
    (InternalService.acceptPairs c now engine accepted pairs).2 =
      accepted + pairs.length := by
  induction pairs generalizing engine accepted with
  | nil => rfl
  | cons kv pairs ih =>
      rw [InternalService.acceptPairs, ih, List.length_cons]
      omega

theorem transferAll_eq (engine : StorageEngine)
    (batches : List (Proto.TransferRequest × Int64)) :
    transferAll c engine batches =
      ((moves batches).foldl (InternalService.arrive c) engine,
        (batches.flatMap (·.1.pairs)).length) := by
  induction batches generalizing engine with
  | nil => rfl
  | cons batch batches ih =>
      obtain ⟨req, now⟩ := batch
      rw [transferAll]
      dsimp only
      rw [ih]
      simp only [InternalService.transferKeys, acceptPairs_accepted,
        InternalService.acceptPairs_eq, moves, List.flatMap_cons,
        List.foldl_append, List.length_append, Nat.zero_add]

theorem keys_moves (batches : List (Proto.TransferRequest × Int64)) :
    (moves batches).map Prod.fst =
      (batches.flatMap (·.1.pairs)).map (·.key) := by
  simp only [moves, List.map_flatMap, List.map_map]
  rfl

/-- An answer has each key at most once, and each with what `get` shows of it. -/
theorem pairs_of_kvScan {engine : StorageEngine} {req : Proto.ScanRequest}
    {now : Int64} {resp : Proto.ScanResponse}
    (hscan : kvScan engine req now = some resp) :
    (resp.pairs.map (·.key)).Nodup ∧
      ∀ kv ∈ resp.pairs, ∃ v, engine.get kv.key now = some v ∧
        kv = keyValue (kv.key, v) := by
  rcases le_or_gt req.startKey req.endKey with hle | hpast
  · obtain ⟨entries, hshows, -, hentries⟩ := engine.memtable.exists_shows hle now
    rw [kvScan, StorageEngine.scan, hentries, Option.map_some,
      Option.some.injEq] at hscan
    subst hscan
    have hkeys : ((entries.take (pageSize req.limit)).map
        keyValue).map (·.key) = (entries.take (pageSize req.limit)).map (·.1) := by
      rw [List.map_map]
      rfl
    refine ⟨?_, fun kv hkv => ?_⟩
    · have hsorted : (entries.map (·.1)).Pairwise (· < ·) :=
        List.pairwise_map.mpr hshows.sorted
      rw [hkeys]
      exact (hsorted.imp ne_of_lt).sublist ((List.take_sublist _ _).map _)
    · obtain ⟨⟨key, v⟩, hentry, rfl⟩ := List.mem_map.mp hkv
      have hget := ((hshows.mem_iff key v).mp (List.mem_of_mem_take hentry)).2
      exact ⟨v, hget, rfl⟩
  · rw [kvScan, StorageEngine.scan, Storage.MemTable.scan, Storage.range,
      if_pos hpast] at hscan
    contradiction

theorem mem_moves {batches : List (Proto.TransferRequest × Int64)}
    {kv : Proto.KeyValue} (hkv : kv ∈ batches.flatMap (·.1.pairs)) :
    ∃ arrival, (kv.key, InternalService.Arrival.version
      (InternalService.transferred arrival kv)) ∈ moves batches := by
  obtain ⟨⟨req, arrival⟩, hbatch, hpair⟩ := List.mem_flatMap.mp hkv
  exact ⟨arrival, List.mem_flatMap.mpr ⟨(req, arrival), hbatch,
    List.mem_map.mpr ⟨kv, hpair, rfl⟩⟩⟩

theorem get_of_transferred {engine : StorageEngine} {key : String}
    {v : VersionedValue} (hlive : v.deleted = false) {arrival : Int64}
    (hraw : engine.getRaw key =
      some { v with timestampMs := arrival, ttlMs := 0 }) (later : Int64) :
    engine.get key later =
      some { v with timestampMs := arrival, ttlMs := 0 } :=
  Storage.MemTable.get_eq_some_iff.mpr
    ⟨hraw, Storage.VersionedValue.isExpired_of_ttl_zero rfl later, hlive⟩

/-- The pairs of a scan, sent in any batches at any readings, are all accepted.
The receiver then shows them with the value and the clock they had and for ever,
and holds what it held of every other key. -/
theorem transfer_of_scan (source target : StorageEngine)
    {req : Proto.ScanRequest} {now : Int64} {resp : Proto.ScanResponse}
    (hscan : kvScan source req now = some resp)
    (batches : List (Proto.TransferRequest × Int64))
    (hbatches : batches.flatMap (·.1.pairs) = resp.pairs) :
    let moved := transferAll c target batches
    moved.2 = resp.pairs.length ∧
      (∀ key, key ∈ resp.pairs.map (·.key) →
        ∃ v, source.get key now = some v ∧
          (∃ arrival, moved.1.getRaw key =
            some { v with timestampMs := arrival, ttlMs := 0 }) ∧
          ∀ later, (moved.1.get key later).map (fun w =>
            (w.value, w.vectorClock)) = some (v.value, v.vectorClock)) ∧
      ∀ key, key ∉ resp.pairs.map (·.key) →
        moved.1.getRaw key = target.getRaw key := by
  intro moved
  obtain ⟨hnodup, hpairs⟩ := pairs_of_kvScan hscan
  have hkeys : (moves batches).map Prod.fst = resp.pairs.map (·.key) := by
    rw [keys_moves, hbatches]
  have hmoved : moved = _ := transferAll_eq target batches
  have harrived := InternalService.getRaw_foldl_arrive (c := c) target
    (moves batches)
  rw [hmoved, hbatches]
  refine ⟨rfl, fun key hkey => ?_, fun key hkey => ?_⟩
  · obtain ⟨kv, hkv, rfl⟩ := List.mem_map.mp hkey
    obtain ⟨v, hget, hpair⟩ := hpairs kv hkv
    obtain ⟨arrival, hmove⟩ := mem_moves (hbatches.symm ▸ hkv)
    have hlive := (Storage.MemTable.get_eq_some_iff.mp hget).2.2
    -- no key comes twice, so the pair is the last write to its key
    have hlast := lastWrite_of_nodup (hkeys ▸ hnodup) hmove
    have hversion : InternalService.transferred arrival kv =
        { v with timestampMs := arrival, ttlMs := 0 } := by
      rw [hpair]
      simp [InternalService.transferred, keyValue, toProtoVectorClock,
        fromProtoVectorClock, hlive]
    have hraw := (harrived kv.key).1 _ hlast
    rw [hversion] at hraw
    refine ⟨v, hget, ⟨arrival, hraw⟩, fun later => ?_⟩
    rw [get_of_transferred hlive hraw later]
    rfl
  · refine (harrived key).2 ?_
    cases hlast : lastWrite key (moves batches) with
    | none => rfl
    | some arrived =>
        have hmem := List.mem_map_of_mem (f := Prod.fst)
          (mem_of_lastWrite_eq_some hlast)
        rw [hkeys] at hmem
        exact absurd hmem hkey

/-- Three keys moved in two requests to an empty node, one of them with a
lifetime that is over when it is read there. -/
theorem transfer_of_scan_in_two_requests :
    let source := (threeKeys Storage.referenceCodecs).putRaw
      Storage.referenceCodecs "b" [4] 1000 1700000000000
    let target := StorageEngine.fresh Storage.referenceCodecs
      ⟨1048576, 3, "node2"⟩
    ∃ resp, kvScan source ⟨"a", "z", 0⟩ 1700000000001 = some resp ∧
      ∀ moved, moved = transferAll Storage.referenceCodecs target
        [(⟨resp.pairs.take 2⟩, 1700000000002),
          (⟨resp.pairs.drop 2⟩, 1700000000003)] →
        source.get "b" 1700000002000 = none ∧
          (moved.1.get "b" 1700000002000).map (·.value) = some [4] := by
  intro source target
  obtain ⟨resp, hscan⟩ : ∃ resp, kvScan source ⟨"a", "z", 0⟩ 1700000000001 =
      some resp := ⟨_, rfl⟩
  refine ⟨resp, hscan, fun moved hmoved => ⟨by decide +kernel, ?_⟩⟩
  have hkeys : (kvScan source ⟨"a", "z", 0⟩ 1700000000001).map
      (fun resp => resp.pairs.map (·.key)) = some ["a", "b", "c"] := by
    decide +kernel
  rw [hscan, Option.map_some, Option.some.injEq] at hkeys
  obtain ⟨-, hshown, -⟩ := transfer_of_scan (c := Storage.referenceCodecs)
    source target hscan
    [(⟨resp.pairs.take 2⟩, 1700000000002), (⟨resp.pairs.drop 2⟩, 1700000000003)]
    (by simp)
  obtain ⟨v, hv, -, hget⟩ := hshown "b" (by simp [hkeys])
  have hvalue : (source.get "b" 1700000000001).map (·.value) = some [4] := by
    decide +kernel
  rw [hv, Option.map_some, Option.some.injEq] at hvalue
  have hlater := congrArg (Option.map Prod.fst) (hget 1700000002000)
  rw [Option.map_map, Option.map_some, hvalue] at hlater
  rw [hmoved]
  exact hlater

end Rkv.Grpc
