import Rkv.Storage.LogHistory

/-!
# What the checksum of an entry protects

`compute_checksum` feeds sequence, key, value bytes and timestamp to the CRC, one
after the other and without lengths.  The clock, the lifetime and the tombstone
mark are not fed, and the end of the key is not marked.  A replay checks the
result; `recover_sequence` reads the same lines and does not.
-/

namespace Rkv.Storage

open Rkv.Foundation

namespace WalEntry

variable {entry other : WalEntry}

/-- The bytes that `compute_checksum` feeds to the CRC. -/
def checksumInput (entry : WalEntry) : Bytes :=
  leBytes 8 entry.sequence.toNat ++ asBytes entry.key ++ entry.value.value ++
    leBytes 8 entry.value.timestampMs.toUInt64.toNat

theorem computeChecksum_eq (c : Codecs) (entry : WalEntry) :
    entry.computeChecksum c = c.crc32 entry.checksumInput := rfl

theorem verify_iff {c : Codecs} :
    entry.verify c = true ↔ c.crc32 entry.checksumInput = entry.checksum := by
  rw [verify, beq_iff_eq, computeChecksum_eq]
  rfl

/-- What the CRC is given is what two entries can be told apart by. -/
theorem checksumInput_eq_iff :
    entry.checksumInput = other.checksumInput ↔
      entry.sequence = other.sequence ∧
        entry.value.timestampMs = other.value.timestampMs ∧
        asBytes entry.key ++ entry.value.value =
          asBytes other.key ++ other.value.value := by
  unfold checksumInput
  constructor
  · intro h
    obtain ⟨hfront, hstamp⟩ := List.append_inj' h (by simp)
    rw [List.append_assoc, List.append_assoc] at hfront
    obtain ⟨hsequence, hmiddle⟩ := List.append_inj hfront (by simp)
    exact ⟨u64Code_prefixFree.injective hsequence,
      i64Code_prefixFree.injective hstamp, hmiddle⟩
  · rintro ⟨hsequence, hstamp, hmiddle⟩
    rw [hsequence, hstamp, List.append_assoc (leBytes 8 _) (asBytes entry.key),
      hmiddle, ← List.append_assoc]

/-- The two entries record the same write under the same number. -/
structure SameWrite (entry other : WalEntry) : Prop where
  sequence : entry.sequence = other.sequence
  key : entry.key = other.key
  value : entry.value = other.value

/-- Equal inputs of the CRC mean equal writes, so one entry passes with the
checksum of another only by a collision. -/
structure ToldApart (c : Codecs) (entry other : WalEntry) : Prop where
  sameWrite : entry.checksumInput = other.checksumInput → SameWrite entry other
  collision : entry.verify c = true → other.verify c = true →
    entry.checksum = other.checksum → ¬SameWrite entry other →
      entry.checksumInput ≠ other.checksumInput ∧
        c.crc32 entry.checksumInput = c.crc32 other.checksumInput

/-- Two entries of one sequence number and timestamp, with the same bytes of key
and value in a row, are told apart exactly when the keys end at the same byte
and what is not fed to the CRC is the same. -/
theorem toldApart_iff (c : Codecs) (entry other : WalEntry) :
    ToldApart c entry other ↔
      (entry.sequence = other.sequence →
        entry.value.timestampMs = other.value.timestampMs →
        asBytes entry.key ++ entry.value.value =
          asBytes other.key ++ other.value.value →
        (asBytes entry.key).length = (asBytes other.key).length ∧
          entry.value.vectorClock = other.value.vectorClock ∧
          entry.value.ttlMs = other.value.ttlMs ∧
          entry.value.deleted = other.value.deleted) := by
  constructor
  · intro htold hsequence hstamp hbytes
    have hsame := htold.sameWrite
      (checksumInput_eq_iff.mpr ⟨hsequence, hstamp, hbytes⟩)
    rw [hsame.key, hsame.value]
    exact ⟨rfl, rfl, rfl, rfl⟩
  · intro hrest
    have hsame : entry.checksumInput = other.checksumInput →
        SameWrite entry other := by
      intro hinput
      obtain ⟨hsequence, hstamp, hbytes⟩ := checksumInput_eq_iff.mp hinput
      obtain ⟨hlength, hclock, httl, hdeleted⟩ := hrest hsequence hstamp hbytes
      obtain ⟨hkey, hvalue⟩ := List.append_inj hbytes hlength
      refine ⟨hsequence, asBytes_injective hkey, ?_⟩
      cases hv : entry.value
      cases hw : other.value
      simp_all
    refine ⟨hsame, fun hentry hother hchecksum hdiffer => ?_⟩
    refine ⟨fun hinput => hdiffer (hsame hinput), ?_⟩
    rw [verify_iff.mp hentry, verify_iff.mp hother, hchecksum]

/-- A put and the delete it turns into when one byte of its line changes, and a
key that takes the first byte of its value. -/
theorem altered_entry_passes :
    let put := WalEntry.new referenceCodecs 1 "a"
      (.new [98, 99] "node1" 0 1700000000000)
    let deleted := { put with value := { put.value with deleted := true } }
    let moved := { put with
      key := "ab"
      value := { put.value with value := [99] } }
    put.verify referenceCodecs = true ∧
      deleted.verify referenceCodecs = true ∧
      moved.verify referenceCodecs = true ∧
      put.checksumInput = deleted.checksumInput ∧
      put.checksumInput = moved.checksumInput ∧
      ¬SameWrite put deleted ∧ ¬SameWrite put moved := by
  intro put deleted moved
  have hdeleted : put.checksumInput = deleted.checksumInput := rfl
  have hmoved : put.checksumInput = moved.checksumInput :=
    checksumInput_eq_iff.mpr ⟨rfl, rfl, by decide⟩
  have hput : put.verify referenceCodecs = true := verify_new ..
  refine ⟨hput, ?_, ?_, hdeleted, hmoved, fun h => ?_, fun h => ?_⟩
  · exact verify_iff.mpr (hdeleted ▸ verify_iff.mp hput)
  · exact verify_iff.mpr (hmoved ▸ verify_iff.mp hput)
  · exact absurd (congrArg VersionedValue.deleted h.value) (by decide)
  · exact absurd h.key (by decide)

end WalEntry

/-! ## The recovered sequence number -/

section

variable (c : Codecs) (start : UInt64) (items : List (Option String))

theorem recoverSequenceLoop_le_iff (bound : UInt64) :
    recoverSequenceLoop c start items ≤ bound ↔
      start ≤ bound ∧ ∀ text, some text ∈ items →
        ∀ entry, c.jsonFromStr text = some entry → entry.sequence ≤ bound := by
  induction items generalizing start with
  | nil => simp [recoverSequenceLoop]
  | cons item items ih =>
      cases item with
      | none => simp [recoverSequenceLoop, ih]
      | some line =>
          rw [recoverSequenceLoop]
          cases hline : c.jsonFromStr line with
          | none => simp [ih, hline]
          | some entry =>
              simp [ih, hline, counter_max_le_iff, and_assoc]

theorem recoverSequenceLoop_attained :
    recoverSequenceLoop c start items = start ∨
      ∃ text entry, some text ∈ items ∧ c.jsonFromStr text = some entry ∧
        entry.sequence = recoverSequenceLoop c start items := by
  induction items generalizing start with
  | nil => exact .inl rfl
  | cons item items ih =>
      have hlater : ∀ base, (∃ text entry, some text ∈ items ∧
          c.jsonFromStr text = some entry ∧
            entry.sequence = recoverSequenceLoop c base items) →
          ∃ text entry, some text ∈ item :: items ∧
            c.jsonFromStr text = some entry ∧
            entry.sequence = recoverSequenceLoop c base items := by
        rintro base ⟨text, entry, hmem, hentry⟩
        exact ⟨text, entry, List.mem_cons_of_mem _ hmem, hentry⟩
      cases item with
      | none => exact (ih start).imp_right (hlater start)
      | some line =>
          rw [recoverSequenceLoop]
          cases hline : c.jsonFromStr line with
          | none => exact (ih start).imp_right (hlater start)
          | some entry =>
              rcases ih (max start entry.sequence) with hkept | hfound
              · dsimp only
                rw [hkept]
                refine (counter_max_eq_or start entry.sequence).imp_right ?_
                intro hmax
                exact ⟨line, entry, List.mem_cons_self, hline, hmax.symm⟩
              · exact .inr (hlater _ hfound)

end

namespace WriteAheadLog

variable {c : Codecs} {file : Bytes} {entry : WalEntry}

/-- A line of the file parses as this entry. -/
def Decodes (c : Codecs) (file : Bytes) (entry : WalEntry) : Prop :=
  ∃ text, some text ∈ lines file ∧ c.jsonFromStr text = some entry

/-- A line of the file that is not blank parses as this entry, and its checksum
is right. -/
def Intact (c : Codecs) (file : Bytes) (entry : WalEntry) : Prop :=
  ∃ text, some text ∈ lines file ∧ trimIsEmpty text = false ∧
    c.jsonFromStr text = some entry ∧ entry.verify c = true

theorem mem_replay_iff : entry ∈ replay c file ↔ Intact c file entry := by
  rw [replay, List.mem_filterMap]
  constructor
  · rintro ⟨item, hitem, hread⟩
    cases item with
    | none => contradiction
    | some text =>
        rw [replayLine] at hread
        split at hread
        · contradiction
        · rename_i hblank
          split at hread
          · rename_i found hfound
            split at hread
            · rename_i hverify
              cases hread
              exact ⟨text, hitem, by simpa using hblank, hfound, hverify⟩
            · contradiction
          · contradiction
  · rintro ⟨text, hitem, hblank, hfound, hverify⟩
    refine ⟨some text, hitem, ?_⟩
    simp [replayLine, hblank, hfound, hverify]

theorem decodes_of_mem_replay (h : entry ∈ replay c file) :
    Decodes c file entry := by
  obtain ⟨text, hline, -, hfound, -⟩ := mem_replay_iff.mp h
  exact ⟨text, hline, hfound⟩

theorem recoverSequence_le_iff {bound : UInt64} :
    recoverSequence c file ≤ bound ↔
      ∀ entry, Decodes c file entry → entry.sequence ≤ bound := by
  rw [recoverSequence, recoverSequenceLoop_le_iff]
  constructor
  · rintro ⟨-, hall⟩ entry ⟨text, hline, hfound⟩
    exact hall text hline entry hfound
  · intro hall
    exact ⟨UInt64.zero_le, fun text hline entry hfound =>
      hall entry ⟨text, hline, hfound⟩⟩

theorem sequence_le_recoverSequence (h : Decodes c file entry) :
    entry.sequence ≤ recoverSequence c file :=
  recoverSequence_le_iff.mp (UInt64.le_refl _) entry h

/-- The greatest sequence number of the entries, 0 if there are none. -/
structure IsGreatestSequence (entries : List WalEntry) (n : UInt64) : Prop where
  bound : ∀ entry ∈ entries, entry.sequence ≤ n
  attained : (entries = [] ∧ n = 0) ∨ ∃ entry ∈ entries, entry.sequence = n

/-- An opened log goes on where the entries that `replay` accepts end. -/
structure Continues (c : Codecs) (file : Bytes) : Prop where
  recovered : IsGreatestSequence (replay c file) (openLog c file).sequence
  next : (∀ entry ∈ replay c file, entry.sequence.toNat < 2 ^ 64 - 1) →
    (openLog c file).sequence.toNat + 1 < 2 ^ 64 ∧
      ∀ key value, ∀ entry ∈ replay c file,
        entry.sequence < ((openLog c file).append c key value).2

theorem continues_of_isGreatestSequence
    (h : IsGreatestSequence (replay c file) (openLog c file).sequence) :
    Continues c file := by
  refine ⟨h, fun hbelow => ?_⟩
  have hroom : (openLog c file).sequence.toNat + 1 < 2 ^ 64 := by
    rcases h.attained with ⟨-, hzero⟩ | ⟨entry, hmem, hlast⟩
    · rw [hzero]
      decide
    · rw [← hlast]
      have hentry := hbelow entry hmem
      omega
  refine ⟨hroom, fun key value entry hmem => ?_⟩
  exact UInt64.lt_of_le_of_lt (h.bound entry hmem)
    (counter_lt_succ_iff.mpr hroom)

/-- The log goes on after its accepted entries exactly when no line that parses
has a sequence number beyond all of theirs. -/
theorem continues_iff (c : Codecs) (file : Bytes) :
    Continues c file ↔ ∀ entry, Decodes c file entry →
      entry.sequence = 0 ∨
        ∃ intact, Intact c file intact ∧ entry.sequence ≤ intact.sequence := by
  constructor
  · rintro ⟨hgreatest, -⟩ entry hdecodes
    have hle : entry.sequence ≤ (openLog c file).sequence :=
      sequence_le_recoverSequence hdecodes
    rcases hgreatest.attained with ⟨-, hzero⟩ | ⟨intact, hmem, hlast⟩
    · rw [hzero] at hle
      exact .inl (UInt64.le_antisymm hle UInt64.zero_le)
    · exact .inr ⟨intact, mem_replay_iff.mp hmem, hlast ▸ hle⟩
  · intro hcovered
    apply continues_of_isGreatestSequence
    have hbound : ∀ entry ∈ replay c file,
        entry.sequence ≤ recoverSequence c file := fun entry hmem =>
      sequence_le_recoverSequence (decodes_of_mem_replay hmem)
    refine ⟨hbound, ?_⟩
    change _ ∨ ∃ entry ∈ replay c file, entry.sequence = recoverSequence c file
    -- either nothing was read above 0, or the greatest number read is covered
    have hzero : recoverSequence c file = 0 →
        (replay c file = [] ∧ recoverSequence c file = 0) ∨
          ∃ entry ∈ replay c file, entry.sequence = recoverSequence c file := by
      intro hzero
      cases hreplay : replay c file with
      | nil => exact .inl ⟨rfl, hzero⟩
      | cons entry entries =>
          have hentry := hbound entry (by simp [hreplay])
          refine .inr ⟨entry, List.mem_cons_self, ?_⟩
          rw [hzero] at hentry ⊢
          exact UInt64.le_antisymm hentry UInt64.zero_le
    rcases recoverSequenceLoop_attained c 0 (lines file) with
      hstart | ⟨text, entry, hline, hfound, hlast⟩
    · exact hzero hstart
    · change entry.sequence = recoverSequence c file at hlast
      rcases hcovered entry ⟨text, hline, hfound⟩ with
        hfirst | ⟨intact, hintact, hle⟩
      · exact hzero (hlast ▸ hfirst)
      · have hmem := mem_replay_iff.mpr hintact
        exact .inr ⟨intact, hmem,
          UInt64.le_antisymm (hbound intact hmem) (hlast ▸ hle)⟩

theorem replay_emitted (hemits : ∀ entry, c.Emits entry)
    (entries : List WalEntry) :
    replay c (entries.flatMap (encodeLine c)) =
      entries.filter fun entry => entry.verify c := by
  rw [replay, lines_flatMap_encodeLine fun entry _ => hemits entry,
    List.filterMap_map, ← List.filterMap_eq_filter]
  apply List.filterMap_congr
  intro entry _
  have hblank := (hemits entry).not_trimIsEmpty_append ""
  rw [String.empty_append] at hblank
  simp [replayLine, hblank, (hemits entry).decodes, Option.guard]

theorem decodes_emitted (hemits : ∀ entry, c.Emits entry)
    {entries : List WalEntry} (hmem : entry ∈ entries) :
    Decodes c (entries.flatMap (encodeLine c)) entry := by
  refine ⟨c.jsonToString entry, ?_, (hemits entry).decodes⟩
  rw [lines_flatMap_encodeLine fun entry _ => hemits entry]
  exact List.mem_map_of_mem hmem

/-- A damaged line behind a good one, with a greater sequence number. -/
theorem not_continues_of_damaged (hemits : ∀ entry, c.Emits entry)
    {good damaged : WalEntry} (hgood : good.verify c = true)
    (hdamaged : damaged.verify c = false)
    (hlt : good.sequence < damaged.sequence) :
    let file := [good, damaged].flatMap (encodeLine c)
    replay c file = [good] ∧ damaged.sequence ≤ (openLog c file).sequence ∧
      ¬Continues c file := by
  intro file
  have hreplay : replay c file = [good] := by
    rw [replay_emitted hemits, List.filter_cons_of_pos hgood,
      List.filter_cons_of_neg (by simp [hdamaged]), List.filter_nil]
  have hle : damaged.sequence ≤ (openLog c file).sequence :=
    sequence_le_recoverSequence (decodes_emitted hemits (by simp))
  refine ⟨hreplay, hle, fun hcontinues => ?_⟩
  rcases hcontinues.recovered.attained with ⟨hnone, -⟩ | ⟨entry, hmem, hlast⟩
  · rw [hreplay] at hnone
    contradiction
  · rw [hreplay, List.mem_singleton] at hmem
    subst hmem
    have hback : damaged.sequence ≤ entry.sequence := hlast ▸ hle
    exact absurd hlt (UInt64.not_lt.mpr hback)

/-- A good entry and a copy of it whose sequence number was damaged: the next
append gets the number 0. -/
theorem damaged_sequence_recovered :
    let good := WalEntry.new referenceCodecs 1 "k" (.new [1] "node1" 0 1700000000000)
    let damaged := { good with sequence := 18446744073709551615 }
    let file := [good, damaged].flatMap (encodeLine referenceCodecs)
    replay referenceCodecs file = [good] ∧
      (∀ key value,
        ((openLog referenceCodecs file).append referenceCodecs key value).2 = 0) ∧
      ¬Continues referenceCodecs file := by
  intro good damaged file
  have hgood : good.verify referenceCodecs = true := WalEntry.verify_new ..
  have hdamaged : damaged.verify referenceCodecs = false := by
    rw [Bool.eq_false_iff, Ne, WalEntry.verify_iff]
    change ¬crc32 damaged.checksumInput = crc32 good.checksumInput
    decide +kernel
  obtain ⟨hreplay, hle, hnot⟩ := not_continues_of_damaged emits_referenceCodecs
    hgood hdamaged (show (1 : UInt64) < 18446744073709551615 by decide)
  exact ⟨hreplay, fun key value => counter_succ_eq_zero hle, hnot⟩

end WriteAheadLog

end Rkv.Storage
