import Rkv.Foundation.JsonNesting
import Rkv.Storage.Wal

/-!
# The formats of the crates

What `crc32fast`, `serde_json` and `bincode` write for the stored types, map
entries in the order of their keys.  Both formats are prefix-free, so a decoder
exists; the one here accepts exactly what the encoder writes, where `serde_json`
also takes other layouts of the same object.  `bincode` writes a length in eight
bytes, which is enough for every collection of the program; longer lists, which
only the model has, get a code of their own.
-/

namespace Rkv.Storage

open Rkv.Foundation

/-! ## CRC-32 -/

def crcStep (crc : UInt32) : UInt32 :=
  if crc &&& 1 = 1 then (crc >>> 1) ^^^ 0xEDB88320 else crc >>> 1

def crcByte (crc : UInt32) (b : UInt8) : UInt32 :=
  (List.range 8).foldl (fun crc _ => crcStep crc) (crc ^^^ b.toUInt32)

def crc32 (bytes : Bytes) : UInt32 :=
  (bytes.foldl crcByte 0xFFFFFFFF) ^^^ 0xFFFFFFFF

/-! ## JSON -/

def countsText (clocks : ClockMap) : List Char :=
  objectText (fun n : UInt64 => decimal n.toNat) clocks.toList

def clockText (clock : VectorClock) : List Char :=
  objectText id [("clocks", countsText clock.clocks)]

def versionedText (v : VersionedValue) : List Char :=
  objectText id
    [("value", arrayText (fun b : UInt8 => decimal b.toNat) v.value),
      ("vector_clock", clockText v.vectorClock),
      ("timestamp_ms", intText v.timestampMs.toInt),
      ("ttl_ms", intText v.ttlMs.toInt),
      ("deleted", boolText v.deleted)]

def entryText (entry : WalEntry) : List Char :=
  objectText id
    [("sequence", decimal entry.sequence.toNat),
      ("key", stringText entry.key),
      ("value", versionedText entry.value),
      ("checksum", decimal entry.checksum.toNat)]

theorem followsValue_comma : FollowsValue ',' := by simp [FollowsValue]

theorem followsValue_brace : FollowsValue '\x7d' := by simp [FollowsValue]

theorem bytesText_prefixFree :
    PrefixFree (arrayText fun b : UInt8 => decimal b.toNat) :=
  arrayText_prefixFree
    (fun a b s t x y hs ht heq => by
      obtain ⟨hval, hrest⟩ := decimal_prefixFree _ _ s t x y hs ht heq
      exact ⟨UInt8.toNat_inj.mp hval, hrest⟩)
    fun _ => decimal_append_ne (by decide)

theorem countsText_prefixFree : PrefixFree countsText := by
  have hmembers : PrefixFree (objectText fun n : UInt64 => decimal n.toNat) :=
    objectText_prefixFree fun a b s t x y hs ht heq => by
      obtain ⟨hval, hrest⟩ := decimal_prefixFree _ _ s t x y hs ht heq
      exact ⟨UInt64.toNat_inj.mp hval, hrest⟩
  exact hmembers.comp fun _ _ h => Std.ExtTreeMap.toList_inj.mp h

theorem clockText_prefixFree : PrefixFree clockText := by
  rintro ⟨clocks⟩ ⟨clocks'⟩ x y heq
  simp only [clockText, objectText, separated, separatedTail, memberText, id,
    List.append_assoc, List.cons_append, List.nil_append, List.cons.injEq,
    true_and, List.append_cancel_left_eq] at heq
  obtain ⟨rfl, hrest⟩ := countsText_prefixFree _ _ _ _ heq
  exact ⟨rfl, (List.cons.inj hrest).2⟩

theorem versionedText_prefixFree : PrefixFree versionedText := by
  rintro ⟨value, clock, timestamp, ttl, deleted⟩
    ⟨value', clock', timestamp', ttl', deleted'⟩ x y heq
  simp only [versionedText, objectText, separated, separatedTail, memberText, id,
    List.append_assoc, List.cons_append, List.nil_append, List.cons.injEq,
    true_and, List.append_cancel_left_eq] at heq
  obtain ⟨rfl, h₁⟩ := bytesText_prefixFree _ _ _ _ heq
  simp only [List.cons.injEq, true_and, List.append_cancel_left_eq] at h₁
  obtain ⟨rfl, h₂⟩ := clockText_prefixFree _ _ _ _ h₁
  simp only [List.cons.injEq, true_and, List.append_cancel_left_eq] at h₂
  obtain ⟨hts, h₃⟩ := intText_prefixFree _ _ _ _ _ _ followsValue_comma
    followsValue_comma h₂
  simp only [List.cons.injEq, true_and, List.append_cancel_left_eq] at h₃
  obtain ⟨httl, h₄⟩ := intText_prefixFree _ _ _ _ _ _ followsValue_comma
    followsValue_comma h₃
  simp only [List.cons.injEq, true_and, List.append_cancel_left_eq] at h₄
  obtain ⟨rfl, h₅⟩ := boolText_prefixFree _ _ _ _ h₄
  obtain rfl := Int64.toInt_inj.mp hts
  obtain rfl := Int64.toInt_inj.mp httl
  exact ⟨rfl, (List.cons.inj h₅).2⟩

theorem entryText_prefixFree : PrefixFree entryText := by
  rintro ⟨sequence, key, value, checksum⟩ ⟨sequence', key', value', checksum'⟩
    x y heq
  simp only [entryText, objectText, separated, separatedTail, memberText, id,
    List.append_assoc, List.cons_append, List.nil_append, List.cons.injEq,
    true_and, List.append_cancel_left_eq] at heq
  obtain ⟨hseq, h₁⟩ := decimal_prefixFree _ _ _ _ _ _ followsValue_comma
    followsValue_comma heq
  simp only [List.cons.injEq, true_and, List.append_cancel_left_eq] at h₁
  obtain ⟨rfl, h₂⟩ := stringText_prefixFree _ _ _ _ h₁
  simp only [List.cons.injEq, true_and, List.append_cancel_left_eq] at h₂
  obtain ⟨rfl, h₃⟩ := versionedText_prefixFree _ _ _ _ h₂
  simp only [List.cons.injEq, true_and, List.append_cancel_left_eq] at h₃
  obtain ⟨hsum, h₄⟩ := decimal_prefixFree _ _ _ _ _ _ followsValue_brace
    followsValue_brace h₃
  obtain rfl := UInt64.toNat_inj.mp hseq
  obtain rfl := UInt32.toNat_inj.mp hsum
  exact ⟨rfl, (List.cons.inj h₄).2⟩

theorem balanced_clockText (clock : VectorClock) : Balanced (clockText clock) :=
  .object fun m hm => by
    rw [List.mem_singleton.mp hm]
    exact .object fun n _ => .decimal _

theorem balanced_versionedText (v : VersionedValue) :
    Balanced (versionedText v) := by
  refine .object fun m hm => ?_
  simp only [List.mem_cons, List.not_mem_nil, or_false] at hm
  rcases hm with rfl | rfl | rfl | rfl | rfl
  · exact .array fun b _ => .decimal _
  · exact balanced_clockText _
  · exact .int _
  · exact .int _
  · exact .bool _

theorem exists_entryText (entry : WalEntry) :
    ∃ text, entryText entry = '\x7b' :: (text ++ ['\x7d']) ∧
      Balanced text := by
  refine Balanced.exists_object fun m hm => ?_
  simp only [List.mem_cons, List.not_mem_nil, or_false] at hm
  rcases hm with rfl | rfl | rfl | rfl
  · exact .decimal _
  · exact .string _
  · exact balanced_versionedText _
  · exact .decimal _

/-! ## bincode -/

/-- A length in eight bytes; the greatest one stands for the lengths that do not
fit, which go on in unary. -/
def lenCode (n : Nat) : Bytes :=
  leBytes 8 (min n (2 ^ 64 - 1)) ++
    if n < 2 ^ 64 - 1 then []
    else List.replicate (n - (2 ^ 64 - 1)) 1 ++ [0]

def bytesCode (bytes : Bytes) : Bytes :=
  lenCode bytes.length ++ bytes.flatMap fun b => [b]

def stringCode (s : String) : Bytes := bytesCode (asBytes s)

def u64Code (n : UInt64) : Bytes := leBytes 8 n.toNat

def i64Code (n : Int64) : Bytes := u64Code n.toUInt64

def boolCode (b : Bool) : Bytes := [if b then 1 else 0]

def clockCode (clock : VectorClock) : Bytes :=
  lenCode clock.clocks.toList.length ++
    clock.clocks.toList.flatMap fun p => stringCode p.1 ++ u64Code p.2

def versionedCode (v : VersionedValue) : Bytes :=
  bytesCode v.value ++ (clockCode v.vectorClock ++ (i64Code v.timestampMs ++
    (i64Code v.ttlMs ++ boolCode v.deleted)))

def tableCode (data : TableMap) : Bytes :=
  lenCode data.toList.length ++
    data.toList.flatMap fun p => stringCode p.1 ++ versionedCode p.2

theorem leBytes_prefixFree {width : Nat} :
    PrefixFree fun n : Fin (256 ^ width) => leBytes width n := by
  refine .of_length (fun n m h => ?_) fun n => length_leBytes width n
  have hvalue := congrArg ofLeBytes h
  simp only [ofLeBytes_leBytes _ _ n.isLt, ofLeBytes_leBytes _ _ m.isLt] at hvalue
  exact Fin.ext hvalue

theorem lenCode_prefixFree : PrefixFree lenCode := by
  intro n m x y heq
  simp only [lenCode, List.append_assoc] at heq
  have hbound : ∀ k, min k (2 ^ 64 - 1) < 256 ^ 8 := fun k => by
    have := Nat.min_le_right k (2 ^ 64 - 1)
    omega
  obtain ⟨hmin, hrest⟩ := leBytes_prefixFree (⟨_, hbound n⟩ : Fin (256 ^ 8))
    ⟨_, hbound m⟩ _ _ heq
  have hmin : min n (2 ^ 64 - 1) = min m (2 ^ 64 - 1) := congrArg Fin.val hmin
  by_cases hn : n < 2 ^ 64 - 1
  · have hm : m < 2 ^ 64 - 1 := by omega
    rw [if_pos hn, if_pos hm] at hrest
    exact ⟨by omega, hrest⟩
  · have hm : ¬m < 2 ^ 64 - 1 := by omega
    rw [if_neg hn, if_neg hm, List.append_assoc, List.append_assoc] at hrest
    obtain ⟨hones, hzero⟩ := append_cancel_of_forall (fun b => b = 0)
      (by simp) (by simp) rfl rfl hrest
    have hlength := congrArg List.length hones
    simp only [List.length_replicate] at hlength
    exact ⟨by omega, (List.cons.inj hzero).2⟩

theorem bytesCode_prefixFree : PrefixFree bytesCode := by
  have hbyte : PrefixFree fun b : UInt8 => [b] :=
    .of_length (fun _ _ h => (List.cons.inj h).1) fun _ => rfl
  exact hbyte.counted lenCode_prefixFree

theorem stringCode_prefixFree : PrefixFree stringCode :=
  bytesCode_prefixFree.comp asBytes_injective

theorem u64Code_prefixFree : PrefixFree u64Code :=
  leBytes_prefixFree.comp (f := fun n : UInt64 =>
      (⟨n.toNat, n.toNat_lt⟩ : Fin (256 ^ 8))) fun _ _ h =>
    UInt64.toNat_inj.mp (congrArg Fin.val h)

theorem i64Code_prefixFree : PrefixFree i64Code :=
  u64Code_prefixFree.comp (Function.LeftInverse.injective
    Int64.toInt64_toUInt64)

theorem boolCode_prefixFree : PrefixFree boolCode :=
  .of_length (by decide) fun _ => rfl

theorem clockCode_prefixFree : PrefixFree clockCode := by
  have hentries := (stringCode_prefixFree.pair u64Code_prefixFree).counted
    lenCode_prefixFree
  rintro ⟨clocks⟩ ⟨clocks'⟩ x y heq
  obtain ⟨hlist, hrest⟩ := hentries _ _ _ _ heq
  exact ⟨congrArg VectorClock.mk (Std.ExtTreeMap.toList_inj.mp hlist), hrest⟩

theorem versionedCode_prefixFree : PrefixFree versionedCode := by
  have hfields := bytesCode_prefixFree.pair (clockCode_prefixFree.pair
    (i64Code_prefixFree.pair (i64Code_prefixFree.pair boolCode_prefixFree)))
  refine hfields.comp (f := fun v : VersionedValue => (v.value, v.vectorClock,
    v.timestampMs, v.ttlMs, v.deleted)) ?_
  rintro ⟨value, clock, timestamp, ttl, deleted⟩ ⟨_, _, _, _, _⟩ h
  simp only [Prod.mk.injEq] at h
  obtain ⟨rfl, rfl, rfl, rfl, rfl⟩ := h
  rfl

theorem tableCode_prefixFree : PrefixFree tableCode := by
  have hentries := (stringCode_prefixFree.pair versionedCode_prefixFree).counted
    lenCode_prefixFree
  exact hentries.comp fun _ _ h => Std.ExtTreeMap.toList_inj.mp h

/-! ## The codecs -/

noncomputable def referenceCodecs : Codecs where
  crc32 := crc32
  jsonToString := fun entry => String.ofList (entryText entry)
  jsonFromStr := Function.partialInv fun entry => String.ofList (entryText entry)
  bincodeSerialize := tableCode
  bincodeDeserialize := decodePrefix tableCode

theorem jsonToString_injective :
    Function.Injective referenceCodecs.jsonToString := fun _ _ h =>
  entryText_prefixFree.injective (String.ofList_injective h)

theorem emits_referenceCodecs (entry : WalEntry) :
    referenceCodecs.Emits entry := by
  refine ⟨Function.partialInv_left jsonToString_injective entry, ?_⟩
  obtain ⟨text, htext, hbalanced⟩ := exists_entryText entry
  refine ⟨String.ofList text, ?_, by simpa using hbalanced.oneLine⟩
  apply String.toList_inj.mp
  simp [referenceCodecs, htext]

theorem lawful_referenceCodecs : referenceCodecs.Lawful where
  emits := emits_referenceCodecs
  roundTrip := fun data => by
    have hdecode := tableCode_prefixFree.decodePrefix_append data []
    rwa [List.append_nil] at hdecode

theorem rejectsCut_referenceCodecs : referenceCodecs.RejectsCut :=
  fun _ _ => tableCode_prefixFree.decodePrefix_cut

/-- No text in front of an entry makes an entry of both. -/
theorem jsonFromStr_append_referenceCodecs {text : String} (hne : text ≠ "")
    (entry : WalEntry) :
    referenceCodecs.jsonFromStr (text ++ referenceCodecs.jsonToString entry) =
      none := by
  refine dif_neg ?_
  rintro ⟨other, hother⟩
  obtain ⟨inner, hinner, hbalanced⟩ := exists_entryText entry
  obtain ⟨outer, houter, hbalanced'⟩ := exists_entryText other
  have htext : text.toList ≠ [] := fun h => hne (String.toList_eq_nil_iff.mp h)
  apply append_object_ne hbalanced hbalanced' htext
  have hlist := congrArg String.toList hother
  simpa [referenceCodecs, hinner, houter] using hlist.symm

theorem jsonFromStr_cut_referenceCodecs {entry : WalEntry} {text : String}
    (hbegins : asBytes text <+: asBytes (referenceCodecs.jsonToString entry))
    (hne : text ≠ referenceCodecs.jsonToString entry) :
    referenceCodecs.jsonFromStr text = none := by
  refine dif_neg ?_
  rintro ⟨other, rfl⟩
  obtain ⟨rest, hrest⟩ := toList_prefix_of_asBytes hbegins
  have htext : entryText other ++ rest = entryText entry ++ [] := by
    simpa [referenceCodecs] using hrest
  obtain ⟨rfl, -⟩ := entryText_prefixFree other entry rest [] htext
  exact hne rfl

end Rkv.Storage
