import Mathlib

/-!
# Byte strings: UTF-8 text and little-endian numbers

`asBytes` and `fromUtf8` are the two directions between text and its encoding.
A text that ends in a given nonempty text can only be cut before it at a
character boundary, so the part before is itself text.
-/

namespace Rkv.Foundation

/-! ## Text -/

def asBytes (s : String) : List UInt8 := s.toUTF8.data.toList

def fromUtf8 (bytes : List UInt8) : Option String :=
  String.fromUTF8? ⟨bytes.toArray⟩

theorem asBytes_eq (s : String) :
    asBytes s = s.toList.flatMap String.utf8EncodeChar := by
  rw [asBytes, String.toUTF8_eq_toByteArray, ← String.utf8Encode_toList]
  simp [List.utf8Encode]

@[simp] theorem asBytes_append (s t : String) :
    asBytes (s ++ t) = asBytes s ++ asBytes t := by
  simp [asBytes_eq]

theorem asBytes_injective : Function.Injective asBytes := by
  intro s t h
  apply String.toByteArray_inj.mp
  have hdata : s.toByteArray.data = t.toByteArray.data := by
    apply Array.toList_inj.mp
    simpa [asBytes] using h
  exact ByteArray.ext hdata

@[simp] theorem fromUtf8_asBytes (s : String) :
    fromUtf8 (asBytes s) = some s := by
  have hbytes : (⟨(asBytes s).toArray⟩ : ByteArray) = s.toByteArray := by
    apply ByteArray.ext
    simp [asBytes]
  rw [fromUtf8, hbytes, String.fromUTF8?, dif_pos s.isValidUTF8]
  rfl

theorem asBytes_of_fromUtf8 {bytes : List UInt8} {s : String}
    (h : fromUtf8 bytes = some s) : asBytes s = bytes := by
  unfold fromUtf8 String.fromUTF8? at h
  split at h
  · cases h
    simp [asBytes, String.fromUTF8]
  · contradiction

@[simp] theorem asBytes_eq_nil {s : String} : asBytes s = [] ↔ s = "" := by
  constructor
  · intro h
    exact asBytes_injective (h.trans (by decide))
  · rintro rfl
    decide

private theorem high_or {b : UInt8} (h : 128 ≤ b) (a : UInt8) :
    128 ≤ a ||| b := by
  rw [UInt8.le_iff_toNat_le] at h ⊢
  rw [UInt8.toNat_or]
  exact h.trans Nat.right_le_or

/-- An ASCII byte only occurs as the whole encoding of its character. -/
theorem eq_of_ascii_mem_utf8EncodeChar {c : Char} {b : UInt8} (hb : b < 128)
    (h : b ∈ String.utf8EncodeChar c) : String.utf8EncodeChar c = [b] := by
  rw [String.utf8EncodeChar_eq_utf8EncodeCharFast] at h ⊢
  have hlow : ¬ 128 ≤ b := UInt8.not_le.mpr hb
  unfold String.utf8EncodeCharFast at h ⊢
  dsimp only at h ⊢
  split at h
  · rename_i hone
    rw [if_pos hone, List.mem_singleton.mp h]
  · exfalso
    split at h
    · simp only [List.mem_cons, List.not_mem_nil, or_false] at h
      rcases h with rfl | rfl <;> exact hlow (high_or (by decide) _)
    · split at h
      · simp only [List.mem_cons, List.not_mem_nil, or_false] at h
        rcases h with rfl | rfl | rfl <;> exact hlow (high_or (by decide) _)
      · simp only [List.mem_cons, List.not_mem_nil, or_false] at h
        rcases h with rfl | rfl | rfl | rfl <;>
          exact hlow (high_or (by decide) _)

theorem mem_toList_of_ascii_mem_asBytes {s : String} {b : UInt8} {ch : Char}
    (hb : b < 128) (hch : String.utf8EncodeChar ch = [b])
    (h : b ∈ asBytes s) : ch ∈ s.toList := by
  rw [asBytes_eq, List.mem_flatMap] at h
  obtain ⟨c, hc, hbyte⟩ := h
  have hsingle := eq_of_ascii_mem_utf8EncodeChar hb hbyte
  have hsame : asBytes (String.ofList [c]) = asBytes (String.ofList [ch]) := by
    simp [asBytes_eq, hsingle, hch]
  have hchars := congrArg String.toList (asBytes_injective hsame)
  have hcc : c = ch := by simpa using hchars
  exact hcc ▸ hc

theorem newline_notMem_asBytes {s : String} (h : '\n' ∉ s.toList) :
    (10 : UInt8) ∉ asBytes s := fun hmem =>
  h (mem_toList_of_ascii_mem_asBytes (by decide) (by decide) hmem)

private theorem cut_before_text (bytes : List UInt8) (chars rest : List Char)
    (c : Char)
    (h : chars.flatMap String.utf8EncodeChar =
      bytes ++ (c :: rest).flatMap String.utf8EncodeChar) :
    ∃ front, front.flatMap String.utf8EncodeChar = bytes ∧
      chars = front ++ c :: rest := by
  induction chars generalizing bytes with
  | nil => simp at h
  | cons d chars ih =>
      rcases Nat.eq_zero_or_pos bytes.length with hnil | hpos
      · have hbytes := List.length_eq_zero_iff.mp hnil
        subst hbytes
        refine ⟨[], rfl, ?_⟩
        have hstring : asBytes (String.ofList (d :: chars)) =
            asBytes (String.ofList (c :: rest)) := by
          simpa [asBytes_eq] using h
        simpa using congrArg String.toList (asBytes_injective hstring)
      · rw [List.flatMap_cons] at h
        by_cases hlen : (String.utf8EncodeChar d).length ≤ bytes.length
        · have hbegins : String.utf8EncodeChar d <+: bytes :=
            List.prefix_of_prefix_length_le ⟨_, h⟩ ⟨_, rfl⟩ hlen
          obtain ⟨tail, rfl⟩ := hbegins
          rw [List.append_assoc] at h
          obtain ⟨front, rfl, rfl⟩ := ih tail (List.append_cancel_left h)
          exact ⟨d :: front, by simp, rfl⟩
        · -- the cut falls inside `d`, where only continuation bytes stand
          exfalso
          have hlt : bytes.length < (String.utf8EncodeChar d).length := by omega
          have hbyte := congrArg (·[bytes.length]?) h
          simp only [List.getElem?_append_left hlt, List.getElem?_append_right
            (Nat.le_refl _), Nat.sub_self, List.flatMap_cons] at hbyte
          have hc0 := String.utf8EncodeChar_ne_nil (c := c)
          have hcpos : 0 < (String.utf8EncodeChar c).length :=
            List.length_pos_iff.mpr hc0
          rw [List.getElem?_append_left hcpos, List.getElem?_eq_getElem hlt,
            List.getElem?_eq_getElem hcpos] at hbyte
          have hfirst : (String.utf8EncodeChar c)[0].IsUTF8FirstByte :=
            UInt8.isUTF8FirstByte_getElem_utf8EncodeChar.mpr rfl
          rw [← Option.some.inj hbyte] at hfirst
          have := UInt8.isUTF8FirstByte_getElem_utf8EncodeChar.mp hfirst
          omega

theorem exists_text_of_fromUtf8_append {bytes : List UInt8} {s whole : String}
    (hs : s ≠ "") (h : fromUtf8 (bytes ++ asBytes s) = some whole) :
    ∃ front, asBytes front = bytes ∧ whole = front ++ s := by
  have hwhole := asBytes_of_fromUtf8 h
  rw [asBytes_eq, asBytes_eq] at hwhole
  cases hchars : s.toList with
  | nil => exact absurd (String.toList_eq_nil_iff.mp hchars) hs
  | cons c rest =>
      rw [hchars] at hwhole
      obtain ⟨front, hfront, hsplit⟩ := cut_before_text _ _ _ _ hwhole
      refine ⟨String.ofList front, by simpa [asBytes_eq] using hfront, ?_⟩
      apply String.toList_inj.mp
      simp [hsplit, hchars]

private theorem utf8EncodeChar_append_inj {a b : Char} {x y : List UInt8}
    (h : String.utf8EncodeChar a ++ x = String.utf8EncodeChar b ++ y) :
    a = b ∧ x = y := by
  have hdecode : ∀ (ch : Char) (rest : List UInt8), ByteArray.utf8DecodeChar?
      ⟨(String.utf8EncodeChar ch ++ rest).toArray⟩ 0 = some ch := by
    intro ch rest
    have hbytes : (⟨(String.utf8EncodeChar ch ++ rest).toArray⟩ : ByteArray) =
        (String.utf8EncodeChar ch).toByteArray ++ ⟨rest.toArray⟩ := by
      apply ByteArray.ext
      simp
    rw [hbytes, ByteArray.utf8DecodeChar?_utf8EncodeChar_append]
  have hsame : a = b :=
    Option.some.inj ((hdecode a x).symm.trans (h ▸ hdecode b y))
  subst hsame
  exact ⟨rfl, List.append_cancel_left h⟩

private theorem chars_prefix {first second : List Char} {rest : List UInt8}
    (h : first.flatMap String.utf8EncodeChar ++ rest =
      second.flatMap String.utf8EncodeChar) : first <+: second := by
  induction first generalizing second with
  | nil => exact List.nil_prefix
  | cons a first ih =>
      cases second with
      | nil =>
          have hnil := String.utf8EncodeChar_ne_nil (c := a)
          simp [hnil] at h
      | cons b second =>
          simp only [List.flatMap_cons, List.append_assoc] at h
          obtain ⟨rfl, hrest⟩ := utf8EncodeChar_append_inj h
          exact (List.cons_prefix_cons).mpr ⟨rfl, ih hrest⟩

/-- Text whose bytes begin another text begins it. -/
theorem toList_prefix_of_asBytes {s t : String} (h : asBytes s <+: asBytes t) :
    s.toList <+: t.toList := by
  obtain ⟨rest, hrest⟩ := h
  rw [asBytes_eq, asBytes_eq] at hrest
  exact chars_prefix hrest
/-! ## Little-endian numbers -/

/-- The `width` low bytes of a number, least significant first. -/
def leBytes : Nat → Nat → List UInt8
  | 0, _ => []
  | width + 1, n => UInt8.ofNat n :: leBytes width (n / 256)

def ofLeBytes : List UInt8 → Nat
  | [] => 0
  | b :: rest => b.toNat + 256 * ofLeBytes rest

@[simp] theorem length_leBytes (width n : Nat) :
    (leBytes width n).length = width := by
  induction width generalizing n with
  | zero => rfl
  | succ width ih => simp [leBytes, ih]

theorem ofLeBytes_leBytes (width n : Nat) (h : n < 256 ^ width) :
    ofLeBytes (leBytes width n) = n := by
  induction width generalizing n with
  | zero =>
      simp only [pow_zero, Nat.lt_one_iff] at h
      simp [leBytes, ofLeBytes, h]
  | succ width ih =>
      have hdiv : n / 256 < 256 ^ width := by
        rw [Nat.div_lt_iff_lt_mul (by decide)]
        rwa [pow_succ] at h
      have hbyte : (UInt8.ofNat n).toNat = n % 256 := by simp
      rw [leBytes, ofLeBytes, ih _ hdiv, hbyte]
      omega

end Rkv.Foundation
