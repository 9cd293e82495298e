import Rkv.Foundation.Decimal
import Rkv.Foundation.PrefixCode

/-!
# Compact JSON text

JSON as `serde_json` writes it without white space: numerals, escaped strings,
arrays and objects.  Values of one shape are prefix-free in front of a symbol
that can follow a value.  A scanner that tracks quotes, escapes and braces leaves
every value as it entered it, so no object is a proper suffix of another one.
-/

namespace Rkv.Foundation

/-! ## Values -/

def FollowsValue (ch : Char) : Prop := ch ∈ [',', ']', '\x7d']

def intText (i : Int) : List Char :=
  match i with
  | .ofNat n => decimal n
  | .negSucc n => '-' :: decimal (n + 1)

def boolText (b : Bool) : List Char :=
  if b then ['t', 'r', 'u', 'e'] else ['f', 'a', 'l', 's', 'e']

def shortEscapes : List (Char × Char) :=
  [('\x22', '\x22'), ('\x5c', '\x5c'), ('\x08', 'b'), ('\x09', 't'),
    ('\x0a', 'n'), ('\x0c', 'f'), ('\x0d', 'r')]

def escapeChar (ch : Char) : List Char :=
  match shortEscapes.lookup ch with
  | some letter => ['\x5c', letter]
  | none =>
      if ch.toNat < 32 then
        ['\x5c', 'u', '0', '0', (ch.toNat / 16).digitChar,
          (ch.toNat % 16).digitChar]
      else [ch]

def stringText (s : String) : List Char :=
  '\x22' :: (s.toList.flatMap escapeChar ++ ['\x22'])

def arrayText {α : Type*} (enc : α → List Char) (items : List α) : List Char :=
  '[' :: separated ',' ']' enc items

def memberText {α : Type*} (enc : α → List Char) (m : String × α) : List Char :=
  stringText m.1 ++ ':' :: enc m.2

def objectText {α : Type*} (enc : α → List Char) (members : List (String × α)) :
    List Char :=
  '\x7b' :: separated ',' '\x7d' (memberText enc) members

/-! ## Reading values back -/

theorem decimal_prefixFree : PrefixFreeBefore FollowsValue decimal := by
  refine .of_forall decimal_injective fun n ch hch hstop => ?_
  have hdigit := isDigit_of_mem_decimal hch
  simp only [FollowsValue, List.mem_cons, List.not_mem_nil, or_false] at hstop
  rcases hstop with rfl | rfl | rfl <;> simp at hdigit

theorem decimal_ne_nil (n : Nat) : decimal n ≠ [] := Nat.toDigits_ne_nil

theorem decimal_append_ne {n : Nat} {ch : Char} (hch : ch.isDigit = false)
    (x y : List Char) : decimal n ++ x ≠ ch :: y := by
  intro heq
  cases hword : decimal n with
  | nil => exact decimal_ne_nil n hword
  | cons d rest =>
      rw [hword] at heq
      obtain ⟨rfl, -⟩ := List.cons.inj heq
      have hdigit : d.isDigit = true :=
        isDigit_of_mem_decimal (n := n) (by simp [hword])
      rw [hch] at hdigit
      contradiction

theorem intText_prefixFree : PrefixFreeBefore FollowsValue intText := by
  rintro (n | n) (m | m) s t x y hs ht heq
  · obtain ⟨rfl, hrest⟩ := decimal_prefixFree n m s t x y hs ht heq
    exact ⟨rfl, hrest⟩
  · exact absurd heq (decimal_append_ne (by decide) _ _)
  · exact absurd heq.symm (decimal_append_ne (by decide) _ _)
  · obtain ⟨hval, hrest⟩ := decimal_prefixFree (n + 1) (m + 1) s t x y hs ht
      (List.cons.inj heq).2
    exact ⟨by rw [Nat.add_right_cancel hval], hrest⟩

theorem boolText_prefixFree : PrefixFree boolText := by
  rintro (_ | _) (_ | _) x y heq <;> simp_all [boolText]

theorem mem_of_lookup {ch letter : Char}
    (h : shortEscapes.lookup ch = some letter) :
    (ch, letter) ∈ shortEscapes := by
  obtain ⟨front, rest, hsplit, -⟩ := List.lookup_eq_some_iff.mp h
  simp [hsplit]

/-- A character stands for itself, or for its escape behind a backslash. -/
theorem escapeChar_cases (ch : Char) :
    (∃ letter, (ch, letter) ∈ shortEscapes ∧ escapeChar ch = ['\x5c', letter]) ∨
    (ch.toNat < 32 ∧ escapeChar ch = ['\x5c', 'u', '0', '0',
      (ch.toNat / 16).digitChar, (ch.toNat % 16).digitChar]) ∨
    (escapeChar ch = [ch] ∧ 32 ≤ ch.toNat ∧ ch ≠ '\x22' ∧ ch ≠ '\x5c') := by
  unfold escapeChar
  cases hshort : shortEscapes.lookup ch with
  | some letter => exact .inl ⟨letter, mem_of_lookup hshort, rfl⟩
  | none =>
      right
      dsimp only
      split
      · rename_i hlt
        exact .inl ⟨hlt, rfl⟩
      · rename_i hge
        refine .inr ⟨rfl, Nat.le_of_not_lt hge, ?_, ?_⟩
        · rintro rfl
          exact absurd hshort (by decide)
        · rintro rfl
          exact absurd hshort (by decide)

theorem digitChar_injective_of_lt {n m : Nat} (hn : n < 16) (hm : m < 16)
    (h : n.digitChar = m.digitChar) : n = m := by
  have hall : ∀ a b : Fin 16, a.val.digitChar = b.val.digitChar → a = b := by
    decide
  exact congrArg Fin.val (hall ⟨n, hn⟩ ⟨m, hm⟩ h)

theorem escapeChar_prefixFree : PrefixFree escapeChar := by
  have hletters : ∀ p ∈ shortEscapes, ∀ q ∈ shortEscapes,
      (p.2 = q.2 → p.1 = q.1) ∧ p.2 ≠ 'u' := by decide
  intro a b x y heq
  rcases escapeChar_cases a with ⟨l, hl, ha⟩ | ⟨hctl, ha⟩ | ⟨ha, -, -, hback⟩ <;>
    rcases escapeChar_cases b with ⟨m, hm, hb⟩ | ⟨hctl', hb⟩ | ⟨hb, -, -, hback'⟩ <;>
    rw [ha, hb] at heq <;>
    simp only [List.cons_append, List.nil_append, List.cons.injEq, true_and] at heq
  · exact ⟨(hletters _ hl _ hm).1 heq.1, heq.2⟩
  · exact absurd heq.1 (hletters _ hl _ hl).2
  · exact absurd heq.1.symm hback'
  · exact absurd heq.1.symm (hletters _ hm _ hm).2
  · obtain ⟨hhigh, hlow, hrest⟩ := heq
    have hdiv := digitChar_injective_of_lt (by omega) (by omega) hhigh
    have hmod := digitChar_injective_of_lt (by omega) (by omega) hlow
    exact ⟨Char.toNat_inj.mp (by omega), hrest⟩
  · exact absurd heq.1.symm hback'
  · exact absurd heq.1 hback
  · exact absurd heq.1 hback
  · exact heq

theorem escapeChar_append_ne (ch : Char) (x y : List Char) :
    escapeChar ch ++ x ≠ '\x22' :: y := by
  intro heq
  rcases escapeChar_cases ch with ⟨l, hl, h⟩ | ⟨hctl, h⟩ | ⟨h, -, hquote, -⟩ <;>
    rw [h] at heq <;>
    simp only [List.cons_append, List.nil_append, List.cons.injEq] at heq
  · exact absurd heq.1 (by decide)
  · exact absurd heq.1 (by decide)
  · exact hquote heq.1

theorem stringText_prefixFree : PrefixFree stringText := by
  intro s t x y heq
  have htext := escapeChar_prefixFree.flatMap_close escapeChar_append_ne
  obtain ⟨hchars, hrest⟩ := htext s.toList t.toList x y (List.cons.inj heq).2
  exact ⟨String.toList_inj.mp hchars, hrest⟩

theorem arrayText_prefixFree {α : Type*} {enc : α → List Char}
    (h : PrefixFreeBefore FollowsValue enc)
    (hstart : ∀ a x y, enc a ++ x ≠ ']' :: y) : PrefixFree (arrayText enc) := by
  intro first second x y heq
  have hitems : PrefixFree (separated ',' ']' enc) :=
    h.separated (by simp [FollowsValue]) (by simp [FollowsValue]) (by decide)
      hstart
  exact hitems first second x y (List.cons.inj heq).2

theorem memberText_prefixFree {α : Type*} {enc : α → List Char}
    (h : PrefixFreeBefore FollowsValue enc) :
    PrefixFreeBefore FollowsValue (memberText enc) := by
  rintro ⟨name, a⟩ ⟨name', b⟩ s t x y hs ht heq
  simp only [memberText, List.append_assoc, List.cons_append] at heq
  obtain ⟨rfl, hvalue⟩ := stringText_prefixFree _ _ _ _ heq
  obtain ⟨rfl, hrest⟩ := h _ _ _ _ _ _ hs ht (List.cons.inj hvalue).2
  exact ⟨rfl, hrest⟩

theorem objectText_prefixFree {α : Type*} {enc : α → List Char}
    (h : PrefixFreeBefore FollowsValue enc) : PrefixFree (objectText enc) := by
  intro first second x y heq
  have hmembers : PrefixFree (separated ',' '\x7d' (memberText enc)) :=
    (memberText_prefixFree h).separated (by simp [FollowsValue])
      (by simp [FollowsValue]) (by decide) fun m x y => by
        simp [memberText, stringText]
  exact hmembers first second x y (List.cons.inj heq).2

end Rkv.Foundation
