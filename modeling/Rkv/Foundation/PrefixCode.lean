import Mathlib

/-!
# Prefix codes

An encoding is prefix-free if what follows a code word never changes what was
encoded.  Prefix-free encodings compose by concatenation, survive an injective
change of the values, and have a decoder that ignores what follows a code word
and rejects every word cut short.  A numeral is prefix-free only in front of a
symbol that stops it.
-/

namespace Rkv.Foundation

variable {α β γ : Type*}

def PrefixFree (enc : α → List β) : Prop :=
  ∀ a b x y, enc a ++ x = enc b ++ y → a = b ∧ x = y

/-- Prefix-free in front of a symbol that stops the word. -/
def PrefixFreeBefore (stop : β → Prop) (enc : α → List β) : Prop :=
  ∀ a b s t x y, stop s → stop t → enc a ++ s :: x = enc b ++ t :: y →
    a = b ∧ s :: x = t :: y

namespace PrefixFree

variable {enc : α → List β}

theorem injective (h : PrefixFree enc) : Function.Injective enc := by
  intro a b heq
  exact (h a b [] [] (by rw [heq])).1

theorem comp (h : PrefixFree enc) {f : γ → α} (hf : Function.Injective f) :
    PrefixFree fun c => enc (f c) := by
  intro a b x y heq
  obtain ⟨hval, hrest⟩ := h (f a) (f b) x y heq
  exact ⟨hf hval, hrest⟩

theorem pair {enc' : γ → List β} (h : PrefixFree enc) (h' : PrefixFree enc') :
    PrefixFree fun p : α × γ => enc p.1 ++ enc' p.2 := by
  rintro ⟨a, c⟩ ⟨b, d⟩ x y heq
  simp only [List.append_assoc] at heq
  obtain ⟨rfl, hsecond⟩ := h _ _ _ _ heq
  obtain ⟨rfl, hrest⟩ := h' _ _ _ _ hsecond
  exact ⟨rfl, hrest⟩

theorem of_length {width : Nat} (hinj : Function.Injective enc)
    (hlen : ∀ a, (enc a).length = width) : PrefixFree enc := by
  intro a b x y heq
  obtain ⟨hword, hrest⟩ :=
    List.append_inj heq ((hlen a).trans (hlen b).symm)
  exact ⟨hinj hword, hrest⟩

/-- Words that read back symbol by symbol make prefix-free texts, once a symbol
that starts no word closes them. -/
theorem flatMap_close (h : PrefixFree enc) {close : β}
    (hclose : ∀ a x y, enc a ++ x ≠ close :: y) :
    PrefixFree fun l : List α => l.flatMap enc ++ [close] := by
  intro first second x y heq
  induction first generalizing second with
  | nil =>
      cases second with
      | nil => simpa using heq
      | cons b second =>
          simp only [List.flatMap_nil, List.nil_append, List.flatMap_cons,
            List.append_assoc, List.cons_append] at heq
          exact absurd heq.symm (hclose b _ _)
  | cons a first ih =>
      cases second with
      | nil =>
          simp only [List.flatMap_nil, List.nil_append, List.flatMap_cons,
            List.append_assoc, List.cons_append] at heq
          exact absurd heq (hclose a _ _)
      | cons b second =>
          simp only [List.flatMap_cons, List.append_assoc] at heq
          obtain ⟨rfl, htail⟩ := h _ _ _ _ heq
          obtain ⟨rfl, hrest⟩ := ih second (by simpa using htail)
          exact ⟨rfl, hrest⟩

theorem counted (h : PrefixFree enc) {len : Nat → List β}
    (hlen : PrefixFree len) :
    PrefixFree fun l : List α => len l.length ++ l.flatMap enc := by
  have hitems : ∀ (first second : List α) x y, first.length = second.length →
      first.flatMap enc ++ x = second.flatMap enc ++ y →
        first = second ∧ x = y := by
    intro first
    induction first with
    | nil =>
        intro second x y hlength heq
        obtain rfl := List.length_eq_zero_iff.mp hlength.symm
        exact ⟨rfl, by simpa using heq⟩
    | cons a first ih =>
        intro second x y hlength heq
        cases second with
        | nil => simp at hlength
        | cons b second =>
            simp only [List.flatMap_cons, List.append_assoc] at heq
            obtain ⟨rfl, htail⟩ := h _ _ _ _ heq
            obtain ⟨rfl, hrest⟩ := ih second x y (by simpa using hlength) htail
            exact ⟨rfl, hrest⟩
  intro first second x y heq
  simp only [List.append_assoc] at heq
  obtain ⟨hlength, hrest⟩ := hlen _ _ _ _ heq
  exact hitems first second x y hlength hrest

end PrefixFree

/-! ## Words that a symbol stops -/

/-- Texts without stopping symbols end where the first one stands. -/
theorem append_cancel_of_forall (stop : β → Prop) {first second x y : List β}
    {s t : β} (hfirst : ∀ b ∈ first, ¬stop b) (hsecond : ∀ b ∈ second, ¬stop b)
    (hs : stop s) (ht : stop t) (h : first ++ s :: x = second ++ t :: y) :
    first = second ∧ s :: x = t :: y := by
  induction first generalizing second with
  | nil =>
      cases second with
      | nil => exact ⟨rfl, h⟩
      | cons b second =>
          obtain ⟨rfl, -⟩ := List.cons.inj h
          exact absurd hs (hsecond s (by simp))
  | cons a first ih =>
      cases second with
      | nil =>
          obtain ⟨rfl, -⟩ := List.cons.inj h
          exact absurd ht (hfirst a (by simp))
      | cons b second =>
          obtain ⟨rfl, htail⟩ := List.cons.inj h
          obtain ⟨rfl, hrest⟩ := ih (fun b hb => hfirst b (by simp [hb]))
            (fun b hb => hsecond b (by simp [hb])) htail
          exact ⟨rfl, hrest⟩

theorem PrefixFreeBefore.of_forall {stop : β → Prop} {enc : α → List β}
    (hinj : Function.Injective enc) (hstop : ∀ a, ∀ b ∈ enc a, ¬stop b) :
    PrefixFreeBefore stop enc := by
  intro a b s t x y hs ht heq
  obtain ⟨hword, hrest⟩ :=
    append_cancel_of_forall stop (hstop a) (hstop b) hs ht heq
  exact ⟨hinj hword, hrest⟩

section

variable (sep close : β) (enc : α → List β)

def separatedTail : List α → List β
  | [] => [close]
  | a :: rest => sep :: enc a ++ separatedTail rest

/-- Words with a separator between them, closed at the end. -/
def separated : List α → List β
  | [] => [close]
  | a :: rest => enc a ++ separatedTail sep close enc rest

end

namespace PrefixFreeBefore

variable {stop : β → Prop} {sep close : β} {enc : α → List β}

theorem exists_separatedTail (enc : α → List β) (hsep : stop sep)
    (hclose : stop close) (l : List α) (x : List β) :
    ∃ s rest, stop s ∧ separatedTail sep close enc l ++ x = s :: rest := by
  cases l with
  | nil => exact ⟨close, x, hclose, rfl⟩
  | cons a l => exact ⟨sep, _, hsep, rfl⟩

theorem separatedTail (h : PrefixFreeBefore stop enc) (hsep : stop sep)
    (hclose : stop close) (hne : sep ≠ close) :
    PrefixFree (separatedTail sep close enc) := by
  intro first second x y heq
  induction first generalizing second with
  | nil =>
      cases second with
      | nil => exact ⟨rfl, (List.cons.inj heq).2⟩
      | cons b second => exact absurd (List.cons.inj heq).1.symm hne
  | cons a first ih =>
      cases second with
      | nil => exact absurd (List.cons.inj heq).1 hne
      | cons b second =>
          have hwords : enc a ++ (Foundation.separatedTail sep close enc first ++
              x) = enc b ++ (Foundation.separatedTail sep close enc second ++
                y) := by
            simpa [Foundation.separatedTail] using heq
          obtain ⟨s, u, hs, hu⟩ :=
            exists_separatedTail enc hsep hclose first x
          obtain ⟨t, v, ht, hv⟩ :=
            exists_separatedTail enc hsep hclose second y
          rw [hu, hv] at hwords
          obtain ⟨rfl, htail⟩ := h _ _ _ _ _ _ hs ht hwords
          rw [← hu, ← hv] at htail
          obtain ⟨rfl, hrest⟩ := ih second htail
          exact ⟨rfl, hrest⟩

theorem separated (h : PrefixFreeBefore stop enc) (hsep : stop sep)
    (hclose : stop close) (hne : sep ≠ close)
    (hstart : ∀ a x y, enc a ++ x ≠ close :: y) :
    PrefixFree (separated sep close enc) := by
  intro first second x y heq
  cases first with
  | nil =>
      cases second with
      | nil => exact ⟨rfl, (List.cons.inj heq).2⟩
      | cons b second =>
          simp only [Foundation.separated, List.append_assoc,
            List.cons_append] at heq
          exact absurd heq.symm (hstart b _ _)
  | cons a first =>
      cases second with
      | nil =>
          simp only [Foundation.separated, List.append_assoc,
            List.cons_append] at heq
          exact absurd heq (hstart a _ _)
      | cons b second =>
          simp only [Foundation.separated, List.append_assoc] at heq
          obtain ⟨s, u, hs, hu⟩ :=
            exists_separatedTail enc hsep hclose first x
          obtain ⟨t, v, ht, hv⟩ :=
            exists_separatedTail enc hsep hclose second y
          rw [hu, hv] at heq
          obtain ⟨rfl, htail⟩ := h _ _ _ _ _ _ hs ht heq
          rw [← hu, ← hv] at htail
          obtain ⟨rfl, hrest⟩ :=
            h.separatedTail hsep hclose hne _ _ _ _ htail
          exact ⟨rfl, hrest⟩

end PrefixFreeBefore

/-! ## Decoding -/

open Classical in
noncomputable def decodePrefix (enc : α → List β) (text : List β) : Option α :=
  if h : ∃ a x, enc a ++ x = text then some h.choose else none

namespace PrefixFree

variable {enc : α → List β}

theorem decodePrefix_append (h : PrefixFree enc) (a : α) (x : List β) :
    decodePrefix enc (enc a ++ x) = some a := by
  have hex : ∃ b y, enc b ++ y = enc a ++ x := ⟨a, x, rfl⟩
  obtain ⟨y, hy⟩ := hex.choose_spec
  rw [decodePrefix, dif_pos hex, (h _ _ _ _ hy).1]

theorem decodePrefix_cut (h : PrefixFree enc) {a : α} {cut : List β}
    (hcut : cut <+: enc a) (hne : cut ≠ enc a) : decodePrefix enc cut = none := by
  refine dif_neg ?_
  rintro ⟨b, x, rfl⟩
  obtain ⟨rest, hrest⟩ := hcut
  rw [List.append_assoc] at hrest
  obtain ⟨rfl, hnil⟩ := h b a (x ++ rest) [] (by rw [hrest, List.append_nil])
  obtain ⟨rfl, rfl⟩ := List.append_eq_nil_iff.mp hnil
  exact hne (List.append_nil _)

end PrefixFree

end Rkv.Foundation
