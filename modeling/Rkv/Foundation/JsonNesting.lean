import Rkv.Foundation.JsonText

/-!
# Nesting of JSON text

A scanner with a quote flag, an escape flag and a depth of braces.  Scanning a
value from outside a string ends where it began and never leaves the enclosing
object; scanning it from inside a string ends inside one.  An object that ends a
longer object would have to close two braces at once.  No value has a newline.
-/

namespace Rkv.Foundation

structure ScanState where
  quoted : Bool
  escaped : Bool
  depth : Int

def scanChar (s : ScanState) (ch : Char) : ScanState :=
  if s.escaped then { s with escaped := false }
  else if ch = '\x5c' then { s with escaped := true }
  else if ch = '\x22' then { s with quoted := !s.quoted }
  else if s.quoted then s
  else if ch = '\x7b' then { s with depth := s.depth + 1 }
  else if ch = '\x7d' then { s with depth := s.depth - 1 }
  else s

def scan (s : ScanState) (text : List Char) : ScanState :=
  text.foldl scanChar s

/-- Inside a string, or within an object and not behind a backslash. -/
def ScanState.Inside (s : ScanState) : Prop :=
  s.quoted = true ∨ s.escaped = false ∧ 1 ≤ s.depth

def StaysInside : ScanState → List Char → Prop
  | s, [] => s.Inside
  | s, ch :: text => s.Inside ∧ StaysInside (scanChar s ch) text

@[simp] theorem scan_nil (s : ScanState) : scan s [] = s := rfl

@[simp] theorem scan_cons (s : ScanState) (ch : Char) (text : List Char) :
    scan s (ch :: text) = scan (scanChar s ch) text := rfl

@[simp] theorem scan_append (s : ScanState) (first second : List Char) :
    scan s (first ++ second) = scan (scan s first) second :=
  List.foldl_append

theorem staysInside_append {s : ScanState} {first second : List Char}
    (hfirst : StaysInside s first) (hsecond : StaysInside (scan s first) second) :
    StaysInside s (first ++ second) := by
  induction first generalizing s with
  | nil => exact hsecond
  | cons ch first ih => exact ⟨hfirst.1, ih hfirst.2 hsecond⟩

theorem StaysInside.of_append {s : ScanState} {first second : List Char}
    (h : StaysInside s (first ++ second)) : (scan s first).Inside := by
  induction first generalizing s with
  | nil =>
      cases second with
      | nil => exact h
      | cons ch second => exact h.1
  | cons ch first ih => exact ih h.2

/-- What the scanner does over a value. -/
structure Balanced (text : List Char) : Prop where
  outside : ∀ d, scan ⟨false, false, d⟩ text = ⟨false, false, d⟩
  inside : ∀ d, 1 ≤ d → StaysInside ⟨false, false, d⟩ text
  quoted : ∀ d, ∃ d', scan ⟨true, false, d⟩ text = ⟨true, false, d'⟩
  oneLine : '\n' ∉ text

def Plain (ch : Char) : Prop := ch ∉ ['\n', '\x5c', '\x22', '\x7b', '\x7d']

theorem scanChar_plain {ch : Char} (h : Plain ch) (q : Bool) (d : Int) :
    scanChar ⟨q, false, d⟩ ch = ⟨q, false, d⟩ := by
  simp only [Plain, List.mem_cons, List.not_mem_nil, or_false, not_or] at h
  simp [scanChar, h]

namespace Balanced

theorem nil : Balanced [] :=
  ⟨fun _ => rfl, fun _ hd => .inr ⟨rfl, hd⟩, fun d => ⟨d, rfl⟩, by simp⟩

theorem append {first second : List Char} (h : Balanced first)
    (h' : Balanced second) : Balanced (first ++ second) where
  outside := fun d => by rw [scan_append, h.outside, h'.outside]
  inside := fun d hd => staysInside_append (h.inside d hd) (by
    rw [h.outside]
    exact h'.inside d hd)
  quoted := fun d => by
    obtain ⟨e, he⟩ := h.quoted d
    obtain ⟨f, hf⟩ := h'.quoted e
    exact ⟨f, by rw [scan_append, he, hf]⟩
  oneLine := by simp [h.oneLine, h'.oneLine]

theorem plain {text : List Char} (h : ∀ ch ∈ text, Plain ch) :
    Balanced text := by
  induction text with
  | nil => exact nil
  | cons ch text ih =>
      have hch : Balanced [ch] := by
        have hplain := h ch (by simp)
        refine ⟨fun d => scanChar_plain hplain false d, fun d hd => ?_,
          fun d => ⟨d, scanChar_plain hplain true d⟩, ?_⟩
        · refine ⟨.inr ⟨rfl, hd⟩, ?_⟩
          rw [scanChar_plain hplain]
          exact .inr ⟨rfl, hd⟩
        · intro hmem
          rw [← List.mem_singleton.mp hmem] at hplain
          simp [Plain] at hplain
      exact hch.append (ih fun other hother => h other (by simp [hother]))

theorem braces {text : List Char} (h : Balanced text) :
    Balanced ('\x7b' :: (text ++ ['\x7d'])) where
  outside := fun d => by
    rw [scan_cons, scan_append]
    change scan (scan ⟨false, false, d + 1⟩ text) _ = _
    rw [h.outside]
    simp [scanChar]
  inside := fun d hd => by
    refine ⟨.inr ⟨rfl, hd⟩, staysInside_append (h.inside (d + 1) (by omega)) ?_⟩
    change StaysInside (scan ⟨false, false, d + 1⟩ text) _
    rw [h.outside]
    refine ⟨.inr ⟨rfl, by simp only; omega⟩, .inr ⟨rfl, ?_⟩⟩
    simpa [scanChar] using hd
  quoted := fun d => by
    obtain ⟨e, he⟩ := h.quoted d
    refine ⟨e, ?_⟩
    rw [scan_cons, scan_append]
    change scan (scan ⟨true, false, d⟩ text) _ = _
    rw [he]
    simp [scanChar]
  oneLine := by simp [h.oneLine]

end Balanced

/-! ## Strings -/

/-- Inside a string the scanner stays there; taken for text outside, the escapes
are left complete. -/
structure BalancedQuoted (text : List Char) : Prop where
  kept : ∀ d, scan ⟨true, false, d⟩ text = ⟨true, false, d⟩
  inside : ∀ d, StaysInside ⟨true, false, d⟩ text
  outside : ∀ d, ∃ d', scan ⟨false, false, d⟩ text = ⟨false, false, d'⟩
  oneLine : '\n' ∉ text

theorem BalancedQuoted.append {first second : List Char}
    (h : BalancedQuoted first) (h' : BalancedQuoted second) :
    BalancedQuoted (first ++ second) where
  kept := fun d => by rw [scan_append, h.kept, h'.kept]
  inside := fun d => staysInside_append (h.inside d) (by
    rw [h.kept]
    exact h'.inside d)
  outside := fun d => by
    obtain ⟨e, he⟩ := h.outside d
    obtain ⟨f, hf⟩ := h'.outside e
    exact ⟨f, by rw [scan_append, he, hf]⟩
  oneLine := by simp [h.oneLine, h'.oneLine]

theorem BalancedQuoted.escape {letter : Char} (h : letter ≠ '\n') :
    BalancedQuoted ['\x5c', letter] :=
  ⟨fun d => by simp [scanChar],
    fun d => by simp [StaysInside, ScanState.Inside, scanChar],
    fun d => ⟨d, by simp [scanChar]⟩, by simp [h.symm]⟩

theorem BalancedQuoted.char {ch : Char} (hquote : ch ≠ '\x22')
    (hback : ch ≠ '\x5c') (hnewline : ch ≠ '\n') : BalancedQuoted [ch] where
  kept := fun d => by simp [scanChar, hquote, hback]
  inside := fun d => by
    simp [StaysInside, ScanState.Inside, scanChar, hquote, hback]
  outside := fun d => by
    simp only [scan_cons, scan_nil, scanChar, hquote, hback]
    by_cases hopen : ch = '\x7b'
    · exact ⟨d + 1, by simp [hopen]⟩
    · by_cases hclose : ch = '\x7d'
      · exact ⟨d - 1, by simp [hclose]⟩
      · exact ⟨d, by simp [hopen, hclose]⟩
  oneLine := by simp [hnewline.symm]

theorem balancedQuoted_escapeChar (ch : Char) :
    BalancedQuoted (escapeChar ch) := by
  have hdigit : ∀ n, n < 16 → BalancedQuoted [n.digitChar] := by
    have hall : ∀ n : Fin 16, n.val.digitChar ≠ '\x22' ∧
        n.val.digitChar ≠ '\x5c' ∧ n.val.digitChar ≠ '\n' := by decide
    intro n hn
    exact .char (hall ⟨n, hn⟩).1 (hall ⟨n, hn⟩).2.1 (hall ⟨n, hn⟩).2.2
  have hletters : ∀ p ∈ shortEscapes, p.2 ≠ '\n' := by decide
  rcases escapeChar_cases ch with ⟨l, hl, h⟩ | ⟨hctl, h⟩ | ⟨h, hge, hquote, hback⟩
  · rw [h]
    exact .escape (hletters _ hl)
  · rw [h]
    have hzero : BalancedQuoted ['0'] := hdigit 0 (by decide)
    have hu : BalancedQuoted ['\x5c', 'u'] := .escape (by decide)
    exact hu.append (hzero.append (hzero.append
      ((hdigit (ch.toNat / 16) (by omega)).append
        (hdigit (ch.toNat % 16) (by omega)))))
  · rw [h]
    refine .char hquote hback ?_
    rintro rfl
    exact absurd hge (by decide)

theorem balancedQuoted_flatMap_escapeChar (chars : List Char) :
    BalancedQuoted (chars.flatMap escapeChar) := by
  induction chars with
  | nil =>
      exact ⟨fun _ => rfl, fun _ => .inl rfl, fun d => ⟨d, rfl⟩, by simp⟩
  | cons ch chars ih =>
      rw [List.flatMap_cons]
      exact (balancedQuoted_escapeChar ch).append ih

namespace Balanced

theorem string (s : String) : Balanced (stringText s) := by
  have hcontent := balancedQuoted_flatMap_escapeChar s.toList
  have hopen : ∀ q d, scanChar ⟨q, false, d⟩ '\x22' = ⟨!q, false, d⟩ := by
    simp [scanChar]
  refine ⟨fun d => ?_, fun d hd => ⟨.inr ⟨rfl, hd⟩, ?_⟩, fun d => ?_, ?_⟩
  · simp only [stringText, scan_cons, scan_append, hopen, Bool.not_false,
      hcontent.kept, scan_nil, Bool.not_true]
  · rw [hopen]
    refine staysInside_append (hcontent.inside d) ?_
    rw [Bool.not_false, hcontent.kept]
    exact ⟨.inl rfl, .inr ⟨by simp [hopen], by simpa [hopen] using hd⟩⟩
  · obtain ⟨e, he⟩ := hcontent.outside d
    refine ⟨e, ?_⟩
    simp only [stringText, scan_cons, scan_append, hopen, Bool.not_true, he,
      scan_nil, Bool.not_false]
  · have hnewline := hcontent.oneLine
    simp [stringText, hnewline]

/-! ## Numbers, arrays and objects -/

theorem decimal (n : Nat) : Balanced (decimal n) := by
  refine plain fun ch hch => ?_
  have hdigit := isDigit_of_mem_decimal hch
  intro hmem
  simp only [List.mem_cons, List.not_mem_nil, or_false] at hmem
  rcases hmem with rfl | rfl | rfl | rfl | rfl <;> simp at hdigit

theorem int (i : Int) : Balanced (intText i) := by
  cases i with
  | ofNat n => exact decimal n
  | negSucc n =>
      have hsign : Balanced ['-'] := plain (by simp [Plain])
      exact hsign.append (decimal (n + 1))

theorem bool (b : Bool) : Balanced (boolText b) := by
  cases b <;> exact plain (by simp [boolText, Plain])

theorem exists_separated {α : Type*} {enc : α → List Char} (sep : Char)
    (hsep : Plain sep) {items : List α} (h : ∀ a ∈ items, Balanced (enc a))
    (close : Char) :
    ∃ text, separated sep close enc items = text ++ [close] ∧
      Balanced text := by
  have htail : ∀ rest : List α, (∀ a ∈ rest, Balanced (enc a)) →
      ∃ text, separatedTail sep close enc rest = text ++ [close] ∧
        Balanced text := by
    intro rest hrest
    induction rest with
    | nil => exact ⟨[], rfl, nil⟩
    | cons a rest ih =>
        obtain ⟨text, heq, hbalanced⟩ := ih fun b hb => hrest b (by simp [hb])
        have hcomma : Balanced [sep] := plain (by simpa using hsep)
        have hword : Balanced (sep :: enc a) :=
          hcomma.append (hrest a (by simp))
        exact ⟨(sep :: enc a) ++ text, by simp [separatedTail, heq],
          hword.append hbalanced⟩
  cases items with
  | nil => exact ⟨[], rfl, nil⟩
  | cons a rest =>
      obtain ⟨text, heq, hbalanced⟩ := htail rest fun b hb => h b (by simp [hb])
      exact ⟨enc a ++ text, by simp [separated, heq],
        (h a (by simp)).append hbalanced⟩

theorem array {α : Type*} {enc : α → List Char} {items : List α}
    (h : ∀ a ∈ items, Balanced (enc a)) : Balanced (arrayText enc items) := by
  obtain ⟨text, heq, hbalanced⟩ :=
    exists_separated ',' (by simp [Plain]) h ']'
  have hopen : Balanced ['['] := plain (by simp [Plain])
  have hclose : Balanced [']'] := plain (by simp [Plain])
  rw [arrayText, heq]
  exact hopen.append (hbalanced.append hclose)

theorem exists_object {α : Type*} {enc : α → List Char}
    {members : List (String × α)} (h : ∀ m ∈ members, Balanced (enc m.2)) :
    ∃ text, objectText enc members = '\x7b' :: (text ++ ['\x7d']) ∧
      Balanced text := by
  have hmembers : ∀ m ∈ members, Balanced (memberText enc m) := by
    intro m hm
    have hcolon : Balanced [':'] := plain (by simp [Plain])
    exact (string m.1).append (hcolon.append (h m hm))
  obtain ⟨text, heq, hbalanced⟩ :=
    exists_separated ',' (by simp [Plain]) hmembers '\x7d'
  exact ⟨text, by rw [objectText, heq], hbalanced⟩

theorem object {α : Type*} {enc : α → List Char}
    {members : List (String × α)} (h : ∀ m ∈ members, Balanced (enc m.2)) :
    Balanced (objectText enc members) := by
  obtain ⟨text, heq, hbalanced⟩ := exists_object h
  rw [heq]
  exact hbalanced.braces

end Balanced

/-- No text in front of an object makes an object of both. -/
theorem append_object_ne {inner outer : List Char} (hinner : Balanced inner)
    (houter : Balanced outer) {text : List Char} (hne : text ≠ []) :
    text ++ '\x7b' :: (inner ++ ['\x7d']) ≠ '\x7b' :: (outer ++ ['\x7d']) := by
  intro heq
  -- behind the text the scanner is inside the outer object
  have hinside : (scan ⟨false, false, 0⟩ text).Inside := by
    cases text with
    | nil => exact absurd rfl hne
    | cons ch rest =>
        obtain ⟨rfl, hrest⟩ := List.cons.inj heq
        have hcut : ∃ more, rest ++ more = outer := by
          have hlast := List.append_inj_left'
            (show (rest ++ '\x7b' :: inner) ++ ['\x7d'] = outer ++ ['\x7d'] by
              simpa using hrest) rfl
          exact ⟨_, hlast⟩
        obtain ⟨more, rfl⟩ := hcut
        exact (houter.inside 1 (by decide)).of_append
  have hend := congrArg (scan ⟨false, false, 0⟩) heq
  rw [scan_append, houter.braces.outside] at hend
  generalize scan ⟨false, false, 0⟩ text = s at hinside hend
  obtain ⟨q, e, d⟩ := s
  -- the object leaves the flag of quotes and the depth as they were
  cases q with
  | true =>
      cases e with
      | false =>
          obtain ⟨d', hd'⟩ := hinner.braces.quoted d
          rw [hd'] at hend
          simp at hend
      | true =>
          obtain ⟨d', hd'⟩ := hinner.quoted d
          rw [scan_cons, scan_append] at hend
          change scan (scan ⟨true, false, d⟩ inner) _ = _ at hend
          rw [hd'] at hend
          simp [scanChar] at hend
  | false =>
      rcases hinside with hquoted | ⟨hescaped, hdepth⟩
      · contradiction
      · obtain rfl : e = false := hescaped
        rw [hinner.braces.outside] at hend
        simp only [ScanState.mk.injEq, true_and] at hend
        simp only at hdepth
        omega

end Rkv.Foundation
