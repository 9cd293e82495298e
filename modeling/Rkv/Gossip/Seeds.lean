import Rkv.Gossip.OwnEntry

/-!
# What the seeds flag registers

The text of `--seeds` is cut at its commas.  A part names a seed when it has one
equals sign; the id and the address are what stands on its two sides without the
white space around them.  Other parts are passed over.  The parts are registered
from left to right, so the last part that names an id decides its address.
-/

namespace Rkv.Gossip

open Std (ExtTreeMap)
open Rkv.Foundation
open Rkv.Ring (HashRing)
open Rkv.Storage (isWhitespace)

/-! ## Cutting and trimming -/

theorem notMem_of_mem_splitOn {α : Type*} [BEq α] [LawfulBEq α] {sep : α}
    {text part : List α} (h : part ∈ text.splitOn sep) : sep ∉ part := by
  induction text generalizing part with
  | nil =>
      rw [List.splitOn_nil, List.mem_singleton] at h
      simp [h]
  | cons ch text ih =>
      rw [List.splitOn_cons_eq_if_modifyHead] at h
      split at h
      · rcases List.mem_cons.mp h with rfl | hrest
        · simp
        · exact ih hrest
      · rename_i hne
        cases hparts : text.splitOn sep with
        | nil => exact absurd hparts (List.splitOn_ne_nil sep text)
        | cons first rest =>
            rw [hparts] at h ih
            rcases List.mem_cons.mp h with rfl | hrest
            · rw [List.mem_cons, not_or]
              refine ⟨fun heq => hne (by simp [heq]), ih List.mem_cons_self⟩
            · exact ih (List.mem_cons_of_mem _ hrest)

theorem splitOn_eq_pair_iff {α : Type*} [BEq α] [LawfulBEq α] {sep : α}
    {text left right : List α} :
    text.splitOn sep = [left, right] ↔
      text = left ++ sep :: right ∧ sep ∉ left ∧ sep ∉ right := by
  constructor
  · intro h
    have htext : [sep].intercalate (text.splitOn sep) = text :=
      List.intercalate_splitOn sep
    have hmem : ∀ part ∈ [left, right], sep ∉ part := fun part hpart =>
      notMem_of_mem_splitOn (h.symm ▸ hpart)
    rw [h] at htext
    exact ⟨by simpa using htext.symm, hmem left (by simp), hmem right (by simp)⟩
  · rintro ⟨rfl, hleft, hright⟩
    rw [List.splitOn_append_cons_self_of_not_mem hleft,
      List.splitOn_eq_singleton hright]

/-- White space, then the word, then white space. -/
def Padded (word text : List Char) : Prop :=
  ∃ before after, text = before ++ word ++ after ∧
    (∀ ch ∈ before, isWhitespace ch = true) ∧
    ∀ ch ∈ after, isWhitespace ch = true

/-- The word neither starts nor ends with white space. -/
def Bare (word : List Char) : Prop :=
  (∀ ch rest, word = ch :: rest → isWhitespace ch = false) ∧
    ∀ front ch, word = front ++ [ch] → isWhitespace ch = false

theorem rdropWhile_append_of_pos {α : Type*} {p : α → Bool} (l : List α)
    {after : List α} (h : ∀ x ∈ after, p x = true) :
    (l ++ after).rdropWhile p = l.rdropWhile p := by
  rw [List.rdropWhile, List.reverse_append, List.dropWhile_append_of_pos]
  · rfl
  · simpa using h

theorem trim_eq_iff {text word : List Char} :
    trim text = word ↔ Padded word text ∧ Bare word := by
  constructor
  · rintro rfl
    refine ⟨⟨text.takeWhile isWhitespace,
      (text.dropWhile isWhitespace).rtakeWhile isWhitespace, ?_,
      fun ch hch => List.mem_takeWhile_imp hch,
      fun ch hch => List.mem_rtakeWhile_imp hch⟩, ?_, ?_⟩
    · rw [List.append_assoc, trim, List.rdropWhile_append_rtakeWhile,
        List.takeWhile_append_dropWhile]
    · intro ch rest hword
      -- the first character left is the first one of the dropped text
      have hprefix := List.rdropWhile_prefix isWhitespace
        (l := text.dropWhile isWhitespace)
      rw [← trim, hword] at hprefix
      obtain ⟨tail, htail⟩ := hprefix
      have hself := List.dropWhile_idempotent isWhitespace (l := text)
      rw [← htail, List.cons_append, List.dropWhile_cons] at hself
      by_contra hwhite
      rw [if_pos (by simpa using hwhite)] at hself
      have hlength := congrArg List.length hself
      have hle := (List.dropWhile_sublist isWhitespace
        (l := rest ++ tail)).length_le
      simp only [List.length_cons] at hlength
      omega
    · intro front ch hword
      have hself := List.rdropWhile_idempotent isWhitespace
        (l := text.dropWhile isWhitespace)
      rw [← trim, hword, List.rdropWhile_concat] at hself
      by_contra hwhite
      rw [if_pos (by simpa using hwhite)] at hself
      have hlength := congrArg List.length hself
      have hle := (List.rdropWhile_prefix isWhitespace (l := front)).length_le
      simp only [List.length_append, List.length_singleton] at hlength
      omega
  · rintro ⟨⟨before, after, rfl, hbefore, hafter⟩, hfirst, hlast⟩
    rw [trim, List.append_assoc, List.dropWhile_append_of_pos hbefore]
    cases word with
    | nil =>
        rw [List.nil_append, List.dropWhile_eq_nil_iff.mpr hafter]
        rfl
    | cons ch rest =>
        have hch := hfirst ch rest rfl
        rw [List.cons_append, List.dropWhile_cons_of_neg (by simp [hch]),
          ← List.cons_append, rdropWhile_append_of_pos _ hafter,
          List.rdropWhile_eq_self_iff]
        intro hne hwhite
        have hsplit := (List.dropLast_append_getLast hne).symm
        rw [hlast _ _ hsplit] at hwhite
        contradiction

/-- The part reads as this id and this address. -/
structure SeedText (part : List Char) (id address : String) : Prop where
  bareId : Bare id.toList
  bareAddress : Bare address.toList
  sides : ∃ left right, part = left ++ '=' :: right ∧ '=' ∉ left ∧
    '=' ∉ right ∧ Padded id.toList left ∧ Padded address.toList right

theorem parseSeed_eq_some_iff {part : List Char} {id address : String} :
    parseSeed part = some (id, address) ↔ SeedText part id address := by
  constructor
  · intro h
    unfold parseSeed at h
    split at h
    · rename_i left right hsplit
      simp only [Option.some.injEq, Prod.mk.injEq] at h
      obtain ⟨rfl, rfl⟩ := h
      obtain ⟨hpart, hleft, hright⟩ := splitOn_eq_pair_iff.mp hsplit
      obtain ⟨hpadId, hbareId⟩ := trim_eq_iff.mp (Eq.refl (trim left))
      obtain ⟨hpadAddress, hbareAddress⟩ :=
        trim_eq_iff.mp (Eq.refl (trim right))
      refine ⟨?_, ?_, left, right, hpart, hleft, hright, ?_, ?_⟩ <;>
        simpa only [String.toList_ofList]
    · contradiction
  · rintro ⟨hbareId, hbareAddress, left, right, hpart, hleft, hright, hpadId,
      hpadAddress⟩
    rw [parseSeed, splitOn_eq_pair_iff.mpr ⟨hpart, hleft, hright⟩]
    dsimp only
    rw [trim_eq_iff.mpr ⟨hpadId, hbareId⟩,
      trim_eq_iff.mpr ⟨hpadAddress, hbareAddress⟩, String.ofList_toList,
      String.ofList_toList]

/-! ## Registering -/

/-- The last of the parts that names the id gives it this address. -/
def LastNamed (parts : List (List Char)) (id address : String) : Prop :=
  ∃ before part after, parts = before ++ part :: after ∧
    SeedText part id address ∧
    ∀ later ∈ after, ∀ other, ¬SeedText later id other

theorem lastNamed_concat {parts : List (List Char)} {part : List Char}
    {id address : String} :
    LastNamed (parts ++ [part]) id address ↔
      SeedText part id address ∨
        (∀ other, ¬SeedText part id other) ∧ LastNamed parts id address := by
  constructor
  · rintro ⟨before, named, after, hsplit, hnamed, hnone⟩
    rcases List.eq_nil_or_concat after with rfl | ⟨front, last, rfl⟩
    · obtain ⟨-, hlast⟩ := List.append_inj' hsplit rfl
      rw [List.singleton_inj.mp hlast]
      exact .inl hnamed
    · have hlast : parts ++ [part] = (before ++ named :: front) ++ [last] := by
        rw [hsplit]
        simp
      obtain ⟨rfl, hpart⟩ := List.append_inj' hlast rfl
      obtain rfl := List.singleton_inj.mp hpart
      exact .inr ⟨hnone part (by simp), before, named, front, rfl, hnamed,
        fun later hlater => hnone later (by simp [hlater])⟩
  · rintro (hnamed | ⟨hnone, before, named, after, rfl, hnamed, hlater⟩)
    · exact ⟨parts, part, [], rfl, hnamed, by simp⟩
    · refine ⟨before, named, after ++ [part], by simp, hnamed, ?_⟩
      intro later hmem
      rcases List.mem_append.mp hmem with hold | hlast
      · exact hlater later hold
      · rw [List.mem_singleton.mp hlast]
        exact hnone

theorem parseSeeds_eq (seeds : String) :
    parseSeeds seeds = (seeds.toList.splitOn ',').filterMap parseSeed := by
  rw [parseSeeds]
  split
  · rename_i hempty
    rw [hempty]
    decide
  · rfl

/-- For every text of the flag, the peers a node starts with are the ids that a
part of it names, alive, with the address of the last part that names them. -/
theorem seeds_flag_exact (hash : String → UInt64) (own address : String)
    (ring : HashRing) (config : GossipConfig) (seeds : String) (now : Nat)
    (id : String) (p : PeerState) :
    let started := (seedActions seeds now).foldl (GossipService.step hash)
      (.new hash own address ring config)
    started.peers[id]? = some p ↔
      ∃ seedAddr, LastNamed (seeds.toList.splitOn ',') id seedAddr ∧
        p = ⟨id, seedAddr, .alive, 0, 0, now⟩ := by
  intro started
  have hstarted : started = (((seeds.toList.splitOn ',').filterMap
      parseSeed).map fun seed => NodeAction.addSeed seed.1 seed.2 now).foldl
        (GossipService.step hash) (.new hash own address ring config) := by
    rw [← parseSeeds_eq]
    rfl
  rw [hstarted]
  -- by the number of parts: the last one is registered last
  induction seeds.toList.splitOn ',' using List.reverseRecOn with
  | nil =>
      simp [GossipService.new, LastNamed]
  | append_singleton parts part ih =>
      rw [List.filterMap_append, List.map_append, List.foldl_append]
      cases hpart : parseSeed part with
      | none =>
          have hnone : ∀ i other, ¬SeedText part i other := fun i other htext => by
            rw [← parseSeed_eq_some_iff, hpart] at htext
            contradiction
          simp only [List.filterMap_cons, hpart, List.filterMap_nil,
            List.map_nil, List.foldl_nil, lastNamed_concat, ih]
          simp [hnone]
      | some seed =>
          obtain ⟨seedId, seedAddr⟩ := seed
          have hnamed : ∀ i other, SeedText part i other ↔
              seedId = i ∧ seedAddr = other := fun i other => by
            rw [← parseSeed_eq_some_iff, hpart]
            simp
          simp only [List.filterMap_cons, hpart, List.filterMap_nil,
            List.map_cons, List.map_nil, List.foldl_cons, List.foldl_nil,
            GossipService.step, GossipService.addSeed,
            ExtTreeMap.getElem?_insert, compare_eq_iff_eq, lastNamed_concat,
            hnamed]
          by_cases hid : seedId = id
          · subst hid
            simp [eq_comm]
          · simp [hid, ih]

end Rkv.Gossip
