import Rkv.Storage.ReferenceCodec

/-!
# A log cut in the middle of a line

A crash during `append` can leave any byte prefix of the log.  `open` positions
the writer behind the last byte whatever that byte is, so an incomplete last
line and the next entry become one line.  What is appended afterwards is
replayed in full exactly when the cut fell behind a newline.
-/

namespace Rkv.Storage

open Rkv.Foundation

namespace WriteAheadLog

def appendAll (c : Codecs) : WriteAheadLog → List (String × VersionedValue) →
    WriteAheadLog
  | wal, [] => wal
  | wal, (key, value) :: rest => appendAll c (wal.append c key value).1 rest

/-- The entries a sequence of appends writes, numbered after `sequence`. -/
def appendedEntries (c : Codecs) : UInt64 → List (String × VersionedValue) →
    List WalEntry
  | _, [] => []
  | sequence, (key, value) :: rest =>
      WalEntry.new c (sequence + 1) key value ::
        appendedEntries c (sequence + 1) rest

variable {c : Codecs}

theorem file_appendAll (wal : WriteAheadLog)
    (writes : List (String × VersionedValue)) :
    (wal.appendAll c writes).file =
      wal.file ++ (appendedEntries c wal.sequence writes).flatMap
        (encodeLine c) := by
  induction writes generalizing wal with
  | nil => simp [appendAll, appendedEntries]
  | cons write writes ih =>
      obtain ⟨key, value⟩ := write
      rw [appendAll, ih, appendedEntries]
      simp [append]

theorem verify_appendedEntries (sequence : UInt64)
    (writes : List (String × VersionedValue)) :
    ∀ entry ∈ appendedEntries c sequence writes, entry.verify c = true := by
  induction writes generalizing sequence with
  | nil => simp [appendedEntries]
  | cons write writes ih =>
      intro entry hentry
      rcases List.mem_cons.mp hentry with rfl | hrest
      · exact WalEntry.verify_new ..
      · exact ih _ entry hrest

theorem length_appendedEntries (sequence : UInt64)
    (writes : List (String × VersionedValue)) :
    (appendedEntries c sequence writes).length = writes.length := by
  induction writes generalizing sequence with
  | nil => rfl
  | cons write writes ih => simp [appendedEntries, ih]

theorem replay_flatMap_encodeLine {entries : List WalEntry}
    (hemits : ∀ entry ∈ entries, c.Emits entry)
    (hverify : ∀ entry ∈ entries, entry.verify c = true) :
    replay c (entries.flatMap (encodeLine c)) = entries := by
  induction entries with
  | nil => rfl
  | cons entry entries ih =>
      rw [List.flatMap_cons, replay_append (terminated_encodeLine c entry),
        replay_encodeLine (hemits entry (by simp)) (hverify entry (by simp)),
        ih (fun e he => hemits e (by simp [he]))
          (fun e he => hverify e (by simp [he]))]
      rfl

/-! ## The cut -/

section

variable (hemits : ∀ entry, c.Emits entry)
  (hglue : ∀ text entry, text ≠ "" → trimIsEmpty text = false →
    c.jsonFromStr (text ++ c.jsonToString entry) = none)

include hemits

/-- A cut log is complete lines and a tail that starts with an opening brace. -/
theorem exists_tail_of_cut (writes : List (String × VersionedValue))
    {cut : Bytes} (hcut : cut <+: ((openLog c []).appendAll c writes).file) :
    ∃ complete tail, cut = complete ++ tail ∧ Terminated 10 complete ∧
      10 ∉ tail ∧ (tail = [] ∨ ∃ rest, tail = 123 :: rest) := by
  have hrecords : ∀ record ∈ (appendedEntries c (openLog c []).sequence
      writes).map fun entry => asBytes (c.jsonToString entry),
      (10 : UInt8) ∉ record := by
    intro record hrecord
    obtain ⟨entry, -, rfl⟩ := List.mem_map.mp hrecord
    exact (hemits entry).newline_notMem
  have hfile : cut <+: ((appendedEntries c (openLog c []).sequence writes).map
      fun entry => asBytes (c.jsonToString entry)).flatMap (· ++ [10]) := by
    rw [file_appendAll] at hcut
    rw [List.flatMap_map]
    exact hcut
  obtain ⟨complete, tail, rfl, hcomplete, htail, hstart⟩ :=
    exists_cut_of_prefix hrecords hfile
  refine ⟨complete, tail, rfl, hcomplete, htail, ?_⟩
  rcases hstart with hnil | ⟨record, hrecord, hbegins⟩
  · exact .inl hnil
  · obtain ⟨entry, -, rfl⟩ := List.mem_map.mp hrecord
    obtain ⟨body, hbody, -⟩ := (hemits entry).asBytes_object
    rw [hbody, List.cons_append] at hbegins
    cases tail with
    | nil => exact .inl rfl
    | cons b rest =>
        exact .inr ⟨rest, by rw [(List.cons_prefix_cons.mp hbegins).1]⟩

include hglue

theorem replay_glued {rest : Bytes} (hrest : (10 : UInt8) ∉ 123 :: rest)
    (entry : WalEntry) :
    replay c (123 :: rest ++ encodeLine c entry) = [] := by
  rw [List.eq_nil_iff_forall_not_mem]
  intro found hfound
  obtain ⟨text, htext, hparsed⟩ :=
    exists_text_of_mem_replay (hemits entry) hrest hfound
  have hbrace : '\x7b' ∈ text.toList :=
    mem_toList_of_ascii_mem_asBytes (b := 123) (by decide) (by decide)
      (by simp [htext])
  have htrim : trimIsEmpty text = false := by
    rw [trimIsEmpty, List.all_eq_false]
    exact ⟨'\x7b', hbrace, by decide⟩
  have hempty : text ≠ "" := by
    rintro rfl
    simp at hbrace
  rw [hglue text entry hempty htrim] at hparsed
  contradiction

/-- The entries behind the first one of a cut line are replayed, it is not. -/
theorem replay_after_cut {rest : Bytes} (hrest : (10 : UInt8) ∉ 123 :: rest)
    (wal : WriteAheadLog) {complete : Bytes} (hcomplete : Terminated 10 complete)
    (hfile : wal.file = complete ++ 123 :: rest) (key : String)
    (value : VersionedValue) (writes : List (String × VersionedValue)) :
    replay c (wal.appendAll c ((key, value) :: writes)).file =
      replay c complete ++
        appendedEntries c (wal.sequence + 1) writes := by
  have hline : Terminated 10 (123 :: rest ++
      encodeLine c (WalEntry.new c (wal.sequence + 1) key value)) := by
    rw [encodeLine, ← List.append_assoc]
    exact terminated_append_sep 10 _
  rw [file_appendAll, appendedEntries, List.flatMap_cons, hfile,
    List.append_assoc, ← List.append_assoc (123 :: rest),
    replay_append hcomplete, replay_append hline,
    replay_glued hemits hglue hrest, List.nil_append,
    replay_flatMap_encodeLine (fun entry _ => hemits entry)
      (verify_appendedEntries _ _)]

/-- For every cut, appending loses nothing exactly when the cut ends a line. -/
theorem replay_after_torn_append_iff
    (written further : List (String × VersionedValue)) (kept : Nat) :
    let torn := ((openLog c []).appendAll c written).file.take kept
    replay c ((openLog c torn).appendAll c further).file =
        replay c torn ++
          appendedEntries c (openLog c torn).sequence further ↔
      further = [] ∨ torn = [] ∨ torn.getLast? = some 10 := by
  intro torn
  obtain ⟨complete, tail, hcut, hcomplete, htail, hstart⟩ :=
    exists_tail_of_cut hemits written (List.take_prefix kept _)
  have hopen : (openLog c torn).file = complete ++ tail := hcut
  have hboundary : (torn = [] ∨ torn.getLast? = some 10) ↔ tail = [] := by
    rw [show torn = complete ++ tail from hcut]
    exact terminated_append_tail hcomplete htail
  rw [hboundary]
  constructor
  · intro hreplay
    by_contra hlost
    obtain ⟨hfurther, hne⟩ := not_or.mp hlost
    obtain ⟨rest, rfl⟩ := hstart.resolve_left hne
    cases further with
    | nil => exact hfurther rfl
    | cons write further =>
        obtain ⟨key, value⟩ := write
        rw [replay_after_cut hemits hglue htail _ hcomplete hopen,
          show torn = _ from hcut, replay_append hcomplete] at hreplay
        have hlength := congrArg List.length hreplay
        simp only [List.length_append, length_appendedEntries,
          List.length_cons] at hlength
        omega
  · rintro (rfl | rfl)
    · simp [appendAll, appendedEntries, openLog]
    · have hterminated : Terminated 10 (openLog c torn).file := by
        rw [hopen, List.append_nil]
        exact hcomplete
      rw [file_appendAll, replay_append hterminated,
        replay_flatMap_encodeLine (fun entry _ => hemits entry)
          (verify_appendedEntries _ _)]
      rfl

end

theorem replay_after_torn_append_first_byte :
    let c := referenceCodecs
    let v := VersionedValue.new [1] "node1" 0 1700000000000
    let torn := ((openLog c []).appendAll c [("a", v)]).file.take 1
    (∀ entry, c.Emits entry) ∧
      (∀ text entry, text ≠ "" → trimIsEmpty text = false →
        c.jsonFromStr (text ++ c.jsonToString entry) = none) ∧
      (replay c ((openLog c torn).appendAll c [("b", v)]).file =
          replay c torn ++
            appendedEntries c (openLog c torn).sequence [("b", v)] ↔
        [("b", v)] = [] ∨ torn = [] ∨ torn.getLast? = some 10) :=
  ⟨emits_referenceCodecs,
    fun _ entry hne _ => jsonFromStr_append_referenceCodecs hne entry,
    replay_after_torn_append_iff emits_referenceCodecs
      (fun _ entry hne _ => jsonFromStr_append_referenceCodecs hne entry) _ _ _⟩

/-- A log cut behind the first byte of a line loses the next entry. -/
theorem torn_first_byte_loses_entry :
    let c := referenceCodecs
    let v := VersionedValue.new [1] "node1" 0 1700000000000
    let torn := ((openLog c []).appendAll c [("a", v)]).file.take 1
    (∀ entry, c.Emits entry) ∧
      (∀ text entry, text ≠ "" → trimIsEmpty text = false →
        c.jsonFromStr (text ++ c.jsonToString entry) = none) ∧
      replay c ((openLog c torn).appendAll c [("b", v)]).file ≠
        replay c torn ++
          appendedEntries c (openLog c torn).sequence [("b", v)] := by
  intro c v torn
  have hglue : ∀ text entry, text ≠ "" → trimIsEmpty text = false →
      c.jsonFromStr (text ++ c.jsonToString entry) = none :=
    fun _ entry hne _ => jsonFromStr_append_referenceCodecs hne entry
  refine ⟨emits_referenceCodecs, hglue, fun hreplay => ?_⟩
  have htorn : torn = [123] := by
    obtain ⟨body, hbody, -⟩ := (emits_referenceCodecs
      (WalEntry.new c ((openLog c []).sequence + 1) "a" v)).asBytes_object
    rw [show torn = _ from congrArg (List.take 1) (file_appendAll _ _),
      appendedEntries, List.flatMap_cons, encodeLine, hbody]
    rfl
  have hlost : replay c ((openLog c torn).appendAll c [("b", v)]).file = [] := by
    rw [htorn]
    exact replay_after_cut emits_referenceCodecs hglue
      (show (10 : UInt8) ∉ [123] by decide) (openLog c [123])
      (terminated_nil 10) rfl "b" v []
  have hlength := congrArg List.length (hlost.symm.trans hreplay)
  simp [appendedEntries] at hlength

end WriteAheadLog

end Rkv.Storage
