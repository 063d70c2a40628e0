import CircuitFixtures.Assignment.Json
import CircuitFixtures.CommandLine.Run
import CircuitFixtures.Proofs.Assignment.History
import CircuitFixtures.Proofs.Field.Text
import CircuitFixtures.Proofs.Json.Members
import CircuitFixtures.Proofs.Text.Words
import Mathlib.Data.List.Forall2

/-!
# Assignments that are shown

The command for assignments shows one in two forms. As JSON it is an object whose members are the
entries, each once and in order, so both readers give the assignment back
(`Assignment.fixedJson_entries`, `Assignment.ofJson_fixedJson`). As lines it is one line for each
entry, and a line says which entry it is for (`EntryLine.unique`), in columns or, with larger
indices, out of them. `Run.witness_lossless` has both.
-/

namespace CircuitFixtures

/-! ## As JSON -/

/-- A value is read as a field element from the text that it is written as. -/
theorem Field.reads_toText : Json.Reads Json.field (fun x => Json.quote x.toText.toList) := by
  intro x rest
  have hx : ofChars x.toText.toList = .ok x := ofText_toText x
  rw [Json.field, Json.text_reads]
  simp only [hx]

namespace Json

variable {α : Type} {value : Reader α} {rest : List Char} {cs : List Char} {es : List (Index × α)}

theorem whole_of_read {x : α} (h : value cs = .ok (x, rest)) (hrest : skipBlanks rest = []) :
    whole value cs = .ok x := by
  rw [whole, h]
  simp only [hrest]

/-- A blank in front of an object is skipped. -/
theorem indexObject_blank (value : Reader α) (cs : List Char) :
    indexObject value (' ' :: cs) = indexObject value cs :=
  rfl

theorem entries_blank_iff : Entries value (' ' :: cs) es rest ↔ Entries value cs es rest :=
  Iff.rfl

end Json

namespace Assignment

variable {m n : Assignment}

theorem textObject_texts (level : Nat) (m : Assignment) :
    Artifact.textObject level (Artifact.texts m) =
      Json.object level (Json.written (fun x => Json.quote x.toText.toList) m.entries) := by
  simp [Artifact.textObject, Artifact.texts, IndexMap.map, Json.written, Function.comp_def]

/-- The members of the object are the entries, each once and in order. -/
theorem fixedJson_entries (m : Assignment) (rest : List Char) :
    Json.Entries Artifact.textValue (m.fixedJson.toList ++ rest) m.toFixedEntries rest := by
  have hwritten : Artifact.textObject 0 (Artifact.texts m) =
      Json.object 0 (Json.written (fun s => Json.quote s.toList) m.toFixedEntries) := by
    simp [Artifact.textObject, Artifact.texts, IndexMap.map, Json.written, toFixedEntries]
  rw [fixedJson, String.toList_ofList, hwritten, ← Json.entries_blank_iff]
  exact Json.entries_written Artifact.textValue_reads 0 m.toFixedEntries rest

theorem indexObject_fixedJson (m : Assignment) (rest : List Char) :
    Json.indexObject Artifact.textValue (m.fixedJson.toList ++ rest) =
      .ok (Artifact.texts m, rest) := by
  rw [fixedJson, String.toList_ofList, ← Json.indexObject_blank]
  exact Artifact.textObject_reads 0 (Artifact.texts m) rest

theorem ofJson_fixedJson (m : Assignment) : ofJson (m.fixedJson ++ "\n") = .ok m := by
  have hread : Json.indexObject Json.field (m.fixedJson.toList ++ ['\n']) = .ok (m, ['\n']) := by
    rw [fixedJson, String.toList_ofList, textObject_texts, ← Json.indexObject_blank]
    exact Json.indexObject_reads Field.reads_toText 0 m ['\n']
  rw [ofJson, String.toList_append]
  exact Json.whole_of_read hread rfl

end Assignment

/-! ## As lines -/

/-- The line of an entry: blanks up to a column of four, the digits of the index, and the value. -/
structure EntryLine (p : Index × Field) (l : List Char) : Prop where
  shown : ∃ k, l = List.replicate k ' ' ++ (digits p.1.toNat ++ ':' :: ' ' :: p.2.toText.toList) ∧
    k + (digits p.1.toNat).length = max 4 (digits p.1.toNat).length

theorem Field.toText_injective {x y : Field} (h : x.toText = y.toText) : x = y := by
  have hread := ofText_toText x
  rw [h, ofText_toText] at hread
  exact (Except.ok.inj hread).symm

/-- The blanks end where the digits begin. -/
theorem ends_blanks (n : Nat) (cs : List Char) : Ends (· = ' ') (digits n ++ ':' :: cs) := by
  cases hdigits : digits n with
  | nil => exact .cons (by decide)
  | cons d ds =>
    refine .cons fun heq => ?_
    have hdigit : d.isDigit = true := isDigit_of_mem_digits (hdigits ▸ List.mem_cons_self)
    rw [heq] at hdigit
    cases hdigit

/-- A line says which entry it is for. -/
theorem EntryLine.unique {p q : Index × Field} {l : List Char} (h : EntryLine p l)
    (h' : EntryLine q l) : p = q := by
  obtain ⟨k, rfl, -⟩ := h
  obtain ⟨k', heq, -⟩ := h'
  have hblanks {k : Nat} : ∀ c ∈ List.replicate k ' ', c = ' ' := fun c => List.eq_of_mem_replicate
  obtain ⟨-, hentry⟩ := (ends_blanks _ _).unique hblanks hblanks (ends_blanks _ _) heq
  obtain ⟨hindex, hvalue⟩ := Ends.digits_unique (.cons (by decide)) (.cons (by decide)) hentry
  refine Prod.ext (UInt32.toNat_inj.1 hindex) (Field.toText_injective ?_)
  exact String.toList_inj.1 (by simpa using hvalue)

theorem leftUnique_entryLine : Relator.LeftUnique EntryLine :=
  fun _ _ _ => EntryLine.unique

theorem EntryLine.not_newline {p : Index × Field} {l : List Char} (h : EntryLine p l) :
    '\n' ∉ l := by
  obtain ⟨k, rfl, -⟩ := h
  have hdigits : '\n' ∉ digits p.1.toNat := fun hmem => by cases isDigit_of_mem_digits hmem
  have hvalue : '\n' ∉ p.2.toDigits := fun hmem =>
    absurd ((Field.digits_toDigits p.2).isDigit _ hmem) (by decide)
  simp [Field.toText, hdigits, hvalue]

theorem entryLine_column (p : Index × Field) :
    EntryLine p (Assignment.column p.1.toNat ++ ": " ++ p.2.toText).toList := by
  have hlength : (toString p.1.toNat).length = (digits p.1.toNat).length :=
    (String.length_toList).symm
  refine ⟨4 - (digits p.1.toNat).length, ?_, by omega⟩
  rw [Assignment.column, hlength]
  simp [digits]

theorem Assignment.entryLine_lines (m : Assignment) :
    List.Forall₂ EntryLine m.entries (m.lines.map String.toList) := by
  rw [lines, toFixedEntries, List.map_map, List.map_map, List.forall₂_map_right_iff]
  exact List.forall₂_same.2 fun p _ => entryLine_column p

theorem Assignment.not_newline_of_mem_lines {m : Assignment} {l : String} (h : l ∈ m.lines) :
    '\n' ∉ l.toList := by
  rw [lines, toFixedEntries, List.map_map] at h
  obtain ⟨p, -, rfl⟩ := List.mem_map.1 h
  exact (entryLine_column p).not_newline

theorem flatMap_end_eq_intercalate (c : Char) (ls : List (List Char)) :
    ls.flatMap (· ++ [c]) = [c].intercalate (ls ++ [[]]) := by
  induction ls with
  | nil => rfl
  | cons l ls ih =>
    have hmore : ls ++ [[]] ≠ [] := by simp
    rw [List.flatMap_cons, ih, List.cons_append, List.intercalate_cons_of_ne_nil hmore]

/-- Lines without an end inside are found again in their text. -/
theorem splitOn_linesText {ls : List String} (h : ∀ l ∈ ls, '\n' ∉ l.toList) :
    (linesText ls).toList.splitOn '\n' = ls.map String.toList ++ [[]] := by
  have htext : (linesText ls).toList = ['\n'].intercalate (ls.map String.toList ++ [[]]) := by
    rw [← flatMap_end_eq_intercalate]
    simp [linesText, String.toList_join, List.flatMap_map]
  have hlines : ∀ l ∈ ls.map String.toList ++ [[]], '\n' ∉ l := by
    rw [List.forall_mem_append, List.forall_mem_map]
    exact ⟨h, by simp⟩
  rw [htext, List.splitOn_intercalate _ hlines (by simp)]

/-! ## The command -/

/-- The assignment that a fixture is asked for. -/
def Fixture.chosen (f : Fixture) (expected : Bool) : Assignment :=
  if expected then f.expected else f.initial

namespace Run

theorem shown_json (t : FileTree) (expected : Bool) (f : Fixture) :
    (witness t expected true f).shown = (f.chosen expected).fixedJson ++ "\n" := by
  simp [witness, Outcome.done, linesText, Fixture.chosen]

theorem shown_lines (t : FileTree) (expected : Bool) (f : Fixture) :
    (witness t expected false f).shown = linesText (f.chosen expected).lines :=
  rfl

theorem splitOn_shown (t : FileTree) (expected : Bool) (f : Fixture) :
    ∃ ls, (witness t expected false f).shown.toList.splitOn '\n' = ls ++ [[]] ∧
      List.Forall₂ EntryLine (f.chosen expected).entries ls := by
  exact ⟨_, splitOn_linesText fun l => Assignment.not_newline_of_mem_lines,
    (f.chosen expected).entryLine_lines⟩

/-- Whatever the assignment is: the JSON that is shown has the entries as its members, and no others
however it is read, and these make the assignment again, as the object itself does when it is read as
one. Else one line is shown for each entry, in ascending order, and the lines are the same only for
the same assignment. -/
theorem witness_lossless (t : FileTree) (expected : Bool) (f : Fixture) :
    (∃ es, Json.Entries Artifact.textValue (witness t expected true f).shown.toList es ['\n'] ∧
      (∀ es' rest, Json.Entries Artifact.textValue (witness t expected true f).shown.toList es' rest →
        es' = es) ∧
      Assignment.ofFixedEntries es = .ok (f.chosen expected)) ∧
    (∃ texts, Json.whole (Json.indexObject Artifact.textValue)
        (witness t expected true f).shown.toList = .ok texts ∧
      Assignment.ofFixedEntries texts.entries = .ok (f.chosen expected)) ∧
    Assignment.ofJson (witness t expected true f).shown = .ok (f.chosen expected) ∧
    (∃ ls, (witness t expected false f).shown.toList.splitOn '\n' = ls ++ [[]] ∧
      List.Forall₂ EntryLine (f.chosen expected).entries ls ∧
      (f.chosen expected).entries.Pairwise (fun p q => p.1 < q.1)) ∧
    ∀ t' expected' f', (witness t expected false f).shown = (witness t' expected' false f').shown ↔
      f.chosen expected = f'.chosen expected' := by
  have hentries : Json.Entries Artifact.textValue (witness t expected true f).shown.toList
      (f.chosen expected).toFixedEntries ['\n'] := by
    rw [shown_json, String.toList_append]
    exact (f.chosen expected).fixedJson_entries ['\n']
  refine ⟨⟨_, hentries, fun es' rest h => (Json.unambiguous_entries h hentries).1,
      Assignment.ofFixedEntries_toFixedEntries _⟩,
    ⟨Artifact.texts (f.chosen expected), ?_, Assignment.ofFixedEntries_toFixedEntries _⟩, ?_, ?_,
    fun t' expected' f' => ⟨fun h => ?_, fun h => ?_⟩⟩
  · have hread := (f.chosen expected).indexObject_fixedJson ['\n']
    rw [shown_json, String.toList_append]
    exact Json.whole_of_read hread rfl
  · rw [shown_json]
    exact (f.chosen expected).ofJson_fixedJson
  · obtain ⟨ls, hls, hlines⟩ := splitOn_shown t expected f
    exact ⟨ls, hls, hlines, (f.chosen expected).ascending⟩
  · obtain ⟨ls, hls, hlines⟩ := splitOn_shown t expected f
    obtain ⟨ls', hls', hlines'⟩ := splitOn_shown t' expected' f'
    rw [h, hls'] at hls
    obtain rfl := List.append_cancel_right hls
    exact IndexMap.ext_entries
      (List.left_unique_forall₂' leftUnique_entryLine hlines hlines')
  · rw [shown_lines, shown_lines, h]

end Run

end CircuitFixtures
