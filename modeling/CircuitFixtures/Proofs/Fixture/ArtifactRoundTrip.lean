import CircuitFixtures.Fixture.Artifact
import CircuitFixtures.Proofs.Bytes.Base64
import CircuitFixtures.Proofs.Json.Object

/-!
# Fixtures survive their written form

An artifact is read back from the text of its file (`Artifact.ofJson_fileText`), member by
member. A fixture is made again of its artifact (`Artifact.toFixture_ofFixture`): the bytecode
by its Base64, the assignments entry by entry. `Fixture.artifact_round_trip` puts the two
together.
-/

namespace CircuitFixtures

namespace Artifact

/-! ## Texts of files -/

theorem textValue_reads : Json.Reads textValue (fun s => Json.quote s.toList) := by
  intro s rest
  rw [textValue, Json.text_reads]
  simp

theorem textObject_reads (level : Nat) :
    Json.Reads (Json.indexObject textValue) (textObject level) :=
  Json.indexObject_reads textValue_reads level

theorem once_written {α : Type} {value : Json.Reader α} {write : α → List Char}
    (h : Json.Reads value write) (name : String) (keep : α → Draft) (x : α) (rest : List Char) :
    once name none value keep (':' :: ' ' :: (write x ++ rest)) = .ok (keep x, rest) := by
  simp [once, Json.memberValue_written h]

namespace Draft

section Members

variable (d : Draft) (rest : List Char)

theorem member_name (h : d.name = none) (x : List Char) :
    d.member nameKey (':' :: ' ' :: (Json.quote x ++ rest)) =
      .ok ({ d with name := some x }, rest) := by
  rw [member, if_pos rfl, h]
  exact once_written Json.text_reads _ _ x rest

theorem member_bytecode (h : d.bytecode = none) (x : List Char) :
    d.member bytecodeKey (':' :: ' ' :: (Json.quote x ++ rest)) =
      .ok ({ d with bytecode := some x }, rest) := by
  rw [member, if_neg (by decide), if_pos rfl, h]
  exact once_written Json.text_reads _ _ x rest

theorem member_initial (h : d.initial = none) (m : IndexMap String) :
    d.member initialKey (':' :: ' ' :: (textObject 1 m ++ rest)) =
      .ok ({ d with initial := some m }, rest) := by
  rw [member, if_neg (by decide), if_neg (by decide), if_pos rfl, h]
  exact once_written (textObject_reads 1) _ _ m rest

theorem member_expected (h : d.expected = none) (m : IndexMap String) :
    d.member expectedKey (':' :: ' ' :: (textObject 1 m ++ rest)) =
      .ok ({ d with expected := some m }, rest) := by
  rw [member, if_neg (by decide), if_neg (by decide), if_neg (by decide), if_pos rfl, h]
  exact once_written (textObject_reads 1) _ _ m rest

end Members

/-- One member in front of others, on a line of its own. -/
theorem members_line {d d' : Draft} {first : Bool} {level : Nat} {key value rest : List Char}
    {ms : List (List Char × List Char)}
    (h : d.member key (':' :: ' ' :: (value ++ (Json.lines level false ms ++ rest))) =
      .ok (d', Json.lines level false ms ++ rest)) :
    d.members first (Json.lines level first ((key, value) :: ms) ++ rest) =
      d'.members false (Json.lines level false ms ++ rest) := by
  generalize hbehind : Json.lines level false ms ++ rest = behind at h ⊢
  have htext : Json.lines level first ((key, value) :: ms) ++ rest =
      Json.separator first ++ Json.newLine level ++
        '"' :: (key.flatMap Json.escapeChar ++ '"' :: ':' :: ' ' :: (value ++ behind)) := by
    simp [Json.lines, Json.quote, ← hbehind]
  have hshorter : behind.length < (Json.separator first ++ Json.newLine level ++
      '"' :: (key.flatMap Json.escapeChar ++ '"' :: ':' :: ' ' :: (value ++ behind))).length := by
    simp only [List.length_append, List.length_cons]
    omega
  rw [htext, members, Json.nextKey_line]
  simp only [Json.textKey, Json.textTail_escaped, h, if_pos hshorter]

theorem members_end {d : Draft} {first : Bool} {closing rest : List Char}
    (h : Json.skipBlanks closing = '}' :: rest) :
    d.members first closing = .ok (d, '}' :: rest) := by
  rw [members, Json.nextKey_end h]

/-- The four members of an artifact, up to the brace. -/
theorem members_written {a : Artifact} {closing rest : List Char}
    (h : Json.skipBlanks closing = '}' :: rest) :
    empty.members true
      (Json.lines 1 true
        [(nameKey, Json.quote a.name.toList), (bytecodeKey, Json.quote a.bytecode.toList),
          (initialKey, textObject 1 a.initial), (expectedKey, textObject 1 a.expected)] ++
            closing) =
      .ok (⟨some a.name.toList, some a.bytecode.toList, some a.initial, some a.expected⟩,
        '}' :: rest) := by
  rw [members_line (member_name _ _ rfl _), members_line (member_bytecode _ _ rfl _),
    members_line (member_initial _ _ rfl _), members_line (member_expected _ _ rfl _)]
  exact members_end h

end Draft

theorem reader_toChars (a : Artifact) (rest : List Char) :
    reader (a.toChars ++ rest) = .ok (a, rest) := by
  obtain ⟨closing, hobject, hclosing⟩ := Json.object_append 0
    [(nameKey, Json.quote a.name.toList), (bytecodeKey, Json.quote a.bytecode.toList),
      (initialKey, textObject 1 a.initial), (expectedKey, textObject 1 a.expected)] rest
  have hskip (cs : List Char) : Json.skipBlanks ('{' :: cs) = '{' :: cs := rfl
  rw [toChars, hobject, reader, hskip]
  simp [Draft.members_written hclosing, Draft.finish]

/-- Every artifact is read back from the text of its file. -/
theorem ofJson_fileText (a : Artifact) : ofJson a.fileText = .ok a := by
  rw [ofJson, fileText, String.toList_ofList, Json.whole, reader_toChars]
  rfl

end Artifact

/-! ## Assignments -/

namespace Assignment

/-- Entries with new keys are added as they were before they were written. -/
theorem addFixedEntries_written {es : List (Index × Field)} {m : Assignment}
    (hes : es.Pairwise (fun p q => p.1 < q.1)) (hnew : ∀ p ∈ es, m.get? p.1 = none) :
    m.addFixedEntries (es.map (fun p => (p.1, p.2.toText))) =
      .ok (es.foldl (fun m p => m.insert p.1 p.2) m) := by
  induction es generalizing m with
  | nil => rfl
  | cons p es ih =>
    obtain ⟨i, x⟩ := p
    obtain ⟨hi, hrest⟩ := List.pairwise_cons.1 hes
    have hfresh : ¬ m.contains i = true := by
      simp [IndexMap.contains, hnew (i, x) List.mem_cons_self]
    have hstill : ∀ q ∈ es, (m.insert i x).get? q.1 = none := by
      intro q hq
      rw [IndexMap.get?_insert, if_neg (UInt32.ne_of_lt (hi q hq)).symm]
      exact hnew q (List.mem_cons_of_mem _ hq)
    rw [List.map_cons, addFixedEntries_cons, Field.ofFixedText_toText]
    simp only [if_neg hfresh]
    exact ih hrest hstill

theorem ofFixedEntries_toFixedEntries (m : Assignment) :
    ofFixedEntries m.toFixedEntries = .ok m := by
  have hadd := addFixedEntries_written (m := .empty) m.ascending fun p _ => IndexMap.get?_empty p.1
  rw [ofFixedEntries, toFixedEntries, hadd]
  exact congrArg Except.ok (IndexMap.ofList_entries m)

end Assignment

/-! ## Fixtures -/

theorem Artifact.toFixture_ofFixture (f : Fixture) :
    (Artifact.ofFixture f).toFixture = .ok f := by
  have hbytes : Base64.decode (Utf8.encode (Artifact.ofFixture f).bytecode.toList) =
      .ok f.bytecode := by
    rw [Artifact.ofFixture, String.toList_ofList, Base64.encode_asText, Base64.decode_encode]
  have hinitial : Assignment.ofFixedEntries (Artifact.ofFixture f).initial.entries =
      .ok f.initial := Assignment.ofFixedEntries_toFixedEntries f.initial
  have hexpected : Assignment.ofFixedEntries (Artifact.ofFixture f).expected.entries =
      .ok f.expected := Assignment.ofFixedEntries_toFixedEntries f.expected
  rw [toFixture, hbytes]
  simp only [hinitial, hexpected]
  rfl

/-- Fixtures that are saved as the same text are the same. -/
theorem Artifact.fileText_ofFixture_injective {f g : Fixture}
    (h : (ofFixture f).fileText = (ofFixture g).fileText) : f = g := by
  have hread := ofJson_fileText (ofFixture f)
  rw [h, ofJson_fileText] at hread
  have hfixture := toFixture_ofFixture f
  rw [← Except.ok.inj hread, toFixture_ofFixture] at hfixture
  exact (Except.ok.inj hfixture).symm

/-- The text that the artifact of a fixture is saved as is read as that artifact, and the
artifact makes the fixture again. -/
theorem Fixture.artifact_round_trip (f : Fixture) :
    Artifact.ofJson (Artifact.ofFixture f).fileText = .ok (Artifact.ofFixture f) ∧
      (Artifact.ofFixture f).toFixture = .ok f :=
  ⟨Artifact.ofJson_fileText _, Artifact.toFixture_ofFixture f⟩

end CircuitFixtures
