import CircuitFixtures.Proofs.Assignment.FixedText
import CircuitFixtures.Proofs.Fixture.RepeatedIndex

/-!
# Artifacts that are read and written again

The fixture of an artifact, written again, makes an artifact that may be another one: a value may
have digits in upper case, or a lead that stands twice (`Field.Denotes`), and is written in one form
only (`Field.IsTextOf`). `Artifact.Respelled` says that two artifacts differ in nothing else.
`Artifact.respelled_of_toFixture` is the result: what is written again is the artifact respelled,
and the text of the bytecode in it is the one that was read, since a text in Base64 is the only one
of its bytes.
-/

namespace CircuitFixtures

namespace Field

variable {s t : String} {x y : Field}

/-- The text has the digits of the element behind its lead: 64, or 62 behind another lead. -/
def Denotes (s : String) (x : Field) : Prop :=
  ∃ ds, Digits ds x ∧ ((s.toList = '0' :: 'x' :: ds ∧ ds.length = 64) ∨
    (s.toList = '0' :: 'x' :: '0' :: 'x' :: ds ∧ ds.length = 62))

theorem ofFixedText_eq_ok_iff : ofFixedText s = .ok x ↔ Denotes s x :=
  ofFixedChars_eq_ok_iff

theorem Denotes.unique (h : Denotes s x) (h' : Denotes s y) : x = y := by
  rw [← ofFixedText_eq_ok_iff] at h h'
  rw [h] at h'
  exact Except.ok.inj h'

/-- The text is `0x` and the 64 digits in lower case of the element's number. -/
def IsTextOf (s : String) (x : Field) : Prop :=
  ∃ ds, s.toList = '0' :: 'x' :: ds ∧ IsCanonicalText ds ∧ Hex.numeral ds = x.val

theorem isTextOf_toText (x : Field) : IsTextOf x.toText x :=
  ⟨x.toDigits, String.toList_ofList, isCanonicalText_toDigits x, (digits_toDigits x).val_eq.symm⟩

/-- An element has one such text. -/
theorem IsTextOf.unique (h : IsTextOf s x) (h' : IsTextOf t x) : s = t := by
  obtain ⟨ds, hs, ⟨hlength, hlower⟩, hval⟩ := h
  obtain ⟨es, ht, ⟨hlength', hlower'⟩, hval'⟩ := h'
  have hdigits : ds = es :=
    Hex.eq_of_numeral_eq hlower hlower' (hlength.trans hlength'.symm) (hval.trans hval'.symm)
  rw [← String.toList_inj, hs, ht, hdigits]

end Field

/-! ## Entries -/

namespace Assignment

/-- The assignment has the elements that the texts denote, and no others. -/
structure Denoted (t : IndexMap String) (m : Assignment) : Prop where
  keys : m.keys = t.keys
  values : ∀ i s, t.get? i = some s → ∃ x, Field.Denotes s x ∧ m.get? i = some x

theorem denoted_of_ofFixedEntries {t : IndexMap String} {m : Assignment}
    (h : ofFixedEntries t.entries = .ok m) : Denoted t m := by
  rw [ofFixedEntries_eq_ok_iff] at h
  have hvalues : ∀ i s, t.get? i = some s → ∃ x, Field.Denotes s x ∧ m.get? i = some x := by
    intro i s hs
    have hheld := h i
    rw [hs] at hheld
    obtain ⟨x, hx, hm⟩ := hheld
    exact ⟨x, Field.ofFixedText_eq_ok_iff.1 hx, hm⟩
  refine ⟨eq_of_ascending m.ascending_keys ?_ fun i => ?_, hvalues⟩
  · exact List.pairwise_map.2 t.ascending
  · constructor
    · intro hi
      obtain ⟨x, hx⟩ := IndexMap.mem_keys_iff.1 hi
      cases hs : t.get? i with
      | some s => exact IndexMap.mem_keys_of_get? hs
      | none =>
        have hheld := h i
        rw [hs, hx] at hheld
        exact absurd hheld (Option.some_ne_none x)
    · intro hi
      obtain ⟨s, hs⟩ := IndexMap.mem_keys_iff.1 hi
      obtain ⟨x, -, hx⟩ := hvalues i s hs
      exact IndexMap.mem_keys_of_get? hx

end Assignment

namespace Artifact

/-- The same indices, with the texts of the elements that the old texts denote. -/
structure Retyped (old new : IndexMap String) : Prop where
  keys : new.keys = old.keys
  values : ∀ i s, old.get? i = some s →
    ∃ x t, Field.Denotes s x ∧ Field.IsTextOf t x ∧ new.get? i = some t

section Retyped

variable {old new new' : IndexMap String}

theorem retyped_texts {m : Assignment} (h : Assignment.Denoted old m) : Retyped old (texts m) := by
  refine ⟨?_, fun i s hs => ?_⟩
  · rw [← h.keys, texts, IndexMap.keys_map]
  · obtain ⟨x, hdenotes, hx⟩ := h.values i s hs
    refine ⟨x, x.toText, hdenotes, Field.isTextOf_toText x, ?_⟩
    rw [texts, IndexMap.get?_map, hx]
    rfl

theorem Retyped.unique (h : Retyped old new) (h' : Retyped old new') : new = new' := by
  apply IndexMap.ext_get?
  intro i
  by_cases hi : i ∈ old.keys
  · obtain ⟨s, hs⟩ := IndexMap.mem_keys_iff.1 hi
    obtain ⟨x, t, hx, ht, hnew⟩ := h.values i s hs
    obtain ⟨y, u, hy, hu, hnew'⟩ := h'.values i s hs
    obtain rfl := hx.unique hy
    rw [hnew, hnew', ht.unique hu]
  · rw [IndexMap.get?_eq_none_iff.2 (h.keys ▸ hi), IndexMap.get?_eq_none_iff.2 (h'.keys ▸ hi)]

end Retyped

/-! ## Artifacts -/

/-- The same artifact, but for the form of the values' texts. -/
structure Respelled (a b : Artifact) : Prop where
  name : b.name = a.name
  bytecode : b.bytecode = a.bytecode
  initial : Retyped a.initial b.initial
  expected : Retyped a.expected b.expected

variable {a b : Artifact} {f g : Fixture}

theorem Respelled.unique {b' : Artifact} (h : Respelled a b) (h' : Respelled a b') : b = b' := by
  obtain ⟨name, bytecode, initial, expected⟩ := b
  obtain ⟨name', bytecode', initial', expected'⟩ := b'
  obtain ⟨hname, hbytecode, hinitial, hexpected⟩ := h
  obtain ⟨hname', hbytecode', hinitial', hexpected'⟩ := h'
  obtain rfl : initial = initial' := hinitial.unique hinitial'
  obtain rfl : expected = expected' := hexpected.unique hexpected'
  obtain rfl : name = name' := hname.trans hname'.symm
  obtain rfl : bytecode = bytecode' := hbytecode.trans hbytecode'.symm
  rfl

/-- The text of the bytecode can be told from the bytes. -/
theorem bytecode_of_toFixture (h : a.toFixture = .ok f) :
    Utf8.encode a.bytecode.toList = Base64.encode f.bytecode :=
  Base64.decode_eq_ok_iff.1 (toFixture_eq_ok_iff.1 h).2.1

theorem bytecode_eq_of_toFixture (ha : a.toFixture = .ok f) (hb : b.toFixture = .ok g)
    (h : f.bytecode = g.bytecode) : a.bytecode = b.bytecode := by
  have hbytes : Utf8.encode a.bytecode.toList = Utf8.encode b.bytecode.toList := by
    rw [bytecode_of_toFixture ha, bytecode_of_toFixture hb, h]
  rw [← String.toList_inj]
  exact Utf8.encode_injective hbytes

/-- What an artifact loses when its fixture is written again is the form of the values' texts. The
name, the text of the bytecode and the indices are kept, every value is `0x` and the 64 digits in
lower case of the element that it denoted, and there is one such artifact, which makes the fixture
again. In particular artifacts whose bytecode is another text carry other bytecode. -/
theorem respelled_of_toFixture (h : a.toFixture = .ok f) :
    a.Respelled (ofFixture f) ∧ (∀ b, a.Respelled b → b = ofFixture f) ∧
      (ofFixture f).toFixture = .ok f ∧
      ∀ (b : Artifact) (g : Fixture), b.toFixture = .ok g →
        a.bytecode ≠ b.bytecode → f.bytecode ≠ g.bytecode := by
  obtain ⟨hname, -, hinitial, hexpected⟩ := toFixture_eq_ok_iff.1 h
  have hagain := toFixture_ofFixture f
  have hrespelled : a.Respelled (ofFixture f) :=
    ⟨hname, bytecode_eq_of_toFixture hagain h rfl,
      retyped_texts (Assignment.denoted_of_ofFixedEntries hinitial),
      retyped_texts (Assignment.denoted_of_ofFixedEntries hexpected)⟩
  refine ⟨hrespelled, fun b hb => hb.unique hrespelled, hagain, ?_⟩
  intro b g hb hne hsame
  exact hne (bytecode_eq_of_toFixture h hb hsame)

/-- An artifact with digits in upper case and with a lead that stands twice. -/
def mixed : Artifact where
  name := "tiny"
  bytecode := "AQID"
  initial := .ofList
    [(1, "0x000000000000000000000000000000000000000000000000000000000000000A")]
  expected := .ofList
    [(2, "0x0x00000000000000000000000000000000000000000000000000000000000001")]

def ten : Field := ⟨10, by decide⟩

/-- The fixture of that artifact. -/
def mixedFixture : Fixture where
  name := "tiny"
  bytecode := [1, 2, 3]
  initial := .ofList [(1, ten)]
  expected := .ofList [(2, Field.one)]

theorem denotes_upperCase :
    Field.Denotes "0x000000000000000000000000000000000000000000000000000000000000000A" ten := by
  have hdigits : (List.replicate 63 '0' ++ ['A']).all (fun c => Hex.IsDigit c) = true := by decide
  refine ⟨List.replicate 63 '0' ++ ['A'], ⟨fun c hc => ?_, by decide, by decide, by decide⟩,
    .inl ⟨by decide, by decide⟩⟩
  exact of_decide_eq_true (List.all_eq_true.1 hdigits c hc)

theorem denotes_doubledLead :
    Field.Denotes "0x0x00000000000000000000000000000000000000000000000000000000000001" .one := by
  have hdigits : (List.replicate 61 '0' ++ ['1']).all (fun c => Hex.IsDigit c) = true := by decide
  refine ⟨List.replicate 61 '0' ++ ['1'], ⟨fun c hc => ?_, by decide, by decide, by decide⟩,
    .inr ⟨by decide, by decide⟩⟩
  exact of_decide_eq_true (List.all_eq_true.1 hdigits c hc)

theorem ofFixedEntries_single {i : Index} {s : String} {x : Field} (h : Field.Denotes s x) :
    Assignment.ofFixedEntries [(i, s)] = .ok (.ofList [(i, x)]) := by
  rw [Assignment.ofFixedEntries, Assignment.addFixedEntries_cons, Field.ofFixedText_eq_ok_iff.2 h]
  rfl

theorem toFixture_mixed : mixed.toFixture = .ok mixedFixture := by
  have hbytecode : Utf8.encode mixed.bytecode.toList = Base64.encode [1, 2, 3] := by decide
  exact toFixture_eq_ok_iff.2 ⟨rfl, Base64.decode_eq_ok_iff.2 hbytecode,
    ofFixedEntries_single denotes_upperCase, ofFixedEntries_single denotes_doubledLead⟩

/-- The same artifact without bytecode. -/
theorem toFixture_mixed_empty :
    { mixed with bytecode := "" }.toFixture = .ok { mixedFixture with bytecode := [] } := by
  obtain ⟨-, -, hinitial, hexpected⟩ := toFixture_eq_ok_iff.1 toFixture_mixed
  exact toFixture_eq_ok_iff.2 ⟨rfl, Base64.decode_eq_ok_iff.2 rfl, hinitial, hexpected⟩

theorem respelled_mixed :
    mixed.toFixture = .ok mixedFixture ∧ mixed.Respelled (ofFixture mixedFixture) ∧
      mixed ≠ ofFixture mixedFixture ∧ mixedFixture.bytecode ≠ [] := by
  obtain ⟨hrespelled, -, -, hbytecode⟩ := respelled_of_toFixture toFixture_mixed
  refine ⟨toFixture_mixed, hrespelled, by decide, ?_⟩
  exact hbytecode _ _ toFixture_mixed_empty (by decide)

end Artifact

end CircuitFixtures
