import CircuitFixtures.Proofs.Fixture.Sheet
import CircuitFixtures.Proofs.Index.Repeats

/-!
# Indices that an artifact has twice

`Assignment.ofFixedEntries` refuses an index that comes twice, but it is given the entries of a map
(`Assignment.ofFixedEntries_ne_duplicate`). So of the members of one index the last decides, and
the others are not looked at: `Sheet.last_text_counts` says it for every text of an artifact, and
`Sheet.twice_not_refused` that such a text is accepted.
-/

namespace CircuitFixtures

namespace Assignment

open IndexMap (lookup)

/-- What is held behind an optional text: its value, or without one what was held before. -/
def Held (old : Option Field) : Option String → Option Field → Prop
  | none, y => y = old
  | some text, y => ∃ x, Field.ofFixedText text = .ok x ∧ y = some x

section Ascending

variable {es : List (Index × String)} {m : Assignment}

/-- An index that is in front of all others, of which none has a value yet. -/
private theorem fresh_insert {i : Index} (x : Field) (hi : ∀ p ∈ es, i < p.1)
    (hnew : ∀ p ∈ es, m.get? p.1 = none) : ∀ p ∈ es, (m.insert i x).get? p.1 = none := by
  intro p hp
  rw [IndexMap.get?_insert, if_neg (UInt32.ne_of_lt (hi p hp)).symm]
  exact hnew p hp

private theorem lookup_of_lt {i : Index} (hi : ∀ p ∈ es, i < p.1) : lookup i es = none := by
  induction es with
  | nil => rfl
  | cons p es ih =>
    have hne := UInt32.ne_of_lt (hi p List.mem_cons_self)
    rw [lookup, if_neg hne]
    exact ih fun q hq => hi q (List.mem_cons_of_mem _ hq)

theorem addFixedEntries_eq_ok_iff {m' : Assignment} (hes : es.Pairwise (fun p q => p.1 < q.1))
    (hnew : ∀ p ∈ es, m.get? p.1 = none) :
    m.addFixedEntries es = .ok m' ↔ ∀ i, Held (m.get? i) (lookup i es) (m'.get? i) := by
  induction es generalizing m with
  | nil =>
    constructor
    · rintro ⟨⟩ i
      rfl
    · intro h
      exact congrArg Except.ok (IndexMap.ext_get? h).symm
  | cons p es ih =>
    obtain ⟨i, text⟩ := p
    obtain ⟨hi, hrest⟩ := List.pairwise_cons.1 hes
    obtain ⟨hfresh, hnew⟩ := List.forall_mem_cons.1 hnew
    have hfirst : lookup i ((i, text) :: es) = some text := by rw [lookup, if_pos rfl]
    have hothers {j : Index} (hj : j ≠ i) : lookup j ((i, text) :: es) = lookup j es := by
      rw [lookup, if_neg hj]
    rw [addFixedEntries_cons]
    cases hvalue : Field.ofFixedText text with
    | error e =>
      constructor
      · intro h
        cases h
      · intro h
        have hheld := h i
        rw [hfirst] at hheld
        obtain ⟨x, hx, -⟩ := hheld
        rw [hvalue] at hx
        cases hx
    | ok x =>
      have hcontains : ¬ m.contains i = true := by simp [IndexMap.contains, hfresh]
      simp only [if_neg hcontains]
      rw [ih hrest (fresh_insert x hi hnew)]
      refine forall_congr' fun j => ?_
      by_cases hj : j = i
      · subst hj
        rw [lookup_of_lt hi, hfirst, IndexMap.get?_insert, if_pos rfl]
        simp [Held, hvalue]
      · rw [hothers hj, IndexMap.get?_insert, if_neg hj]

theorem addFixedEntries_ne_duplicate (hes : es.Pairwise (fun p q => p.1 < q.1))
    (hnew : ∀ p ∈ es, m.get? p.1 = none) (i : Index) :
    m.addFixedEntries es ≠ .error (.duplicate i) := by
  intro h
  induction es generalizing m with
  | nil => cases h
  | cons p es ih =>
    obtain ⟨j, text⟩ := p
    obtain ⟨hj, hrest⟩ := List.pairwise_cons.1 hes
    obtain ⟨hfresh, hnew⟩ := List.forall_mem_cons.1 hnew
    have hcontains : ¬ m.contains j = true := by simp [IndexMap.contains, hfresh]
    rw [addFixedEntries_cons] at h
    split at h
    · cases h
    · rename_i x hx
      rw [if_neg hcontains] at h
      exact ih hrest (fresh_insert x hj hnew) h

end Ascending

theorem exists_of_badValue {es : List (Index × String)} {m : Assignment} {e : Field.Fault}
    (h : m.addFixedEntries es = .error (.badValue e)) :
    ∃ p ∈ es, Field.ofFixedText p.2 = .error e := by
  induction es generalizing m with
  | nil => cases h
  | cons p es ih =>
    obtain ⟨i, text⟩ := p
    rw [addFixedEntries_cons] at h
    split at h
    · rename_i hvalue
      cases h
      exact ⟨(i, text), List.mem_cons_self, hvalue⟩
    · split at h
      · cases h
      · obtain ⟨q, hq, hvalue⟩ := ih h
        exact ⟨q, List.mem_cons_of_mem _ hq, hvalue⟩

/-! ## Entries of a map -/

variable {t : IndexMap String} {m : Assignment}

theorem ofFixedEntries_eq_ok_iff :
    ofFixedEntries t.entries = .ok m ↔ ∀ i, Held none (t.get? i) (m.get? i) :=
  addFixedEntries_eq_ok_iff t.ascending fun p _ => IndexMap.get?_empty p.1

theorem ofFixedEntries_ne_duplicate (t : IndexMap String) (i : Index) :
    ofFixedEntries t.entries ≠ .error (.duplicate i) :=
  addFixedEntries_ne_duplicate t.ascending (fun p _ => IndexMap.get?_empty p.1) i

theorem ofFixedEntries_isOk_iff :
    (∃ m, ofFixedEntries t.entries = .ok m) ↔
      ∀ i text, t.get? i = some text → ∃ x, Field.ofFixedText text = .ok x := by
  constructor
  · rintro ⟨m, hm⟩ i text htext
    have hheld := ofFixedEntries_eq_ok_iff.1 hm i
    rw [htext] at hheld
    obtain ⟨x, hx, -⟩ := hheld
    exact ⟨x, hx⟩
  · intro h
    cases hread : ofFixedEntries t.entries with
    | ok m => exact ⟨m, rfl⟩
    | error fault =>
      cases fault with
      | duplicate i => exact absurd hread (ofFixedEntries_ne_duplicate t i)
      | badValue e =>
        obtain ⟨⟨i, text⟩, hp, hvalue⟩ := exists_of_badValue hread
        obtain ⟨x, hx⟩ := h i text (IndexMap.get?_eq_some.2 hp)
        rw [hvalue] at hx
        cases hx

/-! ## Members of an object -/

/-- The assignment has the value of the last text of every index, and no other values. -/
def HoldsLast (m : Assignment) (es : List (Index × String)) : Prop :=
  ∀ i, Held none (IndexMap.last? i es) (m.get? i)

/-- The last text of every index is the text of a value. -/
def LastRead (es : List (Index × String)) : Prop :=
  ∀ i text, IndexMap.last? i es = some text → ∃ x, Field.ofFixedText text = .ok x

variable {es : List (Index × String)}

theorem ofFixedEntries_ofList_iff :
    ofFixedEntries (IndexMap.ofList es).entries = .ok m ↔ m.HoldsLast es := by
  rw [ofFixedEntries_eq_ok_iff, HoldsLast]
  simp only [IndexMap.get?_ofList]

theorem ofFixedEntries_ofList_isOk_iff :
    (∃ m, ofFixedEntries (IndexMap.ofList es).entries = .ok m) ↔ LastRead es := by
  rw [ofFixedEntries_isOk_iff, LastRead]
  simp only [IndexMap.get?_ofList]

theorem HoldsLast.mem_keys_iff (h : m.HoldsLast es) (i : Index) :
    i ∈ m.keys ↔ i ∈ es.map (·.1) := by
  rw [← IndexMap.mem_keys_ofList, IndexMap.mem_keys_iff, IndexMap.mem_keys_iff,
    IndexMap.get?_ofList]
  have hheld := h i
  cases hlast : IndexMap.last? i es with
  | none =>
    rw [hlast] at hheld
    simp [show m.get? i = none from hheld]
  | some text =>
    rw [hlast] at hheld
    obtain ⟨x, -, hx⟩ := hheld
    simp [hx]

/-- No member is lost when no index stands twice, and only then. -/
theorem HoldsLast.size_eq_length_iff (h : m.HoldsLast es) :
    m.size = es.length ↔ IndexMap.Distinct es :=
  IndexMap.size_eq_length_iff h.mem_keys_iff

end Assignment

namespace Artifact

theorem toFixture_eq_ok_iff {a : Artifact} {f : Fixture} :
    a.toFixture = .ok f ↔ f.name = a.name ∧
      Base64.decode (Utf8.encode a.bytecode.toList) = .ok f.bytecode ∧
      Assignment.ofFixedEntries a.initial.entries = .ok f.initial ∧
      Assignment.ofFixedEntries a.expected.entries = .ok f.expected := by
  obtain ⟨name, bytecode, initial, expected⟩ := f
  rw [toFixture]
  cases Base64.decode (Utf8.encode a.bytecode.toList) with
  | error e => simp
  | ok bytes =>
    cases Assignment.ofFixedEntries a.initial.entries with
    | error e => simp
    | ok m =>
      cases Assignment.ofFixedEntries a.expected.entries with
      | error e => simp
      | ok n => simp [eq_comm]

theorem toFixture_ne_duplicate (a : Artifact) (i : Index) :
    a.toFixture ≠ .error (.entry (.duplicate i)) := by
  intro h
  rw [toFixture] at h
  split at h
  · cases h
  split at h
  · rename_i hinitial
    cases h
    exact Assignment.ofFixedEntries_ne_duplicate _ i hinitial
  split at h
  · rename_i hexpected
    cases h
    exact Assignment.ofFixedEntries_ne_duplicate _ i hexpected
  · cases h

end Artifact

namespace Sheet

open Artifact

/-- The fixture of a sheet: of the members of one index the last counts. -/
structure Makes (s : Sheet) (f : Fixture) : Prop where
  name : f.name = s.name
  bytecode : Base64.decode (Utf8.encode s.bytecode.toList) = .ok f.bytecode
  initial : f.initial.HoldsLast s.initial
  expected : f.expected.HoldsLast s.expected

theorem toFixture_artifact_iff {s : Sheet} {f : Fixture} :
    s.artifact.toFixture = .ok f ↔ s.Makes f := by
  rw [toFixture_eq_ok_iff, artifact, Assignment.ofFixedEntries_ofList_iff,
    Assignment.ofFixedEntries_ofList_iff]
  constructor
  · rintro ⟨hname, hbytecode, hinitial, hexpected⟩
    exact ⟨hname, hbytecode, hinitial, hexpected⟩
  · rintro ⟨hname, hbytecode, hinitial, hexpected⟩
    exact ⟨hname, hbytecode, hinitial, hexpected⟩

/-- The bytecode and the last text of every index can be read. -/
def Readable (s : Sheet) : Prop :=
  (∃ bytes, Base64.decode (Utf8.encode s.bytecode.toList) = .ok bytes) ∧
    Assignment.LastRead s.initial ∧ Assignment.LastRead s.expected

/-- No index stands twice in an object. -/
def Distinct (s : Sheet) : Prop :=
  IndexMap.Distinct s.initial ∧ IndexMap.Distinct s.expected

instance (s : Sheet) : Decidable s.Distinct :=
  inferInstanceAs (Decidable (_ ∧ _))

theorem exists_makes_iff {s : Sheet} : (∃ f, s.Makes f) ↔ s.Readable := by
  simp only [Readable, ← Assignment.ofFixedEntries_ofList_isOk_iff,
    Assignment.ofFixedEntries_ofList_iff]
  constructor
  · rintro ⟨f, hf⟩
    exact ⟨⟨_, hf.bytecode⟩, ⟨_, hf.initial⟩, ⟨_, hf.expected⟩⟩
  · rintro ⟨⟨bytes, hbytes⟩, ⟨m, hm⟩, ⟨n, hn⟩⟩
    exact ⟨⟨s.name, bytes, m, n⟩, rfl, hbytes, hm, hn⟩

/-- The text is an artifact, and that is the fixture. -/
def Loads (text : String) (f : Fixture) : Prop :=
  ∃ a, ofJson text = .ok a ∧ a.toFixture = .ok f

theorem loads_iff {s : Sheet} {text : String} (hs : s.SpelledBy text) (f : Fixture) :
    Loads text f ↔ s.Makes f := by
  simp [Loads, ofJson_eq_ok_iff.2 ⟨s, hs, rfl⟩, toFixture_artifact_iff]

/-- The texts of artifacts are those that spell a sheet, which is the only one they spell. What the
sheet says makes the fixture, but of the members of one index only the last: it has to be the text of
a value, the others need not, and they are lost. An index that stands twice is never a fault; so a
text in which one does is refused only where the bytecode or a last text cannot be read. -/
theorem last_text_counts (text : String) :
    ((∃ a, ofJson text = .ok a) ↔ ∃ s : Sheet, s.SpelledBy text) ∧
    (∀ s s' : Sheet, s.SpelledBy text → s'.SpelledBy text → s = s') ∧
    (∀ a i, ofJson text = .ok a → a.toFixture ≠ .error (.entry (.duplicate i))) ∧
    ∀ s : Sheet, s.SpelledBy text →
      (∀ f, Loads text f ↔ s.Makes f) ∧
      ((∃ f, Loads text f) ↔ s.Readable) ∧
      (∀ f, Loads text f →
        (f.initial.size = s.initial.length ↔ IndexMap.Distinct s.initial) ∧
        (f.expected.size = s.expected.length ↔ IndexMap.Distinct s.expected)) ∧
      ((¬ s.Distinct → ¬ ∃ f, Loads text f) ↔ s.Distinct ∨ ¬ s.Readable) := by
  refine ⟨?_, fun s s' hs hs' => hs.unique hs', fun a i _ => toFixture_ne_duplicate a i,
    fun s hs => ?_⟩
  · constructor
    · rintro ⟨a, ha⟩
      obtain ⟨s, hs, -⟩ := ofJson_eq_ok_iff.1 ha
      exact ⟨s, hs⟩
    · rintro ⟨s, hs⟩
      exact ⟨s.artifact, ofJson_eq_ok_iff.2 ⟨s, hs, rfl⟩⟩
  · have hloads : (∃ f, Loads text f) ↔ s.Readable :=
      (exists_congr (loads_iff hs)).trans exists_makes_iff
    refine ⟨loads_iff hs, hloads, ?_, ?_⟩
    · intro f hf
      have hmakes := (loads_iff hs f).1 hf
      exact ⟨hmakes.initial.size_eq_length_iff, hmakes.expected.size_eq_length_iff⟩
    · rw [hloads, Decidable.or_iff_not_imp_left]

/-- An artifact with the index 1 twice. -/
def twice : Sheet where
  name := "twice"
  bytecode := ""
  initial :=
    [(1, "0x0000000000000000000000000000000000000000000000000000000000000007"),
      (1, "0x0000000000000000000000000000000000000000000000000000000000000005")]
  expected := []

/-- The fixture of the last members. -/
def twiceFixture : Fixture :=
  ⟨"twice", [], .ofList [(1, ⟨5, by decide⟩)], .empty⟩

theorem makes_twice : twice.Makes twiceFixture := by
  have htext : "0x0000000000000000000000000000000000000000000000000000000000000005" =
      Field.toText ⟨5, by decide⟩ := by decide
  have hentries : (IndexMap.ofList twice.initial).entries = [(1, Field.toText ⟨5, by decide⟩)] := by
    rw [← htext]
    rfl
  have hinitial : Assignment.ofFixedEntries (IndexMap.ofList twice.initial).entries =
      .ok twiceFixture.initial := by
    rw [hentries, Assignment.ofFixedEntries, Assignment.addFixedEntries_cons, Field.ofFixedText_toText]
    rfl
  exact ⟨rfl, Base64.decode_encode [], Assignment.ofFixedEntries_ofList_iff.1 hinitial,
    Assignment.ofFixedEntries_ofList_iff.1 rfl⟩

theorem not_distinct_twice : ¬ twice.Distinct := by decide

theorem twice_last_text :
    Loads twice.text twiceFixture ∧ twiceFixture.initial.size ≠ twice.initial.length := by
  obtain ⟨-, -, -, hspelled⟩ := last_text_counts twice.text
  obtain ⟨hmakes, -, hsizes, -⟩ := hspelled twice twice.spelledBy_text
  have hloads := (hmakes twiceFixture).2 makes_twice
  obtain ⟨hinitial, hexpected⟩ := hsizes twiceFixture hloads
  exact ⟨hloads, fun hsize => not_distinct_twice ⟨hinitial.1 hsize, hexpected.1 rfl⟩⟩

/-- An index that an artifact has twice does not make it an error. -/
theorem twice_not_refused :
    ¬ ∀ s : Sheet, s.SpelledBy twice.text → ¬ s.Distinct → ¬ ∃ f, Loads twice.text f := by
  intro h
  exact h twice twice.spelledBy_text not_distinct_twice
    ⟨twiceFixture, (loads_iff twice.spelledBy_text twiceFixture).2 makes_twice⟩

end Sheet

end CircuitFixtures
