import CircuitFixtures.Proofs.Field.Text
import CircuitFixtures.Proofs.Fixture.Check
import CircuitFixtures.Proofs.Payload.Spelling

/-!
# Canonical payloads

A circuit can be spelled in more than one way, but only at two kinds of places: a field element
has several texts, and a set of indices several lists. `WrittenCircuit` keeps both as they stand
in a payload, so that every payload that is read has exactly one (`circuit_spelled`,
`prefixFree_circuit`). It is canonical where each text has 64 digits in lower case and each list
ascends. A circuit has one canonical spelling, the one that is written
(`WrittenCircuit.eq_ofCircuit`); so writing the circuit again gives the payload back exactly
where the payload is canonical and nothing stands behind it.
-/

namespace CircuitFixtures

open Payload (countLimit ListSpells)

/-! ## What stands in a payload -/

structure WrittenExpression where
  mulTerms : List (List Char × Index × Index)
  linearTerms : List (List Char × Index)
  constant : List Char

inductive WrittenOpcode where
  | arithmetic (e : WrittenExpression)
  | call (c : BlackBox)

structure WrittenCircuit where
  lastIndex : Index
  opcodes : List WrittenOpcode
  privateParameters : List Index
  publicParameters : List Index
  returnValues : List Index
  messages : List (Location × String)

/-- A text and what else belongs to a term. -/
def termBytes {α : Type} (rest : α → List UInt8) (t : List Char × α) : List UInt8 :=
  Payload.encodeChars t.1 ++ rest t.2

def factorBytes (p : Index × Index) : List UInt8 :=
  Payload.encodeIndex p.1 ++ Payload.encodeIndex p.2

/-- The text of a term is one of its field element. -/
def TermSpells {α : Type} (w : List Char × α) (t : Field × α) : Prop :=
  Field.ofChars w.1 = .ok t.1 ∧ w.2 = t.2

/-- The list holds the members of the set, in any order and each at least once. -/
structure SetSpells (is : List Index) (s : IndexSet) : Prop where
  length_lt : is.length < countLimit
  mem_iff : ∀ i, i ∈ s.elems ↔ i ∈ is

namespace WrittenExpression

def bytes (w : WrittenExpression) : List UInt8 :=
  Payload.encodeList (termBytes factorBytes) w.mulTerms ++
    (Payload.encodeList (termBytes Payload.encodeIndex) w.linearTerms ++
      Payload.encodeChars w.constant)

/-- The texts of the field elements. -/
def texts (w : WrittenExpression) : List (List Char) :=
  w.mulTerms.map (·.1) ++ (w.linearTerms.map (·.1) ++ [w.constant])

structure Spells (w : WrittenExpression) (e : Expression) : Prop where
  mulTerms : ListSpells TermSpells w.mulTerms e.mulTerms
  linearTerms : ListSpells TermSpells w.linearTerms e.linearTerms
  constant : Field.ofChars w.constant = .ok e.constant

def ofExpression (e : Expression) : WrittenExpression where
  mulTerms := e.mulTerms.map fun t => (t.1.toDigits, t.2)
  linearTerms := e.linearTerms.map fun t => (t.1.toDigits, t.2)
  constant := e.constant.toDigits

end WrittenExpression

namespace WrittenOpcode

def bytes : WrittenOpcode → List UInt8
  | .arithmetic w => Payload.encodeTag 0 ++ w.bytes
  | .call c => Payload.encodeTag 1 ++ Payload.encodeBlackBox c

def texts : WrittenOpcode → List (List Char)
  | .arithmetic w => w.texts
  | .call _ => []

def Spells : WrittenOpcode → Opcode → Prop
  | .arithmetic w, .arithmetic e => w.Spells e
  | .call b, .call c => b = c ∧ ∀ p ∈ c.parts, p.Fits
  | _, _ => False

def ofOpcode : Opcode → WrittenOpcode
  | .arithmetic e => .arithmetic (.ofExpression e)
  | .call c => .call c

end WrittenOpcode

namespace WrittenCircuit

def bytes (w : WrittenCircuit) : List UInt8 :=
  Payload.encodeIndex w.lastIndex ++ (Payload.encodeList WrittenOpcode.bytes w.opcodes ++
    (Payload.encodeList Payload.encodeIndex w.privateParameters ++
      (Payload.encodeList Payload.encodeIndex w.publicParameters ++
        (Payload.encodeList Payload.encodeIndex w.returnValues ++
          Payload.encodeList Payload.encodeMessage w.messages))))

def texts (w : WrittenCircuit) : List (List Char) :=
  w.opcodes.flatMap WrittenOpcode.texts

/-- What is written stands for the circuit. -/
structure Spells (w : WrittenCircuit) (c : Circuit) : Prop where
  lastIndex : w.lastIndex = c.lastIndex
  opcodes : ListSpells WrittenOpcode.Spells w.opcodes c.opcodes
  privateParameters : SetSpells w.privateParameters c.privateParameters
  publicParameters : SetSpells w.publicParameters c.publicParameters
  returnValues : SetSpells w.returnValues c.returnValues
  messages : w.messages = c.messages
  messages_lt : c.messages.length < countLimit
  text_lt : ∀ m ∈ c.messages, (Utf8.encode m.2.toList).length < countLimit

/-- Nothing is written in another way than this library writes it. -/
structure Canonical (w : WrittenCircuit) : Prop where
  texts : ∀ t ∈ w.texts, Field.IsCanonicalText t
  privateParameters : w.privateParameters.Pairwise (· < ·)
  publicParameters : w.publicParameters.Pairwise (· < ·)
  returnValues : w.returnValues.Pairwise (· < ·)

def ofCircuit (c : Circuit) : WrittenCircuit where
  lastIndex := c.lastIndex
  opcodes := c.opcodes.map .ofOpcode
  privateParameters := c.privateParameters.elems
  publicParameters := c.publicParameters.elems
  returnValues := c.returnValues.elems
  messages := c.messages

end WrittenCircuit

namespace Payload

/-! ## The bytes that are read are those of a spelling -/

/-- The text of an element is short enough for its length to be written. -/
theorem text_lt_of_ofChars {t : List Char} {x : Field} (h : Field.ofChars t = .ok x) :
    (Utf8.encode t).length < countLimit := by
  rw [Utf8.length_encode]
  exact Nat.lt_of_le_of_lt (Field.size_le_of_ofChars h) (by decide)

theorem field_spelled : Spelled FieldBytes encodeChars (fun t x => Field.ofChars t = .ok x) := by
  intro q x
  constructor
  · rintro ⟨t, ht, hx⟩
    exact ⟨t, hx, ht.eq_encode⟩
  · rintro ⟨t, hx, rfl⟩
    exact ⟨t, charsBytes_encode (text_lt_of_ofChars hx), hx⟩

theorem mulTerm_spelled : Spelled MulTermBytes (termBytes factorBytes) TermSpells := by
  rintro q ⟨x, i, j⟩
  constructor
  · rintro ⟨a, b, c, rfl, ha, hb, hc⟩
    obtain ⟨t, hx, rfl⟩ := (field_spelled _ _).1 ha
    refine ⟨(t, i, j), ⟨hx, rfl⟩, ?_⟩
    rw [NumberBytes.eq_encode hb, NumberBytes.eq_encode hc]
    rfl
  · rintro ⟨⟨t, p⟩, ⟨hx, rfl⟩, rfl⟩
    exact ⟨_, _, _, rfl, (field_spelled _ _).2 ⟨t, hx, rfl⟩, indexBytes_encode i,
      indexBytes_encode j⟩

theorem linearTerm_spelled : Spelled LinearTermBytes (termBytes encodeIndex) TermSpells := by
  rintro q ⟨x, i⟩
  constructor
  · rintro ⟨a, b, rfl, ha, hb⟩
    obtain ⟨t, hx, rfl⟩ := (field_spelled _ _).1 ha
    refine ⟨(t, i), ⟨hx, rfl⟩, ?_⟩
    rw [NumberBytes.eq_encode hb]
    rfl
  · rintro ⟨⟨t, j⟩, ⟨hx, rfl⟩, rfl⟩
    exact ⟨_, _, rfl, (field_spelled _ _).2 ⟨t, hx, rfl⟩, indexBytes_encode _⟩

theorem expression_spelled :
    Spelled ExpressionBytes WrittenExpression.bytes WrittenExpression.Spells := by
  intro q e
  constructor
  · rintro ⟨a, b, c, rfl, ha, hb, hc⟩
    obtain ⟨m, hm, rfl⟩ := (mulTerm_spelled.list _ _).1 ha
    obtain ⟨l, hl, rfl⟩ := (linearTerm_spelled.list _ _).1 hb
    obtain ⟨t, ht, rfl⟩ := (field_spelled _ _).1 hc
    exact ⟨⟨m, l, t⟩, ⟨hm, hl, ht⟩, rfl⟩
  · rintro ⟨w, hw, rfl⟩
    exact ⟨_, _, _, rfl, (mulTerm_spelled.list _ _).2 ⟨_, hw.mulTerms, rfl⟩,
      (linearTerm_spelled.list _ _).2 ⟨_, hw.linearTerms, rfl⟩,
      (field_spelled _ _).2 ⟨_, hw.constant, rfl⟩⟩

theorem opcode_spelled : Spelled OpcodeBytes WrittenOpcode.bytes WrittenOpcode.Spells := by
  intro q o
  cases o with
  | arithmetic e =>
    constructor
    · rintro ⟨a, b, rfl, ha, hb⟩
      obtain ⟨w, hw, rfl⟩ := (expression_spelled _ _).1 hb
      refine ⟨.arithmetic w, hw, ?_⟩
      rw [NumberBytes.eq_encode ha.1]
      rfl
    · rintro ⟨w | b, hw, rfl⟩
      · exact ⟨_, _, rfl, tagBytes_encode (by decide) (by decide),
          (expression_spelled _ _).2 ⟨w, hw, rfl⟩⟩
      · exact hw.elim
  | call c =>
    constructor
    · rintro ⟨a, b, rfl, ha, hb⟩
      refine ⟨.call c, ⟨rfl, hb.fits⟩, ?_⟩
      rw [NumberBytes.eq_encode ha.1, hb.eq_encode]
      rfl
    · rintro ⟨w | b, hw, rfl⟩
      · exact hw.elim
      · obtain ⟨rfl, hfits⟩ := hw
        exact ⟨_, _, rfl, tagBytes_encode (by decide) (by decide), blackBoxBytes_encode hfits⟩

theorem set_spelled : Spelled SetBytes (encodeList encodeIndex) SetSpells := by
  intro q s
  constructor
  · rintro ⟨is, his, hmem⟩
    exact ⟨is, ⟨his.length_lt, hmem⟩, his.eq_encode fun _ _ => NumberBytes.eq_encode⟩
  · rintro ⟨is, ⟨hlt, hmem⟩, rfl⟩
    exact ⟨is, listBytes_encode hlt fun i _ => indexBytes_encode i, hmem⟩

theorem circuit_spelled : Spelled CircuitBytes WrittenCircuit.bytes WrittenCircuit.Spells := by
  intro q c
  constructor
  · rintro ⟨l, o, p, u, r, m, rfl, hl, ho, hp, hu, hr, hm⟩
    obtain ⟨os, hos, rfl⟩ := (opcode_spelled.list _ _).1 ho
    obtain ⟨ps, hps, rfl⟩ := (set_spelled _ _).1 hp
    obtain ⟨us, hus, rfl⟩ := (set_spelled _ _).1 hu
    obtain ⟨rs, hrs, rfl⟩ := (set_spelled _ _).1 hr
    refine ⟨⟨c.lastIndex, os, ps, us, rs, c.messages⟩, ⟨rfl, hos, hps, hus, hrs, rfl,
      hm.length_lt, hm.forall_mem fun _ _ => MessageBytes.text_lt⟩, ?_⟩
    rw [NumberBytes.eq_encode hl, hm.eq_encode fun _ _ => MessageBytes.eq_encode]
    rfl
  · rintro ⟨w, hw, rfl⟩
    have hm : ListBytes MessageBytes (encodeList encodeMessage c.messages) c.messages :=
      listBytes_encode hw.messages_lt fun m hm => messageBytes_encode (hw.text_lt m hm)
    rw [WrittenCircuit.bytes, hw.lastIndex, hw.messages]
    exact ⟨_, _, _, _, _, _, rfl, indexBytes_encode _,
      (opcode_spelled.list _ _).2 ⟨_, hw.opcodes, rfl⟩,
      (set_spelled _ _).2 ⟨_, hw.privateParameters, rfl⟩,
      (set_spelled _ _).2 ⟨_, hw.publicParameters, rfl⟩,
      (set_spelled _ _).2 ⟨_, hw.returnValues, rfl⟩, hm⟩

/-! ## The bytes of a spelling fix it -/

theorem prefixFree_field :
    PrefixFree (fun t => ∃ x, Field.ofChars t = .ok x) encodeChars := by
  refine prefixFree_chars.mono ?_
  rintro t ⟨x, hx⟩
  exact text_lt_of_ofChars hx

theorem prefixFree_term {α : Type} {rest : α → List UInt8} (h : PrefixFree (fun _ => True) rest) :
    PrefixFree (fun w => ∃ t, TermSpells w t) (termBytes rest) := by
  refine (prefixFree_field.pair h).mono ?_
  rintro w ⟨t, hx, -⟩
  exact ⟨⟨_, hx⟩, trivial⟩

theorem prefixFree_mulTerm :
    PrefixFree (fun w => ∃ t, TermSpells w t) (termBytes factorBytes) :=
  prefixFree_term ((prefixFree_index.pair prefixFree_index).mono fun _ _ => ⟨trivial, trivial⟩)

theorem prefixFree_expression :
    PrefixFree (fun w => ∃ e, WrittenExpression.Spells w e) WrittenExpression.bytes := by
  rintro v w r s ⟨e, hv⟩ ⟨f, hw⟩ heq
  simp only [WrittenExpression.bytes, List.append_assoc] at heq
  obtain ⟨hmul, hlinear⟩ :=
    prefixFree_mulTerm.listSpells _ _ _ _ ⟨_, hv.mulTerms⟩ ⟨_, hw.mulTerms⟩ heq
  obtain ⟨hlin, hconstant⟩ := (prefixFree_term prefixFree_index).listSpells _ _ _ _
    ⟨_, hv.linearTerms⟩ ⟨_, hw.linearTerms⟩ hlinear
  obtain ⟨hconst, hrest⟩ :=
    prefixFree_field _ _ _ _ ⟨_, hv.constant⟩ ⟨_, hw.constant⟩ hconstant
  cases v
  cases w
  cases hmul
  cases hlin
  cases hconst
  exact ⟨rfl, hrest⟩

theorem prefixFree_opcode :
    PrefixFree (fun w => ∃ o, WrittenOpcode.Spells w o) WrittenOpcode.bytes := by
  rintro (v | b) (w | c) r s ⟨o, hv⟩ ⟨o', hw⟩ heq
  all_goals
    simp only [WrittenOpcode.bytes, List.append_assoc] at heq
    obtain ⟨htag, hbody⟩ := prefixFree_tag _ _ _ _ (by decide) (by decide) heq
  · cases o with
    | call c => exact hv.elim
    | arithmetic e =>
      cases o' with
      | call c => exact hw.elim
      | arithmetic f =>
        obtain ⟨rfl, hrest⟩ := prefixFree_expression _ _ _ _ ⟨e, hv⟩ ⟨f, hw⟩ hbody
        exact ⟨rfl, hrest⟩
  · cases htag
  · cases htag
  · cases o with
    | arithmetic e => exact hv.elim
    | call b =>
      cases o' with
      | arithmetic f => exact hw.elim
      | call c =>
        obtain ⟨rfl, hb⟩ := hv
        obtain ⟨rfl, hc⟩ := hw
        obtain ⟨rfl, hrest⟩ := prefixFree_blackBox _ _ _ _ hb hc hbody
        exact ⟨rfl, hrest⟩

theorem prefixFree_set :
    PrefixFree (fun is => ∃ s, SetSpells is s) (encodeList encodeIndex) := by
  refine prefixFree_index.list.mono ?_
  rintro is ⟨s, hlt, -⟩
  exact ⟨hlt, fun _ _ => trivial⟩

theorem prefixFree_circuit :
    PrefixFree (fun w => ∃ c, WrittenCircuit.Spells w c) WrittenCircuit.bytes := by
  rintro v w r s ⟨c, hv⟩ ⟨d, hw⟩ heq
  simp only [WrittenCircuit.bytes, List.append_assoc] at heq
  have messages {u : WrittenCircuit} {c : Circuit} (h : u.Spells c) :
      u.messages.length < countLimit ∧
        ∀ m ∈ u.messages, (Utf8.encode m.2.toList).length < countLimit := by
    rw [h.messages]
    exact ⟨h.messages_lt, h.text_lt⟩
  obtain ⟨hl, h1⟩ := prefixFree_index _ _ _ _ trivial trivial heq
  obtain ⟨ho, h2⟩ :=
    prefixFree_opcode.listSpells _ _ _ _ ⟨_, hv.opcodes⟩ ⟨_, hw.opcodes⟩ h1
  obtain ⟨hp, h3⟩ :=
    prefixFree_set _ _ _ _ ⟨_, hv.privateParameters⟩ ⟨_, hw.privateParameters⟩ h2
  obtain ⟨hu, h4⟩ :=
    prefixFree_set _ _ _ _ ⟨_, hv.publicParameters⟩ ⟨_, hw.publicParameters⟩ h3
  obtain ⟨hr, h5⟩ := prefixFree_set _ _ _ _ ⟨_, hv.returnValues⟩ ⟨_, hw.returnValues⟩ h4
  obtain ⟨hm, hrest⟩ := prefixFree_message.list _ _ _ _ (messages hv) (messages hw) h5
  cases v
  cases w
  cases hl
  cases ho
  cases hp
  cases hu
  cases hr
  cases hm
  exact ⟨rfl, hrest⟩

end Payload

/-! ## The canonical spelling -/

namespace WrittenExpression

theorem spells_ofExpression {e : Expression} (hm : e.mulTerms.length < countLimit)
    (hl : e.linearTerms.length < countLimit) : (ofExpression e).Spells e := by
  have terms {α : Type} (ts : List (Field × α)) :
      List.Forall₂ TermSpells (ts.map fun t => (t.1.toDigits, t.2)) ts := by
    rw [List.forall₂_map_left_iff]
    exact List.forall₂_same.2 fun t _ => ⟨Field.ofChars_toDigits t.1, rfl⟩
  exact ⟨⟨by simpa [ofExpression] using hm, terms _⟩, ⟨by simpa [ofExpression] using hl, terms _⟩,
    Field.ofChars_toDigits _⟩

theorem bytes_ofExpression (e : Expression) :
    (ofExpression e).bytes = Payload.encodeExpression e := by
  rw [bytes, ofExpression, Payload.encodeList_map, Payload.encodeList_map,
    Payload.encodeExpression, List.append_assoc]
  simp only [termBytes, factorBytes, ← List.append_assoc]
  rfl

theorem canonical_ofExpression (e : Expression) :
    ∀ t ∈ (ofExpression e).texts, Field.IsCanonicalText t := by
  intro t ht
  simp only [texts, ofExpression, List.map_map, List.mem_append, List.mem_map,
    List.mem_singleton] at ht
  rcases ht with ⟨x, -, rfl⟩ | ⟨x, -, rfl⟩ | rfl
  · exact Field.isCanonicalText_toDigits x.1
  · exact Field.isCanonicalText_toDigits x.1
  · exact Field.isCanonicalText_toDigits e.constant

theorem eq_ofExpression {w : WrittenExpression} {e : Expression} (h : w.Spells e)
    (hc : ∀ t ∈ w.texts, Field.IsCanonicalText t) : w = ofExpression e := by
  have terms {α : Type} {ws : List (List Char × α)} {ts : List (Field × α)}
      (hws : List.Forall₂ TermSpells ws ts) (hcs : ∀ w ∈ ws, Field.IsCanonicalText w.1) :
      ws = ts.map fun t => (t.1.toDigits, t.2) :=
    Payload.eq_map_of_forall₂ hws fun w hw t ht =>
      Prod.ext (Field.eq_toDigits_of_ofChars (hcs w hw) ht.1) ht.2
  simp only [texts, List.forall_mem_append, List.forall_mem_map, List.forall_mem_singleton] at hc
  obtain ⟨hm, hl, hx⟩ := hc
  obtain ⟨m, l, t⟩ := w
  rw [ofExpression, ← terms h.mulTerms.items hm, ← terms h.linearTerms.items hl,
    ← Field.eq_toDigits_of_ofChars hx h.constant]

end WrittenExpression

namespace WrittenOpcode

theorem spells_ofOpcode {o : Opcode} (h : o.Fits) : (ofOpcode o).Spells o := by
  cases o with
  | arithmetic e => exact WrittenExpression.spells_ofExpression h.1 h.2
  | call c => exact ⟨rfl, h⟩

theorem bytes_ofOpcode (o : Opcode) : (ofOpcode o).bytes = Payload.encodeOpcode o := by
  cases o with
  | arithmetic e => rw [ofOpcode, bytes, WrittenExpression.bytes_ofExpression]; rfl
  | call c => rfl

theorem canonical_ofOpcode (o : Opcode) : ∀ t ∈ (ofOpcode o).texts, Field.IsCanonicalText t := by
  cases o with
  | arithmetic e => exact WrittenExpression.canonical_ofExpression e
  | call c => simp [ofOpcode, texts]

theorem eq_ofOpcode {w : WrittenOpcode} {o : Opcode} (h : w.Spells o)
    (hc : ∀ t ∈ w.texts, Field.IsCanonicalText t) : w = ofOpcode o := by
  cases w with
  | arithmetic w =>
    cases o with
    | arithmetic e => exact congrArg arithmetic (WrittenExpression.eq_ofExpression h hc)
    | call c => exact h.elim
  | call b =>
    cases o with
    | arithmetic e => exact h.elim
    | call c => exact congrArg call h.1

end WrittenOpcode

namespace WrittenCircuit

theorem spells_ofCircuit {c : Circuit} (h : c.Fits) : (ofCircuit c).Spells c where
  lastIndex := rfl
  opcodes := by
    refine ⟨by simpa [ofCircuit] using h.opcodes_lt, ?_⟩
    rw [ofCircuit, List.forall₂_map_left_iff]
    exact List.forall₂_same.2 fun o ho => WrittenOpcode.spells_ofOpcode (h.opcode_fits o ho)
  privateParameters := set_spells c.privateParameters
  publicParameters := set_spells c.publicParameters
  returnValues := set_spells c.returnValues
  messages := rfl
  messages_lt := h.messages_lt
  text_lt := h.text_lt
where
  set_spells (s : IndexSet) : SetSpells s.elems s :=
    ⟨Nat.lt_of_le_of_lt s.length_elems_le (by decide), fun _ => Iff.rfl⟩

theorem bytes_ofCircuit (c : Circuit) : (ofCircuit c).bytes = c.toPayload := by
  simp only [bytes, ofCircuit, Payload.encodeList_map, WrittenOpcode.bytes_ofOpcode,
    Circuit.toPayload, Payload.encodeCircuit, Payload.encodeSet, List.append_assoc]

theorem canonical_ofCircuit (c : Circuit) : (ofCircuit c).Canonical where
  texts := by
    intro t ht
    simp only [texts, ofCircuit, List.flatMap_map, List.mem_flatMap] at ht
    obtain ⟨o, -, hto⟩ := ht
    exact WrittenOpcode.canonical_ofOpcode o t hto
  privateParameters := c.privateParameters.ascending
  publicParameters := c.publicParameters.ascending
  returnValues := c.returnValues.ascending

theorem eq_ofCircuit {w : WrittenCircuit} {c : Circuit} (h : w.Spells c) (hc : w.Canonical) :
    w = ofCircuit c := by
  have set {is : List Index} {s : IndexSet} (hs : SetSpells is s) (ha : is.Pairwise (· < ·)) :
      is = s.elems := by
    have heq : s = ⟨is, ha⟩ := IndexSet.ext_mem hs.mem_iff
    rw [heq]
  have hopcodes : w.opcodes = c.opcodes.map .ofOpcode :=
    Payload.eq_map_of_forall₂ h.opcodes.items fun o ho _ hso =>
      WrittenOpcode.eq_ofOpcode hso fun t ht => hc.texts t (List.mem_flatMap.2 ⟨o, ho, ht⟩)
  have hp := set h.privateParameters hc.privateParameters
  have hu := set h.publicParameters hc.publicParameters
  have hr := set h.returnValues hc.returnValues
  have hl := h.lastIndex
  have hm := h.messages
  cases w
  simp only at hopcodes hp hu hr hl hm
  rw [ofCircuit, hopcodes, hp, hu, hr, hl, hm]

end WrittenCircuit

/-! ## Payloads that are read -/

/-- A payload that is read spells its circuit in one way. -/
theorem Circuit.existsUnique_spelling {p : List UInt8} {c : Circuit} (h : ofPayload p = .ok c) :
    ∃! w : WrittenCircuit × List UInt8, w.1.Spells c ∧ p = w.1.bytes ++ w.2 := by
  obtain ⟨q, r, rfl, hq⟩ := ofPayload_eq_ok_iff.1 h
  obtain ⟨w, hw, rfl⟩ := (Payload.circuit_spelled _ _).1 hq
  refine ⟨(w, r), ⟨hw, rfl⟩, ?_⟩
  rintro ⟨v, s⟩ ⟨hv, heq⟩
  obtain ⟨rfl, rfl⟩ := Payload.prefixFree_circuit _ _ _ _ ⟨c, hw⟩ ⟨c, hv⟩ heq
  rfl

theorem WrittenCircuit.Spells.ofPayload {w : WrittenCircuit} {c : Circuit} (h : w.Spells c)
    (r : List UInt8) : Circuit.ofPayload (w.bytes ++ r) = .ok c :=
  Circuit.ofPayload_eq_ok_iff.2 ⟨_, r, rfl, (Payload.circuit_spelled _ _).2 ⟨w, h, rfl⟩⟩

theorem WrittenCircuit.Spells.toPayload_eq_iff {w : WrittenCircuit} {c : Circuit}
    (h : w.Spells c) (r : List UInt8) :
    c.toPayload = w.bytes ++ r ↔ r = [] ∧ w.Canonical := by
  have hfits : c.Fits := Circuit.fits_of_ofPayload (h.ofPayload r)
  have hwritten := WrittenCircuit.spells_ofCircuit hfits
  constructor
  · intro heq
    rw [← WrittenCircuit.bytes_ofCircuit, ← List.append_nil (WrittenCircuit.bytes _)] at heq
    obtain ⟨rfl, rfl⟩ := Payload.prefixFree_circuit _ _ _ _ ⟨c, hwritten⟩ ⟨c, h⟩ heq
    exact ⟨rfl, WrittenCircuit.canonical_ofCircuit c⟩
  · rintro ⟨rfl, hcanonical⟩
    rw [WrittenCircuit.eq_ofCircuit h hcanonical, WrittenCircuit.bytes_ofCircuit,
      List.append_nil]

/-- A payload that the circuit in it would not be written to does not pass. -/
theorem Fixture.check_compress_of_ne {p : List UInt8} {c : Circuit}
    (h : Circuit.ofPayload p = .ok c) (hne : c.toPayload ≠ p) (name : String)
    (initial expected : Assignment) :
    check ⟨name, Gzip.compress p, initial, expected⟩ = .error .payloadDiffers := by
  have hbytecode : checkBytecode (Gzip.compress p) = .error .payloadDiffers := by
    rw [checkBytecode, Gzip.decompress_compress]
    simp only [h, if_pos hne]
  rw [check, hbytecode]

namespace Circuit

/-- A payload that is read spells its circuit in exactly one way. Writing the circuit gives the
payload back exactly where this spelling is canonical and nothing stands behind it, and a fixture
with any other payload does not pass, whatever its assignments are. -/
theorem toPayload_eq_iff_canonical {p : List UInt8} {c : Circuit} (h : ofPayload p = .ok c) :
    (∃! w : WrittenCircuit × List UInt8, w.1.Spells c ∧ p = w.1.bytes ++ w.2) ∧
      ∀ w r, WrittenCircuit.Spells w c → p = w.bytes ++ r →
        (c.toPayload = p ↔ r = [] ∧ w.Canonical) ∧
          (¬ (r = [] ∧ w.Canonical) → ∀ name initial expected,
            Fixture.check ⟨name, Gzip.compress p, initial, expected⟩ =
              .error .payloadDiffers) := by
  refine ⟨existsUnique_spelling h, ?_⟩
  rintro w r hw rfl
  have hiff := hw.toPayload_eq_iff r
  exact ⟨hiff, fun hnot => Fixture.check_compress_of_ne h fun heq => hnot (hiff.1 heq)⟩

/-- An expression with a short text and one in upper case, and a list with a repeated index. -/
def looseSample : WrittenCircuit where
  lastIndex := 3
  opcodes := [.arithmetic ⟨[], [("0xA".toList, 1)], "0".toList⟩]
  privateParameters := [2, 1, 2]
  publicParameters := []
  returnValues := [3]
  messages := []

theorem spells_looseSample :
    looseSample.Spells
      { lastIndex := 3
        opcodes := [.arithmetic ⟨[], [(⟨10, by decide⟩, 1)], Field.zero⟩]
        privateParameters := .ofList [1, 2]
        publicParameters := .ofList []
        returnValues := .ofList [3]
        messages := [] } where
  lastIndex := rfl
  opcodes := ⟨by decide, .cons
    ⟨⟨by decide, .nil⟩, ⟨by decide, .cons ⟨rfl, rfl⟩ .nil⟩, rfl⟩ .nil⟩
  privateParameters := ⟨by decide, fun i => by simp [IndexSet.mem_ofList, looseSample]; tauto⟩
  publicParameters := ⟨by decide, fun i => by simp [IndexSet.mem_ofList, looseSample]⟩
  returnValues := ⟨by decide, fun i => by simp [IndexSet.mem_ofList, looseSample]⟩
  messages := rfl
  messages_lt := by decide
  text_lt := by simp

/-- The loose sample is read, and a fixture with it does not pass. -/
theorem looseSample_refused :
    (∃ c, looseSample.Spells c ∧ ofPayload (looseSample.bytes ++ []) = .ok c ∧
      c.toPayload ≠ looseSample.bytes ++ []) ∧
      Fixture.check ⟨"loose", Gzip.compress (looseSample.bytes ++ []), .empty, .empty⟩ =
        .error .payloadDiffers := by
  have hread := spells_looseSample.ofPayload []
  have hloose : ¬ (([] : List UInt8) = [] ∧ looseSample.Canonical) := fun h =>
    absurd h.2.privateParameters (by decide)
  have h := (toPayload_eq_iff_canonical hread).2 _ _ spells_looseSample rfl
  exact ⟨⟨_, spells_looseSample, hread, fun heq => hloose (h.1.1 heq)⟩,
    h.2 hloose "loose" .empty .empty⟩

end Circuit

end CircuitFixtures
