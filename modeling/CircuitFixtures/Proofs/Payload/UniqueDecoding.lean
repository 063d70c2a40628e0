import CircuitFixtures.Proofs.Payload.CircuitGrammar

/-!
# Payloads are uniquely decodable

A written circuit is in the grammar (`circuitBytes_encode`), so it reads back whatever
follows it, and no shorter part of it reads as anything. The one condition is that lists and
texts have a count, which takes eight bytes (`Circuit.Fits`). Every circuit that is read
meets it (`CircuitBytes.fits`), and an assignment always does, since there are not more
indices than that.
-/

namespace CircuitFixtures

/-! ## Lists that have a count -/

/-- The numbers below this one fit eight bytes. -/
def Payload.countLimit : Nat := 0x10000000000000000

open Payload (countLimit)

def Part.Fits : Part → Prop
  | .inputs xs => xs.length < countLimit
  | .outputs is => is.length < countLimit
  | _ => True

def Opcode.Fits : Opcode → Prop
  | .arithmetic e => e.mulTerms.length < countLimit ∧ e.linearTerms.length < countLimit
  | .call c => ∀ p ∈ c.parts, p.Fits

instance : DecidablePred Part.Fits := fun p => by
  cases p <;> unfold Part.Fits <;> infer_instance

instance : DecidablePred Opcode.Fits := fun o => by
  cases o <;> unfold Opcode.Fits <;> infer_instance

/-- Every list of the circuit, and every message in bytes, is shorter than the limit of
counts. The sets always are. -/
structure Circuit.Fits (c : Circuit) : Prop where
  opcodes_lt : c.opcodes.length < countLimit
  opcode_fits : ∀ o ∈ c.opcodes, o.Fits
  messages_lt : c.messages.length < countLimit
  text_lt : ∀ m ∈ c.messages, (Utf8.encode m.2.toList).length < countLimit

namespace Payload

private theorem countLimit_eq : countLimit = Nat.pow 256 8 := by decide

theorem NumberBytes.lt_countLimit {n : Nat} {q : List UInt8} (h : NumberBytes 8 q n) :
    n < countLimit := by
  rw [countLimit_eq]
  exact h.lt

theorem ListBytes.length_lt {α : Type} {G : Grammar α} {q : List UInt8} {xs : List α}
    (h : ListBytes G q xs) : xs.length < countLimit := by
  obtain ⟨_, _, -, hn, -⟩ := h
  exact hn.lt_countLimit

theorem Sequence.forall_mem {α : Type} {G : Grammar α} {P : α → Prop} {q : List UInt8}
    {xs : List α} (h : Sequence G q xs) (hP : ∀ q x, G q x → P x) : ∀ x ∈ xs, P x := by
  induction h with
  | nil => simp
  | cons hx _ ih => exact List.forall_mem_cons.2 ⟨hP _ _ hx, ih⟩

theorem ListBytes.forall_mem {α : Type} {G : Grammar α} {P : α → Prop} {q : List UInt8}
    {xs : List α} (h : ListBytes G q xs) (hP : ∀ q x, G q x → P x) : ∀ x ∈ xs, P x := by
  obtain ⟨_, _, -, -, hs⟩ := h
  exact hs.forall_mem hP

theorem PartBytes.fits {q : List UInt8} {p : Part} (h : PartBytes q p) : p.Fits := by
  cases p with
  | inputs xs => exact ListBytes.length_lt h
  | outputs is => exact ListBytes.length_lt h
  | _ => trivial

theorem OpcodeBytes.fits {q : List UInt8} {o : Opcode} (h : OpcodeBytes q o) : o.Fits := by
  cases o with
  | arithmetic e =>
    obtain ⟨_, _, -, -, _, _, _, -, hm, hl, -⟩ := h
    exact ⟨hm.length_lt, hl.length_lt⟩
  | call c =>
    obtain ⟨_, _, -, -, _, _, -, -, hs⟩ := h
    exact hs.forall_mem fun _ _ => PartBytes.fits

theorem CircuitBytes.fits {q : List UInt8} {c : Circuit} (h : CircuitBytes q c) : c.Fits := by
  obtain ⟨_, _, _, _, _, _, -, -, ho, -, -, -, hm⟩ := h
  refine ⟨ho.length_lt, ho.forall_mem fun _ _ => OpcodeBytes.fits, hm.length_lt,
    hm.forall_mem fun _ m hb => ?_⟩
  obtain ⟨_, _, -, -, _, -, hn⟩ := hb
  exact hn.lt_countLimit

/-! ## What is written is in the grammar -/

theorem fieldBytes_encode (x : Field) : FieldBytes (encodeField x) x := by
  have hlen : (Utf8.encode x.toDigits).length < Nat.pow 256 8 := by
    rw [Utf8.length_encode, Field.size_toDigits]
    decide
  have hread : Field.ofChars x.toDigits = .ok x := by
    rw [Field.ofChars, Field.dropLead?_toDigits]
    exact Field.ofDigits_toDigits _ x
  exact ⟨x.toDigits, charsBytes_encode hlen, hread⟩

private theorem listBytes_encodeList {α : Type} {G : Grammar α} {encode : α → List UInt8}
    {xs : List α} (hlen : xs.length < countLimit) (h : ∀ x ∈ xs, G (encode x) x) :
    ListBytes G (encodeList encode xs) xs := by
  rw [countLimit_eq] at hlen
  exact listBytes_encode hlen h

theorem mulTermBytes_encode (t : Field × Index × Index) : MulTermBytes (encodeMulTerm t) t :=
  ⟨_, _, _, List.append_assoc _ _ _, fieldBytes_encode _, indexBytes_encode _,
    indexBytes_encode _⟩

theorem linearTermBytes_encode (t : Field × Index) : LinearTermBytes (encodeLinearTerm t) t :=
  ⟨_, _, rfl, fieldBytes_encode _, indexBytes_encode _⟩

theorem expressionBytes_encode {e : Expression} (hm : e.mulTerms.length < countLimit)
    (hl : e.linearTerms.length < countLimit) : ExpressionBytes (encodeExpression e) e :=
  ⟨_, _, _, List.append_assoc _ _ _,
    listBytes_encodeList hm fun t _ => mulTermBytes_encode t,
    listBytes_encodeList hl fun t _ => linearTermBytes_encode t, fieldBytes_encode _⟩

theorem inputBytes_encode (x : Input) : InputBytes (encodeInput x) x :=
  ⟨_, _, rfl, indexBytes_encode _, indexBytes_encode _⟩

theorem partBytes_encode {p : Part} (h : p.Fits) : PartBytes (encodePart p) p := by
  cases p with
  | input x => exact inputBytes_encode x
  | inputs xs => exact listBytes_encodeList h fun x _ => inputBytes_encode x
  | number n => exact indexBytes_encode n
  | output i => exact indexBytes_encode i
  | outputs is => exact listBytes_encodeList h fun i _ => indexBytes_encode i

theorem blackBoxBytes_encode {c : BlackBox} (h : ∀ p ∈ c.parts, p.Fits) :
    BlackBoxBytes (encodeBlackBox c) c :=
  ⟨_, _, rfl, tagBytes_encode c.tag_lt_kinds (by decide),
    sequence_flatMap fun p hp => partBytes_encode (h p hp)⟩

theorem opcodeBytes_encode {o : Opcode} (h : o.Fits) : OpcodeBytes (encodeOpcode o) o := by
  cases o with
  | arithmetic e =>
    exact ⟨_, _, rfl, tagBytes_encode (by decide) (by decide), expressionBytes_encode h.1 h.2⟩
  | call c =>
    exact ⟨_, _, rfl, tagBytes_encode (by decide) (by decide), blackBoxBytes_encode h⟩

theorem locationBytes_encode (l : Location) : LocationBytes (encodeLocation l) l := by
  cases l with
  | circuit i => exact ⟨_, _, rfl, tagBytes_encode (by decide) (by decide), positionBytes_encode i⟩
  | procedure i j =>
    exact ⟨_, _, _, List.append_assoc _ _ _, tagBytes_encode (by decide) (by decide),
      positionBytes_encode i, positionBytes_encode j⟩

theorem messageBytes_encode {m : Location × String}
    (h : (Utf8.encode m.2.toList).length < countLimit) : MessageBytes (encodeMessage m) m := by
  rw [countLimit_eq] at h
  exact ⟨_, _, rfl, locationBytes_encode m.1, charsBytes_encode h⟩

theorem setBytes_encode (s : IndexSet) : SetBytes (encodeSet s) s := by
  have hlen : s.elems.length < countLimit := Nat.lt_of_le_of_lt s.length_elems_le (by decide)
  exact ⟨s.elems, listBytes_encodeList hlen fun i _ => indexBytes_encode i, fun _ => Iff.rfl⟩

theorem circuitBytes_encode {c : Circuit} (h : c.Fits) : CircuitBytes (encodeCircuit c) c := by
  refine ⟨encodeIndex c.lastIndex, encodeList encodeOpcode c.opcodes,
    encodeSet c.privateParameters, encodeSet c.publicParameters, encodeSet c.returnValues,
    encodeList encodeMessage c.messages, by simp [encodeCircuit], indexBytes_encode _, ?_,
    setBytes_encode _, setBytes_encode _, setBytes_encode _, ?_⟩
  · exact listBytes_encodeList h.opcodes_lt fun o ho => opcodeBytes_encode (h.opcode_fits o ho)
  · exact listBytes_encodeList h.messages_lt fun m hm => messageBytes_encode (h.text_lt m hm)

theorem entryBytes_encode (p : Index × Field) : EntryBytes (encodeEntry p) p :=
  ⟨_, _, rfl, indexBytes_encode _, fieldBytes_encode _⟩

theorem entriesBytes_encode (m : Assignment) : ListBytes EntryBytes m.toPayload m.entries := by
  have hlen : m.entries.length < countLimit :=
    Nat.lt_of_le_of_lt m.length_entries_le (by decide)
  exact listBytes_encodeList hlen fun p _ => entryBytes_encode p

end Payload

/-! ## Circuits and assignments read back -/

namespace Circuit

/-- A circuit is read exactly from the bytes that start with bytes for it. -/
theorem ofPayload_eq_ok_iff {p : List UInt8} {c : Circuit} :
    ofPayload p = .ok c ↔ ∃ q r, p = q ++ r ∧ Payload.CircuitBytes q c := by
  unfold ofPayload
  constructor
  · intro h
    cases hp : Payload.circuit p with
    | error e =>
      rw [hp] at h
      cases h
    | ok cr =>
      rw [hp] at h
      cases h
      obtain ⟨q, hq, hc⟩ := (Payload.decodes_circuit p cr.1 cr.2).1 hp
      exact ⟨q, cr.2, hq, hc⟩
  · rintro ⟨q, r, rfl, hq⟩
    rw [Payload.decodes_circuit.reads hq]
    rfl

theorem fits_of_ofPayload {p : List UInt8} {c : Circuit} (h : ofPayload p = .ok c) : c.Fits := by
  obtain ⟨_, _, -, hq⟩ := ofPayload_eq_ok_iff.1 h
  exact hq.fits

theorem ofPayload_toPayload_append {c : Circuit} (h : c.Fits) (r : List UInt8) :
    ofPayload (c.toPayload ++ r) = .ok c :=
  ofPayload_eq_ok_iff.2 ⟨_, r, rfl, Payload.circuitBytes_encode h⟩

theorem ofPayload_toPayload {c : Circuit} (h : c.Fits) : ofPayload c.toPayload = .ok c := by
  have hr := ofPayload_toPayload_append h []
  rwa [List.append_nil] at hr

theorem ofPayload_initial {c : Circuit} (h : c.Fits) {q : List UInt8} (hq : q <+: c.toPayload)
    (hne : q ≠ c.toPayload) : ∃ e, ofPayload q = .error e := by
  have hd := Payload.decodes_circuit.reads (Payload.circuitBytes_encode h) []
  rw [List.append_nil] at hd
  obtain ⟨e, he⟩ := Payload.decodes_circuit.refuses_initial hd hq hne
  exact ⟨e, by rw [ofPayload, he]; rfl⟩

/-- A payload is read as a circuit exactly where bytes for it stand at the front, and refused
exactly where bytes for no circuit do. -/
theorem ofPayload_accepts_exactly (p : List UInt8) :
    (∀ c, ofPayload p = .ok c ↔ ∃ q r, p = q ++ r ∧ Payload.CircuitBytes q c) ∧
      ((∃ e, ofPayload p = .error e) ↔
        ¬ ∃ q r c, p = q ++ r ∧ Payload.CircuitBytes q c) := by
  refine ⟨fun c => ofPayload_eq_ok_iff, ?_⟩
  constructor
  · rintro ⟨e, he⟩ ⟨q, r, c, hp, hc⟩
    rw [ofPayload_eq_ok_iff.2 ⟨q, r, hp, hc⟩] at he
    cases he
  · intro hnone
    cases hp : ofPayload p with
    | error e => exact ⟨e, rfl⟩
    | ok c =>
      obtain ⟨q, r, hq, hc⟩ := ofPayload_eq_ok_iff.1 hp
      exact absurd ⟨q, r, c, hq, hc⟩ hnone

/-- The bytes of a circuit give the circuit back, whatever follows them, and where they are
cut short they give no circuit at all. -/
theorem payload_uniquely_decodable (c : Circuit) (h : c.Fits) :
    (∀ r, ofPayload (c.toPayload ++ r) = .ok c) ∧
      ∀ q, q <+: c.toPayload → q ≠ c.toPayload → ∃ e, ofPayload q = .error e :=
  ⟨ofPayload_toPayload_append h, fun _ hq hne => ofPayload_initial h hq hne⟩

/-- An opcode of either form and messages at either form of location. -/
def sample : Circuit where
  lastIndex := 3
  opcodes := [
    .call (.sha256 [⟨1, 8⟩, ⟨2, 8⟩] [3]),
    .arithmetic ⟨[(Field.one, 1, 2)], [(Field.one, 3)], Field.zero⟩]
  privateParameters := .ofList [1]
  publicParameters := .ofList [2]
  returnValues := .ofList [3]
  messages := [(.circuit 1, "größer"), (.procedure 0 7, "")]

theorem fits_sample : sample.Fits :=
  ⟨by decide, by decide, by decide, by decide⟩

/-- A circuit, bytes behind its payload, and its payload without the last byte. -/
theorem sample_uniquely_decodable :
    sample.Fits ∧ ofPayload (sample.toPayload ++ [0, 1]) = .ok sample ∧
      sample.toPayload.dropLast <+: sample.toPayload ∧
      sample.toPayload.dropLast ≠ sample.toPayload ∧
      ∃ e, ofPayload sample.toPayload.dropLast = .error e := by
  have hne : sample.toPayload.dropLast ≠ sample.toPayload := by
    intro h
    have hlen := congrArg List.length h
    rw [List.length_dropLast] at hlen
    have hpos : 0 < sample.toPayload.length := List.length_pos_iff.2 (List.cons_ne_nil _ _)
    omega
  have h := payload_uniquely_decodable sample fits_sample
  exact ⟨fits_sample, h.1 [0, 1], List.dropLast_prefix _, hne,
    h.2 _ (List.dropLast_prefix _) hne⟩

end Circuit

namespace Assignment

/-- The bytes of an assignment give it back, whatever follows them. -/
theorem ofPayload_toPayload_append (m : Assignment) (r : List UInt8) :
    ofPayload (m.toPayload ++ r) = .ok m := by
  rw [ofPayload, (Payload.decodes_list Payload.decodes_entry).reads (Payload.entriesBytes_encode m) r]
  exact congrArg Except.ok (IndexMap.ofList_entries m)

theorem ofPayload_toPayload (m : Assignment) : ofPayload m.toPayload = .ok m := by
  have hr := ofPayload_toPayload_append m []
  rwa [List.append_nil] at hr

end Assignment

end CircuitFixtures
