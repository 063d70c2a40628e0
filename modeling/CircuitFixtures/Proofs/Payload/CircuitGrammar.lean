import CircuitFixtures.Payload.Assignment
import CircuitFixtures.Payload.Circuit
import CircuitFixtures.Proofs.Index.Ascending
import CircuitFixtures.Proofs.Payload.Grammar

/-!
# The grammar of circuits and assignments

Which bytes stand for which circuit (`CircuitBytes`) and for which entries of an assignment
(`EntryBytes`), and that the decoders take exactly these (`decodes_circuit`,
`decodes_entry`). The fields of a call follow the list of its parts, so the grammar has one
rule for all kinds of call; the decoder has one for each, and `decodes_blackBoxFields` goes
through them by the shape of their fields.
-/

namespace CircuitFixtures.Payload

/-! ## Expressions -/

def MulTermBytes : Grammar (Field × Index × Index) := fun q t =>
  ∃ a b c, q = a ++ (b ++ c) ∧ FieldBytes a t.1 ∧ IndexBytes b t.2.1 ∧ IndexBytes c t.2.2

theorem decodes_mulTerm : Decodes mulTerm MulTermBytes := by
  refine (decodes_field.bind fun x => decodes_index.bind fun i =>
    decodes_index.map (g := fun j => (x, i, j))).congr fun q t => ?_
  constructor
  · rintro ⟨a, _, x, rfl, ha, b, c, i, rfl, hb, j, hc, rfl⟩
    exact ⟨a, b, c, rfl, ha, hb, hc⟩
  · rintro ⟨a, b, c, rfl, ha, hb, hc⟩
    exact ⟨a, _, t.1, rfl, ha, b, c, t.2.1, rfl, hb, t.2.2, hc, rfl⟩

def LinearTermBytes : Grammar (Field × Index) := fun q t =>
  ∃ a b, q = a ++ b ∧ FieldBytes a t.1 ∧ IndexBytes b t.2

theorem decodes_linearTerm : Decodes linearTerm LinearTermBytes := by
  refine (decodes_field.bind fun x =>
    decodes_index.map (g := fun i => (x, i))).congr fun q t => ?_
  constructor
  · rintro ⟨a, b, x, rfl, ha, i, hb, rfl⟩
    exact ⟨a, b, rfl, ha, hb⟩
  · rintro ⟨a, b, rfl, ha, hb⟩
    exact ⟨a, b, t.1, rfl, ha, t.2, hb, rfl⟩

def ExpressionBytes : Grammar Expression := fun q e =>
  ∃ a b c, q = a ++ (b ++ c) ∧ ListBytes MulTermBytes a e.mulTerms ∧
    ListBytes LinearTermBytes b e.linearTerms ∧ FieldBytes c e.constant

theorem decodes_expression : Decodes expression ExpressionBytes := by
  refine ((decodes_list decodes_mulTerm).bind fun m =>
    (decodes_list decodes_linearTerm).bind fun l =>
      decodes_field.map (g := fun x => Expression.mk m l x)).congr fun q e => ?_
  constructor
  · rintro ⟨a, _, m, rfl, ha, b, c, l, rfl, hb, x, hc, rfl⟩
    exact ⟨a, b, c, rfl, ha, hb, hc⟩
  · rintro ⟨a, b, c, rfl, ha, hb, hc⟩
    exact ⟨a, _, e.mulTerms, rfl, ha, b, c, e.linearTerms, rfl, hb, e.constant, hc, rfl⟩

/-! ## Calls -/

def InputBytes : Grammar Input := fun q x =>
  ∃ a b, q = a ++ b ∧ IndexBytes a x.witness ∧ IndexBytes b x.numBits

theorem decodes_input : Decodes input InputBytes := by
  refine (decodes_index.bind fun i => decodes_index.map (g := Input.mk i)).congr fun q x => ?_
  constructor
  · rintro ⟨a, b, i, rfl, ha, j, hb, rfl⟩
    exact ⟨a, b, rfl, ha, hb⟩
  · rintro ⟨a, b, rfl, ha, hb⟩
    exact ⟨a, b, x.witness, rfl, ha, x.numBits, hb, rfl⟩

def PartBytes : Grammar Part := fun q p =>
  match p with
  | .input x => InputBytes q x
  | .inputs xs => ListBytes InputBytes q xs
  | .number n => IndexBytes q n
  | .output i => IndexBytes q i
  | .outputs is => ListBytes IndexBytes q is

/-- The number of the kind and the fields in written order. -/
def BlackBoxBytes : Grammar BlackBox := fun q c =>
  ∃ a b, q = a ++ b ∧ TagBytes BlackBox.kinds a c.tag ∧ Sequence PartBytes b c.parts

section Shapes

private theorem decodes_inputs : Decodes (list input) (ListBytes InputBytes) :=
  decodes_list decodes_input

private theorem decodes_outputs : Decodes (list index) (ListBytes IndexBytes) :=
  decodes_list decodes_index

private theorem decodes_gate (make : Input → Input → Index → BlackBox) :
    Decodes (do return make (← input) (← input) (← index)) (fun q c =>
      ∃ x y i, c = make x y i ∧ Sequence PartBytes q [.input x, .input y, .output i]) := by
  refine (decodes_input.bind fun x => decodes_input.bind fun y => decodes_index.bind fun i =>
    decodes_pure (make x y i)).congr fun q c => ?_
  constructor
  · rintro ⟨_, _, x, rfl, hx, _, _, y, rfl, hy, _, _, i, rfl, hi, rfl, rfl⟩
    exact ⟨x, y, i, rfl, .cons hx (.cons hy (.cons hi .nil))⟩
  · rintro ⟨x, y, i, rfl, _ | ⟨hx, _ | ⟨hy, _ | ⟨hi, _ | _⟩⟩⟩⟩
    exact ⟨_, _, x, rfl, hx, _, _, y, rfl, hy, _, _, i, rfl, hi, rfl, rfl⟩

private theorem decodes_bound (make : Input → BlackBox) :
    Decodes (do return make (← input)) (fun q c =>
      ∃ x, c = make x ∧ Sequence PartBytes q [.input x]) := by
  refine (decodes_input.bind fun x => decodes_pure (make x)).congr fun q c => ?_
  constructor
  · rintro ⟨_, _, x, rfl, hx, rfl, rfl⟩
    exact ⟨x, rfl, .cons hx .nil⟩
  · rintro ⟨x, rfl, _ | ⟨hx, _ | _⟩⟩
    exact ⟨_, _, x, rfl, hx, rfl, rfl⟩

private theorem decodes_hash (make : List Input → List Index → BlackBox) :
    Decodes (do return make (← list input) (← list index)) (fun q c =>
      ∃ xs is, c = make xs is ∧ Sequence PartBytes q [.inputs xs, .outputs is]) := by
  refine (decodes_inputs.bind fun xs => decodes_outputs.bind fun is =>
    decodes_pure (make xs is)).congr fun q c => ?_
  constructor
  · rintro ⟨_, _, xs, rfl, hx, _, _, is, rfl, hi, rfl, rfl⟩
    exact ⟨xs, is, rfl, .cons hx (.cons hi .nil)⟩
  · rintro ⟨xs, is, rfl, _ | ⟨hx, _ | ⟨hi, _ | _⟩⟩⟩
    exact ⟨_, _, xs, rfl, hx, _, _, is, rfl, hi, rfl, rfl⟩

private theorem decodes_digest (make : List Input → Index → BlackBox) :
    Decodes (do return make (← list input) (← index)) (fun q c =>
      ∃ xs i, c = make xs i ∧ Sequence PartBytes q [.inputs xs, .output i]) := by
  refine (decodes_inputs.bind fun xs => decodes_index.bind fun i =>
    decodes_pure (make xs i)).congr fun q c => ?_
  constructor
  · rintro ⟨_, _, xs, rfl, hx, _, _, i, rfl, hi, rfl, rfl⟩
    exact ⟨xs, i, rfl, .cons hx (.cons hi .nil)⟩
  · rintro ⟨xs, i, rfl, _ | ⟨hx, _ | ⟨hi, _ | _⟩⟩⟩
    exact ⟨_, _, xs, rfl, hx, _, _, i, rfl, hi, rfl, rfl⟩

private theorem decodes_sizedHash (make : List Input → Input → List Index → BlackBox) :
    Decodes (do return make (← list input) (← input) (← list index)) (fun q c =>
      ∃ xs y is, c = make xs y is ∧
        Sequence PartBytes q [.inputs xs, .input y, .outputs is]) := by
  refine (decodes_inputs.bind fun xs => decodes_input.bind fun y => decodes_outputs.bind fun is =>
    decodes_pure (make xs y is)).congr fun q c => ?_
  constructor
  · rintro ⟨_, _, xs, rfl, hx, _, _, y, rfl, hy, _, _, is, rfl, hi, rfl, rfl⟩
    exact ⟨xs, y, is, rfl, .cons hx (.cons hy (.cons hi .nil))⟩
  · rintro ⟨xs, y, is, rfl, _ | ⟨hx, _ | ⟨hy, _ | ⟨hi, _ | _⟩⟩⟩⟩
    exact ⟨_, _, xs, rfl, hx, _, _, y, rfl, hy, _, _, is, rfl, hi, rfl, rfl⟩

private theorem decodes_point (make : Input → Index → Index → BlackBox) :
    Decodes (do return make (← input) (← index) (← index)) (fun q c =>
      ∃ x i j, c = make x i j ∧ Sequence PartBytes q [.input x, .output i, .output j]) := by
  refine (decodes_input.bind fun x => decodes_index.bind fun i => decodes_index.bind fun j =>
    decodes_pure (make x i j)).congr fun q c => ?_
  constructor
  · rintro ⟨_, _, x, rfl, hx, _, _, i, rfl, hi, _, _, j, rfl, hj, rfl, rfl⟩
    exact ⟨x, i, j, rfl, .cons hx (.cons hi (.cons hj .nil))⟩
  · rintro ⟨x, i, j, rfl, _ | ⟨hx, _ | ⟨hi, _ | ⟨hj, _ | _⟩⟩⟩⟩
    exact ⟨_, _, x, rfl, hx, _, _, i, rfl, hi, _, _, j, rfl, hj, rfl, rfl⟩

private theorem decodes_pedersen (make : List Input → UInt32 → Index → Index → BlackBox) :
    Decodes (do return make (← list input) (← index) (← index) (← index)) (fun q c =>
      ∃ xs n i j, c = make xs n i j ∧
        Sequence PartBytes q [.inputs xs, .number n, .output i, .output j]) := by
  refine (decodes_inputs.bind fun xs => decodes_index.bind fun n => decodes_index.bind fun i =>
    decodes_index.bind fun j => decodes_pure (make xs n i j)).congr fun q c => ?_
  constructor
  · rintro ⟨_, _, xs, rfl, hx, _, _, n, rfl, hn, _, _, i, rfl, hi, _, _, j, rfl, hj, rfl, rfl⟩
    exact ⟨xs, n, i, j, rfl, .cons hx (.cons hn (.cons hi (.cons hj .nil)))⟩
  · rintro ⟨xs, n, i, j, rfl, _ | ⟨hx, _ | ⟨hn, _ | ⟨hi, _ | ⟨hj, _ | _⟩⟩⟩⟩⟩
    exact ⟨_, _, xs, rfl, hx, _, _, n, rfl, hn, _, _, i, rfl, hi, _, _, j, rfl, hj, rfl, rfl⟩

private theorem decodes_schnorr
    (make : Input → Input → List Input → List Input → Index → BlackBox) :
    Decodes (do return make (← input) (← input) (← list input) (← list input) (← index))
      (fun q c => ∃ x y s m i, c = make x y s m i ∧
        Sequence PartBytes q [.input x, .input y, .inputs s, .inputs m, .output i]) := by
  refine (decodes_input.bind fun x => decodes_input.bind fun y => decodes_inputs.bind fun s =>
    decodes_inputs.bind fun m => decodes_index.bind fun i =>
      decodes_pure (make x y s m i)).congr fun q c => ?_
  constructor
  · rintro ⟨_, _, x, rfl, hx, _, _, y, rfl, hy, _, _, s, rfl, hs, _, _, m, rfl, hm, _, _, i, rfl,
      hi, rfl, rfl⟩
    exact ⟨x, y, s, m, i, rfl, .cons hx (.cons hy (.cons hs (.cons hm (.cons hi .nil))))⟩
  · rintro ⟨x, y, s, m, i, rfl,
      _ | ⟨hx, _ | ⟨hy, _ | ⟨hs, _ | ⟨hm, _ | ⟨hi, _ | _⟩⟩⟩⟩⟩⟩
    exact ⟨_, _, x, rfl, hx, _, _, y, rfl, hy, _, _, s, rfl, hs, _, _, m, rfl, hm, _, _, i, rfl,
      hi, rfl, rfl⟩

private theorem decodes_ecdsa
    (make : List Input → List Input → List Input → List Input → Index → BlackBox) :
    Decodes
      (do return make (← list input) (← list input) (← list input) (← list input) (← index))
      (fun q c => ∃ x y s m i, c = make x y s m i ∧
        Sequence PartBytes q [.inputs x, .inputs y, .inputs s, .inputs m, .output i]) := by
  refine (decodes_inputs.bind fun x => decodes_inputs.bind fun y => decodes_inputs.bind fun s =>
    decodes_inputs.bind fun m => decodes_index.bind fun i =>
      decodes_pure (make x y s m i)).congr fun q c => ?_
  constructor
  · rintro ⟨_, _, x, rfl, hx, _, _, y, rfl, hy, _, _, s, rfl, hs, _, _, m, rfl, hm, _, _, i, rfl,
      hi, rfl, rfl⟩
    exact ⟨x, y, s, m, i, rfl, .cons hx (.cons hy (.cons hs (.cons hm (.cons hi .nil))))⟩
  · rintro ⟨x, y, s, m, i, rfl,
      _ | ⟨hx, _ | ⟨hy, _ | ⟨hs, _ | ⟨hm, _ | ⟨hi, _ | _⟩⟩⟩⟩⟩⟩
    exact ⟨_, _, x, rfl, hx, _, _, y, rfl, hy, _, _, s, rfl, hs, _, _, m, rfl, hm, _, _, i, rfl,
      hi, rfl, rfl⟩

end Shapes

/-- The fields of a kind of call are the parts that a call of this kind lists. -/
theorem decodes_blackBoxFields {kind : Nat} (h : kind < BlackBox.kinds) :
    Decodes (blackBoxFields kind) (fun q c => c.tag = kind ∧ Sequence PartBytes q c.parts) := by
  have all : ∀ k, k < 13 → k = 0 ∨ k = 1 ∨ k = 2 ∨ k = 3 ∨ k = 4 ∨ k = 5 ∨ k = 6 ∨ k = 7 ∨
      k = 8 ∨ k = 9 ∨ k = 10 ∨ k = 11 ∨ k = 12 := by omega
  rcases all kind h with rfl | rfl | rfl | rfl | rfl | rfl | rfl | rfl | rfl | rfl | rfl |
    rfl | rfl
  · refine (decodes_gate .and).congr fun q c => ?_
    cases c <;> simp [BlackBox.tag, BlackBox.parts, and_assoc]
  · refine (decodes_gate .xor).congr fun q c => ?_
    cases c <;> simp [BlackBox.tag, BlackBox.parts, and_assoc]
  · refine (decodes_bound .range).congr fun q c => ?_
    cases c <;> simp [BlackBox.tag, BlackBox.parts]
  · refine (decodes_hash .sha256).congr fun q c => ?_
    cases c <;> simp [BlackBox.tag, BlackBox.parts, and_assoc]
  · refine (decodes_hash .blake2s).congr fun q c => ?_
    cases c <;> simp [BlackBox.tag, BlackBox.parts, and_assoc]
  · refine (decodes_schnorr .schnorrVerify).congr fun q c => ?_
    cases c <;> simp [BlackBox.tag, BlackBox.parts, and_assoc]
  · refine (decodes_pedersen .pedersen).congr fun q c => ?_
    cases c <;> simp [BlackBox.tag, BlackBox.parts, and_assoc]
  · refine (decodes_digest .hashToField128Security).congr fun q c => ?_
    cases c <;> simp [BlackBox.tag, BlackBox.parts, and_assoc]
  · refine (decodes_ecdsa .ecdsaSecp256k1).congr fun q c => ?_
    cases c <;> simp [BlackBox.tag, BlackBox.parts, and_assoc]
  · refine (decodes_ecdsa .ecdsaSecp256r1).congr fun q c => ?_
    cases c <;> simp [BlackBox.tag, BlackBox.parts, and_assoc]
  · refine (decodes_point .fixedBaseScalarMul).congr fun q c => ?_
    cases c <;> simp [BlackBox.tag, BlackBox.parts, and_assoc]
  · refine (decodes_hash .keccak256).congr fun q c => ?_
    cases c <;> simp [BlackBox.tag, BlackBox.parts, and_assoc]
  · refine (decodes_sizedHash .keccak256VariableLength).congr fun q c => ?_
    cases c <;> simp [BlackBox.tag, BlackBox.parts, and_assoc]

theorem decodes_blackBox : Decodes blackBox BlackBoxBytes := by
  refine ((decodes_tag _).bind_of fun _ _ hk => decodes_blackBoxFields hk.2).congr fun q c => ?_
  constructor
  · rintro ⟨a, b, _, rfl, ha, rfl, hb⟩
    exact ⟨a, b, rfl, ha, hb⟩
  · rintro ⟨a, b, rfl, ha, hb⟩
    exact ⟨a, b, c.tag, rfl, ha, rfl, hb⟩

/-! ## Opcodes and messages -/

def OpcodeBytes : Grammar Opcode := fun q o =>
  match o with
  | .arithmetic e => ∃ a b, q = a ++ b ∧ TagBytes 2 a 0 ∧ ExpressionBytes b e
  | .call c => ∃ a b, q = a ++ b ∧ TagBytes 2 a 1 ∧ BlackBoxBytes b c

private theorem eq_zero_or_one {q : List UInt8} {n : Nat} (h : TagBytes 2 q n) :
    n = 0 ∨ n = 1 := by
  have := h.2
  omega

/-- What stands behind the tag of an opcode. -/
private def OpcodeBody (n : Nat) : Grammar Opcode := fun q o =>
  match o with
  | .arithmetic e => n = 0 ∧ ExpressionBytes q e
  | .call c => n = 1 ∧ BlackBoxBytes q c

theorem decodes_opcode : Decodes opcode OpcodeBytes := by
  refine ((decodes_tag 2).bind_of (H := OpcodeBody) fun q n hn => ?_).congr fun q o => ?_
  · rcases eq_zero_or_one hn with rfl | rfl
    · refine (decodes_expression.map (g := Opcode.arithmetic)).congr fun q o => ?_
      cases o <;> simp [Grammar.image, OpcodeBody]
    · refine (decodes_blackBox.map (g := Opcode.call)).congr fun q o => ?_
      cases o <;> simp [Grammar.image, OpcodeBody]
  cases o with
  | arithmetic e =>
    constructor
    · rintro ⟨a, b, _, rfl, ha, rfl, hb⟩
      exact ⟨a, b, rfl, ha, hb⟩
    · rintro ⟨a, b, rfl, ha, hb⟩
      exact ⟨a, b, 0, rfl, ha, rfl, hb⟩
  | call c =>
    constructor
    · rintro ⟨a, b, _, rfl, ha, rfl, hb⟩
      exact ⟨a, b, rfl, ha, hb⟩
    · rintro ⟨a, b, rfl, ha, hb⟩
      exact ⟨a, b, 1, rfl, ha, rfl, hb⟩

def LocationBytes : Grammar Location := fun q l =>
  match l with
  | .circuit i => ∃ a b, q = a ++ b ∧ TagBytes 2 a 0 ∧ PositionBytes b i
  | .procedure i j => ∃ a b c, q = a ++ (b ++ c) ∧ TagBytes 2 a 1 ∧ PositionBytes b i ∧
      PositionBytes c j

/-- What stands behind the tag of a location. -/
private def LocationBody (n : Nat) : Grammar Location := fun q l =>
  match l with
  | .circuit i => n = 0 ∧ PositionBytes q i
  | .procedure i j => n = 1 ∧ ∃ b c, q = b ++ c ∧ PositionBytes b i ∧ PositionBytes c j

theorem decodes_location : Decodes location LocationBytes := by
  refine ((decodes_tag 2).bind_of (H := LocationBody) fun q n hn => ?_).congr fun q l => ?_
  · rcases eq_zero_or_one hn with rfl | rfl
    · refine (decodes_position.map (g := Location.circuit)).congr fun q l => ?_
      cases l <;> simp [Grammar.image, LocationBody]
    · refine (decodes_position.bind fun i =>
        decodes_position.map (g := Location.procedure i)).congr fun q l => ?_
      cases l with
      | circuit i => simp [Grammar.image, Grammar.andThen, LocationBody]
      | procedure i j =>
        constructor
        · rintro ⟨b, c, _, rfl, hb, _, hc, hl⟩
          cases hl
          exact ⟨rfl, b, c, rfl, hb, hc⟩
        · rintro ⟨-, b, c, rfl, hb, hc⟩
          exact ⟨b, c, i, rfl, hb, j, hc, rfl⟩
  cases l with
  | circuit i =>
    constructor
    · rintro ⟨a, b, _, rfl, ha, rfl, hb⟩
      exact ⟨a, b, rfl, ha, hb⟩
    · rintro ⟨a, b, rfl, ha, hb⟩
      exact ⟨a, b, 0, rfl, ha, rfl, hb⟩
  | procedure i j =>
    constructor
    · rintro ⟨a, _, _, rfl, ha, rfl, b, c, rfl, hb, hc⟩
      exact ⟨a, b, c, rfl, ha, hb, hc⟩
    · rintro ⟨a, b, c, rfl, ha, hb, hc⟩
      exact ⟨a, b ++ c, 1, rfl, ha, rfl, b, c, rfl, hb, hc⟩

def MessageBytes : Grammar (Location × String) := fun q m =>
  ∃ a b, q = a ++ b ∧ LocationBytes a m.1 ∧ TextBytes b m.2

theorem decodes_message : Decodes message MessageBytes := by
  refine (decodes_location.bind fun l =>
    decodes_text.map (g := fun s => (l, s))).congr fun q m => ?_
  constructor
  · rintro ⟨a, b, l, rfl, ha, s, hb, rfl⟩
    exact ⟨a, b, rfl, ha, hb⟩
  · rintro ⟨a, b, rfl, ha, hb⟩
    exact ⟨a, b, m.1, rfl, ha, m.2, hb, rfl⟩

/-! ## Circuits -/

/-- A list of the members in any order, each at least once. -/
def SetBytes : Grammar IndexSet := fun q s =>
  ∃ is, ListBytes IndexBytes q is ∧ ∀ i, i ∈ s.elems ↔ i ∈ is

theorem decodes_set : Decodes set SetBytes := by
  refine ((decodes_list decodes_index).map (g := IndexSet.ofList)).congr fun q s => ?_
  simp only [Grammar.image, SetBytes, IndexSet.eq_ofList_iff]

def CircuitBytes : Grammar Circuit := fun q c =>
  ∃ l o p u r m, q = l ++ (o ++ (p ++ (u ++ (r ++ m)))) ∧ IndexBytes l c.lastIndex ∧
    ListBytes OpcodeBytes o c.opcodes ∧ SetBytes p c.privateParameters ∧
    SetBytes u c.publicParameters ∧ SetBytes r c.returnValues ∧ ListBytes MessageBytes m c.messages

theorem decodes_circuit : Decodes circuit CircuitBytes := by
  refine (decodes_index.bind fun l => (decodes_list decodes_opcode).bind fun o =>
    decodes_set.bind fun p => decodes_set.bind fun u => decodes_set.bind fun r =>
      (decodes_list decodes_message).map (g := fun m => Circuit.mk l o p u r m)).congr
        fun q c => ?_
  constructor
  · rintro ⟨l, _, _, rfl, hl, o, _, _, rfl, ho, p, _, _, rfl, hp, u, _, _, rfl, hu, r, m, _, rfl,
      hr, _, hm, rfl⟩
    exact ⟨l, o, p, u, r, m, rfl, hl, ho, hp, hu, hr, hm⟩
  · rintro ⟨l, o, p, u, r, m, rfl, hl, ho, hp, hu, hr, hm⟩
    exact ⟨l, _, c.lastIndex, rfl, hl, o, _, c.opcodes, rfl, ho, p, _, c.privateParameters, rfl,
      hp, u, _, c.publicParameters, rfl, hu, r, m, c.returnValues, rfl, hr, c.messages, hm, rfl⟩

/-! ## Assignments -/

def EntryBytes : Grammar (Index × Field) := fun q p =>
  ∃ a b, q = a ++ b ∧ IndexBytes a p.1 ∧ FieldBytes b p.2

theorem decodes_entry : Decodes entry EntryBytes := by
  refine (decodes_index.bind fun i =>
    decodes_field.map (g := fun x => (i, x))).congr fun q p => ?_
  constructor
  · rintro ⟨a, b, i, rfl, ha, x, hb, rfl⟩
    exact ⟨a, b, rfl, ha, hb⟩
  · rintro ⟨a, b, rfl, ha, hb⟩
    exact ⟨a, b, p.1, rfl, ha, p.2, hb, rfl⟩

end CircuitFixtures.Payload
