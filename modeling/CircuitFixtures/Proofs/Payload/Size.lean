import CircuitFixtures.Proofs.Circuit.Witnesses
import CircuitFixtures.Proofs.Index.Repeats
import CircuitFixtures.Proofs.Payload.Canonical

/-!
# The size of what is read

What a payload holds is `Measured` by the bytes that it stands in. Each value of a list takes bytes
of its own, so no circuit has more items than its payload has bytes (`measured_circuitItems`), and
the loop over a list ends with the bytes, whatever the count in front of it says (`itemsWithin_eq`).
Only field elements may be written longer than they are read, 9 bytes as 72, which gives the factor
of `measured_circuit`.
-/

namespace CircuitFixtures

/-! ## Items -/

/-- What the members of a list come to. -/
def total {α : Type} (size : α → Nat) (xs : List α) : Nat :=
  xs.foldr (fun x n => size x + n) 0

section Total

variable {α β : Type} {size : α → Nat}

@[simp]
theorem total_nil : total size [] = 0 := rfl

@[simp]
theorem total_cons (x : α) (xs : List α) : total size (x :: xs) = size x + total size xs := rfl

theorem total_one (xs : List α) : total (fun _ => 1) xs = xs.length := by
  induction xs with
  | nil => rfl
  | cons x xs ih => simp [ih, Nat.add_comm]

theorem length_flatMap_eq_total (f : α → List β) (xs : List α) :
    (xs.flatMap f).length = total (fun x => (f x).length) xs := by
  induction xs with
  | nil => rfl
  | cons x xs ih => simp [ih]

end Total

/-- The indices that a field of a call reads or determines. -/
def Part.items (p : Part) : Nat :=
  p.reads.length + p.determines.length

/-- An opcode with its terms, or with the indices that it reads or determines. -/
def Opcode.items : Opcode → Nat
  | .arithmetic e => 1 + e.mulTerms.length + e.linearTerms.length
  | .call c => 1 + c.inputs.length + c.outputs.length

/-- A message and its bytes. -/
def messageItems (m : Location × String) : Nat :=
  1 + (Utf8.encode m.2.toList).length

/-- The opcodes with their terms and indices, the members of the sets, and the messages with their
bytes. -/
def Circuit.items (c : Circuit) : Nat :=
  total Opcode.items c.opcodes + c.privateParameters.elems.length +
    c.publicParameters.elems.length + c.returnValues.elems.length + total messageItems c.messages

theorem BlackBox.items_eq (c : BlackBox) :
    c.inputs.length + c.outputs.length = total Part.items c.parts := by
  rw [c.inputs_eq, c.outputs_eq]
  induction c.parts with
  | nil => rfl
  | cons p ps ih =>
    simp only [List.flatMap_cons, List.length_append, total_cons, ← ih, Part.items]
    omega

namespace Payload

/-! ## Measures -/

/-- What stands in so many bytes measures at most `k` for each of them. -/
def Measured {α : Type} (k : Nat) (G : Grammar α) (size : α → Nat) : Prop :=
  ∀ q x, G q x → size x ≤ k * q.length

section

variable {α : Type} {k : Nat} {G : Grammar α} {size : α → Nat} {encode : α → List UInt8}

theorem Measured.le (h : Measured k G size) {q : List UInt8} {x : α} (hq : G q x) :
    size x ≤ k * q.length :=
  h q x hq

theorem Measured.mono {size' : α → Nat} (h : Measured k G size) (hle : ∀ x, size' x ≤ size x) :
    Measured k G size' :=
  fun q x hq => Nat.le_trans (hle x) (h q x hq)

theorem Measured.sequence (h : Measured k G size) : Measured k (Sequence G) (total size) := by
  intro q xs hq
  induction hq with
  | nil => simp
  | cons hx _ ih =>
    have hx := h.le hx
    rw [total_cons, List.length_append, Nat.mul_add]
    omega

/-- The count in front of a list takes eight bytes. -/
theorem ListBytes.total_le {q : List UInt8} {xs : List α} (hq : ListBytes G q xs)
    (h : Measured k G size) : 8 * k + total size xs ≤ k * q.length := by
  obtain ⟨n, s, rfl, hn, hs⟩ := hq
  have hcount : n.length = 8 := hn.1
  have hitems := h.sequence.le hs
  rw [List.length_append, hcount, Nat.mul_add, Nat.mul_comm 8 k]
  omega

theorem length_encodeList (xs : List α) :
    (encodeList encode xs).length = 8 + total (fun x => (encode x).length) xs := by
  rw [encodeList, List.length_append, LittleEndian.length_encode, length_flatMap_eq_total]

theorem Measured.list (h : Measured 8 G (fun x => (encode x).length)) {q : List UInt8}
    {xs : List α} (hq : ListBytes G q xs) : (encodeList encode xs).length ≤ 8 * q.length := by
  have hitems := hq.total_le h
  rw [length_encodeList]
  omega

end

/-! ## How long it is written -/

@[simp]
theorem length_encodeIndex (i : UInt32) : (encodeIndex i).length = 4 :=
  LittleEndian.length_encode _ _

@[simp]
theorem length_encodeTag (n : Nat) : (encodeTag n).length = 4 :=
  LittleEndian.length_encode _ _

@[simp]
theorem length_encodeField (x : Field) : (encodeField x).length = 72 := by
  simp [encodeField, encodeChars, LittleEndian.length_encode, Utf8.length_encode,
    Field.size_toDigits]

theorem IndexBytes.length_eq {q : List UInt8} {i : Index} (h : IndexBytes q i) : q.length = 4 :=
  h.1

theorem TagBytes.length_eq {q : List UInt8} {kinds n : Nat} (h : TagBytes kinds q n) :
    q.length = 4 :=
  h.1.1

theorem CharsBytes.length_eq {q : List UInt8} {cs : List Char} (h : CharsBytes q cs) :
    q.length = 8 + (Utf8.encode cs).length := by
  obtain ⟨n, rfl, hn⟩ := h
  have hcount : n.length = 8 := hn.1
  rw [List.length_append, hcount]

/-- The text of an element has a digit. -/
theorem FieldBytes.le_length {q : List UInt8} {x : Field} (h : FieldBytes q x) : 9 ≤ q.length := by
  obtain ⟨cs, hcs, hx⟩ := h
  have hchars : 0 < cs.length := by
    obtain ⟨ds, hd, rfl | rfl⟩ := Field.ofChars_eq_ok_iff.1 hx
    · exact List.length_pos_iff.2 hd.ne_nil
    · exact Nat.succ_pos _
  have hsize := Utf8.length_le_size cs
  rw [hcs.length_eq, Utf8.length_encode]
  omega

theorem measured_field : Measured 8 FieldBytes (fun x => (encodeField x).length) := by
  intro q x hq
  have hlength := hq.le_length
  simp only [length_encodeField]
  omega

/-- One digit is written as 64. -/
example : (encodeField Field.zero).length = 8 * (encodeChars ['0']).length := by decide

theorem measured_mulTerm : Measured 8 MulTermBytes (fun t => (encodeMulTerm t).length) := by
  rintro _ t ⟨a, b, c, rfl, ha, hb, hc⟩
  have hfield := measured_field.le ha
  simp only [encodeMulTerm, List.length_append, length_encodeIndex, hb.length_eq, hc.length_eq]
  omega

theorem measured_linearTerm :
    Measured 8 LinearTermBytes (fun t => (encodeLinearTerm t).length) := by
  rintro _ t ⟨a, b, rfl, ha, hb⟩
  have hfield := measured_field.le ha
  simp only [encodeLinearTerm, List.length_append, length_encodeIndex, hb.length_eq]
  omega

theorem measured_expression :
    Measured 8 ExpressionBytes (fun e => (encodeExpression e).length) := by
  rintro _ e ⟨a, b, c, rfl, ha, hb, hc⟩
  have hmul := measured_mulTerm.list ha
  have hlinear := measured_linearTerm.list hb
  have hfield := measured_field.le hc
  simp only [encodeExpression, List.length_append]
  omega

theorem measured_opcode : Measured 8 OpcodeBytes (fun o => (encodeOpcode o).length) := by
  intro q o hq
  cases o with
  | arithmetic e =>
    obtain ⟨a, b, rfl, ha, hb⟩ := hq
    have hexpression := measured_expression.le hb
    simp only [encodeOpcode, List.length_append, length_encodeTag, ha.length_eq]
    omega
  | call c =>
    obtain ⟨a, b, rfl, ha, hb⟩ := hq
    simp only [encodeOpcode, List.length_append, length_encodeTag, ha.length_eq, ← hb.eq_encode]
    omega

theorem measured_message : Measured 8 MessageBytes (fun m => (encodeMessage m).length) := by
  intro q m hq
  simp only [← hq.eq_encode]
  omega

/-- A list of the members of a set is at least as long as the set. -/
theorem SetBytes.exists_length_le {q : List UInt8} {s : IndexSet} (h : SetBytes q s) :
    ∃ is, ListBytes IndexBytes q is ∧ s.elems.length ≤ is.length := by
  obtain ⟨is, his, hmem⟩ := h
  have hnodup : s.elems.Nodup := s.ascending.imp UInt32.ne_of_lt
  exact ⟨is, his, (IndexMap.length_le_and_nodup hnodup hmem).1⟩

theorem length_encodeIndices (is : List Index) :
    (encodeList encodeIndex is).length = 8 + 4 * is.length := by
  rw [length_encodeList]
  induction is with
  | nil => rfl
  | cons i is ih =>
    simp only [total_cons, length_encodeIndex, List.length_cons] at ih ⊢
    omega

theorem SetBytes.length_encodeSet_le {q : List UInt8} {s : IndexSet} (h : SetBytes q s) :
    (encodeSet s).length ≤ q.length := by
  obtain ⟨is, his, hle⟩ := h.exists_length_le
  have hq : q = encodeList encodeIndex is := his.eq_encode fun _ _ => NumberBytes.eq_encode
  rw [hq, encodeSet, length_encodeIndices, length_encodeIndices]
  omega

theorem measured_circuit : Measured 8 CircuitBytes (fun c => c.toPayload.length) := by
  rintro _ c ⟨l, o, p, u, r, m, rfl, hl, ho, hp, hu, hr, hm⟩
  have hopcodes := measured_opcode.list ho
  have hprivate := hp.length_encodeSet_le
  have hpublic := hu.length_encodeSet_le
  have hreturn := hr.length_encodeSet_le
  have hmessages := measured_message.list hm
  simp only [Circuit.toPayload, encodeCircuit, List.length_append, length_encodeIndex,
    hl.length_eq]
  omega

/-! ## How many items it holds -/

/-- A list has at most one item for each of its bytes. -/
theorem ListBytes.length_le {α : Type} {G : Grammar α} {q : List UInt8} {xs : List α}
    (hq : ListBytes G q xs) (h : Measured 1 G (fun _ => 1)) : 8 + xs.length ≤ q.length := by
  have hitems := hq.total_le h
  rw [total_one] at hitems
  omega

theorem one_le_mulTerm : Measured 1 MulTermBytes (fun _ => 1) := by
  rintro _ t ⟨a, b, c, rfl, ha, hb, hc⟩
  simp only [List.length_append, hb.length_eq, hc.length_eq]
  omega

theorem one_le_linearTerm : Measured 1 LinearTermBytes (fun _ => 1) := by
  rintro _ t ⟨a, b, rfl, ha, hb⟩
  simp only [List.length_append, hb.length_eq]
  omega

theorem one_le_input : Measured 1 InputBytes (fun _ => 1) := by
  rintro _ x ⟨a, b, rfl, ha, hb⟩
  simp only [List.length_append, hb.length_eq]
  omega

theorem one_le_index : Measured 1 IndexBytes (fun _ => 1) := by
  intro q i hq
  simp only [hq.length_eq]
  omega

theorem measured_part : Measured 1 PartBytes Part.items := by
  intro q p hq
  cases p with
  | input x => exact one_le_input.le hq
  | inputs xs =>
    have hitems := ListBytes.length_le hq one_le_input
    simp only [Part.items, Part.reads, Part.determines, List.length_nil]
    omega
  | number n => exact Nat.zero_le _
  | output i => exact one_le_index.le hq
  | outputs is =>
    have hitems := ListBytes.length_le hq one_le_index
    simp only [Part.items, Part.reads, Part.determines, List.length_nil]
    omega

theorem measured_opcodeItems : Measured 1 OpcodeBytes Opcode.items := by
  intro q o hq
  cases o with
  | arithmetic e =>
    obtain ⟨a, _, rfl, ha, b, c, d, rfl, hb, hc, -⟩ := hq
    have hmul := hb.length_le one_le_mulTerm
    have hlinear := hc.length_le one_le_linearTerm
    simp only [Opcode.items, List.length_append, ha.length_eq]
    omega
  | call c =>
    obtain ⟨a, _, rfl, ha, b, d, rfl, hb, hd⟩ := hq
    have hparts := measured_part.sequence.le hd
    have hitems := c.items_eq
    simp only [Opcode.items, List.length_append, ha.length_eq, hb.length_eq]
    omega

theorem one_le_opcode : Measured 1 OpcodeBytes (fun _ => 1) := by
  refine measured_opcodeItems.mono fun o => ?_
  cases o with
  | arithmetic e => exact Nat.le_add_right_of_le (Nat.le_add_right 1 _)
  | call c => exact Nat.le_add_right_of_le (Nat.le_add_right 1 _)

theorem measured_messageItems : Measured 1 MessageBytes messageItems := by
  rintro _ m ⟨a, b, rfl, -, hb⟩
  have htext := CharsBytes.length_eq hb
  simp only [messageItems, List.length_append]
  omega

theorem one_le_message : Measured 1 MessageBytes (fun _ => 1) :=
  measured_messageItems.mono fun _ => Nat.le_add_right 1 _

theorem SetBytes.length_elems_le {q : List UInt8} {s : IndexSet} (h : SetBytes q s) :
    s.elems.length ≤ q.length := by
  obtain ⟨is, his, hle⟩ := h.exists_length_le
  have hitems := his.length_le one_le_index
  omega

theorem measured_circuitItems : Measured 1 CircuitBytes Circuit.items := by
  rintro _ c ⟨l, o, p, u, r, m, rfl, -, ho, hp, hu, hr, hm⟩
  have hopcodes := ho.total_le measured_opcodeItems
  have hprivate := hp.length_elems_le
  have hpublic := hu.length_elems_le
  have hreturn := hr.length_elems_le
  have hmessages := hm.total_le measured_messageItems
  simp only [Circuit.items, List.length_append]
  omega

/-! ## How often the loops go round -/

/-- Each item that is read takes a byte. -/
def Advances {α : Type} (item : Decoder α) : Prop :=
  ∀ xs x rest, item xs = .ok (x, rest) → rest.length < xs.length

theorem Decodes.advances {α : Type} {item : Decoder α} {G : Grammar α} (h : Decodes item G)
    (hG : Measured 1 G (fun _ => 1)) : Advances item := by
  intro xs x rest hx
  obtain ⟨q, rfl, hq⟩ := (h _ _ _).1 hx
  have hlength := hG.le hq
  rw [List.length_append]
  omega

/-- The items that are read one by one. -/
inductive Repeated : {α : Type} → Decoder α → Prop
  | opcode : Repeated opcode
  | mulTerm : Repeated mulTerm
  | linearTerm : Repeated linearTerm
  | input : Repeated input
  | index : Repeated index
  | message : Repeated message

theorem Repeated.advances {α : Type} {item : Decoder α} (h : Repeated item) : Advances item := by
  cases h with
  | opcode => exact decodes_opcode.advances one_le_opcode
  | mulTerm => exact decodes_mulTerm.advances one_le_mulTerm
  | linearTerm => exact decodes_linearTerm.advances one_le_linearTerm
  | input => exact decodes_input.advances one_le_input
  | index => exact decodes_index.advances one_le_index
  | message => exact decodes_message.advances one_le_message

/-- The loop over the items of a list, given up where it goes round more often than `rounds`
times. -/
def itemsWithin {α : Type} (item : Decoder α) :
    (rounds count : Nat) → List α → List UInt8 → Option (Except Fault (List α × List UInt8))
  | _, 0, acc, xs => some (.ok (acc.reverse, xs))
  | 0, _ + 1, _, _ => none
  | rounds + 1, count + 1, acc, xs =>
    match item xs with
    | .ok (x, xs) => itemsWithin item rounds count (x :: acc) xs
    | .error e => some (.error e)

-- On the rounds that are left, of which there is always one more than there are bytes.
theorem itemsWithin_eq {α : Type} {item : Decoder α} (h : Advances item) {rounds : Nat}
    (count : Nat) (acc : List α) {xs : List UInt8} (hrounds : xs.length < rounds) :
    itemsWithin item rounds count acc xs = some (itemsAfter item count acc xs) := by
  induction rounds generalizing count acc xs with
  | zero => exact absurd hrounds (Nat.not_lt_zero _)
  | succ rounds ih =>
    cases count with
    | zero => rfl
    | succ count =>
      simp only [itemsWithin, itemsAfter]
      cases hx : item xs with
      | error e => rfl
      | ok p =>
        have hlength := h _ _ _ hx
        exact ih count _ (Nat.lt_of_lt_of_le hlength (Nat.le_of_lt_succ hrounds))

end Payload

namespace Circuit

/-! ## Circuits -/

/-- A circuit is written in at most eight bytes for each byte that it is read from, and has at most
one item for each. The loops that read it go round at most once for each byte that is left and once
more, whatever counts stand in front of their lists. -/
theorem decoding_bounded (p : List UInt8) :
    (∀ c, ofPayload p = .ok c → c.toPayload.length ≤ 8 * p.length ∧ c.items ≤ p.length) ∧
      ∀ (α : Type) (item : Payload.Decoder α), Payload.Repeated item →
        ∀ count acc xs rounds, xs.length < rounds →
          Payload.itemsWithin item rounds count acc xs =
            some (Payload.itemsAfter item count acc xs) := by
  refine ⟨fun c h => ?_, fun α item hitem count acc xs rounds hrounds =>
    Payload.itemsWithin_eq hitem.advances count acc hrounds⟩
  obtain ⟨q, r, rfl, hq⟩ := ofPayload_eq_ok_iff.1 h
  have hlength := Payload.measured_circuit.le hq
  have hitems := Payload.measured_circuitItems.le hq
  rw [List.length_append]
  exact ⟨by omega, by omega⟩

/-- The loose sample is read, and a list of one index that is said to be the longest is refused. -/
theorem looseSample_bounded :
    (∃ c, ofPayload looseSample.bytes = .ok c ∧
      c.toPayload.length ≤ 8 * looseSample.bytes.length ∧
      c.items ≤ looseSample.bytes.length) ∧
    Payload.itemsAfter Payload.index 18446744073709551615 [] [1, 0, 0, 0] =
      .error .endOfInput := by
  have hread := spells_looseSample.ofPayload []
  rw [List.append_nil] at hread
  have h := decoding_bounded looseSample.bytes
  have hloop := h.2 _ _ .index 18446744073709551615 [] [1, 0, 0, 0] 5 (by decide)
  exact ⟨⟨_, hread, h.1 _ hread⟩, Option.some.inj (hloop.symm.trans rfl)⟩

end Circuit

end CircuitFixtures
