import CircuitFixtures.Proofs.Payload.CircuitGrammar

/-!
# The witnesses that an opcode mentions

What a call reads and what it determines, one behind the other, are the witnesses of its fields in
the order in which a payload has them. The fields are taken one at a time (`Part.witnesses_eq`), and
none that reads a witness stands behind one that determines some (`BlackBox.reads_first`). The
witnesses of an expression are those of its terms. `Opcode.witnesses_complete` has both.
-/

namespace CircuitFixtures

/-! ## Fields -/

namespace Part

/-- The witnesses that a field reads, with their sizes. -/
def reads : Part → List Input
  | .input x => [x]
  | .inputs xs => xs
  | .number _ => []
  | .output _ => []
  | .outputs _ => []

/-- The witnesses that a field determines. -/
def determines : Part → List Index
  | .input _ => []
  | .inputs _ => []
  | .number _ => []
  | .output i => [i]
  | .outputs is => is

theorem witnesses_eq (p : Part) : p.witnesses = p.reads.map (·.witness) ++ p.determines := by
  cases p with
  | input x => rfl
  | inputs xs => exact (List.append_nil _).symm
  | number n => rfl
  | output i => rfl
  | outputs is => rfl

/-- Where all that is read stands in front of all that is determined, the two together are the
witnesses in their order. -/
theorem flatMap_witnesses {ps : List Part}
    (h : ps.Pairwise (fun p q => p.determines = [] ∨ q.reads = [])) :
    ps.flatMap witnesses = (ps.flatMap reads).map (·.witness) ++ ps.flatMap determines := by
  induction ps with
  | nil => rfl
  | cons p ps ih =>
    obtain ⟨hp, hrest⟩ := List.pairwise_cons.1 h
    simp only [List.flatMap_cons, List.map_append, witnesses_eq p, ih hrest, List.append_assoc]
    by_cases hnone : p.determines = []
    · rw [hnone, List.nil_append, List.nil_append]
    · have hread : ps.flatMap reads = [] :=
        List.flatMap_eq_nil_iff.2 fun q hq => (hp q hq).resolve_left hnone
      rw [hread, List.map_nil, List.nil_append, List.nil_append]

end Part

/-! ## Calls -/

namespace BlackBox

/-- A call reads what its fields read. -/
theorem inputs_eq (c : BlackBox) : c.inputs = c.parts.flatMap Part.reads := by
  cases c <;> simp [inputs, parts, Part.reads]

/-- A call determines what its fields determine. -/
theorem outputs_eq (c : BlackBox) : c.outputs = c.parts.flatMap Part.determines := by
  cases c <;> simp [outputs, parts, Part.determines]

theorem reads_first (c : BlackBox) :
    c.parts.Pairwise (fun p q => p.determines = [] ∨ q.reads = []) := by
  cases c <;> simp [parts, Part.reads, Part.determines]

theorem witnesses_in_order (c : BlackBox) :
    c.inputs.map (·.witness) ++ c.outputs = c.parts.flatMap Part.witnesses := by
  rw [inputs_eq, outputs_eq, Part.flatMap_witnesses c.reads_first]

end BlackBox

/-! ## Expressions -/

namespace Expression

theorem witnesses_eq_nil_iff {e : Expression} : e.witnesses.elems = [] ↔ e.isConst = true := by
  rw [isConst, Bool.and_eq_true, List.isEmpty_iff, List.isEmpty_iff]
  constructor
  · intro h
    have hnone (i : Index) : i ∉ e.witnesses.elems := by simp [h]
    simp only [mem_witnesses, not_or] at hnone
    refine ⟨List.eq_nil_iff_forall_not_mem.2 fun t ht => ?_,
      List.eq_nil_iff_forall_not_mem.2 fun t ht => ?_⟩
    · exact (hnone t.2.1).1 ⟨t, ht, .inl rfl⟩
    · exact (hnone t.2).2 ⟨t, ht, rfl⟩
  · rintro ⟨hmul, hlinear⟩
    refine List.eq_nil_iff_forall_not_mem.2 fun i => ?_
    simp [mem_witnesses, hmul, hlinear]

end Expression

/-- A call is written as the number of its kind and its fields, and read from these alone; what it
reads and what it determines are the witnesses of the fields in this order, each as often as it
stands there, and those read keep their sizes. An expression mentions the witnesses of its terms, and
none where it is constant. -/
theorem Opcode.witnesses_complete :
    (∀ c : BlackBox,
      Payload.encodeBlackBox c = Payload.encodeTag c.tag ++ c.parts.flatMap Payload.encodePart ∧
      (∀ xs rest, Payload.blackBox xs = .ok (c, rest) ↔ ∃ a b, xs = a ++ b ++ rest ∧
        Payload.TagBytes BlackBox.kinds a c.tag ∧
        Payload.Sequence Payload.PartBytes b c.parts) ∧
      c.inputs.map (·.witness) ++ c.outputs = c.parts.flatMap Part.witnesses ∧
      c.inputs = c.parts.flatMap Part.reads ∧
      c.outputs = c.parts.flatMap Part.determines) ∧
    ∀ e : Expression,
      (∀ i, i ∈ e.witnesses.elems ↔
        (∃ t ∈ e.mulTerms, i = t.2.1 ∨ i = t.2.2) ∨ ∃ t ∈ e.linearTerms, i = t.2) ∧
      (e.witnesses.elems = [] ↔ e.isConst = true) := by
  refine ⟨fun c => ⟨rfl, fun xs rest => ?_, c.witnesses_in_order, c.inputs_eq, c.outputs_eq⟩,
    fun e => ⟨fun i => Expression.mem_witnesses, Expression.witnesses_eq_nil_iff⟩⟩
  rw [Payload.decodes_blackBox]
  constructor
  · rintro ⟨q, rfl, a, b, rfl, ha, hb⟩
    exact ⟨a, b, rfl, ha, hb⟩
  · rintro ⟨a, b, rfl, ha, hb⟩
    exact ⟨a ++ b, rfl, a, b, rfl, ha, hb⟩

end CircuitFixtures
