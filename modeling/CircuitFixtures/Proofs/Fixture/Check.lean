import CircuitFixtures.Fixture
import CircuitFixtures.Proofs.Archive.Lossless
import CircuitFixtures.Proofs.Assignment.Extension
import CircuitFixtures.Proofs.Index.Interval

/-!
# What a passing check says

`Fixture.Consistent` states the relation between the bytecode, the circuit and the two
assignments of a fixture in one piece, with no order between its parts. Each of the three
stages of `check` passes exactly on its share of it, and so the whole check on the relation.
-/

namespace CircuitFixtures.Fixture

/-- The bytecode is how `c` is written, the initial assignment gives the `n` arguments of `c`
their values, and the expected one adds the value `x` of its return value `i`. -/
structure Consistent (f : Fixture) (c : Circuit) (n : Nat) (i : Index) (x : Field) : Prop where
  fits : c.Fits
  decompress : Gzip.decompress f.bytecode = .ok c.toPayload
  compress : Gzip.compress c.toPayload = f.bytecode
  nonempty : 1 ≤ n
  keys : Index.UpTo n f.initial.keys
  arguments : Index.UpTo n c.arguments.elems
  notArgument : ¬ (1 ≤ i.toNat ∧ i.toNat ≤ n)
  returns : ∀ j, j ∈ c.returnValues.elems ↔ j = i
  expected : f.expected = f.initial.insert i x

/-- What a fixture reports that carries `c` with `n` arguments and the return value `i`. -/
def reportOf (f : Fixture) (c : Circuit) (n : Nat) (i : Index) (x : Field) : Report where
  name := f.name
  compressedSize := f.bytecode.length
  payloadSize := c.toPayload.length
  lastIndex := c.lastIndex
  opcodes := c.opcodes.length
  callNames := (c.opcodes.filterMap Opcode.call?).map BlackBox.name
  inputs := n
  outputs := IndexMap.empty.insert i x

theorem checkBytecode_eq_ok_iff {bytecode payload : List UInt8} {c : Circuit} :
    checkBytecode bytecode = .ok (payload, c) ↔
      c.Fits ∧ Gzip.decompress bytecode = .ok c.toPayload ∧
        Gzip.compress c.toPayload = bytecode ∧ payload = c.toPayload := by
  constructor
  · intro h
    rw [checkBytecode] at h
    split at h
    · cases h
    · rename_i p hp
      split at h
      · cases h
      · rename_i c' hc
        split at h
        · cases h
        · rename_i hpayload
          split at h
          · cases h
          · rename_i hbytecode
            obtain ⟨rfl, rfl⟩ := Prod.mk.inj (Except.ok.inj h)
            have hp' : c'.toPayload = p := Decidable.not_not.1 hpayload
            have hb : Gzip.compress p = bytecode := Decidable.not_not.1 hbytecode
            exact ⟨Circuit.fits_of_ofPayload hc, by rw [hp', hp], by rw [hp', hb], hp'.symm⟩
  · rintro ⟨hfits, hdecompress, hcompress, rfl⟩
    rw [checkBytecode, hdecompress]
    simp only [Circuit.ofPayload_toPayload hfits, ne_eq, not_true, if_false, hcompress]

theorem checkInitial_eq_ok_iff {c : Circuit} {m : Assignment} :
    checkInitial c m = .ok () ↔
      ∃ n, 1 ≤ n ∧ Index.UpTo n m.keys ∧ Index.UpTo n c.arguments.elems := by
  have hkeys := m.ascending_keys
  have harguments := c.arguments.ascending
  rw [checkInitial]
  constructor
  · intro h
    split at h
    · cases h
    · rename_i hempty
      split at h
      · cases h
      · rename_i hgap
        split at h
        · cases h
        · rename_i heq
          have hup : Index.UpTo m.keys.length m.keys := by
            rw [← Assignment.isContiguousFrom_one_iff]
            simpa [firstIndex] using hgap
          have hpos : 1 ≤ m.keys.length := by
            refine Nat.one_le_iff_ne_zero.2 fun h0 => hempty ?_
            rw [IndexMap.isEmpty, List.isEmpty_iff]
            exact List.map_eq_nil_iff.1 (List.eq_nil_of_length_eq_zero h0)
          exact ⟨m.keys.length, hpos, hup, Decidable.not_not.1 heq ▸ hup⟩
  · rintro ⟨n, hn, hm, hc⟩
    have hlen := hm.length_eq hkeys
    have hempty : m.isEmpty = false := by
      rw [IndexMap.isEmpty, List.isEmpty_eq_false_iff]
      intro h0
      rw [IndexMap.keys, h0] at hlen
      simp only [List.map_nil, List.length_nil] at hlen
      omega
    have hgap : m.isContiguousFrom firstIndex = true := by
      rw [firstIndex, Assignment.isContiguousFrom_one_iff, hlen]
      exact hm
    have heq : c.arguments.elems = m.keys := hc.eq harguments hkeys hm
    simp [hempty, hgap, heq]

theorem elems_eq_single_iff {s : IndexSet} {i : Index} :
    s.elems = [i] ↔ ∀ j, j ∈ s.elems ↔ j = i := by
  constructor
  · intro h j
    rw [h, List.mem_singleton]
  · intro h
    have hs : s = ⟨[i], List.pairwise_singleton _ _⟩ :=
      IndexSet.ext_mem fun j => (h j).trans List.mem_singleton.symm
    rw [hs]

theorem checkExpected_eq_ok_iff {c : Circuit} {m n out : Assignment} :
    checkExpected c m n = .ok out ↔
      ∃ i x, m.get? i = none ∧ (∀ j, j ∈ c.returnValues.elems ↔ j = i) ∧
        n = m.insert i x ∧ out = IndexMap.empty.insert i x := by
  have value (i : Index) (x : Field) (hs : c.returnValues.elems = [i]) :
      (c.returnWitness (m.insert i x)).mapError CheckFault.noValue =
        .ok (IndexMap.empty.insert i x) := by
    have hx : (m.insert i x).get? i = some x := by rw [IndexMap.get?_insert, if_pos rfl]
    rw [Circuit.returnWitness, Assignment.restrict_single hs hx]
    rfl
  rw [checkExpected]
  constructor
  · intro h
    split at h
    · cases h
    · rename_i hadditions
      rw [not_or, Decidable.not_not, Bool.not_eq_true, Bool.not_eq_false'] at hadditions
      split at h
      · cases h
      · rename_i hreturns
        obtain ⟨i, x, hi, rfl, hd⟩ :=
          Assignment.extends_iff.1 ⟨rfl, hadditions.1, hadditions.2⟩
        have hs : c.returnValues.elems = [i] := by
          rw [← Decidable.not_not.1 hreturns, hd]
          rfl
        rw [value i x hs] at h
        exact ⟨i, x, hi, elems_eq_single_iff.1 hs, rfl, (Except.ok.inj h).symm⟩
  · rintro ⟨i, x, hi, hreturns, rfl, rfl⟩
    have hs := elems_eq_single_iff.2 hreturns
    have hkeys : (IndexMap.empty.insert i x).keys = c.returnValues.elems := by
      rw [hs]
      rfl
    rw [if_neg, if_neg, value i x hs]
    · rw [Assignment.difference_insert x hi, hkeys]
      exact fun h => h rfl
    · rw [Assignment.difference_insert x hi, Assignment.difference_of_insert x hi]
      exact fun h => h.elim (fun h => h rfl) Bool.noConfusion

theorem size_of_upTo {m : Assignment} {n : Nat} (h : Index.UpTo n m.keys) : m.size = n := by
  rw [← h.length_eq m.ascending_keys, IndexMap.keys, List.length_map]
  rfl

theorem check_eq_ok_iff (f : Fixture) (report : Report) :
    f.check = .ok report ↔
      ∃ c n i x, f.Consistent c n i x ∧ report = f.reportOf c n i x := by
  constructor
  · intro h
    rw [check] at h
    split at h
    · cases h
    · rename_i payload c hbytecode
      split at h
      · cases h
      · rename_i hinitial
        split at h
        · cases h
        · rename_i outputs hexpected
          obtain ⟨hfits, hdecompress, hcompress, rfl⟩ := checkBytecode_eq_ok_iff.1 hbytecode
          obtain ⟨n, hn, hkeys, harguments⟩ := checkInitial_eq_ok_iff.1 hinitial
          obtain ⟨i, x, hi, hreturns, hext, rfl⟩ := checkExpected_eq_ok_iff.1 hexpected
          have hout : ¬ (1 ≤ i.toNat ∧ i.toNat ≤ n) := fun hle =>
            IndexMap.get?_eq_none_iff.1 hi (hkeys.mem_iff.2 hle)
          refine ⟨c, n, i, x, ⟨hfits, hdecompress, hcompress, hn, hkeys, harguments, hout,
            hreturns, hext⟩, ?_⟩
          rw [← Except.ok.inj h, size_of_upTo hkeys, Circuit.callNames_eq]
          rfl
  · rintro ⟨c, n, i, x, h, rfl⟩
    have hbytecode : checkBytecode f.bytecode = .ok (c.toPayload, c) :=
      checkBytecode_eq_ok_iff.2 ⟨h.fits, h.decompress, h.compress, rfl⟩
    have hinitial : checkInitial c f.initial = .ok () :=
      checkInitial_eq_ok_iff.2 ⟨n, h.nonempty, h.keys, h.arguments⟩
    have hi : f.initial.get? i = none :=
      IndexMap.get?_eq_none_iff.2 fun hmem => h.notArgument (h.keys.mem_iff.1 hmem)
    have hexpected : checkExpected c f.initial f.expected = .ok (IndexMap.empty.insert i x) :=
      checkExpected_eq_ok_iff.2 ⟨i, x, hi, h.returns, h.expected, rfl⟩
    rw [check, hbytecode]
    simp only [hinitial, hexpected, size_of_upTo h.keys, Circuit.callNames_eq]
    rfl

theorem Consistent.circuit_eq {f : Fixture} {c : Circuit} {n : Nat} {i : Index} {x : Field}
    (h : f.Consistent c n i x) : f.circuit = .ok c := by
  rw [circuit, Circuit.ofArchive, openArchive, h.decompress]
  simp only [Circuit.ofPayload_toPayload h.fits]
  rfl

private theorem bytecode_eq_of_check {f : Fixture} {report : Report} {c : Circuit}
    (h : f.check = .ok report) (hc : f.circuit = .ok c) : f.bytecode = c.toArchive := by
  obtain ⟨c', n, i, x, hcons, -⟩ := (check_eq_ok_iff f report).1 h
  rw [hcons.circuit_eq] at hc
  cases hc
  exact hcons.compress.symm

/-- A fixture passes its check exactly where it is consistent, with the report of what it
holds, and a passing fixture has no other bytecode for its circuit. -/
theorem check_sound_and_complete :
    (∀ (f : Fixture) (report : Report),
      f.check = .ok report ↔
        ∃ c n i x, f.Consistent c n i x ∧ report = f.reportOf c n i x) ∧
    ∀ (f g : Fixture) (r s : Report) (c : Circuit), f.check = .ok r → g.check = .ok s →
      f.circuit = .ok c → g.circuit = .ok c → f.bytecode = g.bytecode :=
  ⟨check_eq_ok_iff, fun _ _ _ _ _ hf hg hfc hgc =>
    (bytecode_eq_of_check hf hfc).trans (bytecode_eq_of_check hg hgc).symm⟩

/-- The sample circuit with values for its two arguments and its return value. -/
def sample (name : String) (x : Field) : Fixture where
  name := name
  bytecode := Circuit.sample.toArchive
  initial := .ofList [(1, Field.one), (2, x)]
  expected := .ofList [(1, Field.one), (2, x), (3, Field.zero)]

theorem sample_consistent (name : String) (x : Field) :
    (sample name x).Consistent Circuit.sample 2 3 Field.zero where
  fits := Circuit.fits_sample
  decompress := Gzip.decompress_compress _
  compress := rfl
  nonempty := by decide
  keys := (Index.upTo_iff (sample name x).initial.ascending_keys).2 rfl
  arguments := (Index.upTo_iff Circuit.sample.arguments.ascending).2 rfl
  notArgument := by decide
  returns := fun _ => List.mem_singleton
  expected := rfl

theorem check_sample (name : String) (x : Field) :
    (sample name x).check = .ok ((sample name x).reportOf Circuit.sample 2 3 Field.zero) :=
  (check_eq_ok_iff _ _).2 ⟨_, _, _, _, sample_consistent name x, rfl⟩

/-- What is reported of a fixture of the sample circuit. -/
def sampleReport (name : String) : Report where
  name := name
  compressedSize := Circuit.sample.toArchive.length
  payloadSize := Circuit.sample.toPayload.length
  lastIndex := 3
  opcodes := 2
  callNames := ["sha256"]
  inputs := 2
  outputs := .ofList [(3, Field.zero)]

/-- Two fixtures of the sample circuit that pass. -/
theorem sample_check :
    (sample "first" Field.zero).check = .ok (sampleReport "first") ∧
      (sample "second" Field.one).check = .ok (sampleReport "second") ∧
      (sample "first" Field.zero).bytecode = (sample "second" Field.one).bytecode := by
  have hfirst := sample_consistent "first" Field.zero
  have hsecond := sample_consistent "second" Field.one
  have h1 := (check_sound_and_complete.1 _ _).2 ⟨_, _, _, _, hfirst, rfl⟩
  have h2 := (check_sound_and_complete.1 _ _).2 ⟨_, _, _, _, hsecond, rfl⟩
  exact ⟨h1, h2, check_sound_and_complete.2 _ _ _ _ _ h1 h2 hfirst.circuit_eq
    hsecond.circuit_eq⟩

end CircuitFixtures.Fixture
