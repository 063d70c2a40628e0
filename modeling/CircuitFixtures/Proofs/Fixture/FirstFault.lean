import CircuitFixtures.Proofs.Circuit.PublicWitness
import CircuitFixtures.Proofs.Fixture.Check

/-!
# The first fault

`Fixture.Condition` names the conditions of the check and `Condition.order` their order; what a
fixture has to be like to meet one is said of the fixture alone (`Fixture.Meets`), and so is the
fault that is reported where it does not (`Fixture.Reports`).

`Fixture.Judged` says of a result that it comes of going through conditions up to the first that
fails. A guard in the check is one such step (`Judged.guard`), a stage of the check goes through its
conditions (`judged_checkBytecode` and so on), and the check through the conditions of its stages.
That is the result, `Fixture.check_reports_first_fault`. Behind the last condition the check takes
the return values out of the expected assignment, which does not fail any more: the indices that are
returned are those of new entries.
-/

namespace CircuitFixtures

namespace Circuit

/-- The index is that of a parameter, private or public. -/
def IsArgument (c : Circuit) (i : Index) : Prop :=
  i ∈ c.privateParameters.elems ∨ i ∈ c.publicParameters.elems

theorem lists_arguments (c : Circuit) : Index.Lists c.arguments.elems c.IsArgument :=
  ⟨c.arguments.ascending, fun _ => IndexSet.mem_union⟩

end Circuit

namespace Fixture

/-! ## Conditions -/

/-- A condition of the check. -/
inductive Condition where
  | decompresses
  | decodes
  /-- The circuit is written to the same payload. -/
  | samePayload
  /-- The payload is compressed to the same bytecode. -/
  | sameBytecode
  | hasInitial
  | contiguous
  | arguments
  /-- One entry is added and none changed. -/
  | additions
  | returns
  deriving Repr, DecidableEq

def Condition.bytecode : List Condition := [.decompresses, .decodes, .samePayload, .sameBytecode]

def Condition.initial : List Condition := [.hasInitial, .contiguous, .arguments]

def Condition.expected : List Condition := [.additions, .returns]

/-- The conditions in the order of the check. -/
def Condition.order : List Condition := bytecode ++ (initial ++ expected)

/-- The bytecode decompresses to a payload, and that holds a circuit. -/
structure Carries (f : Fixture) (payload : List UInt8) (c : Circuit) : Prop where
  decompress : Gzip.decompress f.bytecode = .ok payload
  decode : Circuit.ofPayload payload = .ok c

/-- The index has a value in the expected assignment that it has not in the initial one. -/
def IsNew (f : Fixture) (i : Index) : Prop :=
  ∃ x, f.expected.Differs f.initial (i, x)

/-- The fixture meets a condition. -/
def Meets (f : Fixture) : Condition → Prop
  | .decompresses => ∃ payload, Gzip.decompress f.bytecode = .ok payload
  | .decodes => ∃ payload c, f.Carries payload c
  | .samePayload => ∃ payload c, f.Carries payload c ∧ c.toPayload = payload
  | .sameBytecode =>
    ∃ payload, Gzip.decompress f.bytecode = .ok payload ∧ Gzip.compress payload = f.bytecode
  | .hasInitial => ∃ i, i ∈ f.initial.keys
  | .contiguous => ∃ n, Index.UpTo n f.initial.keys
  | .arguments => ∃ payload c, f.Carries payload c ∧ ∀ i, c.IsArgument i ↔ i ∈ f.initial.keys
  | .additions => f.expected.differing f.initial = 1 ∧ f.initial.differing f.expected = 0
  | .returns => ∃ payload c, f.Carries payload c ∧ ∀ i, f.IsNew i ↔ i ∈ c.returnValues.elems

/-- What is reported of a fixture that does not meet a condition, if it meets those before. -/
inductive Reports (f : Fixture) : Condition → CheckFault → Prop
  | decompresses {e} (fault : Gzip.decompress f.bytecode = .error e) :
    Reports f .decompresses (.archive (.gzip e))
  | decodes {payload e} (decompress : Gzip.decompress f.bytecode = .ok payload)
    (fault : Circuit.ofPayload payload = .error e) : Reports f .decodes (.archive (.payload e))
  | samePayload : Reports f .samePayload .payloadDiffers
  | sameBytecode : Reports f .sameBytecode .bytecodeDiffers
  | hasInitial : Reports f .hasInitial .noInitial
  | contiguous : Reports f .contiguous .gapInInitial
  | arguments {payload c is js} (carries : f.Carries payload c)
    (arguments : Index.Lists is c.IsArgument) (keys : Index.Lists js (· ∈ f.initial.keys)) :
    Reports f .arguments (.argumentsDiffer is js)
  | additions : Reports f .additions
    (.wrongAdditions (f.expected.differing f.initial) (f.initial.differing f.expected))
  | returns {payload c is js} (carries : f.Carries payload c) (added : Index.Lists is f.IsNew)
    (returns : Index.Lists js (· ∈ c.returnValues.elems)) :
    Reports f .returns (.returnsDiffer is js)

/-- The fixture meets the conditions before `k`, and not `k`. -/
def FailsFirst (f : Fixture) (ks : List Condition) (k : Condition) : Prop :=
  ∃ before after, ks = before ++ k :: after ∧ (∀ j ∈ before, f.Meets j) ∧ ¬ f.Meets k

section

variable {f : Fixture} {payload payload' : List UInt8} {c c' : Circuit} {k j : Condition}
  {ks ks' : List Condition} {e e' : CheckFault}

theorem Carries.unique (h : f.Carries payload c) (h' : f.Carries payload' c') :
    payload = payload' ∧ c = c' := by
  have hpayload := h'.decompress
  rw [h.decompress] at hpayload
  cases hpayload
  have hc := h'.decode
  rw [h.decode] at hc
  exact ⟨rfl, Except.ok.inj hc⟩

/-- What is said of some circuit that the fixture carries is said of the one that it carries. -/
theorem Carries.exists_iff {p : List UInt8 → Circuit → Prop} (h : f.Carries payload c) :
    (∃ payload c, f.Carries payload c ∧ p payload c) ↔ p payload c := by
  constructor
  · rintro ⟨payload', c', h', hp⟩
    obtain ⟨rfl, rfl⟩ := h.unique h'
    exact hp
  · exact fun hp => ⟨payload, c, h, hp⟩

theorem Reports.unique (h : f.Reports k e) (h' : f.Reports k e') : e = e' := by
  cases h with
  | decompresses h =>
    cases h' with
    | decompresses h' =>
      rw [h] at h'
      cases h'
      rfl
  | decodes hpayload h =>
    cases h' with
    | decodes hpayload' h' =>
      rw [hpayload] at hpayload'
      cases hpayload'
      rw [h] at h'
      cases h'
      rfl
  | samePayload | sameBytecode | hasInitial | contiguous | additions =>
    cases h'
    rfl
  | arguments hc his hjs =>
    cases h' with
    | arguments hc' his' hjs' =>
      obtain ⟨-, rfl⟩ := hc.unique hc'
      rw [his.unique his', hjs.unique hjs']
  | returns hc his hjs =>
    cases h' with
    | returns hc' his' hjs' =>
      obtain ⟨-, rfl⟩ := hc.unique hc'
      rw [his.unique his', hjs.unique hjs']

theorem failsFirst_cons_iff :
    f.FailsFirst (k :: ks) j ↔ j = k ∧ ¬ f.Meets k ∨ f.Meets k ∧ f.FailsFirst ks j := by
  constructor
  · rintro ⟨before, after, hks, hbefore, hj⟩
    cases before with
    | nil =>
      cases hks
      exact .inl ⟨rfl, hj⟩
    | cons k' before =>
      cases hks
      obtain ⟨hk, hbefore⟩ := List.forall_mem_cons.1 hbefore
      exact .inr ⟨hk, before, after, rfl, hbefore, hj⟩
  · rintro (⟨rfl, hj⟩ | ⟨hk, before, after, rfl, hbefore, hj⟩)
    · exact ⟨[], ks, rfl, List.forall_mem_nil _, hj⟩
    · exact ⟨k :: before, after, rfl, List.forall_mem_cons.2 ⟨hk, hbefore⟩, hj⟩

theorem FailsFirst.unique (h : f.FailsFirst ks k) (h' : f.FailsFirst ks j) : k = j := by
  induction ks with
  | nil =>
    obtain ⟨before, after, hks, -⟩ := h
    cases before <;> cases hks
  | cons l ks ih =>
    rcases failsFirst_cons_iff.1 h with ⟨rfl, hl⟩ | ⟨hl, hk⟩
    · rcases failsFirst_cons_iff.1 h' with ⟨rfl, -⟩ | ⟨hmeets, -⟩
      · rfl
      · exact absurd hmeets hl
    · rcases failsFirst_cons_iff.1 h' with ⟨-, hfails⟩ | ⟨-, hj⟩
      · exact absurd hl hfails
      · exact ih hk hj

end

/-! ## Going through conditions -/

/-- The result of going through conditions: the fault of the first that is not met, or a value that
is as it should be. -/
inductive Judged (f : Fixture) {α : Type} (good : α → Prop) :
    List Condition → Except CheckFault α → Prop
  | passes {x} (h : good x) : Judged f good [] (.ok x)
  | stops {k ks e} (fails : ¬ f.Meets k) (reports : f.Reports k e) :
    Judged f good (k :: ks) (.error e)
  | next {k ks r} (meets : f.Meets k) (rest : Judged f good ks r) : Judged f good (k :: ks) r

namespace Judged

variable {f : Fixture} {α β : Type} {good : α → Prop} {good' : β → Prop} {k : Condition}
  {ks ks' : List Condition} {e : CheckFault} {x : α} {r : Except CheckFault α}

theorem guard {bad : Prop} [Decidable bad] (hmeets : f.Meets k ↔ ¬ bad)
    (hreports : bad → f.Reports k e) (hrest : ¬ bad → Judged f good ks r) :
    Judged f good (k :: ks) (if bad then .error e else r) := by
  by_cases h : bad
  · rw [if_pos h]
    exact .stops (fun hk => hmeets.1 hk h) (hreports h)
  · rw [if_neg h]
    exact .next (hmeets.2 h) (hrest h)

theorem error_append (h : Judged f good ks (.error e)) :
    Judged f good' (ks ++ ks') (.error e) := by
  generalize hr : (.error e : Except CheckFault α) = r at h
  induction h with
  | passes => cases hr
  | stops hfails hreports =>
    cases hr
    exact .stops hfails hreports
  | next hk _ ih => exact .next hk (ih hr)

theorem ok_append {r' : Except CheckFault β} (h : Judged f good ks (.ok x))
    (hrest : good x → Judged f good' ks' r') : Judged f good' (ks ++ ks') r' := by
  generalize hr : (.ok x : Except CheckFault α) = r at h
  induction h with
  | passes hx =>
    cases hr
    exact hrest hx
  | stops => cases hr
  | next hk _ ih => exact .next hk (ih hr)

theorem failsFirst (h : Judged f good ks (.error e)) :
    ∃ k, f.FailsFirst ks k ∧ f.Reports k e := by
  generalize hr : (.error e : Except CheckFault α) = r at h
  induction h with
  | passes => cases hr
  | stops hfails hreports =>
    cases hr
    exact ⟨_, failsFirst_cons_iff.2 (.inl ⟨rfl, hfails⟩), hreports⟩
  | next hk _ ih =>
    obtain ⟨j, hj, hreports⟩ := ih hr
    exact ⟨j, failsFirst_cons_iff.2 (.inr ⟨hk, hj⟩), hreports⟩

theorem meets (h : Judged f good ks (.ok x)) : (∀ k ∈ ks, f.Meets k) ∧ good x := by
  generalize hr : (.ok x : Except CheckFault α) = r at h
  induction h with
  | passes hx =>
    cases hr
    exact ⟨List.forall_mem_nil _, hx⟩
  | stops => cases hr
  | next hk _ ih =>
    obtain ⟨hks, hx⟩ := ih hr
    exact ⟨List.forall_mem_cons.2 ⟨hk, hks⟩, hx⟩

end Judged

/-! ## Stages -/

section

variable {f : Fixture} {payload : List UInt8} {c : Circuit}

/-- The first stage gives the payload and the circuit that the bytecode carries. -/
theorem judged_checkBytecode (f : Fixture) :
    Judged f (fun p => f.Carries p.1 p.2) Condition.bytecode (checkBytecode f.bytecode) := by
  rw [checkBytecode]
  split
  · rename_i e hdecompress
    refine .stops ?_ (.decompresses hdecompress)
    rintro ⟨payload, h⟩
    rw [hdecompress] at h
    cases h
  rename_i payload hdecompress
  refine .next ⟨payload, hdecompress⟩ ?_
  split
  · rename_i e hdecode
    refine .stops ?_ (.decodes hdecompress hdecode)
    rintro ⟨payload', c, h⟩
    have hpayload := h.decompress
    rw [hdecompress] at hpayload
    cases hpayload
    have hc := h.decode
    rw [hdecode] at hc
    cases hc
  rename_i c hdecode
  have hcarries : f.Carries payload c := ⟨hdecompress, hdecode⟩
  refine .next ⟨payload, c, hcarries⟩ ?_
  refine .guard ?_ (fun _ => .samePayload) fun _ => ?_
  · rw [Meets, hcarries.exists_iff, ne_eq, Decidable.not_not]
  refine .guard ?_ (fun _ => .sameBytecode) fun _ => .passes hcarries
  rw [Meets, ne_eq, Decidable.not_not]
  constructor
  · rintro ⟨payload', h, hcompress⟩
    rw [hdecompress] at h
    cases h
    exact hcompress
  · exact fun h => ⟨payload, hdecompress, h⟩

theorem judged_checkInitial (h : f.Carries payload c) :
    Judged f (fun _ => True) Condition.initial (checkInitial c f.initial) := by
  rw [checkInitial]
  refine .guard ?_ (fun _ => .hasInitial) fun _ => ?_
  · rw [Meets, IndexMap.exists_mem_keys_iff]
  refine .guard ?_ (fun _ => .contiguous) fun _ => ?_
  · rw [Meets, ← Assignment.isContiguousFrom_one_iff_exists, firstIndex]
    simp
  have harguments := c.lists_arguments
  have hkeys : Index.Lists f.initial.keys (· ∈ f.initial.keys) :=
    ⟨f.initial.ascending_keys, fun _ => Iff.rfl⟩
  refine .guard ?_ (fun _ => .arguments h harguments hkeys) fun _ => .passes trivial
  rw [Meets, h.exists_iff, ne_eq, Decidable.not_not, harguments.eq_iff hkeys]

/-- Where the indices that are returned are those of new entries, these are taken out. -/
theorem returnWitness_of_new (h : ∀ i, f.IsNew i ↔ i ∈ c.returnValues.elems) :
    ∃ out, c.returnWitness f.expected = .ok out ∧
      ∀ e, e ∈ out.entries ↔ f.expected.Differs f.initial e := by
  have hall : ∀ i ∈ c.returnValues.elems, i ∈ f.expected.keys := by
    intro i hi
    obtain ⟨x, hx, -⟩ := (h i).2 hi
    exact List.mem_map_of_mem hx
  obtain ⟨out, hout⟩ := (f.expected.extracts_restrict c.returnValues).isOk_iff.2 hall
  refine ⟨out, hout, fun e => ?_⟩
  rw [Assignment.mem_entries_of_restrict hout]
  constructor
  · rintro ⟨hi, he⟩
    -- The new entry of the index is this one.
    obtain ⟨x, hx, hnew⟩ := (h e.1).2 hi
    have hvalue := IndexMap.get?_eq_some.2 he
    rw [IndexMap.get?_eq_some.2 hx] at hvalue
    cases hvalue
    exact ⟨hx, hnew⟩
  · rintro ⟨he, hnew⟩
    exact ⟨(h e.1).1 ⟨e.2, he, hnew⟩, he⟩

theorem judged_checkExpected (h : f.Carries payload c) :
    Judged f (fun out => c.returnWitness f.expected = .ok out ∧
        ∀ e, e ∈ out.entries ↔ f.expected.Differs f.initial e)
      Condition.expected (checkExpected c f.initial f.expected) := by
  simp only [checkExpected, Assignment.size_difference]
  refine .guard ?_ (fun _ => .additions) fun _ => ?_
  · rw [Meets, not_or, ne_eq, Decidable.not_not, Bool.not_eq_true, Bool.not_eq_false',
      IndexMap.isEmpty_iff_size_eq_zero, Assignment.size_difference]
  have hadded : Index.Lists (f.expected.difference f.initial).keys f.IsNew :=
    Assignment.lists_keys_difference
  have hreturns : Index.Lists c.returnValues.elems (· ∈ c.returnValues.elems) :=
    ⟨c.returnValues.ascending, fun _ => Iff.rfl⟩
  refine .guard ?_ (fun _ => .returns h hadded hreturns) fun hsame => ?_
  · rw [Meets, h.exists_iff, ne_eq, Decidable.not_not, hadded.eq_iff hreturns]
  rw [ne_eq, Decidable.not_not, hadded.eq_iff hreturns] at hsame
  obtain ⟨out, hout, hentries⟩ := returnWitness_of_new hsame
  have hresult : (c.returnWitness f.expected).mapError CheckFault.noValue = .ok out := by
    rw [hout]
    rfl
  rw [hresult]
  exact .passes ⟨hout, hentries⟩

end

/-! ## The check -/

/-- What is reported of a fixture that passes: the new entries, which are the values that its
circuit returns. -/
def Outputs (f : Fixture) (report : Report) : Prop :=
  ∃ payload c, f.Carries payload c ∧ c.returnWitness f.expected = .ok report.outputs ∧
    ∀ e, e ∈ report.outputs.entries ↔ f.expected.Differs f.initial e

theorem judged_check (f : Fixture) : Judged f f.Outputs Condition.order f.check := by
  have hbytecode := judged_checkBytecode f
  rw [check, Condition.order]
  split
  · rename_i e he
    rw [he] at hbytecode
    exact hbytecode.error_append
  rename_i payload c hc
  rw [hc] at hbytecode
  refine hbytecode.ok_append fun hcarries => ?_
  have hinitial := judged_checkInitial hcarries
  split
  · rename_i e he
    rw [he] at hinitial
    exact hinitial.error_append
  rename_i hok
  rw [hok] at hinitial
  refine hinitial.ok_append fun _ => ?_
  have hexpected := judged_checkExpected hcarries
  rw [← List.append_nil Condition.expected]
  split
  · rename_i e he
    rw [he] at hexpected
    exact hexpected.error_append
  rename_i outputs hout
  rw [hout] at hexpected
  refine hexpected.ok_append fun houtputs => ?_
  exact .passes ⟨payload, c, hcarries, houtputs⟩

section

variable {f : Fixture} {e : CheckFault}

theorem check_eq_error_iff :
    f.check = .error e ↔ ∃ k, f.FailsFirst Condition.order k ∧ f.Reports k e := by
  have hjudged := judged_check f
  constructor
  · intro h
    rw [h] at hjudged
    exact hjudged.failsFirst
  · rintro ⟨k, hk, hreports⟩
    cases hcheck : f.check with
    | ok report =>
      rw [hcheck] at hjudged
      obtain ⟨before, after, horder, -, hfails⟩ := hk
      exact absurd (hjudged.meets.1 k (by rw [horder]; simp)) hfails
    | error e' =>
      rw [hcheck] at hjudged
      obtain ⟨j, hj, hreports'⟩ := hjudged.failsFirst
      obtain rfl := hk.unique hj
      rw [hreports.unique hreports']

theorem check_isOk_iff : (∃ report, f.check = .ok report) ↔ ∀ k, f.Meets k := by
  have hjudged := judged_check f
  constructor
  · rintro ⟨report, h⟩ k
    rw [h] at hjudged
    exact hjudged.meets.1 k (by cases k <;> decide)
  · intro h
    cases hcheck : f.check with
    | ok report => exact ⟨report, rfl⟩
    | error e =>
      rw [hcheck] at hjudged
      obtain ⟨k, ⟨-, -, -, -, hfails⟩, -⟩ := hjudged.failsFirst
      exact absurd (h k) hfails

theorem outputs_of_meets (h : ∀ k, f.Meets k) :
    ∃ report, f.check = .ok report ∧ f.Outputs report := by
  obtain ⟨report, hcheck⟩ := check_isOk_iff.2 h
  have hjudged := judged_check f
  rw [hcheck] at hjudged
  exact ⟨report, hcheck, hjudged.meets.2⟩

theorem check_ne_noValue (f : Fixture) (i : Index) : f.check ≠ .error (.noValue i) := by
  intro h
  obtain ⟨k, -, hreports⟩ := check_eq_error_iff.1 h
  cases hreports

theorem check_eq_gzip_iff {fault : Gzip.Fault} :
    f.check = .error (.archive (.gzip fault)) ↔ Gzip.decompress f.bytecode = .error fault := by
  constructor
  · intro h
    obtain ⟨k, -, hreports⟩ := check_eq_error_iff.1 h
    cases hreports with
    | decompresses hdecompress => exact hdecompress
  · intro h
    rw [check, checkBytecode]
    simp only [h]

theorem check_eq_payload_iff {fault : Payload.Fault} :
    f.check = .error (.archive (.payload fault)) ↔
      ∃ payload, Gzip.decompress f.bytecode = .ok payload ∧
        Circuit.ofPayload payload = .error fault := by
  constructor
  · intro h
    obtain ⟨k, -, hreports⟩ := check_eq_error_iff.1 h
    cases hreports with
    | decodes hdecompress hdecode => exact ⟨_, hdecompress, hdecode⟩
  · rintro ⟨payload, hdecompress, hdecode⟩
    rw [check, checkBytecode]
    simp only [hdecompress, hdecode]

end

/-- The check fails with the fault of the first condition, in its order, that the fixture does not
meet; the lists and the numbers in it are those of the fixture. It passes where all conditions are
met, and then what the circuit returns can be taken out of the expected assignment and is what is
new there. So it never lacks a value, and what is wrong with an archive is that the bytecode does
not decompress or that its payload is no circuit. -/
theorem check_reports_first_fault (f : Fixture) :
    (∀ e, f.check = .error e ↔ ∃ k, f.FailsFirst Condition.order k ∧ f.Reports k e) ∧
    ((∃ report, f.check = .ok report) ↔ ∀ k, f.Meets k) ∧
    ((∀ k, f.Meets k) → ∃ report, f.check = .ok report ∧ f.Outputs report) ∧
    (∀ i, f.check ≠ .error (.noValue i)) ∧
    (∀ fault, f.check = .error (.archive (.gzip fault)) ↔
      Gzip.decompress f.bytecode = .error fault) ∧
    ∀ fault, f.check = .error (.archive (.payload fault)) ↔
      ∃ payload, Gzip.decompress f.bytecode = .ok payload ∧
        Circuit.ofPayload payload = .error fault := by
  exact ⟨fun _ => check_eq_error_iff, check_isOk_iff, outputs_of_meets, check_ne_noValue f,
    fun _ => check_eq_gzip_iff, fun _ => check_eq_payload_iff⟩

/-- The sample fixture meets every condition. -/
theorem sample_meets :
    (∀ k, (sample "first" Field.zero).Meets k) ∧
      ∃ report, (sample "first" Field.zero).check = .ok report ∧
        (sample "first" Field.zero).Outputs report := by
  obtain ⟨-, hok, houtputs, -⟩ := check_reports_first_fault (sample "first" Field.zero)
  have hmeets := hok.1 ⟨_, check_sample "first" Field.zero⟩
  exact ⟨hmeets, houtputs hmeets⟩

end Fixture

end CircuitFixtures
