import CircuitFixtures.Proofs.Archive.Lossless
import CircuitFixtures.Proofs.Fixture.ArtifactRoundTrip
import CircuitFixtures.Proofs.Index.Repeats

/-!
# Histories of an assignment

An assignment is collected from entries, read from texts or unpacked from an archive, and entries are
inserted. `Assignment.written` keeps all entries that such steps write, in order and with the repeats;
the invariant is that the assignment is the one of these entries (`Assignment.made_eq_ofList`). So the
last value written at each index fixes it, and with it all that is written out
(`Assignment.made_of_last_values`).
-/

namespace CircuitFixtures.Assignment

open IndexMap

variable {m m' : Assignment} {es : List (Index × String)} {ps : List (Index × Field)}

/-! ## Entries in the fixed-width text form -/

/-- The entry with the value of its text, if it has one. -/
def value? (e : Index × String) : Option (Index × Field) :=
  match Field.ofFixedText e.2 with
  | .ok x => some (e.1, x)
  | .error _ => none

/-- The entries with the values of their texts, where no index stands twice. -/
def fixedValues? (es : List (Index × String)) : Option (List (Index × Field)) :=
  if Distinct es then es.mapM value? else none

theorem mapM_value?_cons_eq_some_iff {e : Index × String} :
    (e :: es).mapM value? = some ps ↔
      ∃ p qs, value? e = some p ∧ es.mapM value? = some qs ∧ ps = p :: qs := by
  rw [List.mapM_cons]
  cases value? e <;> cases es.mapM value? <;> simp [eq_comm]

theorem get?_insert_eq_none_iff {i j : Index} {x : Field} :
    IndexMap.get? (m.insert i x) j = none ↔ j ≠ i ∧ m.get? j = none := by
  rw [get?_insert]
  by_cases hj : j = i <;> simp [hj]

/-- Entries are added where their texts have values and their indices are new, and then they are
inserted one after the other. -/
theorem addFixedEntries_eq_ok_iff_values :
    m.addFixedEntries es = .ok m' ↔
      (Distinct es ∧ ∀ e ∈ es, m.get? e.1 = none) ∧
        ∃ ps, es.mapM value? = some ps ∧ m' = ps.foldl (fun m p => m.insert p.1 p.2) m := by
  induction es generalizing m with
  | nil => simp [addFixedEntries, Distinct, eq_comm]
  | cons e es ih =>
    obtain ⟨i, text⟩ := e
    rw [addFixedEntries_cons]
    cases hvalue : Field.ofFixedText text with
    | error e =>
      have hnone : value? (i, text) = none := by rw [value?, hvalue]
      simp [hnone]
    | ok x =>
      have hsome : value? (i, text) = some (i, x) := by rw [value?, hvalue]
      have hnew : (Distinct es ∧ ∀ e ∈ es, IndexMap.get? (m.insert i x) e.1 = none) ∧
          m.get? i = none ↔
          Distinct ((i, text) :: es) ∧ ∀ e ∈ (i, text) :: es, m.get? e.1 = none := by
        simp only [Distinct, List.map_cons, List.nodup_cons, List.forall_mem_cons, List.mem_map,
          get?_insert_eq_none_iff]
        grind
      have hrest : (∃ ps, ((i, text) :: es).mapM value? = some ps ∧
            m' = ps.foldl (fun m p => m.insert p.1 p.2) m) ↔
          ∃ ps, es.mapM value? = some ps ∧
            m' = ps.foldl (fun m p => m.insert p.1 p.2) (m.insert i x) := by
        simp only [mapM_value?_cons_eq_some_iff, hsome]
        constructor
        · rintro ⟨_, ⟨_, qs, hp, hqs, rfl⟩, hm'⟩
          cases hp
          exact ⟨qs, hqs, hm'⟩
        · rintro ⟨qs, hqs, hm'⟩
          exact ⟨_, ⟨_, qs, rfl, hqs, rfl⟩, hm'⟩
      rw [← hnew, hrest]
      cases hi : m.get? i with
      | none => simp [IndexMap.contains, hi, ih]
      | some y => simp [IndexMap.contains, hi]

theorem ofFixedEntries_eq_ok_iff_values :
    ofFixedEntries es = .ok m ↔ ∃ ps, fixedValues? es = some ps ∧ m = ofList ps := by
  have hempty : ∀ e ∈ es, get? (empty : Assignment) e.1 = none := fun e _ => get?_empty e.1
  rw [ofFixedEntries, addFixedEntries_eq_ok_iff_values, fixedValues?]
  by_cases hes : Distinct es
  · rw [if_pos hes]
    exact and_iff_right ⟨hes, hempty⟩
  · simp [hes]

/-! ## Entries in an archive -/

/-- The entries that an archive holds, in order and with the repeats. -/
def packed? (archive : List UInt8) : Option (List (Index × Field)) :=
  (openArchive (fun xs => (Payload.list Payload.entry xs).map (·.1)) archive).toOption

theorem toOption_ofArchive (archive : List UInt8) :
    (ofArchive archive).toOption = (packed? archive).map ofList := by
  rw [ofArchive, packed?, openArchive, openArchive]
  cases Gzip.decompress archive with
  | error e => rfl
  | ok payload =>
    simp only [ofPayload]
    cases Payload.list Payload.entry payload <;> rfl

/-! ## Steps -/

/-- A way to make an assignment, or to change the one that is there. -/
inductive Step where
  | collect (es : List (Index × Field))
  | insert (i : Index) (x : Field)
  | load (es : List (Index × String))
  | unpack (archive : List UInt8)

/-- The assignment after a step. A step that fails leaves it as it is. -/
def Step.after (m : Assignment) : Step → Assignment
  | .collect es => ofList es
  | .insert i x => (m.exchange i x).2
  | .load es => (ofFixedEntries es).toOption.getD m
  | .unpack archive => (ofArchive archive).toOption.getD m

/-- The entries that are written after a step, if those in `ps` were before. -/
def Step.writes (ps : List (Index × Field)) : Step → List (Index × Field)
  | .collect es => es
  | .insert i x => ps ++ [(i, x)]
  | .load es => (fixedValues? es).getD ps
  | .unpack archive => (packed? archive).getD ps

/-- The assignment that a history makes. -/
def made (steps : List Step) : Assignment :=
  steps.foldl Step.after empty

/-- The entries that a history writes: all since the assignment was last made anew, in order. -/
def written (steps : List Step) : List (Index × Field) :=
  steps.foldl Step.writes []

theorem toOption_ofFixedEntries (es : List (Index × String)) :
    (ofFixedEntries es).toOption = (fixedValues? es).map ofList := by
  apply Option.ext
  intro m
  have hok : (ofFixedEntries es).toOption = some m ↔ ofFixedEntries es = .ok m := by
    cases ofFixedEntries es <;> simp [Except.toOption]
  rw [hok, ofFixedEntries_eq_ok_iff_values, Option.map_eq_some_iff]
  simp only [eq_comm]

theorem after_ofList (ps : List (Index × Field)) (s : Step) :
    s.after (ofList ps) = ofList (s.writes ps) := by
  cases s with
  | collect es => rfl
  | insert i x =>
    rw [Step.after, Step.writes, exchange_eq, ofList, ofList, List.foldl_append]
    rfl
  | load es =>
    rw [Step.after, Step.writes, toOption_ofFixedEntries]
    cases fixedValues? es <;> rfl
  | unpack archive =>
    rw [Step.after, Step.writes, toOption_ofArchive]
    cases packed? archive <;> rfl

/-- Whatever the history is, the assignment is that of the entries it writes. -/
theorem made_eq_ofList (steps : List Step) : made steps = ofList (written steps) := by
  have hrun : ∀ ps, steps.foldl Step.after (ofList ps) = ofList (steps.foldl Step.writes ps) := by
    induction steps with
    | nil => exact fun _ => rfl
    | cons s steps ih =>
      intro ps
      rw [List.foldl_cons, List.foldl_cons, after_ofList, ih]
  exact hrun []

/-! ## What a history leaves -/

/-- The histories leave the same last value at every index. -/
def SameLast (steps steps' : List Step) : Prop :=
  ∀ i, last? i (written steps) = last? i (written steps')

variable {steps steps' : List Step}

theorem get?_made (steps : List Step) (i : Index) :
    (made steps).get? i = last? i (written steps) := by
  rw [made_eq_ofList, get?_ofList]

theorem made_eq_iff : made steps = made steps' ↔ SameLast steps steps' := by
  simp only [SameLast, ← get?_made]
  constructor
  · exact fun h i => by rw [h]
  · exact ext_get?

theorem made_insert (steps : List Step) (i : Index) (x : Field) :
    made (steps ++ [.insert i x]) = (made steps).insert i x := by
  rw [made, List.foldl_append, ← made, List.foldl_cons, List.foldl_nil, Step.after, exchange_eq]

theorem toArchive_injective {m n : Assignment} (h : m.toArchive = n.toArchive) : m = n := by
  have hread := ofArchive_toArchive m
  rw [h, ofArchive_toArchive] at hread
  exact (Except.ok.inj hread).symm

theorem toFixedEntries_injective {m n : Assignment} (h : m.toFixedEntries = n.toFixedEntries) :
    m = n := by
  have hread := ofFixedEntries_toFixedEntries m
  rw [h, ofFixedEntries_toFixedEntries] at hread
  exact (Except.ok.inj hread).symm

/-- Whatever steps make an assignment: its entries ascend and are those that were written last, an
insertion gives back what was written last at the index, and the size is the number of different
indices. The assignments of two histories, their archives, their entries as texts and the files they
are saved in are the same exactly where the histories leave the same last values. -/
theorem made_of_last_values (steps : List Step) :
    ((made steps).toList.Pairwise (fun p q => p.1 < q.1) ∧
      ∀ p, p ∈ (made steps).toList ↔ last? p.1 (written steps) = some p.2) ∧
    (∀ i, (made steps).get? i = last? i (written steps)) ∧
    (∀ i x, (made steps).exchange i x =
      (last? i (written steps), made (steps ++ [.insert i x]))) ∧
    (made steps).size = ((written steps).map (·.1)).eraseDups.length ∧
    ∀ steps',
      (made steps = made steps' ↔ SameLast steps steps') ∧
      ((made steps).toArchive = (made steps').toArchive ↔ SameLast steps steps') ∧
      ((made steps).toFixedEntries = (made steps').toFixedEntries ↔ SameLast steps steps') ∧
      ∀ f : Fixture,
        ((Artifact.ofFixture { f with initial := made steps }).fileText =
            (Artifact.ofFixture { f with initial := made steps' }).fileText ↔
          SameLast steps steps') ∧
        ((Artifact.ofFixture { f with expected := made steps }).fileText =
            (Artifact.ofFixture { f with expected := made steps' }).fileText ↔
          SameLast steps steps') := by
  refine ⟨⟨(made steps).ascending, fun p => ?_⟩, get?_made steps, fun i x => ?_, ?_, fun steps' => ?_⟩
  · rw [← get?_made, get?_eq_some]
    rfl
  · rw [exchange_eq, get?_made, made_insert]
  · rw [made_eq_ofList, size_ofList]
  · have hinitial (f : Fixture) :
        (Artifact.ofFixture { f with initial := made steps }).fileText =
          (Artifact.ofFixture { f with initial := made steps' }).fileText ↔
        made steps = made steps' :=
      ⟨fun h => congrArg Fixture.initial (Artifact.fileText_ofFixture_injective h),
        fun h => by rw [h]⟩
    have hexpected (f : Fixture) :
        (Artifact.ofFixture { f with expected := made steps }).fileText =
          (Artifact.ofFixture { f with expected := made steps' }).fileText ↔
        made steps = made steps' :=
      ⟨fun h => congrArg Fixture.expected (Artifact.fileText_ofFixture_injective h),
        fun h => by rw [h]⟩
    exact ⟨made_eq_iff, .trans ⟨toArchive_injective, congrArg toArchive⟩ made_eq_iff,
      .trans ⟨toFixedEntries_injective, congrArg toFixedEntries⟩ made_eq_iff,
      fun f => ⟨(hinitial f).trans made_eq_iff, (hexpected f).trans made_eq_iff⟩⟩

-- The last values are the same, in another order and with other repeats.
example : made [.collect [(3, Field.one), (1, Field.zero), (3, Field.zero)]] =
    made [.insert 7 Field.one, .collect [], .insert 3 Field.zero, .insert 1 Field.zero] := by
  decide

end CircuitFixtures.Assignment
