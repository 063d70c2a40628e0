import CircuitFixtures.Proofs.Assignment.History
import CircuitFixtures.Proofs.Fixture.WrittenAgain
import Mathlib.Data.List.Forall2
import Mathlib.Data.List.Induction

/-!
# Entries in the fixed-width text form

`Assignment.ofFixedEntries` reads entries one by one and adds what it reads to an assignment. What
can be wrong with an entry (`Assignment.Offence`) is its text or that its index stands before it,
and that is said of the list alone. The two are tied together by the indices of the assignment,
which are those of the entries already read (`Assignment.mem_keys_of_ofFixedEntries`); so one more
entry at the end fails where it is an offence (`Assignment.ofFixedEntries_snoc_eq_error_iff`), and a
list fails with its first offence (`Assignment.ofFixedEntries_eq_error_iff`). A list without one
makes the assignment of its values, in any order (`Assignment.ofFixedEntries_eq_ok_iff_mem`), and
written again it is the same list, sorted and with every text in the one form of its value
(`Assignment.rewritten_of_ofFixedEntries`).
-/

namespace CircuitFixtures.Assignment

open IndexMap

variable {m m' : Assignment} {es fs : List (Index × String)} {ps : List (Index × Field)}
  {e : Index × String} {fault fault' : EntryFault} {k : Nat}

/-! ## Offences -/

/-- What is wrong with an entry behind some indices: its text is refused, or it is not and its index
is one of them. -/
inductive Offence (earlier : List Index) : Index × String → EntryFault → Prop
  | badValue {i text e} (refused : Field.ofFixedText text = .error e) :
    Offence earlier (i, text) (.badValue e)
  | duplicate {i text x} (value : Field.ofFixedText text = .ok x) (again : i ∈ earlier) :
    Offence earlier (i, text) (.duplicate i)

theorem offence_of_error {is : List Index} {i : Index} {text : String} {e : Field.Fault}
    (h : Field.ofFixedText text = .error e) :
    Offence is (i, text) fault ↔ fault = .badValue e := by
  constructor
  · intro hoffence
    cases hoffence with
    | badValue hrefused =>
      rw [h] at hrefused
      cases hrefused
      rfl
    | duplicate hvalue =>
      rw [h] at hvalue
      cases hvalue
  · rintro rfl
    exact .badValue h

theorem offence_of_ok {is : List Index} {i : Index} {text : String} {x : Field}
    (h : Field.ofFixedText text = .ok x) :
    Offence is (i, text) fault ↔ i ∈ is ∧ fault = .duplicate i := by
  constructor
  · intro hoffence
    cases hoffence with
    | badValue hrefused =>
      rw [h] at hrefused
      cases hrefused
    | duplicate _ hagain => exact ⟨hagain, rfl⟩
  · rintro ⟨hagain, rfl⟩
    exact .duplicate h hagain

/-- What is wrong at a position of a list, for the entries before it. -/
def OffenceAt (es : List (Index × String)) (k : Nat) (fault : EntryFault) : Prop :=
  ∃ e, es[k]? = some e ∧ Offence ((es.take k).map (·.1)) e fault

/-- Nothing is wrong at any position. -/
def Faultless (es : List (Index × String)) : Prop :=
  ∀ k fault, ¬ OffenceAt es k fault

/-- What is wrong at the first position at which something is. -/
def FirstOffence (es : List (Index × String)) (fault : EntryFault) : Prop :=
  ∃ k, OffenceAt es k fault ∧ ∀ j, j < k → ∀ fault', ¬ OffenceAt es j fault'

theorem OffenceAt.lt_length (h : OffenceAt es k fault) : k < es.length := by
  obtain ⟨e, he, -⟩ := h
  exact (List.getElem?_eq_some_iff.1 he).1

theorem offenceAt_snoc_of_lt (hk : k < es.length) :
    OffenceAt (es ++ [e]) k fault ↔ OffenceAt es k fault := by
  rw [OffenceAt, OffenceAt, List.getElem?_append_left hk, List.take_append_of_le_length (by omega)]

theorem offenceAt_snoc_length :
    OffenceAt (es ++ [e]) es.length fault ↔ Offence (es.map (·.1)) e fault := by
  rw [OffenceAt, List.getElem?_concat_length, List.take_left]
  simp

theorem faultless_snoc_iff :
    Faultless (es ++ [e]) ↔ Faultless es ∧ ∀ fault, ¬ Offence (es.map (·.1)) e fault := by
  constructor
  · intro h
    refine ⟨fun k fault hk => h k fault ?_, fun fault hlast => h es.length fault ?_⟩
    · exact (offenceAt_snoc_of_lt hk.lt_length).2 hk
    · exact offenceAt_snoc_length.2 hlast
  · rintro ⟨hes, hlast⟩ k fault hk
    have hlt := hk.lt_length
    rw [List.length_append, List.length_singleton] at hlt
    rcases Nat.lt_or_eq_of_le (Nat.le_of_lt_succ hlt) with hlt | rfl
    · exact hes k fault ((offenceAt_snoc_of_lt hlt).1 hk)
    · exact hlast fault (offenceAt_snoc_length.1 hk)

theorem firstOffence_snoc_iff :
    FirstOffence (es ++ [e]) fault ↔
      FirstOffence es fault ∨ Faultless es ∧ Offence (es.map (·.1)) e fault := by
  constructor
  · rintro ⟨k, hk, hfirst⟩
    have hlt := hk.lt_length
    rw [List.length_append, List.length_singleton] at hlt
    rcases Nat.lt_or_eq_of_le (Nat.le_of_lt_succ hlt) with hlt | rfl
    · refine .inl ⟨k, (offenceAt_snoc_of_lt hlt).1 hk, fun j hj fault' hoffence => ?_⟩
      exact hfirst j hj fault' ((offenceAt_snoc_of_lt (by omega)).2 hoffence)
    · refine .inr ⟨fun j fault' hoffence => ?_, offenceAt_snoc_length.1 hk⟩
      have hj := hoffence.lt_length
      exact hfirst j hj fault' ((offenceAt_snoc_of_lt hj).2 hoffence)
  · rintro (⟨k, hk, hfirst⟩ | ⟨hes, hlast⟩)
    · have hlt := hk.lt_length
      refine ⟨k, (offenceAt_snoc_of_lt hlt).2 hk, fun j hj fault' hoffence => ?_⟩
      exact hfirst j hj fault' ((offenceAt_snoc_of_lt (by omega)).1 hoffence)
    · refine ⟨es.length, offenceAt_snoc_length.2 hlast, fun j hj fault' hoffence => ?_⟩
      exact hes j fault' ((offenceAt_snoc_of_lt hj).1 hoffence)

/-! ## One more entry -/

theorem addFixedEntries_append :
    m.addFixedEntries (es ++ fs) =
      match m.addFixedEntries es with
      | .error fault => .error fault
      | .ok m => m.addFixedEntries fs := by
  induction es generalizing m with
  | nil => rfl
  | cons e es ih =>
    obtain ⟨i, text⟩ := e
    rw [List.cons_append, addFixedEntries_cons, addFixedEntries_cons]
    cases Field.ofFixedText text with
    | error e => rfl
    | ok x =>
      cases m.contains i with
      | true => rfl
      | false => exact ih

theorem addFixedEntries_singleton_eq_error_iff {is : List Index}
    (h : ∀ i, i ∈ m.keys ↔ i ∈ is) :
    m.addFixedEntries [e] = .error fault ↔ Offence is e fault := by
  obtain ⟨i, text⟩ := e
  rw [addFixedEntries_cons]
  cases hvalue : Field.ofFixedText text with
  | error e =>
    rw [offence_of_error hvalue]
    simp [eq_comm]
  | ok x =>
    rw [offence_of_ok hvalue, ← h, ← contains_iff_mem_keys]
    cases m.contains i with
    | false => simp [addFixedEntries]
    | true => simp [eq_comm]

/-! ## Values -/

/-- The entry with the value of the text in its place. -/
def Valued (e : Index × String) (p : Index × Field) : Prop :=
  p.1 = e.1 ∧ Field.ofFixedText e.2 = .ok p.2

theorem value?_eq_some_iff {p : Index × Field} : value? e = some p ↔ Valued e p := by
  obtain ⟨i, text⟩ := e
  obtain ⟨j, x⟩ := p
  rw [value?, Valued]
  cases Field.ofFixedText text with
  | error e => simp
  | ok y => simp [eq_comm]

theorem mapM_value?_eq_some_iff : es.mapM value? = some ps ↔ List.Forall₂ Valued es ps := by
  induction es generalizing ps with
  | nil => simp [eq_comm]
  | cons e es ih =>
    simp only [mapM_value?_cons_eq_some_iff, ih, value?_eq_some_iff, List.forall₂_cons_left_iff]

theorem ofFixedEntries_eq_ok_iff_valued :
    ofFixedEntries es = .ok m ↔ Distinct es ∧ ∃ ps, List.Forall₂ Valued es ps ∧ m = ofList ps := by
  rw [ofFixedEntries_eq_ok_iff_values, fixedValues?]
  by_cases hes : Distinct es
  · rw [if_pos hes, and_iff_right hes]
    simp only [mapM_value?_eq_some_iff]
  · simp [hes]

theorem keys_of_valued (h : List.Forall₂ Valued es ps) : ps.map (·.1) = es.map (·.1) := by
  induction h with
  | nil => rfl
  | cons hvalued _ ih => rw [List.map_cons, List.map_cons, hvalued.1, ih]

theorem mem_of_valued (h : List.Forall₂ Valued es ps) {i : Index} {x : Field} :
    (i, x) ∈ ps ↔ ∃ text, (i, text) ∈ es ∧ Field.ofFixedText text = .ok x := by
  induction h with
  | nil => simp
  | @cons e p es ps hvalued _ ih =>
    obtain ⟨j, text⟩ := e
    obtain ⟨k, y⟩ := p
    obtain ⟨rfl, hy⟩ := hvalued
    simp only [List.mem_cons, ih, Prod.mk.injEq]
    constructor
    · rintro (⟨rfl, rfl⟩ | ⟨text', hmem, hx⟩)
      · exact ⟨text, .inl ⟨rfl, rfl⟩, hy⟩
      · exact ⟨text', .inr hmem, hx⟩
    · rintro ⟨text', ⟨rfl, rfl⟩ | hmem, hx⟩
      · rw [hy] at hx
        exact .inl ⟨rfl, (Except.ok.inj hx).symm⟩
      · exact .inr ⟨text', hmem, hx⟩

theorem exists_valued_iff :
    (∃ ps, List.Forall₂ Valued es ps) ↔ ∀ e ∈ es, ∃ x, Field.ofFixedText e.2 = .ok x := by
  induction es with
  | nil => simp
  | cons e es ih =>
    rw [List.forall_mem_cons, ← ih]
    constructor
    · rintro ⟨_, hvalued⟩
      cases hvalued with
      | cons he hes => exact ⟨⟨_, he.2⟩, _, hes⟩
    · rintro ⟨⟨x, hx⟩, ps, hes⟩
      exact ⟨(e.1, x) :: ps, .cons ⟨rfl, hx⟩ hes⟩

theorem ofFixedEntries_isOk_iff_forall :
    (∃ m, ofFixedEntries es = .ok m) ↔
      (∀ e ∈ es, ∃ x, Field.ofFixedText e.2 = .ok x) ∧ Distinct es := by
  simp only [ofFixedEntries_eq_ok_iff_valued, ← exists_valued_iff]
  constructor
  · rintro ⟨_, hes, ps, hps, -⟩
    exact ⟨⟨ps, hps⟩, hes⟩
  · rintro ⟨⟨ps, hps⟩, hes⟩
    exact ⟨ofList ps, hes, ps, hps, rfl⟩

/-- The assignment has the value of the text that stands with an index, where there is one. Nothing
in this depends on the order of the entries. -/
theorem ofFixedEntries_eq_ok_iff_mem :
    ofFixedEntries es = .ok m ↔
      Distinct es ∧ (∀ e ∈ es, ∃ x, Field.ofFixedText e.2 = .ok x) ∧
        ∀ i x, m.get? i = some x ↔
          ∃ text, (i, text) ∈ es ∧ Field.ofFixedText text = .ok x := by
  have hget {ps : List (Index × Field)} (hes : Distinct es) (hps : List.Forall₂ Valued es ps)
      (i : Index) (x : Field) : (ofList ps).get? i = some x ↔
        ∃ text, (i, text) ∈ es ∧ Field.ofFixedText text = .ok x := by
    have hdistinct : Distinct ps := by rwa [Distinct, keys_of_valued hps]
    rw [get?_ofList, last?_eq_some_iff hdistinct, mem_of_valued hps]
  rw [ofFixedEntries_eq_ok_iff_valued]
  refine and_congr_right fun hes => ?_
  constructor
  · rintro ⟨ps, hps, rfl⟩
    exact ⟨exists_valued_iff.1 ⟨ps, hps⟩, hget hes hps⟩
  · rintro ⟨htexts, hm⟩
    obtain ⟨ps, hps⟩ := exists_valued_iff.2 htexts
    refine ⟨ps, hps, ext_get? fun i => Option.ext fun x => ?_⟩
    rw [hm, hget hes hps]

theorem ofFixedEntries_of_perm (h : ofFixedEntries es = .ok m) (hperm : fs.Perm es) :
    ofFixedEntries fs = .ok m := by
  rw [ofFixedEntries_eq_ok_iff_mem] at h ⊢
  obtain ⟨hes, htexts, hm⟩ := h
  refine ⟨hes.of_perm hperm.symm, fun e he => htexts e (hperm.mem_iff.1 he), ?_⟩
  simpa only [hperm.mem_iff] using hm

/-- The indices of the assignment are those of the entries that were read. -/
theorem mem_keys_of_ofFixedEntries (h : ofFixedEntries es = .ok m) (i : Index) :
    i ∈ m.keys ↔ i ∈ es.map (·.1) := by
  obtain ⟨-, ps, hps, rfl⟩ := ofFixedEntries_eq_ok_iff_valued.1 h
  rw [mem_keys_ofList, keys_of_valued hps]

/-! ## The first offence -/

theorem ofFixedEntries_snoc_eq_error_iff (h : ofFixedEntries es = .ok m) :
    ofFixedEntries (es ++ [e]) = .error fault ↔ Offence (es.map (·.1)) e fault := by
  rw [ofFixedEntries] at h ⊢
  rw [addFixedEntries_append, h]
  exact addFixedEntries_singleton_eq_error_iff (mem_keys_of_ofFixedEntries h)

theorem ofFixedEntries_snoc_of_error (h : ofFixedEntries es = .error fault) :
    ofFixedEntries (es ++ [e]) = .error fault := by
  rw [ofFixedEntries] at h ⊢
  rw [addFixedEntries_append, h]

-- On the last entry. What was read before it is an assignment or the fault of the first offence.
theorem ofFixedEntries_judged (es : List (Index × String)) :
    ((∃ m, ofFixedEntries es = .ok m) ↔ Faultless es) ∧
      ∀ fault, ofFixedEntries es = .error fault ↔ FirstOffence es fault := by
  induction es using List.reverseRecOn with
  | nil =>
    have hnone : Faultless [] := fun k fault h => Nat.not_lt_zero k h.lt_length
    refine ⟨iff_of_true ⟨empty, rfl⟩ hnone, fun fault => ?_⟩
    constructor
    · intro h
      cases h
    · rintro ⟨k, hk, -⟩
      exact absurd hk (hnone k fault)
  | append_singleton es e ih =>
    obtain ⟨hok, herror⟩ := ih
    rw [faultless_snoc_iff, ← hok]
    simp only [firstOffence_snoc_iff, ← herror, ← hok]
    cases hes : ofFixedEntries es with
    | error fault => simp [ofFixedEntries_snoc_of_error hes]
    | ok m =>
      simp only [← ofFixedEntries_snoc_eq_error_iff hes]
      cases ofFixedEntries (es ++ [e]) <;> simp

theorem ofFixedEntries_eq_error_iff :
    ofFixedEntries es = .error fault ↔ FirstOffence es fault :=
  (ofFixedEntries_judged es).2 fault

/-! ## Entries that are written again -/

/-- The entry with the canonical text of its value in the place of the text. -/
def Rewritten (e t : Index × String) : Prop :=
  t.1 = e.1 ∧ ∃ x, Field.ofFixedText e.2 = .ok x ∧ Field.IsTextOf t.2 x

theorem rewritten_of_ofFixedEntries (h : ofFixedEntries es = .ok m) :
    ∃ ts, ts.Perm m.toFixedEntries ∧ List.Forall₂ Rewritten es ts := by
  obtain ⟨hes, ps, hps, rfl⟩ := ofFixedEntries_eq_ok_iff_valued.1 h
  have hdistinct : Distinct ps := by rwa [Distinct, keys_of_valued hps]
  refine ⟨ps.map fun p => (p.1, p.2.toText), ((perm_entries_ofList hdistinct).map _).symm, ?_⟩
  rw [List.forall₂_map_right_iff]
  exact hps.imp fun e p hvalued => ⟨hvalued.1, p.2, hvalued.2, Field.isTextOf_toText p.2⟩

theorem ascending_toFixedEntries (m : Assignment) :
    m.toFixedEntries.Pairwise (fun p q => p.1 < q.1) :=
  List.pairwise_map.2 m.ascending

/-- Entries make an assignment exactly where every text is accepted on its own and no index stands
twice. Otherwise the fault is that of the first position at which something is wrong, and there
that of the text comes before that of the index. The order of entries that make an assignment does
not matter, and written again they are sorted, one for each of them, with the canonical text of its
value; the entries that an assignment is written as make it again. -/
theorem fixedEntries_read (es : List (Index × String)) :
    ((∃ m, ofFixedEntries es = .ok m) ↔
      (∀ e ∈ es, ∃ x, Field.ofFixedText e.2 = .ok x) ∧ Distinct es) ∧
    (∀ fault, ofFixedEntries es = .error fault ↔ FirstOffence es fault) ∧
    (∀ m, ofFixedEntries es = .ok m →
      (∀ fs, fs.Perm es → ofFixedEntries fs = .ok m) ∧
      m.toFixedEntries.Pairwise (fun p q => p.1 < q.1) ∧
      ∃ ts, ts.Perm m.toFixedEntries ∧ List.Forall₂ Rewritten es ts) ∧
    ∀ m, ofFixedEntries m.toFixedEntries = .ok m :=
  ⟨ofFixedEntries_isOk_iff_forall, fun _ => ofFixedEntries_eq_error_iff,
    fun m h => ⟨fun _ => ofFixedEntries_of_perm h, ascending_toFixedEntries m,
      rewritten_of_ofFixedEntries h⟩,
    ofFixedEntries_toFixedEntries⟩

/-- Entries that are not sorted, one with a lead that stands twice and one with a digit in upper
case. -/
def mixedEntries : List (Index × String) :=
  [(7, "0x0x00000000000000000000000000000000000000000000000000000000000001"),
    (2, "0x000000000000000000000000000000000000000000000000000000000000000A")]

/-- The assignment that they make. -/
def mixedValues : Assignment :=
  ofList [(7, Field.one), (2, Artifact.ten)]

theorem ofFixedEntries_mixed : ofFixedEntries mixedEntries = .ok mixedValues := by
  have hone := Field.ofFixedText_eq_ok_iff.2 Artifact.denotes_doubledLead
  have hten := Field.ofFixedText_eq_ok_iff.2 Artifact.denotes_upperCase
  refine ofFixedEntries_eq_ok_iff_valued.2 ⟨by decide, [(7, Field.one), (2, Artifact.ten)], ?_, rfl⟩
  exact .cons ⟨rfl, hone⟩ (.cons ⟨rfl, hten⟩ .nil)

theorem mixed_read :
    ofFixedEntries mixedEntries = .ok mixedValues ∧
      ofFixedEntries mixedEntries.reverse = .ok mixedValues ∧
      ∃ ts, ts.Perm mixedValues.toFixedEntries ∧ List.Forall₂ Rewritten mixedEntries ts := by
  obtain ⟨-, -, hread, -⟩ := fixedEntries_read mixedEntries
  obtain ⟨hperm, -, hwritten⟩ := hread mixedValues ofFixedEntries_mixed
  exact ⟨ofFixedEntries_mixed, hperm _ (List.reverse_perm _), hwritten⟩

end CircuitFixtures.Assignment
