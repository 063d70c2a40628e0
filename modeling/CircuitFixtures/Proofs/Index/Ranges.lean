import CircuitFixtures.Index.Ranges
import CircuitFixtures.Proofs.Index.Ascending
import CircuitFixtures.Proofs.Text.Words

/-!
# The ranges of a set

A set of indices is covered by ranges that do not touch in one way only (`IndexRange.Covers.unique`),
and `IndexRange.ofAscending` finds it: an index in front of all others leaves the ranges apart, or
makes the first of them longer (`IndexRange.Covers.prepend`). Ranges can be told from their text
(`IndexRange.Written.unique`). So the text of a list says which indices are in it, and nothing else
(`rangesText_canonical`).
-/

namespace CircuitFixtures

namespace IndexRange

/-! ## Covering a set -/

/-- At least one index is missing between the two ranges. -/
def Apart (r s : IndexRange) : Prop :=
  r.last.toNat + 1 < s.first.toNat

/-- Ascending ranges with gaps between them, of the indices that are wanted and no others. -/
structure Covers (rs : List IndexRange) (wanted : Index → Prop) : Prop where
  ordered : ∀ r ∈ rs, r.first ≤ r.last
  apart : rs.Pairwise Apart
  contains_iff : ∀ i, (∃ r ∈ rs, r.Contains i) ↔ wanted i

section

variable {i j : Index} {r : IndexRange} {rs rs' : List IndexRange} {wanted wanted' : Index → Prop}

theorem Covers.congr (h : Covers rs wanted) (hw : ∀ i, wanted i ↔ wanted' i) :
    Covers rs wanted' :=
  ⟨h.ordered, h.apart, fun i => (h.contains_iff i).trans (hw i)⟩

theorem covers_nil_iff : Covers [] wanted ↔ ∀ i, ¬ wanted i := by
  constructor
  · intro h i hi
    obtain ⟨r, hr, -⟩ := (h.contains_iff i).2 hi
    cases hr
  · intro h
    refine ⟨fun r hr => ?_, .nil, fun i => iff_of_false ?_ (h i)⟩
    · cases hr
    · rintro ⟨r, hr, -⟩
      cases hr

/-- The first range goes from the smallest index to the last one before a gap, and the other ranges
cover the indices behind it. -/
theorem covers_cons_iff :
    Covers (r :: rs) wanted ↔ r.first ≤ r.last ∧ (∀ i, wanted i → r.first ≤ i) ∧
      (∀ i, r.Contains i → wanted i) ∧ (∀ i, i.toNat = r.last.toNat + 1 → ¬ wanted i) ∧
      Covers rs (fun i => wanted i ∧ r.last < i) := by
  simp only [Contains, UInt32.le_iff_toNat_le, UInt32.lt_iff_toNat_lt]
  constructor
  · intro h
    have hordered := UInt32.le_iff_toNat_le.1 (h.ordered r List.mem_cons_self)
    obtain ⟨hapart, hrest⟩ := List.pairwise_cons.1 h.apart
    -- A wanted index is in the first range or in one that is apart from it.
    have hwhere (i : Index) (hi : wanted i) : r.Contains i ∨
        (∃ s ∈ rs, s.Contains i) ∧ r.last.toNat + 1 < i.toNat := by
      obtain ⟨s, hs, hsi⟩ := (h.contains_iff i).2 hi
      rcases List.mem_cons.1 hs with rfl | hs
      · exact .inl hsi
      · have hgap := hapart s hs
        have hfirst := UInt32.le_iff_toNat_le.1 hsi.1
        exact .inr ⟨⟨s, hs, hsi⟩, Nat.lt_of_lt_of_le hgap hfirst⟩
    simp only [Contains, UInt32.le_iff_toNat_le] at hwhere
    refine ⟨hordered, fun i hi => ?_, fun i hi => ?_, fun i hnext hi => ?_, ?_⟩
    · rcases hwhere i hi with hr | ⟨-, hr⟩ <;> omega
    · exact (h.contains_iff i).1 ⟨r, List.mem_cons_self, hi⟩
    · rcases hwhere i hi with hr | ⟨-, hr⟩ <;> omega
    · refine ⟨fun s hs => h.ordered s (List.mem_cons_of_mem _ hs), hrest, fun i => ?_⟩
      constructor
      · rintro ⟨s, hs, hsi⟩
        have hgap : r.last.toNat + 1 < s.first.toNat := hapart s hs
        have hfirst := UInt32.le_iff_toNat_le.1 hsi.1
        exact ⟨(h.contains_iff i).1 ⟨s, List.mem_cons_of_mem _ hs, hsi⟩, by omega⟩
      · rintro ⟨hi, hlast⟩
        rcases hwhere i hi with hr | ⟨hs, -⟩
        · omega
        · exact hs
  · rintro ⟨hordered, hfirst, hcontains, hnext, h⟩
    refine ⟨?_, List.pairwise_cons.2 ⟨fun s hs => ?_, h.apart⟩, fun i => ?_⟩
    · rintro s (_ | ⟨_, hs⟩)
      · exact hordered
      · exact h.ordered s hs
    · obtain ⟨hwanted, hlast⟩ :=
        (h.contains_iff s.first).1 ⟨s, hs, UInt32.le_refl _, h.ordered s hs⟩
      have hgap : s.first.toNat ≠ r.last.toNat + 1 := fun heq => hnext s.first heq hwanted
      change r.last.toNat + 1 < s.first.toNat
      omega
    · constructor
      · rintro ⟨s, hs, hsi⟩
        rcases List.mem_cons.1 hs with rfl | hs
        · exact hcontains i hsi
        · exact ((h.contains_iff i).1 ⟨s, hs, hsi⟩).1
      · intro hi
        by_cases hlast : i.toNat ≤ r.last.toNat
        · exact ⟨r, List.mem_cons_self, hfirst i hi, hlast⟩
        · obtain ⟨s, hs, hsi⟩ := (h.contains_iff i).2 ⟨hi, Nat.not_le.1 hlast⟩
          exact ⟨s, List.mem_cons_of_mem _ hs, hsi⟩

private theorem exists_next (h : i < j) : ∃ k : Index, k.toNat = i.toNat + 1 := by
  have hij := UInt32.lt_iff_toNat_lt.1 h
  have hj := UInt32.toNat_lt j
  exact ⟨UInt32.ofNat (i.toNat + 1), UInt32.toNat_ofNat_of_lt' (by simp [UInt32.size]; omega)⟩

/-- Ranges that cover the same indices end their first range in front of the same gap. -/
private theorem last_le {r r' : IndexRange} (hcovers : Covers (r :: rs) wanted)
    (hcovers' : Covers (r' :: rs') wanted) (hfirst : r'.first = r.first) : r'.last ≤ r.last := by
  obtain ⟨hordered, -, -, hgap, -⟩ := covers_cons_iff.1 hcovers
  obtain ⟨-, -, hcontains, -⟩ := covers_cons_iff.1 hcovers'
  refine UInt32.not_lt.1 fun hlt => ?_
  obtain ⟨k, hk⟩ := exists_next hlt
  rw [UInt32.lt_iff_toNat_lt] at hlt
  rw [UInt32.le_iff_toNat_le] at hordered
  refine hgap k hk (hcontains k ⟨?_, ?_⟩)
  · rw [hfirst, UInt32.le_iff_toNat_le]
    omega
  · rw [UInt32.le_iff_toNat_le]
    omega

/-- There is one way to cover a set with ranges that do not touch. -/
theorem Covers.unique (h : Covers rs wanted) (h' : Covers rs' wanted) : rs = rs' := by
  induction rs generalizing rs' wanted with
  | nil =>
    cases rs' with
    | nil => rfl
    | cons r' rs' =>
      obtain ⟨hordered, -, hcontains, -⟩ := covers_cons_iff.1 h'
      exact absurd (hcontains r'.first ⟨UInt32.le_refl _, hordered⟩) (covers_nil_iff.1 h _)
  | cons r rs ih =>
    obtain ⟨hordered, hleast, hcontains, -, hrest⟩ := covers_cons_iff.1 h
    cases rs' with
    | nil => exact absurd (hcontains r.first ⟨UInt32.le_refl _, hordered⟩) (covers_nil_iff.1 h' _)
    | cons r' rs' =>
      obtain ⟨hordered', hleast', hcontains', -, hrest'⟩ := covers_cons_iff.1 h'
      have hfirst : r.first = r'.first :=
        UInt32.le_antisymm (hleast _ (hcontains' _ ⟨UInt32.le_refl _, hordered'⟩))
          (hleast' _ (hcontains _ ⟨UInt32.le_refl _, hordered⟩))
      have hlast : r.last = r'.last :=
        UInt32.le_antisymm (last_le h' h hfirst) (last_le h h' hfirst.symm)
      obtain ⟨first, last⟩ := r
      cases hfirst
      cases hlast
      rw [ih hrest hrest']

/-- An index in front of all others is a range of its own, or goes on to the first range. -/
theorem Covers.prepend (h : Covers rs wanted) (hi : ∀ j, wanted j → i < j) :
    Covers (IndexRange.prepend i rs) (fun j => j = i ∨ wanted j) := by
  have hle (j : Index) (hj : j = i ∨ wanted j) : i ≤ j := by
    rcases hj with rfl | hj
    · exact UInt32.le_refl _
    · exact UInt32.le_of_lt (hi j hj)
  -- What is wanted behind an index that is not in front of `i`.
  have hbehind (k : Index) (hk : i ≤ k) (j : Index) :
      wanted j ∧ k < j ↔ (j = i ∨ wanted j) ∧ k < j := by
    refine and_congr_left fun hlt => (or_iff_right ?_).symm
    rintro rfl
    exact UInt32.not_lt.2 hk hlt
  have hself : Covers rs (fun j => (j = i ∨ wanted j) ∧ i < j) :=
    h.congr fun j => ⟨fun hj => ⟨.inr hj, hi j hj⟩, fun hj => ((hbehind i (UInt32.le_refl _) j).2 hj).1⟩
  have halone (j : Index) (hj : (IndexRange.mk i i).Contains j) : j = i ∨ wanted j :=
    .inl (UInt32.le_antisymm hj.2 hj.1)
  fun_cases IndexRange.prepend i rs with
  | case1 =>
    refine covers_cons_iff.2 ⟨UInt32.le_refl _, hle, halone, ?_, hself⟩
    rintro j hj (rfl | hwanted)
    · exact Nat.succ_ne_self _ hj.symm
    · exact covers_nil_iff.1 h j hwanted
  | case2 r rs hnext =>
    obtain ⟨hordered, -, hcontains, hgap, hrest⟩ := covers_cons_iff.1 h
    have hlast : i ≤ r.last := by
      rw [UInt32.le_iff_toNat_le] at hordered ⊢
      omega
    refine covers_cons_iff.2 ⟨hlast, hle, fun j hj => ?_, ?_, hrest.congr (hbehind r.last hlast)⟩
    · by_cases heq : j = i
      · exact .inl heq
      · have hij : i < j := UInt32.lt_of_le_of_ne hj.1 (Ne.symm heq)
        refine .inr (hcontains j ⟨?_, hj.2⟩)
        rw [UInt32.lt_iff_toNat_lt] at hij
        rw [UInt32.le_iff_toNat_le]
        omega
    · rintro j hj (rfl | hwanted)
      · have hjlast : j.toNat = r.last.toNat + 1 := hj
        rw [UInt32.le_iff_toNat_le] at hlast
        omega
      · exact hgap j hj hwanted
  | case3 r rs hnext =>
    obtain ⟨hordered, hleast, hcontains, -, -⟩ := covers_cons_iff.1 h
    refine covers_cons_iff.2 ⟨UInt32.le_refl _, hle, halone, ?_, hself⟩
    rintro j hj (rfl | hwanted)
    · exact Nat.succ_ne_self _ hj.symm
    · have hafter := UInt32.lt_iff_toNat_lt.1 (hi _ (hcontains r.first ⟨UInt32.le_refl _, hordered⟩))
      have hbefore := UInt32.le_iff_toNat_le.1 (hleast j hwanted)
      have hjnext : j.toNat = i.toNat + 1 := hj
      omega

theorem covers_ofAscending {is : List Index} (h : is.Pairwise (· < ·)) :
    Covers (ofAscending is) (· ∈ is) := by
  induction is with
  | nil => exact covers_nil_iff.2 fun i hi => by cases hi
  | cons i is ih =>
    obtain ⟨hi, hrest⟩ := List.pairwise_cons.1 h
    exact ((ih hrest).prepend hi).congr fun j => List.mem_cons.symm

end

/-! ## The text of ranges -/

/-- The text of a range: its only index, or the first and the last one. -/
inductive Spells : IndexRange → List Char → Prop
  | single (i : Index) : Spells ⟨i, i⟩ (digits i.toNat)
  | span {i j : Index} (lt : i < j) :
    Spells ⟨i, j⟩ (digits i.toNat ++ ("..=".toList ++ digits j.toNat))

/-- The texts of one or more ranges, with a comma and a blank between them. -/
inductive Written : List IndexRange → List Char → Prop
  | last {r : IndexRange} {t : List Char} (spells : Spells r t) : Written [r] t
  | more {r : IndexRange} {rs : List IndexRange} {t u : List Char} (spells : Spells r t)
    (rest : Written rs u) : Written (r :: rs) (t ++ (", ".toList ++ u))

section

variable {r r' : IndexRange} {rs rs' : List IndexRange} {t t' cs ds : List Char}

theorem spells_text (h : r.first ≤ r.last) : Spells r r.text.toList := by
  obtain ⟨i, j⟩ := r
  rw [text]
  split
  · rename_i heq
    cases heq
    exact .single i
  · rename_i hne
    rw [String.toList_append, String.toList_append, List.append_assoc]
    exact .span (UInt32.lt_of_le_of_ne h hne)

theorem written_intercalate (h : ∀ r ∈ rs, r.first ≤ r.last) (hne : rs ≠ []) :
    Written rs (", ".intercalate (rs.map text)).toList := by
  induction rs with
  | nil => exact absurd rfl hne
  | cons r rs ih =>
    have hr := spells_text (h r List.mem_cons_self)
    cases rs with
    | nil => simpa using Written.last hr
    | cons s rs =>
      have hrest := ih (fun s hs => h s (List.mem_cons_of_mem _ hs)) (List.cons_ne_nil s rs)
      rw [List.map_cons, List.map_cons, String.intercalate_cons_cons, String.toList_append,
        String.toList_append, List.append_assoc]
      exact .more hr hrest

private theorem ends_dots (cs : List Char) : Ends (·.isDigit = true) ("..=".toList ++ cs) :=
  .cons (by decide)

private theorem ends_comma (cs : List Char) : Ends (· ≠ ',') (", ".toList ++ cs) :=
  .cons fun hne => hne rfl

theorem Spells.unique (h : Spells r t) (h' : Spells r' t) : r = r' := by
  generalize ht : t = t' at h'
  cases h with
  | single i =>
    cases h' with
    | single j => rw [UInt32.toNat_inj.1 (digits_injective ht)]
    | span hlt =>
      rw [← List.append_nil (digits i.toNat)] at ht
      cases (Ends.nil.digits_unique (ends_dots _) ht).2
  | span hlt =>
    cases h' with
    | single j =>
      rw [← List.append_nil (digits j.toNat)] at ht
      cases ((ends_dots _).digits_unique .nil ht).2
    | span hlt' =>
      obtain ⟨hfirst, hrest⟩ := (ends_dots _).digits_unique (ends_dots _) ht
      have hlast := digits_injective (List.append_cancel_left hrest)
      rw [UInt32.toNat_inj.1 hfirst, UInt32.toNat_inj.1 hlast]

theorem Spells.not_comma (h : Spells r t) : ∀ c ∈ t, c ≠ ',' := by
  have hdigits (n : Nat) (c : Char) (hc : c ∈ digits n) : c ≠ ',' := by
    rintro rfl
    exact absurd (isDigit_of_mem_digits hc) (by decide)
  have hdots (c : Char) (hc : c ∈ "..=".toList) : c ≠ ',' := by
    rintro rfl
    exact absurd hc (by decide)
  intro c hc
  cases h with
  | single i => exact hdigits _ c hc
  | span hlt =>
    rcases List.mem_append.1 hc with hc | hc
    · exact hdigits _ c hc
    · exact (List.mem_append.1 hc).elim (hdots c) (hdigits _ c)

theorem Spells.text_eq (h : Spells r t) (h' : Spells r t') : t = t' := by
  cases h with
  | single i =>
    cases h' with
    | single => rfl
    | span hlt => exact absurd hlt (UInt32.lt_irrefl _)
  | span hlt =>
    cases h' with
    | single => exact absurd hlt (UInt32.lt_irrefl _)
    | span => rfl

/-- The text of a range ends in front of a comma. -/
theorem Spells.cut (h : Spells r t) (h' : Spells r' t') (hcs : Ends (· ≠ ',') cs)
    (hds : Ends (· ≠ ',') ds) (heq : t ++ cs = t' ++ ds) : r = r' ∧ cs = ds := by
  obtain ⟨rfl, hrest⟩ := hcs.unique h.not_comma h'.not_comma hds heq
  exact ⟨h.unique h', hrest⟩

/-- The text of ranges says which ranges they are. -/
theorem Written.unique (h : Written rs t) (h' : Written rs' t) : rs = rs' := by
  induction h generalizing rs' with
  | @last r t hspells =>
    generalize ht : t = t' at h'
    cases h' with
    | last hspells' =>
      subst ht
      rw [hspells.unique hspells']
    | more hspells' hrest' =>
      rw [← List.append_nil t] at ht
      cases (hspells.cut hspells' .nil (ends_comma _) ht).2
  | @more r rs t u hspells hrest ih =>
    generalize ht : t ++ (", ".toList ++ u) = t' at h'
    cases h' with
    | last hspells' =>
      rw [← List.append_nil t'] at ht
      cases (hspells.cut hspells' (ends_comma _) .nil ht).2
    | more hspells' hrest' =>
      obtain ⟨rfl, htail⟩ := hspells.cut hspells' (ends_comma _) (ends_comma _) ht
      have hu := List.append_cancel_left htail
      subst hu
      rw [ih hrest']

theorem Written.text_eq (h : Written rs t) (h' : Written rs t') : t = t' := by
  induction h generalizing t' with
  | last hspells =>
    cases h' with
    | last hspells' => exact hspells.text_eq hspells'
    | more _ hrest' => cases hrest'
  | more hspells hrest ih =>
    cases h' with
    | last => cases hrest
    | more hspells' hrest' => rw [hspells.text_eq hspells', ih hrest']

private theorem exists_digit (n : Nat) (cs : List Char) :
    ∃ d ds, digits n ++ cs = d :: ds ∧ d.isDigit = true := by
  obtain ⟨d, ds, hds⟩ := List.exists_cons_of_ne_nil (digits_eq n ▸ Nat.toDigits_ne_nil)
  have hd : d ∈ digits n := hds ▸ List.mem_cons_self
  exact ⟨d, ds ++ cs, by rw [hds, List.cons_append], isDigit_of_mem_digits hd⟩

theorem Spells.exists_digit (h : Spells r t) (cs : List Char) :
    ∃ d ds, t ++ cs = d :: ds ∧ d.isDigit = true := by
  cases h with
  | single i => exact IndexRange.exists_digit _ cs
  | span hlt =>
    rw [List.append_assoc]
    exact IndexRange.exists_digit _ _

theorem not_written_dash : ¬ Written rs "-".toList := by
  intro h
  obtain ⟨d, ds, hds, hd⟩ : ∃ d ds, "-".toList = d :: ds ∧ d.isDigit = true := by
    generalize "-".toList = t at h
    cases h with
    | last hspells => simpa using hspells.exists_digit []
    | more hspells hrest => exact hspells.exists_digit _
  cases hds
  cases hd

end

end IndexRange

/-! ## The text of a list -/

open IndexRange

variable {is js : List Index}

theorem covers_ranges (is : List Index) : Covers (IndexSet.ofList is).ranges (· ∈ is) :=
  (covers_ofAscending (IndexSet.ofList is).ascending).congr fun _ => IndexSet.mem_ofList

/-- The text is a dash or that of the ranges of the list. -/
theorem rangesText_cases (is : List Index) :
    is = [] ∧ rangesText is = "-" ∨
      ∃ rs, Covers rs (· ∈ is) ∧ Written rs (rangesText is).toList := by
  have hcovers := covers_ranges is
  rw [rangesText]
  split
  · rename_i hnone
    rw [hnone, covers_nil_iff] at hcovers
    exact .inl ⟨List.eq_nil_iff_forall_not_mem.2 hcovers, rfl⟩
  · rename_i hsome
    exact .inr ⟨_, hcovers, written_intercalate hcovers.ordered hsome⟩

theorem rangesText_eq_dash_iff : rangesText is = "-" ↔ is = [] := by
  constructor
  · intro h
    rcases rangesText_cases is with ⟨hnil, -⟩ | ⟨rs, -, hwritten⟩
    · exact hnil
    · rw [h] at hwritten
      exact absurd hwritten not_written_dash
  · rintro rfl
    rfl

theorem rangesText_congr (h : ∀ i, i ∈ is ↔ i ∈ js) : rangesText is = rangesText js := by
  have hset : IndexSet.ofList is = IndexSet.ofList js :=
    IndexSet.ext_mem fun i => by rw [IndexSet.mem_ofList, IndexSet.mem_ofList, h]
  rw [rangesText, rangesText, hset]

theorem mem_iff_of_rangesText_eq (h : rangesText is = rangesText js) (i : Index) :
    i ∈ is ↔ i ∈ js := by
  rcases rangesText_cases is with ⟨rfl, hdash⟩ | ⟨rs, hcovers, hwritten⟩
  · rw [rangesText_eq_dash_iff.1 (h.symm.trans hdash)]
  · rcases rangesText_cases js with ⟨-, hdash⟩ | ⟨rs', hcovers', hwritten'⟩
    · rw [h, hdash] at hwritten
      exact absurd hwritten not_written_dash
    · rw [← h] at hwritten'
      cases hwritten.unique hwritten'
      exact (hcovers.contains_iff i).symm.trans (hcovers'.contains_iff i)

/-- The text of a list of indices is a dash where the list is empty, and else the text of the ranges
that cover it: each is one index or goes from a smaller to a greater one, they ascend, between two of
them an index is missing, and together they have the indices of the list. There is one text of this
form. So the order and the repeats in a list do not show, and the indices do. -/
theorem rangesText_canonical :
    (∀ is t, rangesText is = t ↔
      is = [] ∧ t = "-" ∨ ∃ rs, Covers rs (· ∈ is) ∧ Written rs t.toList) ∧
    (∀ is, rangesText is = "-" ↔ is = []) ∧
    ∀ is js, rangesText is = rangesText js ↔ ∀ i, i ∈ is ↔ i ∈ js := by
  refine ⟨fun is t => ⟨?_, ?_⟩, fun is => rangesText_eq_dash_iff,
    fun is js => ⟨mem_iff_of_rangesText_eq, rangesText_congr⟩⟩
  · rintro rfl
    exact rangesText_cases is
  · rintro (⟨rfl, rfl⟩ | ⟨rs, hcovers, hwritten⟩)
    · rfl
    · rcases rangesText_cases is with ⟨rfl, -⟩ | ⟨rs', hcovers', hwritten'⟩
      · cases hcovers.unique (covers_nil_iff.2 fun _ => List.not_mem_nil)
        cases hwritten
      · cases hcovers.unique hcovers'
        exact String.toList_inj.1 (hwritten'.text_eq hwritten)

-- The greatest index ends a range, and nothing is behind it.
example : rangesText [4294967295, 5, 4294967294, 5] = "5, 4294967294..=4294967295" := by decide

end CircuitFixtures
