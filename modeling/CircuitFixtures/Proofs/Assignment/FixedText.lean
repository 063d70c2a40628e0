import CircuitFixtures.Assignment
import CircuitFixtures.Proofs.Field.Text

/-!
# One entry in the fixed-width text form

`IsFixedText` is the form that entries are written in: `0x` and 64 digits of a number below
the order of the field. `ofFixedEntries` takes every such text. It also takes one form more,
a lead that stands twice and 62 digits (`HasDoubledLead`), because the digits behind the lead
are read by a reader that allows a lead of its own. There is no third form.
-/

namespace CircuitFixtures

namespace Field

/-- `0x` and 64 digits of either case whose number is below the order. -/
def IsFixedText (s : String) : Prop :=
  ∃ ds : List Char, s.toList = '0' :: 'x' :: ds ∧ ds.length = 64 ∧
    (∀ c ∈ ds, Hex.IsDigit c) ∧ Hex.numeral ds < order

/-- `0x0x` and 62 digits of either case. -/
def HasDoubledLead (s : String) : Prop :=
  ∃ ds : List Char, s.toList = '0' :: 'x' :: '0' :: 'x' :: ds ∧ ds.length = 62 ∧
    ∀ c ∈ ds, Hex.IsDigit c

/-- Digits that stand for a number below the order stand for an element. -/
private theorem digits_of_numeral_lt {ds : List Char} (hd : ∀ c ∈ ds, Hex.IsDigit c)
    (hlo : 0 < ds.length) (hhi : ds.length ≤ 64) (hlt : Hex.numeral ds < order) :
    Digits ds ⟨Hex.numeral ds, hlt⟩ :=
  ⟨hd, List.length_pos_iff.1 hlo, hhi, rfl⟩

theorem ofFixedText_isOk_iff {s : String} :
    (∃ x, ofFixedText s = .ok x) ↔ IsFixedText s ∨ HasDoubledLead s := by
  constructor
  · rintro ⟨x, hx⟩
    obtain ⟨ds, hd, ⟨hs, hlen⟩ | ⟨hs, hlen⟩⟩ := ofFixedChars_eq_ok_iff.1 hx
    · have hlt : Hex.numeral ds < order := hd.val_eq ▸ x.val_lt
      exact .inl ⟨ds, hs, hlen, hd.isDigit, hlt⟩
    · exact .inr ⟨ds, hs, hlen, hd.isDigit⟩
  · rintro (⟨ds, hs, hlen, hd, hlt⟩ | ⟨ds, hs, hlen, hd⟩)
    · have hx := digits_of_numeral_lt hd (by omega) (by omega) hlt
      exact ⟨_, ofFixedChars_eq_ok_iff.2 ⟨ds, hx, .inl ⟨hs, hlen⟩⟩⟩
    · -- 62 digits make a number that is always below the order.
      have hlt : Hex.numeral ds < order := by
        have h := Hex.numeral_lt hd
        rw [hlen] at h
        exact Nat.lt_trans h (by decide)
      have hx := digits_of_numeral_lt hd (by omega) (by omega) hlt
      exact ⟨_, ofFixedChars_eq_ok_iff.2 ⟨ds, hx, .inr ⟨hs, hlen⟩⟩⟩

theorem not_hasDoubledLead_of_isFixedText {s : String} (h : IsFixedText s) :
    ¬ HasDoubledLead s := by
  rintro ⟨es, hes, -, -⟩
  obtain ⟨ds, hds, -, hd, -⟩ := h
  rw [hds] at hes
  cases hes
  have hx : Hex.IsDigit 'x' := hd 'x' (by simp)
  exact absurd hx (by decide)

end Field

namespace Assignment

open CircuitFixtures.Field

theorem ofFixedEntries_singleton_isOk {i : Index} {s : String} :
    (∃ m, ofFixedEntries [(i, s)] = .ok m) ↔ ∃ x, ofFixedText s = .ok x := by
  have hi : (IndexMap.empty : Assignment).contains i = false := rfl
  rw [ofFixedEntries, addFixedEntries_cons]
  cases ofFixedText s with
  | error e => simp
  | ok x => simp [hi, addFixedEntries]

/-- One entry is accepted exactly when its text has the fixed-width form or its lead stands
twice; so the fixed-width form alone decides, for every text whose lead does not. -/
theorem ofFixedEntries_singleton_isOk_iff (i : Index) (s : String) :
    ((∃ m, ofFixedEntries [(i, s)] = .ok m) ↔ IsFixedText s ∨ HasDoubledLead s) ∧
      (((∃ m, ofFixedEntries [(i, s)] = .ok m) ↔ IsFixedText s) ↔ ¬ HasDoubledLead s) := by
  rw [ofFixedEntries_singleton_isOk, ofFixedText_isOk_iff]
  refine ⟨Iff.rfl, ?_, ?_⟩
  · intro h hdouble
    exact not_hasDoubledLead_of_isFixedText (h.1 (.inr hdouble)) hdouble
  · intro h
    constructor
    · rintro (hs | hdouble)
      · exact hs
      · exact absurd hdouble h
    · exact .inl

/-- A text with two leads and 62 digits that is accepted and has not the fixed-width form. -/
theorem ofFixedEntries_doubled_lead :
    ¬ ((∃ m, ofFixedEntries
          [(1, "0x0x00000000000000000000000000000000000000000000000000000000000001")] = .ok m) ↔
        IsFixedText "0x0x00000000000000000000000000000000000000000000000000000000000001") := by
  have hdigits : (List.replicate 61 '0' ++ ['1']).all (fun c => Hex.IsDigit c) = true := by decide
  have hdouble : HasDoubledLead
      "0x0x00000000000000000000000000000000000000000000000000000000000001" :=
    ⟨List.replicate 61 '0' ++ ['1'], by decide, by decide, fun c hc =>
      of_decide_eq_true (List.all_eq_true.1 hdigits c hc)⟩
  rw [ofFixedEntries_singleton_isOk, ofFixedText_isOk_iff]
  intro h
  exact not_hasDoubledLead_of_isFixedText (h.1 (.inr hdouble)) hdouble

end Assignment

end CircuitFixtures
