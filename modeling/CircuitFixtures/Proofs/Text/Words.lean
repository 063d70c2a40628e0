/-!
# Words that end by themselves

A word whose characters all have a property ends in front of the first character that does not have
it, so it can be told from what follows (`Ends.unique`). The digits of a number are such a word, and
they stand for no other number (`digits_injective`).
-/

namespace CircuitFixtures

/-- The text does not start with a character that has the property. -/
def Ends (p : Char → Prop) (cs : List Char) : Prop :=
  ∀ c ∈ cs.head?, ¬ p c

namespace Ends

variable {p : Char → Prop} {xs ys cs ds : List Char} {c : Char}

theorem nil : Ends p [] := by
  intro c hc
  cases hc

theorem cons (h : ¬ p c) : Ends p (c :: cs) := by
  intro d hd
  cases hd
  exact h

/-- A text is cut into a word and what follows in one way only. -/
theorem unique (hcs : Ends p cs) (hxs : ∀ c ∈ xs, p c) (hys : ∀ c ∈ ys, p c) (hds : Ends p ds)
    (h : xs ++ cs = ys ++ ds) : xs = ys ∧ cs = ds := by
  induction xs generalizing ys with
  | nil =>
    cases ys with
    | nil => exact ⟨rfl, h⟩
    | cons y ys =>
      have hfirst : y ∈ cs.head? := by
        rw [← List.nil_append cs, h]
        rfl
      exact absurd (hys y List.mem_cons_self) (hcs y hfirst)
  | cons x xs ih =>
    cases ys with
    | nil =>
      have hfirst : x ∈ ds.head? := by
        rw [← List.nil_append ds, ← h]
        rfl
      exact absurd (hxs x List.mem_cons_self) (hds x hfirst)
    | cons y ys =>
      obtain ⟨rfl, hrest⟩ := List.cons.inj h
      obtain ⟨rfl, rfl⟩ := ih (fun c hc => hxs c (List.mem_cons_of_mem _ hc))
        (fun c hc => hys c (List.mem_cons_of_mem _ hc)) hrest
      exact ⟨rfl, rfl⟩

end Ends

/-! ## Numbers -/

/-- The digits of a number as it is shown. -/
def digits (n : Nat) : List Char :=
  (toString n).toList

theorem digits_eq (n : Nat) : digits n = Nat.toDigits 10 n := by
  rw [digits, Nat.toString_eq_repr, Nat.toList_repr]

theorem isDigit_of_mem_digits {n : Nat} {c : Char} (h : c ∈ digits n) : c.isDigit = true := by
  rw [digits_eq] at h
  exact Nat.isDigit_of_mem_toDigits (by decide) (by decide) h

theorem digits_injective {m n : Nat} (h : digits m = digits n) : m = n := by
  rw [digits_eq, digits_eq] at h
  rw [← Nat.ofDigitChars_ten_toDigits (n := m), h, Nat.ofDigitChars_ten_toDigits]

/-- The digits of a number end in front of what is no digit. -/
theorem Ends.digits_unique {m n : Nat} {cs ds : List Char} (hcs : Ends (·.isDigit = true) cs)
    (hds : Ends (·.isDigit = true) ds) (h : digits m ++ cs = digits n ++ ds) : m = n ∧ cs = ds := by
  obtain ⟨hdigits, hrest⟩ := hcs.unique (fun c => isDigit_of_mem_digits)
    (fun c => isDigit_of_mem_digits) hds h
  exact ⟨digits_injective hdigits, hrest⟩

end CircuitFixtures
