import CircuitFixtures.Text.Hex

/-!
# Hexadecimal numerals

`decode_eq_ok_iff`: reading accepts exactly the texts that hold digits of either case and
nothing else, and gives the number that they stand for in positional notation.
-/

namespace CircuitFixtures.Hex

/-! ## Digits -/

/-- The digits in the order of their values. -/
def alphabet : List Char :=
  ['0', '1', '2', '3', '4', '5', '6', '7', '8', '9', 'a', 'b', 'c', 'd', 'e', 'f']

/-- A digit of either case. -/
def IsDigit (c : Char) : Prop :=
  c.toLower ∈ alphabet

instance : DecidablePred IsDigit := fun c => by unfold IsDigit; infer_instance

/-- The value of a digit. -/
def digitValue (c : Char) : Nat :=
  alphabet.idxOf c.toLower

/-- The number that digits stand for, highest first. -/
def numeral : List Char → Nat
  | [] => 0
  | c :: cs => digitValue c * Nat.pow 16 cs.length + numeral cs

private theorem toLower_of_not_ascii {c : Char} (h : ¬ c.toNat < 128) : c.toLower = c := by
  unfold Char.toLower
  refine dif_neg fun hc => h ?_
  have hz : c.toNat ≤ 90 := UInt32.le_iff_toNat_le.1 hc.2
  omega

private theorem not_isDigit_of_not_ascii {c : Char} (h : ¬ c.toNat < 128) : ¬ IsDigit c := by
  have all : alphabet.all (fun d => d.toNat < 128) = true := by decide
  intro hd
  rw [IsDigit, toLower_of_not_ascii h] at hd
  exact h (of_decide_eq_true (List.all_eq_true.1 all c hd))

private theorem valueOf?_of_not_ascii {c : Char} (h : ¬ c.toNat < 128) : valueOf? c = none := by
  have le (d : Char) (hd : d.toNat < 128) : ¬ c ≤ d := fun hcd => by
    have := UInt32.le_iff_toNat_le.1 hcd
    exact h (Nat.lt_of_le_of_lt this hd)
  unfold valueOf?
  rw [if_neg (fun hc => le '9' (by decide) hc.2), if_neg (fun hc => le 'f' (by decide) hc.2),
    if_neg (fun hc => le 'F' (by decide) hc.2)]

/-- A character has a value exactly when it is a digit. -/
theorem valueOf?_eq (c : Char) :
    valueOf? c = if IsDigit c then some (digitValue c) else none := by
  by_cases hc : c.toNat < 128
  · have all : ∀ k : Fin 128, valueOf? (Char.ofNat k.val) =
        if IsDigit (Char.ofNat k.val) then some (digitValue (Char.ofNat k.val)) else none := by
      decide
    have h := all ⟨c.toNat, hc⟩
    rwa [Char.ofNat_toNat] at h
  · rw [valueOf?_of_not_ascii hc, if_neg (not_isDigit_of_not_ascii hc)]

theorem width_of_isDigit {c : Char} (h : IsDigit c) : Utf8.width c = 1 := by
  have hc : c.toNat < 128 := by
    apply Decidable.byContradiction
    intro hn
    exact not_isDigit_of_not_ascii hn h
  simp [Utf8.width, hc]

/-- Each digit takes one byte. -/
theorem size_of_isDigit {cs : List Char} (h : ∀ c ∈ cs, IsDigit c) :
    Utf8.size cs = cs.length := by
  induction cs with
  | nil => rfl
  | cons c cs ih =>
    have hc := width_of_isDigit (h c List.mem_cons_self)
    have hcs := ih fun d hd => h d (List.mem_cons_of_mem _ hd)
    rw [Utf8.size_cons, hc, hcs, List.length_cons, Nat.add_comm]

/-! ## Numbers -/

theorem digitValue_lt {c : Char} (h : IsDigit c) : digitValue c < 16 :=
  List.idxOf_lt_length_of_mem h

theorem numeral_lt {cs : List Char} (h : ∀ c ∈ cs, IsDigit c) :
    numeral cs < Nat.pow 16 cs.length := by
  induction cs with
  | nil => decide
  | cons c cs ih =>
    have hc := digitValue_lt (h c List.mem_cons_self)
    have hcs := ih fun d hd => h d (List.mem_cons_of_mem _ hd)
    have hp : Nat.pow 16 (c :: cs).length = 16 * Nat.pow 16 cs.length := Nat.mul_comm _ _
    have hm : digitValue c * Nat.pow 16 cs.length ≤ 15 * Nat.pow 16 cs.length :=
      Nat.mul_le_mul_right _ (by omega)
    rw [numeral, hp]
    omega

theorem decodeAfter_eq_ok_iff {n index m : Nat} {cs : List Char} :
    decodeAfter n index cs = .ok m ↔
      (∀ c ∈ cs, IsDigit c) ∧ m = n * Nat.pow 16 cs.length + numeral cs := by
  induction cs generalizing n index with
  | nil => simp [decodeAfter, numeral, eq_comm]
  | cons c cs ih =>
    by_cases hc : IsDigit c
    · have hp : Nat.pow 16 (c :: cs).length = 16 * Nat.pow 16 cs.length := Nat.mul_comm _ _
      have hs : (16 * n + digitValue c) * Nat.pow 16 cs.length + numeral cs =
          n * Nat.pow 16 (c :: cs).length + numeral (c :: cs) := by
        rw [numeral, hp, Nat.add_mul, Nat.mul_comm 16 n, Nat.mul_assoc, Nat.add_assoc]
      rw [decodeAfter, valueOf?_eq, if_pos hc]
      simp only [ih, hs, List.forall_mem_cons, hc, true_and]
    · rw [decodeAfter, valueOf?_eq, if_neg hc]
      simp [hc]

/-- Reading accepts exactly digits and gives the number they stand for. -/
theorem decode_eq_ok_iff {cs : List Char} {n : Nat} :
    decode cs = .ok n ↔ (∀ c ∈ cs, IsDigit c) ∧ n = numeral cs := by
  simp [decode, decodeAfter_eq_ok_iff]

/-! ## Digits in lower case -/

theorem toLower_of_mem_alphabet {c : Char} (h : c ∈ alphabet) : c.toLower = c := by
  have all : alphabet.all (fun d => d.toLower == d) = true := by decide
  exact eq_of_beq (List.all_eq_true.1 all c h)

theorem isDigit_of_mem_alphabet {c : Char} (h : c ∈ alphabet) : IsDigit c := by
  rw [IsDigit, toLower_of_mem_alphabet h]
  exact h

theorem digitValue_injective {c d : Char} (hc : c ∈ alphabet) (hd : d ∈ alphabet)
    (h : digitValue c = digitValue d) : c = d := by
  rw [digitValue, digitValue, toLower_of_mem_alphabet hc, toLower_of_mem_alphabet hd] at h
  have hget {e : Char} (he : e ∈ alphabet) : alphabet[alphabet.idxOf e]? = some e := by
    rw [List.getElem?_eq_getElem (List.idxOf_lt_length_of_mem he), List.getElem_idxOf]
  have hsome : some c = some d := by rw [← hget hc, h, hget hd]
  exact Option.some.inj hsome

theorem mem_alphabet_of_mem_encode {xs : List UInt8} {c : Char} (h : c ∈ encode xs) :
    c ∈ alphabet := by
  have all : ∀ k : Fin 16, digitOf k.val ∈ alphabet := by decide
  obtain ⟨x, -, hc⟩ := List.mem_flatMap.1 h
  have hx := UInt8.toNat_lt x
  simp only [List.mem_cons, List.not_mem_nil, or_false] at hc
  rcases hc with rfl | rfl
  · exact all ⟨x.toNat / 16, by omega⟩
  · exact all ⟨x.toNat % 16, by omega⟩

/-- Of one length, the number decides the digits where they are in lower case. -/
theorem eq_of_numeral_eq {cs ds : List Char} (hc : ∀ c ∈ cs, c ∈ alphabet)
    (hd : ∀ d ∈ ds, d ∈ alphabet) (hlen : cs.length = ds.length)
    (h : numeral cs = numeral ds) : cs = ds := by
  induction cs generalizing ds with
  | nil => exact (List.length_eq_zero_iff.1 hlen.symm).symm
  | cons c cs ih =>
    cases ds with
    | nil => cases hlen
    | cons d ds =>
      rw [List.forall_mem_cons] at hc hd
      have hlen' : cs.length = ds.length := Nat.succ.inj hlen
      have hcs := numeral_lt fun e he => isDigit_of_mem_alphabet (hc.2 e he)
      have hds := numeral_lt fun e he => isDigit_of_mem_alphabet (hd.2 e he)
      rw [numeral, numeral, hlen'] at h
      rw [hlen'] at hcs
      have hpos : 0 < Nat.pow 16 ds.length := Nat.pow_pos (by decide)
      -- Quotient and remainder by the weight of the first digit.
      have hfirst : digitValue c = digitValue d := by
        have hq := congrArg (· / Nat.pow 16 ds.length) h
        simpa only [Nat.mul_comm, Nat.mul_add_div hpos, Nat.div_eq_of_lt hcs,
          Nat.div_eq_of_lt hds, Nat.add_zero] using hq
      have hrest : numeral cs = numeral ds := by
        rw [hfirst] at h
        exact Nat.add_left_cancel h
      rw [digitValue_injective hc.1 hd.1 hfirst, ih hc.2 hd.2 hlen' hrest]

end CircuitFixtures.Hex
