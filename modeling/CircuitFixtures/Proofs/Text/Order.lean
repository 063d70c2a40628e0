import CircuitFixtures.Proofs.Text.Utf8

/-!
# The order of UTF-8

Written forms stand in the order of their texts (`Utf8.encode_lt`): a longer form of a character
starts with a greater byte, and the bytes of forms of one length are digits of the characters, the
greatest first.
-/

namespace CircuitFixtures.Utf8

private theorem ofNat_cons_lt {m n : Nat} {xs ys : List UInt8} (hm : m < 256) (hn : n < 256)
    (h : m < n ∨ m = n ∧ xs < ys) : UInt8.ofNat m :: xs < UInt8.ofNat n :: ys := by
  rw [List.cons_lt_cons_iff]
  rcases h with h | ⟨rfl, h⟩
  · left
    rw [UInt8.lt_iff_toNat_lt, UInt8.toNat_ofNat', UInt8.toNat_ofNat']
    omega
  · exact .inr ⟨rfl, h⟩

/-- A last byte decides where the bytes in front of it do not. -/
private theorem tail_lt {m n : Nat} (h : m % 64 < n % 64) (xs ys : List UInt8) :
    UInt8.ofNat (0x80 + m % 64) :: xs < UInt8.ofNat (0x80 + n % 64) :: ys :=
  ofNat_cons_lt (by omega) (by omega) (.inl (by omega))

private theorem tails_lt {m n : Nat} (h : m % 4096 < n % 4096) (xs ys : List UInt8) :
    UInt8.ofNat (0x80 + m / 64 % 64) :: UInt8.ofNat (0x80 + m % 64) :: xs <
      UInt8.ofNat (0x80 + n / 64 % 64) :: UInt8.ofNat (0x80 + n % 64) :: ys := by
  refine ofNat_cons_lt (by omega) (by omega) ?_
  rcases Nat.lt_or_ge (m / 64 % 64) (n / 64 % 64) with hfirst | hfirst
  · exact .inl (by omega)
  · exact .inr ⟨by omega, tail_lt (by omega) xs ys⟩

theorem encodeChar_append_lt {c d : Char} (h : c < d) (xs ys : List UInt8) :
    encodeChar c ++ xs < encodeChar d ++ ys := by
  have hlt : c.toNat < d.toNat := h
  have hd : d.toNat < 0xD800 ∨ (0xDFFF < d.toNat ∧ d.toNat < 0x110000) := d.valid
  unfold encodeChar
  generalize c.toNat = m at hlt
  generalize d.toNat = n at hlt hd
  dsimp only
  -- The first form is not longer; where it is shorter, the first bytes decide.
  split
  · split
    · exact ofNat_cons_lt (by omega) (by omega) (.inl hlt)
    · split
      · exact ofNat_cons_lt (by omega) (by omega) (.inl (by omega))
      · split <;> exact ofNat_cons_lt (by omega) (by omega) (.inl (by omega))
  · rw [if_neg (show ¬ n < 0x80 by omega)]
    split
    · split
      · refine ofNat_cons_lt (by omega) (by omega) ?_
        rcases Nat.lt_or_ge (m / 64) (n / 64) with hfirst | hfirst
        · exact .inl (by omega)
        · exact .inr ⟨by omega, tail_lt (by omega) xs ys⟩
      · split <;> exact ofNat_cons_lt (by omega) (by omega) (.inl (by omega))
    · rw [if_neg (show ¬ n < 0x800 by omega)]
      split
      · split
        · refine ofNat_cons_lt (by omega) (by omega) ?_
          rcases Nat.lt_or_ge (m / 4096) (n / 4096) with hfirst | hfirst
          · exact .inl (by omega)
          · exact .inr ⟨by omega, tails_lt (by omega) xs ys⟩
        · exact ofNat_cons_lt (by omega) (by omega) (.inl (by omega))
      · rw [if_neg (show ¬ n < 0x10000 by omega)]
        refine ofNat_cons_lt (by omega) (by omega) ?_
        rcases Nat.lt_or_ge (m / 262144) (n / 262144) with hfirst | hfirst
        · exact .inl (by omega)
        · refine .inr ⟨by omega, ofNat_cons_lt (by omega) (by omega) ?_⟩
          rcases Nat.lt_or_ge (m / 4096 % 64) (n / 4096 % 64) with hsecond | hsecond
          · exact .inl (by omega)
          · exact .inr ⟨by omega, tails_lt (by omega) xs ys⟩

/-- The written forms of texts stand in the order of the texts. -/
theorem encode_lt {cs ds : List Char} (h : cs < ds) : encode cs < encode ds := by
  induction (h : List.Lex (· < ·) cs ds) with
  | nil =>
    rename_i d ds
    obtain ⟨a, as, ha⟩ : ∃ a as, encodeChar d = a :: as := by
      refine List.exists_cons_of_length_pos ?_
      rw [length_encodeChar]
      exact one_le_width d
    rw [encode, encode, List.flatMap_cons, ha]
    exact List.nil_lt_cons a _
  | rel h => exact encodeChar_append_lt h _ _
  | cons h ih => exact List.append_left_lt ih

end CircuitFixtures.Utf8
