import CircuitFixtures.Field

/-!
# Elements from bytes

`ofBytes` reduces the number that the bytes make and looks whether the bytes have changed. They stay
exactly where the number is below the order (`Field.ofBytes_eq_ok_iff`, `Field.ofBytes_of_order_le`),
so no element has two forms of one length.
-/

namespace CircuitFixtures

namespace BigEndian

/-- The number that bytes stand for, highest first. -/
def value : List UInt8 → Nat
  | [] => 0
  | x :: xs => x.toNat * Nat.pow 256 xs.length + value xs

private theorem foldl_eq_value (n : Nat) (xs : List UInt8) :
    xs.foldl (fun n x => 256 * n + x.toNat) n = n * Nat.pow 256 xs.length + value xs := by
  induction xs generalizing n with
  | nil => simp [value]
  | cons x xs ih =>
    have hpow : Nat.pow 256 (x :: xs).length = 256 * Nat.pow 256 xs.length := Nat.mul_comm _ _
    rw [List.foldl_cons, ih, value, hpow, Nat.add_mul, Nat.mul_comm 256 n, Nat.mul_assoc,
      Nat.add_assoc]

theorem decode_eq_value (xs : List UInt8) : decode xs = value xs := by
  rw [decode, foldl_eq_value, Nat.zero_mul, Nat.zero_add]

end BigEndian

namespace Field

variable {xs : List UInt8} {x : Field}

theorem length_padded (h : xs.length ≤ width) : (padded xs).length = width := by
  rw [padded, List.length_append, List.length_replicate]
  omega

theorem decode_padded (xs : List UInt8) : BigEndian.decode (padded xs) = BigEndian.decode xs :=
  BigEndian.decode_zeros _ xs

/-- The bytes of an element, without some of the zeros in front. -/
theorem toBytes_eq_padded_iff (h : xs.length ≤ width) :
    x.toBytes = padded xs ↔ x.val = BigEndian.decode xs := by
  constructor
  · intro hbytes
    rw [← decode_toBytes, hbytes, decode_padded]
  · intro hval
    rw [toBytes, hval, ← decode_padded, ← length_padded h, BigEndian.encode_decode]

theorem ofBytes_eq_ok_iff : ofBytes xs = .ok x ↔ xs.length ≤ width ∧ x.toBytes = padded xs := by
  rw [ofBytes]
  split
  · constructor
    · intro h
      cases h
    · rintro ⟨hle, -⟩
      omega
  · rename_i hlong
    have hle := Nat.not_lt.1 hlong
    constructor
    · intro h
      dsimp only at h
      split at h
      · cases h
        exact ⟨hle, by assumption⟩
      · cases h
    · rintro ⟨-, hbytes⟩
      -- The number of these bytes is below the order, so it is not changed.
      have hval := (toBytes_eq_padded_iff hle).1 hbytes
      simp only [decode_padded, ← hval, ofNat_val, hbytes, if_pos]

theorem ofBytes_isOk_iff :
    (∃ x, ofBytes xs = .ok x) ↔ xs.length ≤ width ∧ BigEndian.decode xs < order := by
  simp only [ofBytes_eq_ok_iff]
  constructor
  · rintro ⟨x, hle, hbytes⟩
    rw [← (toBytes_eq_padded_iff hle).1 hbytes]
    exact ⟨hle, x.val_lt⟩
  · rintro ⟨hle, hlt⟩
    exact ⟨⟨_, hlt⟩, hle, (toBytes_eq_padded_iff hle).2 rfl⟩

/-- A number that is not below the order is refused with its 64 digits. -/
theorem ofBytes_of_order_le (hle : xs.length ≤ width) (h : order ≤ BigEndian.decode xs) :
    ofBytes xs = .error (.notBelowOrder (Hex.encode (padded xs))) := by
  have hchanged : (ofNat (BigEndian.decode (padded xs))).toBytes ≠ padded xs := by
    intro hbytes
    have hlt := (ofBytes_isOk_iff.1 ⟨_, ofBytes_eq_ok_iff.2 ⟨hle, hbytes⟩⟩).2
    omega
  rw [ofBytes, if_neg (Nat.not_lt.2 hle)]
  exact if_neg hchanged

theorem val_ofNat {n : Nat} (h : n < order) : (ofNat n).val = n :=
  Nat.mod_eq_of_lt h

end Field

end CircuitFixtures
