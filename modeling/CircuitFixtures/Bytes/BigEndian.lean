/-!
# Numbers as bytes, highest byte first

`encode` writes a number in a fixed number of bytes and `decode` reads bytes as a number; each
undoes the other (`decode_encode`, `encode_decode`).
-/

namespace CircuitFixtures.BigEndian

/-- Puts the `width` low bytes of a number before `xs`, highest first. -/
def encodeBefore : (width n : Nat) → List UInt8 → List UInt8
  | 0, _, xs => xs
  | width + 1, n, xs => encodeBefore width (n / 256) (UInt8.ofNat n :: xs)

def encode (width n : Nat) : List UInt8 :=
  encodeBefore width n []

def decode (xs : List UInt8) : Nat :=
  xs.foldl (fun n x => 256 * n + x.toNat) 0

theorem length_encodeBefore (width n : Nat) (xs : List UInt8) :
    (encodeBefore width n xs).length = width + xs.length := by
  induction width generalizing n xs with
  | zero => simp [encodeBefore]
  | succ width ih => rw [encodeBefore, ih, List.length_cons]; omega

theorem length_encode (width n : Nat) : (encode width n).length = width := by
  simp [encode, length_encodeBefore]

theorem decode_encodeBefore (width n m : Nat) (xs : List UInt8) :
    (encodeBefore width n xs).foldl (fun n x => 256 * n + x.toNat) m =
      xs.foldl (fun n x => 256 * n + x.toNat) (Nat.pow 256 width * m + n % Nat.pow 256 width) := by
  induction width generalizing n xs with
  | zero => simp [encodeBefore, Nat.mod_one]
  | succ width ih =>
    have hx : (UInt8.ofNat n).toNat = n % 256 := by simp
    have hp : Nat.pow 256 (width + 1) = 256 * Nat.pow 256 width := Nat.mul_comm _ _
    rw [encodeBefore, ih, List.foldl_cons, hx, hp, Nat.mod_mul]
    congr 1
    rw [Nat.mul_add, Nat.mul_assoc]
    omega

theorem decode_encode (width n : Nat) : decode (encode width n) = n % Nat.pow 256 width := by
  rw [decode, encode, decode_encodeBefore]
  simp

private theorem encodeBefore_eq (width n : Nat) (xs : List UInt8) :
    encodeBefore width n xs = encode width n ++ xs := by
  induction width generalizing n xs with
  | zero => rfl
  | succ width ih => rw [encode, encodeBefore, encodeBefore, ih, ih _ [_], List.append_assoc]; rfl

theorem encode_succ (width n : Nat) :
    encode (width + 1) n = encode width (n / 256) ++ [UInt8.ofNat n] := by
  rw [encode, encodeBefore, encodeBefore_eq]

theorem decode_append (xs ys : List UInt8) :
    decode (xs ++ ys) = ys.foldl (fun n y => 256 * n + y.toNat) (decode xs) := by
  rw [decode, decode, List.foldl_append]

-- From the last byte on, which is the one that `encode` takes first.
theorem encode_decode (xs : List UInt8) : encode xs.length (decode xs) = xs := by
  obtain ⟨ys, rfl⟩ : ∃ ys, xs = List.reverse ys := ⟨xs.reverse, by simp⟩
  induction ys with
  | nil => rfl
  | cons y ys ih =>
    have hy := UInt8.toNat_lt y
    have hvalue : decode (y :: ys).reverse = 256 * decode ys.reverse + y.toNat := by
      rw [List.reverse_cons, decode_append]
      rfl
    have hrest : decode (y :: ys).reverse / 256 = decode ys.reverse := by omega
    have hlast : UInt8.ofNat (decode (y :: ys).reverse) = y := by
      apply UInt8.toNat_inj.1
      rw [UInt8.toNat_ofNat', hvalue]
      omega
    have hlength : (y :: ys).reverse.length = ys.reverse.length + 1 := by simp
    rw [hlength, encode_succ, hrest, hlast, ih, List.reverse_cons]

/-- Zeros in front do not count. -/
theorem decode_zeros (k : Nat) (xs : List UInt8) : decode (List.replicate k 0 ++ xs) = decode xs := by
  have hzeros : decode (List.replicate k 0) = 0 := by
    induction k with
    | zero => rfl
    | succ k ih => exact ih
  rw [decode_append, hzeros]
  rfl

end CircuitFixtures.BigEndian
