/-!
# Numbers as bytes, lowest byte first

`encode` writes a number in a fixed number of bytes and `decode` reads them back;
`decode_encode` holds for every number that fits, and `encode_decode` for all bytes.
-/

namespace CircuitFixtures.LittleEndian

/-- The `width` low bytes of a number, lowest first. -/
def encode : (width n : Nat) → List UInt8
  | 0, _ => []
  | width + 1, n => UInt8.ofNat n :: encode width (n / 256)

def decode : List UInt8 → Nat
  | [] => 0
  | x :: xs => x.toNat + 256 * decode xs

theorem length_encode (width n : Nat) : (encode width n).length = width := by
  induction width generalizing n with
  | zero => rfl
  | succ width ih => simp [encode, ih]

theorem decode_encode (width n : Nat) : decode (encode width n) = n % Nat.pow 256 width := by
  induction width generalizing n with
  | zero => simp [encode, decode, Nat.mod_one]
  | succ width ih =>
    have hx : (UInt8.ofNat n).toNat = n % 256 := by simp
    have hp : Nat.pow 256 (width + 1) = 256 * Nat.pow 256 width := Nat.mul_comm _ _
    rw [encode, decode, ih, hx, hp, Nat.mod_mul]

theorem decode_lt (xs : List UInt8) : decode xs < Nat.pow 256 xs.length := by
  induction xs with
  | nil => simp [decode]
  | cons x xs ih =>
    have hx := UInt8.toNat_lt x
    have hp : Nat.pow 256 (xs.length + 1) = 256 * Nat.pow 256 xs.length := Nat.mul_comm _ _
    rw [decode, List.length_cons, hp]
    omega

theorem encode_decode (xs : List UInt8) : encode xs.length (decode xs) = xs := by
  induction xs with
  | nil => rfl
  | cons x xs ih =>
    have hx := UInt8.toNat_lt x
    have h1 : UInt8.ofNat (x.toNat + 256 * decode xs) = x := by
      apply UInt8.toNat_inj.1
      simp only [UInt8.toNat_ofNat']
      omega
    have h2 : (x.toNat + 256 * decode xs) / 256 = decode xs := by omega
    simp only [List.length_cons, encode, decode, h1, h2, ih]

end CircuitFixtures.LittleEndian
