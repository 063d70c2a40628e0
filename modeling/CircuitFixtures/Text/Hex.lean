import CircuitFixtures.Text.Utf8

/-!
# Hexadecimal digits

Bytes as pairs of lowercase digits and digits, of either case, as numbers.

`decodeAfter_encode` says that the digits of bytes are read as the number that the bytes
make, highest first, and `size_encode` that each digit takes one byte.
-/

namespace CircuitFixtures.Hex

def digitOf (n : Nat) : Char :=
  if n < 10 then Char.ofNat (48 + n) else Char.ofNat (87 + n)

/-- The value of a digit of either case. -/
def valueOf? (c : Char) : Option Nat :=
  if '0' ≤ c ∧ c ≤ '9' then some (c.toNat - 48)
  else if 'a' ≤ c ∧ c ≤ 'f' then some (c.toNat - 87)
  else if 'A' ≤ c ∧ c ≤ 'F' then some (c.toNat - 55)
  else none

/-- Two digits for each byte. -/
def encode (xs : List UInt8) : List Char :=
  xs.flatMap (fun x => [digitOf (x.toNat / 16), digitOf (x.toNat % 16)])

/-- The number that digits stand for, read behind the number `n`, or the first character
that is no digit with the number of digits before it. -/
def decodeAfter (n index : Nat) : List Char → Except (Char × Nat) Nat
  | [] => .ok n
  | c :: cs =>
    match valueOf? c with
    | some d => decodeAfter (16 * n + d) (index + 1) cs
    | none => .error (c, index)

def decode (cs : List Char) : Except (Char × Nat) Nat :=
  decodeAfter 0 0 cs

theorem length_encode (xs : List UInt8) : (encode xs).length = 2 * xs.length := by
  induction xs with
  | nil => rfl
  | cons x xs ih =>
    simp only [encode] at ih
    simp only [encode, List.flatMap_cons, List.length_append, ih, List.length_cons, List.length_nil]
    omega

theorem valueOf?_digitOf {n : Nat} (h : n < 16) : valueOf? (digitOf n) = some n := by
  have all : ∀ k : Fin 16, valueOf? (digitOf k.val) = some k.val := by decide
  exact all ⟨n, h⟩

theorem width_digitOf {n : Nat} (h : n < 16) : Utf8.width (digitOf n) = 1 := by
  have all : ∀ k : Fin 16, Utf8.width (digitOf k.val) = 1 := by decide
  exact all ⟨n, h⟩

theorem size_encode (xs : List UInt8) : Utf8.size (encode xs) = 2 * xs.length := by
  induction xs with
  | nil => rfl
  | cons x xs ih =>
    have hx := UInt8.toNat_lt x
    have h1 : x.toNat / 16 < 16 := by omega
    have h2 : x.toNat % 16 < 16 := by omega
    have hs : encode (x :: xs) =
        digitOf (x.toNat / 16) :: digitOf (x.toNat % 16) :: encode xs := rfl
    rw [hs, Utf8.size_cons, Utf8.size_cons, width_digitOf h1, width_digitOf h2, ih,
      List.length_cons]
    omega

theorem decodeAfter_encode (n index : Nat) (xs : List UInt8) :
    decodeAfter n index (encode xs) = .ok (xs.foldl (fun m x => 256 * m + x.toNat) n) := by
  induction xs generalizing n index with
  | nil => rfl
  | cons x xs ih =>
    have hx := UInt8.toNat_lt x
    have h1 : x.toNat / 16 < 16 := by omega
    have h2 : x.toNat % 16 < 16 := by omega
    have hn : 16 * (16 * n + x.toNat / 16) + x.toNat % 16 = 256 * n + x.toNat := by omega
    have hs : encode (x :: xs) =
        digitOf (x.toNat / 16) :: digitOf (x.toNat % 16) :: encode xs := rfl
    simp only [hs, decodeAfter, valueOf?_digitOf h1, valueOf?_digitOf h2, List.foldl_cons, hn]
    exact ih _ _

end CircuitFixtures.Hex
