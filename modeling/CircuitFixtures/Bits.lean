/-!
# Bits of a byte sequence

Bytes are read and written least significant bit first. A `BitReader` holds the
unread bits of the byte it stands in and the bytes after it; `BitReader.toBits`
is its view, and every operation is described through that view:

* `next?` takes the first bit of the view;
* `number?` takes a number whose bits are written least significant first;
* `align` drops the unread bits of the byte in progress.

`Bits.toBytes` packs bits into bytes, filling the last byte with zeros, and
`toBytes_ofBytes` says that nothing is lost on whole bytes.
-/

namespace CircuitFixtures

namespace Bits

/-- The eight bits of a byte, least significant first. -/
def ofByte (x : UInt8) : List Bool :=
  let n := x.toNat
  [n.testBit 0, n.testBit 1, n.testBit 2, n.testBit 3,
    n.testBit 4, n.testBit 5, n.testBit 6, n.testBit 7]

def ofBytes (xs : List UInt8) : List Bool :=
  xs.flatMap ofByte

/-- The `width` low bits of a number, least significant first. -/
def ofNat : (width n : Nat) → List Bool
  | 0, _ => []
  | width + 1, n => (n % 2 == 1) :: ofNat width (n / 2)

/-- The number whose bits, least significant first, are given. -/
def toNat : List Bool → Nat
  | [] => 0
  | b :: bs => b.toNat + 2 * toNat bs

/-- Packs eight bits at a time behind the bytes in `acc`. -/
def pack (acc : Array UInt8) : List Bool → Array UInt8
  | b0 :: b1 :: b2 :: b3 :: b4 :: b5 :: b6 :: b7 :: bs =>
    pack (acc.push (UInt8.ofNat (toNat [b0, b1, b2, b3, b4, b5, b6, b7]))) bs
  | [] => acc
  | bs => acc.push (UInt8.ofNat (toNat bs))

/-- The bytes that hold the bits; the last one is filled up with zeros. -/
def toBytes (bs : List Bool) : List UInt8 :=
  (pack #[] bs).toList

theorem length_ofByte (x : UInt8) : (ofByte x).length = 8 := rfl

theorem length_ofNat (width n : Nat) : (ofNat width n).length = width := by
  induction width generalizing n with
  | zero => rfl
  | succ width ih => simp [ofNat, ih]

theorem toNat_ofNat (width n : Nat) : toNat (ofNat width n) = n % Nat.pow 2 width := by
  induction width generalizing n with
  | zero => simp [ofNat, toNat, Nat.mod_one]
  | succ width ih =>
    have hb : (n % 2 == 1).toNat = n % 2 := by
      rcases Nat.mod_two_eq_zero_or_one n with h | h <;> simp [h]
    have hp : Nat.pow 2 (width + 1) = 2 * Nat.pow 2 width := Nat.mul_comm _ _
    rw [ofNat, toNat, ih, hb, hp, Nat.mod_mul]

theorem toNat_ofByte (x : UInt8) : toNat (ofByte x) = x.toNat := by
  have h : ∀ n : Fin 256, toNat (ofByte (UInt8.ofNat n.val)) = n.val := by decide +kernel
  have hx := h ⟨x.toNat, UInt8.toNat_lt x⟩
  simpa using hx

theorem pack_ofBytes (acc : Array UInt8) (xs : List UInt8) :
    pack acc (ofBytes xs) = acc ++ xs.toArray := by
  induction xs generalizing acc with
  | nil => simp [ofBytes, pack]
  | cons x xs ih =>
    have hx := toNat_ofByte x
    simp only [ofByte] at hx
    have hstep : pack acc (ofBytes (x :: xs)) =
        pack (acc.push (UInt8.ofNat (toNat (ofByte x)))) (ofBytes xs) := by
      simp [ofBytes, ofByte, pack]
    rw [hstep, toNat_ofByte, ih, UInt8.ofNat_toNat]
    simp

theorem toBytes_ofBytes (xs : List UInt8) : toBytes (ofBytes xs) = xs := by
  simp [toBytes, pack_ofBytes]

end Bits

/-- A position in a byte sequence that is read bit by bit. -/
structure BitReader where
  /-- Unread bits of the byte in progress. -/
  pending : List Bool
  rest : List UInt8
  deriving Repr, DecidableEq

namespace BitReader

def ofBytes (xs : List UInt8) : BitReader :=
  ⟨[], xs⟩

/-- All unread bits, in reading order. -/
def toBits (r : BitReader) : List Bool :=
  r.pending ++ Bits.ofBytes r.rest

/-- The number of unread bits. -/
def size (r : BitReader) : Nat :=
  r.pending.length + 8 * r.rest.length

def next? : BitReader → Option (Bool × BitReader)
  | ⟨b :: bs, rest⟩ => some (b, ⟨bs, rest⟩)
  | ⟨[], x :: rest⟩ =>
    match Bits.ofByte x with
    | b :: bs => some (b, ⟨bs, rest⟩)
    | [] => none
  | ⟨[], []⟩ => none

/-- Reads a number of `width` bits, least significant first. -/
def number? : (width : Nat) → BitReader → Option (Nat × BitReader)
  | 0, r => some (0, r)
  | width + 1, r =>
    match r.next? with
    | none => none
    | some (b, r) =>
      match number? width r with
      | none => none
      | some (n, r) => some (b.toNat + 2 * n, r)

/-- Skips to the next byte boundary. -/
def align (r : BitReader) : BitReader :=
  ⟨[], r.rest⟩

theorem toBits_next? {r r' : BitReader} {b : Bool} (h : r.next? = some (b, r')) :
    r.toBits = b :: r'.toBits := by
  match r with
  | ⟨c :: bs, rest⟩ =>
    simp only [next?, Option.some.injEq, Prod.mk.injEq] at h
    obtain ⟨rfl, rfl⟩ := h
    rfl
  | ⟨[], x :: rest⟩ =>
    simp only [next?, Bits.ofByte, Option.some.injEq, Prod.mk.injEq] at h
    obtain ⟨rfl, rfl⟩ := h
    simp [toBits, Bits.ofBytes, Bits.ofByte]
  | ⟨[], []⟩ => simp [next?] at h

theorem size_eq_length_toBits (r : BitReader) : r.size = r.toBits.length := by
  have h : ∀ xs : List UInt8, (Bits.ofBytes xs).length = 8 * xs.length := by
    intro xs
    induction xs with
    | nil => rfl
    | cons x xs ih =>
      simp only [Bits.ofBytes] at ih
      simp only [Bits.ofBytes, List.flatMap_cons, List.length_append, Bits.length_ofByte, ih,
        List.length_cons]
      omega
  simp [size, toBits, h]

theorem size_next? {r r' : BitReader} {b : Bool} (h : r.next? = some (b, r')) :
    r'.size < r.size := by
  have := toBits_next? h
  simp [size_eq_length_toBits, this]

theorem size_number? {width n : Nat} {r r' : BitReader} (h : r.number? width = some (n, r')) :
    r'.size + width = r.size := by
  induction width generalizing r r' n with
  | zero =>
    simp only [number?, Option.some.injEq, Prod.mk.injEq] at h
    simp [h.2]
  | succ width ih =>
    simp only [number?] at h
    split at h
    · cases h
    · rename_i b r1 h1
      split at h
      · cases h
      · rename_i m r2 h2
        simp only [Option.some.injEq, Prod.mk.injEq] at h
        obtain ⟨-, rfl⟩ := h
        have h3 := ih h2
        have h4 := congrArg List.length (toBits_next? h1)
        simp only [List.length_cons, ← size_eq_length_toBits] at h4
        omega

end BitReader

end CircuitFixtures
