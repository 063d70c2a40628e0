import CircuitFixtures.Bytes.BigEndian
import CircuitFixtures.Text.Hex
import CircuitFixtures.Text.Utf8

/-!
# Field elements

The scalar field of the BN254 curve, as numbers below its order. An element has one
written form of 64 lowercase digits, and every reader refuses a number that is not below
the order instead of reducing it. `ofText` takes one to 64 digits with or without a
leading `0x`; `ofFixedText` takes `0x` and exactly 64 digits.

`ofBytes_toBytes`, `ofText_toHex`, `ofText_toText` and `ofFixedText_toText` say that every
written form reads back.
-/

namespace CircuitFixtures

/-- The order of the field. -/
def Field.order : Nat :=
  0x30644e72e131a029b85045b68181585d2833e84879b9709143e1f593f0000001

/-- A number below the order of the field. -/
structure Field where
  val : Nat
  val_lt : val < Field.order
  deriving Repr, DecidableEq

namespace Field

/-- The number of bytes of an element. -/
def width : Nat := 32

def zero : Field := ⟨0, by decide⟩

def one : Field := ⟨1, by decide⟩

instance : Inhabited Field := ⟨zero⟩

/-- The element that a number stands for. -/
def ofNat (n : Nat) : Field :=
  ⟨n % order, Nat.mod_lt _ (by decide)⟩

def toBytes (x : Field) : List UInt8 :=
  BigEndian.encode width x.val

/-- The 64 digits of an element. -/
def toDigits (x : Field) : List Char :=
  Hex.encode x.toBytes

/-- The digits without a leading `0x`, as circuits carry them. -/
def toHex (x : Field) : String :=
  String.ofList x.toDigits

/-- `0x` and the digits. -/
def toText (x : Field) : String :=
  String.ofList ('0' :: 'x' :: x.toDigits)

instance : ToString Field := ⟨toText⟩

/-- What is wrong with the digits of a value. -/
inductive DigitsFault where
  | missingLead
  /-- A text of fixed width has `found` bytes of digits. -/
  | wrongWidth (found : Nat)
  | none
  | tooMany
  /-- A character, by its first byte, that is no digit. -/
  | notDigit (byte : UInt8) (position : Nat)
  deriving Repr, DecidableEq

/-- Why a value is no field element. -/
inductive Fault where
  | badDigits (text : String) (reason : DigitsFault)
  /-- The digits of a number that is not below the order. -/
  | notBelowOrder (digits : List Char)
  deriving Repr, DecidableEq

/-- A character in single quotes, with control characters, the quote and the backslash
escaped. -/
def quoteByte (x : UInt8) : String :=
  let n := x.toNat
  let inner :=
    if n = 0 then "\\0"
    else if n = 9 then "\\t"
    else if n = 10 then "\\n"
    else if n = 13 then "\\r"
    else if n = 39 then "\\'"
    else if n = 92 then "\\\\"
    else if n < 32 ∨ n = 127 then
      "\\u\x7b" ++ String.ofList (Nat.toDigits 16 n) ++ "\x7d"
    else String.singleton (Char.ofNat n)
  "'" ++ inner ++ "'"

def DigitsFault.message : DigitsFault → String
  | .missingLead => "missing 0x prefix"
  | .wrongWidth found => "expected 64 hex digits, found " ++ toString found
  | .none => "no digits"
  | .tooMany => "more than 64 hex digits"
  | .notDigit byte position =>
    "Invalid character " ++ quoteByte byte ++ " at position " ++ toString position

def Fault.message : Fault → String
  | .badDigits text reason => "Invalid hex value '" ++ text ++ "': " ++ reason.message
  | .notBelowOrder digits =>
    "Value 0x" ++ String.ofList digits ++ " is not a canonical field element"

/-- The bytes with zeros in front, as many as an element has. -/
def padded (xs : List UInt8) : List UInt8 :=
  List.replicate (width - xs.length) 0 ++ xs

/-- The element of at most 32 bytes, highest first. The number they make is reduced, and refused
where that changes its bytes. -/
def ofBytes (xs : List UInt8) : Except Fault Field :=
  if width < xs.length then .error (.notBelowOrder (Hex.encode xs))
  else
    let x := ofNat (BigEndian.decode (padded xs))
    if x.toBytes = padded xs then .ok x else .error (.notBelowOrder (Hex.encode (padded xs)))

/-- The characters after a leading `0x`. -/
def dropLead? : List Char → Option (List Char)
  | '0' :: 'x' :: cs => some cs
  | _ => none

/-- The element of digits that stand in `text`, two for each byte. Bytes and positions count a zero
in front of an odd number of digits. -/
def ofDigits (text cs : List Char) : Except Fault Field :=
  let refuse (reason : DigitsFault) : Except Fault Field :=
    .error (.badDigits (String.ofList text) reason)
  let size := Utf8.size cs
  if size = 0 then refuse .none
  else if 2 * width < size then refuse .tooMany
  else
    match Hex.decode cs with
    | .ok n => ofBytes (BigEndian.encode ((size + 1) / 2) n)
    | .error (c, position) =>
      refuse (.notDigit ((Utf8.encodeChar c).headD 0) (position + size % 2))

/-- The element of one to 64 digits with or without a leading `0x`. -/
def ofChars (text : List Char) : Except Fault Field :=
  ofDigits text ((dropLead? text).getD text)

def ofText (text : String) : Except Fault Field :=
  ofChars text.toList

/-- The element of `0x` and 64 digits. -/
def ofFixedChars (text : List Char) : Except Fault Field :=
  match dropLead? text with
  | none => .error (.badDigits (String.ofList text) .missingLead)
  | some cs =>
    if Utf8.size cs = 2 * width then ofChars cs
    else .error (.badDigits (String.ofList text) (.wrongWidth (Utf8.size cs)))

def ofFixedText (text : String) : Except Fault Field :=
  ofFixedChars text.toList

theorem length_toBytes (x : Field) : x.toBytes.length = 32 :=
  BigEndian.length_encode _ _

theorem length_toDigits (x : Field) : x.toDigits.length = 64 := by
  rw [toDigits, Hex.length_encode, length_toBytes]

theorem order_lt : order < Nat.pow 256 width := by decide

theorem decode_toBytes (x : Field) : BigEndian.decode x.toBytes = x.val := by
  rw [toBytes, BigEndian.decode_encode]
  exact Nat.mod_eq_of_lt (Nat.lt_trans x.val_lt order_lt)

theorem ofNat_val (x : Field) : ofNat x.val = x := by
  simp [ofNat, Nat.mod_eq_of_lt x.val_lt]

theorem padded_of_length {xs : List UInt8} (h : xs.length = width) : padded xs = xs := by
  simp [padded, h]

theorem ofBytes_toBytes (x : Field) : ofBytes x.toBytes = .ok x := by
  have hlength : x.toBytes.length = width := length_toBytes x
  simp [ofBytes, hlength, padded_of_length hlength, decode_toBytes, ofNat_val]

theorem size_toDigits (x : Field) : Utf8.size x.toDigits = 64 := by
  rw [toDigits, Hex.size_encode, length_toBytes]

theorem decode_toDigits (x : Field) : Hex.decode x.toDigits = .ok x.val := by
  rw [Hex.decode, toDigits, Hex.decodeAfter_encode, ← decode_toBytes]
  rfl

theorem ofDigits_toDigits (text : List Char) (x : Field) : ofDigits text x.toDigits = .ok x := by
  have hbytes : ofBytes (BigEndian.encode 32 x.val) = .ok x := ofBytes_toBytes x
  simp [ofDigits, size_toDigits, width, decode_toDigits, hbytes]

/-- The digits of an element do not start like a lead. -/
theorem dropLead?_toDigits (x : Field) : dropLead? x.toDigits = none := by
  have h : ∀ c ∈ x.toDigits, c ≠ 'x' := by
    intro c hc
    simp only [toDigits, Hex.encode, List.mem_flatMap] at hc
    obtain ⟨b, -, hb⟩ := hc
    have all : ∀ k : Fin 16, Hex.digitOf k.val ≠ 'x' := by decide
    have hx := UInt8.toNat_lt b
    simp only [List.mem_cons, List.not_mem_nil, or_false] at hb
    rcases hb with rfl | rfl
    · exact all ⟨b.toNat / 16, by omega⟩
    · exact all ⟨b.toNat % 16, by omega⟩
  unfold dropLead?
  split
  · rename_i cs hcs
    exact absurd rfl (h 'x' (by rw [hcs]; simp))
  · rfl

theorem ofText_toHex (x : Field) : ofText x.toHex = .ok x := by
  simp [ofText, ofChars, toHex, dropLead?_toDigits, ofDigits_toDigits]

theorem ofText_toText (x : Field) : ofText x.toText = .ok x := by
  have h : dropLead? ('0' :: 'x' :: x.toDigits) = some x.toDigits := rfl
  simp [ofText, ofChars, toText, h, ofDigits_toDigits]

theorem ofFixedText_toText (x : Field) : ofFixedText x.toText = .ok x := by
  have h : dropLead? ('0' :: 'x' :: x.toDigits) = some x.toDigits := rfl
  simp [ofFixedText, ofFixedChars, toText, h, size_toDigits, width, ofChars, dropLead?_toDigits,
    ofDigits_toDigits]

end Field

end CircuitFixtures
