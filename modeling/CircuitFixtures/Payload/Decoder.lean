import CircuitFixtures.Bytes.LittleEndian
import CircuitFixtures.Field
import CircuitFixtures.Index.Map
import CircuitFixtures.Text.Utf8

/-!
# Reading payloads

A payload is a sequence of numbers of fixed width, lowest byte first, texts with their
length in front, and lists with their count in front. A decoder takes what it reads from
the front of the bytes; each of the encoders here has its decoder beside it.
-/

namespace CircuitFixtures.Payload

/-- Why bytes are no payload. -/
inductive Fault where
  /-- The bytes end inside a number. -/
  | endOfInput
  /-- The bytes end inside a text. -/
  | shortText
  | notText (fault : Utf8.Fault)
  /-- The number of a kind that does not exist. -/
  | badTag (tag kinds : Nat)
  | badField (fault : Field.Fault)
  deriving Repr, DecidableEq

def Fault.message : Fault → String
  | .endOfInput => "io error: unexpected end of file"
  | .shortText => "io error: "
  | .notText fault => "string is not valid utf8: " ++ fault.message
  | .badTag tag kinds =>
    "invalid value: integer `" ++ toString tag ++ "`, expected variant index 0 <= i < " ++
      toString kinds
  | .badField fault => fault.message

abbrev Decoder := StateT (List UInt8) (Except Fault)

/-! ## Numbers -/

def number (width : Nat) : Decoder Nat := fun xs =>
  if (xs.take width).length < width then .error .endOfInput
  else .ok (LittleEndian.decode (xs.take width), xs.drop width)

def index : Decoder Index := do
  return UInt32.ofNat (← number 4)

def position : Decoder UInt64 := do
  return UInt64.ofNat (← number 8)

def encodeIndex (i : UInt32) : List UInt8 :=
  LittleEndian.encode 4 i.toNat

def encodePosition (n : UInt64) : List UInt8 :=
  LittleEndian.encode 8 n.toNat

/-- The number of a kind among `kinds`. -/
def tag (kinds : Nat) : Decoder Nat := do
  let n ← number 4
  if n < kinds then return n else throw (.badTag n kinds)

def encodeTag (n : Nat) : List UInt8 :=
  LittleEndian.encode 4 n

/-! ## Texts -/

/-- Takes `n` bytes. -/
def bytes (n : Nat) : Decoder (List UInt8) := fun xs =>
  if (xs.take n).length < n then .error .shortText else .ok (xs.take n, xs.drop n)

def chars : Decoder (List Char) := do
  let n ← number 8
  let xs ← bytes n
  match Utf8.decode xs with
  | .ok cs => return cs
  | .error e => throw (.notText e)

def encodeChars (cs : List Char) : List UInt8 :=
  let xs := Utf8.encode cs
  LittleEndian.encode 8 xs.length ++ xs

def text : Decoder String := do
  return String.ofList (← chars)

def encodeText (s : String) : List UInt8 :=
  encodeChars s.toList

def field : Decoder Field := do
  match Field.ofChars (← chars) with
  | .ok x => return x
  | .error e => throw (.badField e)

def encodeField (x : Field) : List UInt8 :=
  encodeChars x.toDigits

/-! ## Lists -/

/-- `count` items behind those in `acc`, which are latest first. -/
def itemsAfter {α : Type} (item : Decoder α) : (count : Nat) → List α → Decoder (List α)
  | 0, acc => fun xs => .ok (acc.reverse, xs)
  | count + 1, acc => fun xs =>
    match item xs with
    | .ok (x, xs) => itemsAfter item count (x :: acc) xs
    | .error e => .error e

/-- A list with its count in front. -/
def list {α : Type} (item : Decoder α) : Decoder (List α) := do
  let count ← number 8
  itemsAfter item count []

def encodeList {α : Type} (item : α → List UInt8) (xs : List α) : List UInt8 :=
  LittleEndian.encode 8 xs.length ++ xs.flatMap item

end CircuitFixtures.Payload
