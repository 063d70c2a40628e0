/-!
# Base64

Bytes as text over 64 symbols, four for three bytes, with `=` filling the last group.
`decode` accepts what `encode` writes and nothing else: the last group has to be full,
and a symbol may not carry bits that no byte uses.
-/

namespace CircuitFixtures.Base64

/-- Why a text is no encoding. Offsets and lengths count bytes. -/
inductive Fault where
  | badSymbol (byte : UInt8) (offset : Nat)
  /-- One symbol stands alone at the end. -/
  | badLength (length : Nat)
  /-- The last symbol carries bits beyond the last byte. -/
  | badLastSymbol (byte : UInt8) (offset : Nat)
  | badPadding
  deriving Repr, DecidableEq

def Fault.message : Fault → String
  | .badSymbol byte offset =>
    "Invalid symbol " ++ toString byte.toNat ++ ", offset " ++ toString offset ++ "."
  | .badLength length => "Invalid input length: " ++ toString length
  | .badLastSymbol byte offset =>
    "Invalid last symbol " ++ toString byte.toNat ++ ", offset " ++ toString offset ++ "."
  | .badPadding => "Invalid padding"

/-- The byte of the symbol for a number below 64. -/
def symbolOf (n : Nat) : UInt8 :=
  if n < 26 then UInt8.ofNat (65 + n)
  else if n < 52 then UInt8.ofNat (71 + n)
  else if n < 62 then UInt8.ofNat (n - 4)
  else if n = 62 then 43
  else 47

def valueOf? (x : UInt8) : Option Nat :=
  let n := x.toNat
  if 65 ≤ n ∧ n < 91 then some (n - 65)
  else if 97 ≤ n ∧ n < 123 then some (n - 71)
  else if 48 ≤ n ∧ n < 58 then some (n + 4)
  else if n = 43 then some 62
  else if n = 47 then some 63
  else none

/-- The filling of the last group. -/
def pad : UInt8 := 61

/-- Puts the symbols of bytes behind `out`. -/
def encodeAfter (out : Array UInt8) : List UInt8 → Array UInt8
  | a :: b :: c :: rest =>
    let n := 65536 * a.toNat + 256 * b.toNat + c.toNat
    encodeAfter
      ((((out.push (symbolOf (n / 262144))).push (symbolOf (n / 4096 % 64))).push
        (symbolOf (n / 64 % 64))).push (symbolOf (n % 64))) rest
  | [a, b] =>
    let n := 1024 * a.toNat + 4 * b.toNat
    (((out.push (symbolOf (n / 4096))).push (symbolOf (n / 64 % 64))).push
      (symbolOf (n % 64))).push pad
  | [a] =>
    let n := 16 * a.toNat
    (((out.push (symbolOf (n / 64))).push (symbolOf (n % 64))).push pad).push pad
  | [] => out

/-- The symbols of bytes, as bytes of text. -/
def encode (xs : List UInt8) : List UInt8 :=
  (encodeAfter #[] xs).toList

/-- The values of symbols, the first of which stands at `offset`. -/
def values (offset : Nat) : List UInt8 → Except Fault (List Nat)
  | [] => .ok []
  | x :: xs =>
    match valueOf? x with
    | none => .error (.badSymbol x offset)
    | some n =>
      match values (offset + 1) xs with
      | .error e => .error e
      | .ok ns => .ok (n :: ns)

/-- The symbols of the last group and the number of filling bytes after them. -/
def splitPad (offset : Nat) (xs : List UInt8) : Except Fault (List Nat × Nat) :=
  let symbols := xs.takeWhile (· != pad)
  let filling := xs.dropWhile (· != pad)
  match values offset symbols with
  | .error e => .error e
  | .ok ns =>
    if filling.isEmpty then .ok (ns, 0)
    else if symbols.length < 2 ∨ filling.any (· != pad) then
      .error (.badSymbol pad (offset + symbols.length))
    else .ok (ns, filling.length)

/-- The bytes of the last group, which has at most four symbols. -/
def decodeLast (offset : Nat) (xs : List UInt8) : Except Fault (List UInt8) :=
  match splitPad offset xs with
  | .error e => .error e
  | .ok (ns, filling) =>
    if ns.length < 2 then .error (.badLength (offset + ns.length))
    else if (ns.length + filling) % 4 ≠ 0 then .error .badPadding
    else
      let last := (xs.drop (ns.length - 1)).headD 0
      match ns with
      | [a, b] =>
        if b % 16 = 0 then .ok [UInt8.ofNat (4 * a + b / 16)]
        else .error (.badLastSymbol last (offset + 1))
      | [a, b, c] =>
        if c % 4 = 0 then .ok [UInt8.ofNat (4 * a + b / 16), UInt8.ofNat (16 * (b % 16) + c / 4)]
        else .error (.badLastSymbol last (offset + 2))
      | [a, b, c, d] =>
        .ok [UInt8.ofNat (4 * a + b / 16), UInt8.ofNat (16 * (b % 16) + c / 4),
          UInt8.ofNat (64 * (c % 4) + d)]
      | _ => .error .badPadding

/-- Puts the bytes that symbols stand for behind `out`; the first symbol stands at
`offset`. -/
def decodeAfter (out : Array UInt8) (offset : Nat) (xs : List UInt8) :
    Except Fault (Array UInt8) :=
  match xs with
  | a :: b :: c :: d :: e :: rest =>
    match values offset [a, b, c, d] with
    | .ok [a, b, c, d] =>
      decodeAfter
        (((out.push (UInt8.ofNat (4 * a + b / 16))).push
          (UInt8.ofNat (16 * (b % 16) + c / 4))).push (UInt8.ofNat (64 * (c % 4) + d)))
        (offset + 4) (e :: rest)
    | .ok _ => .error .badPadding
    | .error e => .error e
  | [] => .ok out
  | xs =>
    match decodeLast offset xs with
    | .error e => .error e
    | .ok ys => .ok (out ++ ys)
termination_by xs.length

/-- The bytes that a text, given by its bytes, stands for. A single symbol too many at the
end is looked at first. -/
def decode (xs : List UInt8) : Except Fault (List UInt8) :=
  let last := xs.getLastD pad
  if xs.length % 4 = 1 ∧ last ≠ pad ∧ valueOf? last = none then
    .error (.badSymbol last (xs.length - 1))
  else (decodeAfter #[] 0 xs).map Array.toList

end CircuitFixtures.Base64
