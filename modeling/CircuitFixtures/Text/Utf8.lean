/-!
# UTF-8

Characters as bytes. `encode` writes one to four bytes for a character; `decode` reads
them back and says where a sequence of bytes stops being text: at a byte that cannot stand
where it does, or at the end of the bytes in the middle of a character.

`size` counts the bytes of a text, and `size_cons` says that it adds up the widths of its
characters.
-/

namespace CircuitFixtures.Utf8

/-- Where bytes stop being text. -/
inductive Fault where
  /-- `length` bytes from `index` on cannot start a character. -/
  | invalid (length index : Nat)
  /-- The bytes end inside the character that starts at `index`. -/
  | incomplete (index : Nat)
  deriving Repr, DecidableEq

def Fault.message : Fault → String
  | .invalid length index =>
    "invalid utf-8 sequence of " ++ toString length ++ " bytes from index " ++ toString index
  | .incomplete index => "incomplete utf-8 byte sequence from index " ++ toString index

/-- The number of bytes of a character. -/
def width (c : Char) : Nat :=
  if c.toNat < 0x80 then 1
  else if c.toNat < 0x800 then 2
  else if c.toNat < 0x10000 then 3
  else 4

/-- The number of bytes of a text. -/
def size (cs : List Char) : Nat :=
  cs.foldl (fun n c => n + width c) 0

theorem foldl_width (n : Nat) (cs : List Char) :
    cs.foldl (fun n c => n + width c) n = n + size cs := by
  induction cs generalizing n with
  | nil => rfl
  | cons c cs ih =>
    have h : size (c :: cs) = 0 + width c + size cs := ih (0 + width c)
    rw [List.foldl_cons, ih, h]
    omega

theorem size_cons (c : Char) (cs : List Char) : size (c :: cs) = width c + size cs := by
  rw [size, List.foldl_cons, foldl_width]
  omega

def encodeChar (c : Char) : List UInt8 :=
  let n := c.toNat
  if n < 0x80 then [UInt8.ofNat n]
  else if n < 0x800 then [UInt8.ofNat (0xC0 + n / 64), UInt8.ofNat (0x80 + n % 64)]
  else if n < 0x10000 then
    [UInt8.ofNat (0xE0 + n / 4096), UInt8.ofNat (0x80 + n / 64 % 64), UInt8.ofNat (0x80 + n % 64)]
  else
    [UInt8.ofNat (0xF0 + n / 262144), UInt8.ofNat (0x80 + n / 4096 % 64),
      UInt8.ofNat (0x80 + n / 64 % 64), UInt8.ofNat (0x80 + n % 64)]

def encode (cs : List Char) : List UInt8 :=
  cs.flatMap encodeChar

/-- A byte that goes on with a character. -/
def isTail (n : Nat) : Bool :=
  0x80 ≤ n && n < 0xC0

/-- The bytes that may stand second in a character of more than one byte. -/
def isSecond (first second : Nat) : Bool :=
  if first = 0xE0 then 0xA0 ≤ second && second < 0xC0
  else if first = 0xED then 0x80 ≤ second && second < 0xA0
  else if first = 0xF0 then 0x90 ≤ second && second < 0xC0
  else if first = 0xF4 then 0x80 ≤ second && second < 0x90
  else isTail second

/-- The length of the character that a byte starts, or 0. -/
def lengthOf (first : Nat) : Nat :=
  if first < 0x80 then 1
  else if 0xC2 ≤ first && first < 0xE0 then 2
  else if 0xE0 ≤ first && first < 0xF0 then 3
  else if 0xF0 ≤ first && first < 0xF5 then 4
  else 0

/-- Reads the characters of bytes behind those in `cs`; `index` bytes stand before. -/
def decodeAfter (cs : Array Char) (index : Nat) (xs : List UInt8) : Except Fault (Array Char) :=
  match xs with
  | [] => .ok cs
  | a :: rest =>
    let a := a.toNat
    match lengthOf a, rest with
    | 0, _ => .error (.invalid 1 index)
    | 1, rest => decodeAfter (cs.push (Char.ofNat a)) (index + 1) rest
    | _, [] => .error (.incomplete index)
    | 2, b :: rest =>
      let b := b.toNat
      if !isSecond a b then .error (.invalid 1 index)
      else decodeAfter (cs.push (Char.ofNat ((a - 0xC0) * 64 + (b - 0x80)))) (index + 2) rest
    | 3, b :: rest =>
      let b := b.toNat
      if !isSecond a b then .error (.invalid 1 index)
      else
        match rest with
        | [] => .error (.incomplete index)
        | c :: rest =>
          let c := c.toNat
          if !isTail c then .error (.invalid 2 index)
          else
            decodeAfter
              (cs.push (Char.ofNat ((a - 0xE0) * 4096 + (b - 0x80) * 64 + (c - 0x80))))
              (index + 3) rest
    | _, b :: rest =>
      let b := b.toNat
      if !isSecond a b then .error (.invalid 1 index)
      else
        match rest with
        | [] => .error (.incomplete index)
        | c :: rest =>
          let c := c.toNat
          if !isTail c then .error (.invalid 2 index)
          else
            match rest with
            | [] => .error (.incomplete index)
            | d :: rest =>
              let d := d.toNat
              if !isTail d then .error (.invalid 3 index)
              else
                decodeAfter
                  (cs.push (Char.ofNat
                    ((a - 0xF0) * 262144 + (b - 0x80) * 4096 + (c - 0x80) * 64 + (d - 0x80))))
                  (index + 4) rest

/-- The text that bytes stand for. -/
def decode (xs : List UInt8) : Except Fault (List Char) :=
  (decodeAfter #[] 0 xs).map Array.toList

end CircuitFixtures.Utf8
