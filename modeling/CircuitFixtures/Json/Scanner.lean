import CircuitFixtures.Json.Fault

/-!
# Scanning JSON

Blanks, words, texts and numbers at the front of a text, and the values that a reader
has no use for.
-/

namespace CircuitFixtures.Json

def isBlank (c : Char) : Bool :=
  c == ' ' || c == '\n' || c == '\t' || c == '\r'

def skipBlanks (cs : List Char) : List Char :=
  cs.dropWhile isBlank

/-- Takes the letters of a word. -/
def word : List Char → List Char → Result Unit
  | [], cs => .ok ((), cs)
  | _ :: _, [] => failAt .endInValue []
  | w :: ws, c :: cs => if c = w then word ws cs else failNext .expectedWord (c :: cs)

/-! ## Texts -/

/-- A number of four digits, of which each character counts as many bytes as it has. -/
def hexEscape (cs : List Char) : Result Nat :=
  if Utf8.size cs < 4 then failAt .endInText []
  else
    match Hex.decode (cs.take 4) with
    | .ok n => .ok (n, cs.drop 4)
    | .error _ => .error ⟨.badEscape, .left (Utf8.size cs - 4)⟩

/-- The character of a number escape. One outside the basic plane takes two numbers. -/
def unicodeEscape (cs : List Char) : Result Char :=
  match hexEscape cs with
  | .error e => .error e
  | .ok (n, cs) =>
    if 0xDC00 ≤ n ∧ n ≤ 0xDFFF then failAt .loneSurrogate cs
    else if n < 0xD800 ∨ 0xDBFF < n then .ok (Char.ofNat n, cs)
    else
      match cs with
      | [] => failAt .endInText []
      | '\\' :: [] => failAt .endInText []
      | '\\' :: 'u' :: cs =>
        match hexEscape cs with
        | .error e => .error e
        | .ok (m, cs) =>
          if m < 0xDC00 ∨ 0xDFFF < m then failAt .loneSurrogate cs
          else .ok (Char.ofNat (0x10000 + (n - 0xD800) * 1024 + (m - 0xDC00)), cs)
      | '\\' :: cs => failNext .endInSurrogate cs
      | cs => failNext .endInSurrogate cs

/-- The character of an escape, behind the backslash. -/
def escape : List Char → Result Char
  | [] => failAt .endInText []
  | '"' :: cs => .ok ('"', cs)
  | '\\' :: cs => .ok ('\\', cs)
  | '/' :: cs => .ok ('/', cs)
  | 'b' :: cs => .ok ('\x08', cs)
  | 'f' :: cs => .ok ('\x0c', cs)
  | 'n' :: cs => .ok ('\n', cs)
  | 'r' :: cs => .ok ('\r', cs)
  | 't' :: cs => .ok ('\t', cs)
  | 'u' :: cs => unicodeEscape cs
  | c :: cs => failNext .badEscape (c :: cs)

theorem length_hexEscape {cs rest : List Char} {n : Nat} (h : hexEscape cs = .ok (n, rest)) :
    rest.length ≤ cs.length := by
  unfold hexEscape at h
  split at h
  · cases h
  · split at h
    · cases h
      simp
    · cases h

theorem length_unicodeEscape {cs rest : List Char} {c : Char}
    (h : unicodeEscape cs = .ok (c, rest)) : rest.length ≤ cs.length := by
  unfold unicodeEscape at h
  split at h
  · cases h
  · rename_i n cs1 h1
    have hl := length_hexEscape h1
    split at h
    · cases h
    · split at h
      · cases h
        exact hl
      · split at h
        · cases h
        · cases h
        · rename_i cs2
          split at h
          · cases h
          · rename_i h2
            have hm := length_hexEscape h2
            split at h
            · cases h
            · simp only [Except.ok.injEq, Prod.mk.injEq] at h
              obtain ⟨-, rfl⟩ := h
              simp only [List.length_cons] at hl
              omega
        · cases h
        · cases h

theorem length_escape {cs rest : List Char} {c : Char} (h : escape cs = .ok (c, rest)) :
    rest.length < cs.length := by
  unfold escape at h
  split at h
  case h_10 =>
    have := length_unicodeEscape h
    simp only [List.length_cons]
    omega
  all_goals cases h
  all_goals simp

/-- The characters up to the closing quote, behind those in `acc`, which are latest
first. -/
def textAfter (acc : List Char) (cs : List Char) : Result (List Char) :=
  match cs with
  | [] => failAt .endInText []
  | '"' :: cs => .ok (acc.reverse, cs)
  | '\\' :: cs =>
    match _h : escape cs with
    | .error e => .error e
    | .ok (c, rest) => textAfter (c :: acc) rest
  | c :: cs => if c.toNat < 32 then failAt .controlCharacter cs else textAfter (c :: acc) cs
termination_by cs.length
decreasing_by
  · exact Nat.lt_trans (length_escape _h) (Nat.lt_succ_self _)
  · exact Nat.lt_succ_self _

/-- The characters up to the closing quote. -/
def textTail (cs : List Char) : Result (List Char) :=
  textAfter [] cs

/-! ## Numbers -/

/-- A number, and a sign where it is not an integer. -/
inductive Number where
  | integer (n : Int)
  | float (negative : Bool) (x : Binary64)
  deriving Repr, DecidableEq

def Number.found : Number → Found
  | .integer n => .integer n
  | .float negative x => .float negative x

/-- The largest significand and the largest integer. -/
def maxSignificand : Nat := Nat.pow 2 64 - 1

/-- The largest exponent that is read. -/
def maxExponent : Nat := Nat.pow 2 31 - 1

/-- `10 ^ n` for `n` up to 308. -/
def powerOfTen (n : Nat) : Binary64 :=
  (Binary64.ofNat (Nat.pow 10 n)).getD .zero

/-- Divides by `10 ^ exponent`, at most `10 ^ 308` at a time. -/
def shiftDown (x : Binary64) (exponent : Nat) : Binary64 :=
  if 308 < exponent then
    if x.mantissa = 0 then x
    else shiftDown ((x.div (powerOfTen 308)).getD .zero) (exponent - 308)
  else (x.div (powerOfTen exponent)).getD .zero
termination_by exponent
decreasing_by omega

/-- The number of a significand and a power of ten; `cs` is the text behind it. -/
def float (negative : Bool) (significand : Nat) (exponent : Int) (cs : List Char) :
    Result Number :=
  let x := (Binary64.ofNat significand).getD .zero
  if exponent < 0 then .ok (.float negative (shiftDown x (-exponent).toNat), cs)
  else if 308 < exponent then
    if x.mantissa = 0 then .ok (.float negative x, cs) else failAt .numberTooLarge cs
  else
    match x.mul (powerOfTen exponent.toNat) with
    | some y => .ok (.float negative y, cs)
    | none => failAt .numberTooLarge cs

/-- The digits of an exponent behind `n`; `none` when the number is too large. -/
def exponentDigits (n : Nat) : List Char → Option Nat × List Char
  | [] => (some n, [])
  | c :: cs =>
    if c.isDigit then
      let n := 10 * n + (c.toNat - 48)
      if maxExponent < n then (none, cs) else exponentDigits n cs
    else (some n, c :: cs)

/-- The exponent of a number, behind its letter. -/
def exponent (negative : Bool) (significand : Nat) (start : Int) (cs : List Char) :
    Result Number :=
  let down := cs.head? == some '-'
  let cs := if cs.head? == some '+' || down then cs.tail else cs
  match cs with
  | [] => failAt .endInValue []
  | c :: cs =>
    if !c.isDigit then failNext .badNumber (c :: cs)
    else
      match exponentDigits (c.toNat - 48) cs with
      | (some n, cs) => float negative significand (if down then start - n else start + n) cs
      | (none, cs) =>
        if significand ≠ 0 ∧ !down then failAt .numberTooLarge cs
        else .ok (.float negative .zero, cs.dropWhile Char.isDigit)

/-- What may follow the digits of a number that is not an integer. -/
def afterDigits (negative : Bool) (significand : Nat) (start : Int) (cs : List Char) :
    Result Number :=
  match cs with
  | 'e' :: cs => exponent negative significand start cs
  | 'E' :: cs => exponent negative significand start cs
  | cs => float negative significand start cs

/-- Digits of a significand as far as it stays within bounds, with their count. -/
def significandDigits (n count : Nat) : List Char → Nat × Nat × List Char
  | [] => (n, count, [])
  | c :: cs =>
    if c.isDigit ∧ 10 * n + (c.toNat - 48) ≤ maxSignificand then
      significandDigits (10 * n + (c.toNat - 48)) (count + 1) cs
    else (n, count, c :: cs)

/-- The digits behind the point. -/
def fraction (negative : Bool) (significand : Nat) (start : Int) (cs : List Char) :
    Result Number :=
  let (n, count, rest) := significandDigits significand 0 cs
  match rest with
  | [] =>
    if count = 0 then failNext .endInValue [] else afterDigits negative n (start - count) []
  | c :: cs =>
    if c.isDigit then
      afterDigits negative n (start - count) (cs.dropWhile Char.isDigit)
    else if count = 0 then failNext .badNumber (c :: cs)
    else afterDigits negative n (start - count) (c :: cs)

/-- The rest of a number whose integer part has the given value, and so many digits
more. -/
def afterInteger (negative : Bool) (significand more : Nat) (cs : List Char) : Result Number :=
  match cs with
  | '.' :: cs => fraction negative significand more cs
  | cs =>
    if cs.head? == some 'e' || cs.head? == some 'E' || more ≠ 0 then
      afterDigits negative significand more cs
    else if !negative then .ok (.integer significand, cs)
    else if significand = 0 ∨ Nat.pow 2 63 < significand then
      .ok (.float true ((Binary64.ofNat significand).getD .zero), cs)
    else .ok (.integer (-significand), cs)

/-- A number behind its sign. -/
def unsigned (negative : Bool) (cs : List Char) : Result Number :=
  match cs with
  | [] => failAt .endInValue []
  | c :: cs =>
    if c = '0' then
      match cs with
      | d :: _ => if d.isDigit then failNext .badNumber cs else afterInteger negative 0 0 cs
      | [] => afterInteger negative 0 0 cs
    else if c.isDigit then
      let (n, _, rest) := significandDigits (c.toNat - 48) 1 cs
      let more := (rest.takeWhile Char.isDigit).length
      afterInteger negative n more (rest.drop more)
    else failNext .badNumber (c :: cs)

/-- The number at the front, which starts with a sign or a digit. -/
def number (cs : List Char) : Result Number :=
  match cs with
  | '-' :: cs => unsigned true cs
  | cs => unsigned false cs

/-! ## Values without use -/

/-- Skips the digits of a number behind its integer part. -/
def skipExponent (cs : List Char) : Result Unit :=
  let cs := if cs.head? == some '+' || cs.head? == some '-' then cs.tail else cs
  match cs with
  | c :: cs =>
    if c.isDigit then .ok ((), cs.dropWhile Char.isDigit) else failNext .badNumber (c :: cs)
  | [] => failAt .badNumber []

def skipFraction (cs : List Char) : Result Unit :=
  match cs with
  | c :: _ =>
    if !c.isDigit then failNext .badNumber cs
    else
      match cs.dropWhile Char.isDigit with
      | 'e' :: cs => skipExponent cs
      | 'E' :: cs => skipExponent cs
      | cs => .ok ((), cs)
  | [] => failNext .badNumber []

def skipAfterInteger : List Char → Result Unit
  | '.' :: cs => skipFraction cs
  | 'e' :: cs => skipExponent cs
  | 'E' :: cs => skipExponent cs
  | cs => .ok ((), cs)

def skipUnsigned (cs : List Char) : Result Unit :=
  match cs with
  | [] => failAt .badNumber []
  | c :: cs =>
    if c = '0' then
      match cs with
      | d :: _ => if d.isDigit then failNext .badNumber cs else skipAfterInteger cs
      | [] => .ok ((), [])
    else if c.isDigit then skipAfterInteger (cs.dropWhile Char.isDigit)
    else failNext .badNumber (c :: cs)

/-- Skips to the closing quote. Number escapes need not be characters. -/
def skipText : (fuel : Nat) → List Char → Result Unit
  | 0, cs => failAt .endInText cs
  | _ + 1, [] => failAt .endInText []
  | _ + 1, '"' :: cs => .ok ((), cs)
  | fuel + 1, '\\' :: 'u' :: cs =>
    match hexEscape cs with
    | .error e => .error e
    | .ok (_, cs) => skipText fuel cs
  | fuel + 1, '\\' :: cs =>
    match escape cs with
    | .error e => .error e
    | .ok (_, cs) => skipText fuel cs
  | fuel + 1, c :: cs =>
    if c.toNat < 32 then failAt .controlCharacter (c :: cs) else skipText fuel cs

/-- A list or an object that is not closed yet. -/
inductive Frame where
  | list
  | object
  deriving Repr, DecidableEq

def Frame.closing : Frame → Char
  | .list => ']'
  | .object => '}'

/-- Skips the key and the colon of a member. -/
def skipKey (cs : List Char) : Result Unit :=
  match skipBlanks cs with
  | [] => failNext .endInObject []
  | '"' :: cs =>
    match skipText (cs.length + 1) cs with
    | .error e => .error e
    | .ok ((), cs) =>
      match skipBlanks cs with
      | [] => failNext .endInObject []
      | ':' :: cs => .ok ((), cs)
      | cs => failNext .expectedColon cs
  | cs => failNext .keyNotText cs

/-- Skips a value that is neither list nor object. -/
def skipScalar (cs : List Char) : Result Unit :=
  match cs with
  | 'n' :: cs => word ['u', 'l', 'l'] cs
  | 't' :: cs => word ['r', 'u', 'e'] cs
  | 'f' :: cs => word ['a', 'l', 's', 'e'] cs
  | '-' :: cs => skipUnsigned cs
  | '"' :: cs => skipText (cs.length + 1) cs
  | c :: _ => if c.isDigit then skipUnsigned cs else failNext .expectedValue cs
  | [] => failNext .endInValue []

mutual

/-- Skips a value inside the frames, which are innermost first, and then the frames. -/
def skipValue : (fuel : Nat) → List Frame → List Char → Result Unit
  | 0, _, cs => failNext .expectedValue cs
  | fuel + 1, frames, cs =>
    match skipBlanks cs with
    | '[' :: cs => skipFrames fuel false (.list :: frames) cs
    | '{' :: cs => skipFrames fuel false (.object :: frames) cs
    | cs =>
      match skipScalar cs with
      | .error e => .error e
      | .ok ((), cs) => skipFrames fuel true frames cs

/-- Goes on behind a value, or, where no comma may stand, at the start of a frame. -/
def skipFrames : (fuel : Nat) → (comma : Bool) → List Frame → List Char → Result Unit
  | _, _, [], cs => .ok ((), cs)
  | 0, _, _ :: _, cs => failNext .expectedValue cs
  | fuel + 1, comma, frame :: frames, cs =>
    match skipBlanks cs with
    | [] => failNext (if frame = .list then .endInList else .endInObject) []
    | c :: cs =>
      if c = frame.closing then skipFrames fuel true frames cs
      else if comma && c != ',' then
        failNext (if frame = .list then .expectedListEnd else .expectedObjectEnd) (c :: cs)
      else
        let cs := if comma then cs else c :: cs
        if frame = .list then skipValue fuel (frame :: frames) cs
        else
          match skipKey cs with
          | .error e => .error e
          | .ok ((), cs) => skipValue fuel (frame :: frames) cs

end

/-- Skips a value of any kind. -/
def skip (cs : List Char) : Result Unit :=
  skipValue (2 * cs.length + 2) [] cs

end CircuitFixtures.Json
