/-!
# Places in a YAML text

A cursor is the rest of a text with its line and column. Blanks are spaces and tabs; a line
ends at a break, and a return with a line feed is one break.
-/

namespace CircuitFixtures.Yaml

def isBlank (c : Char) : Bool :=
  c == ' ' || c == '\t'

def isBreak (c : Char) : Bool :=
  c == '\n' || c == '\r' || c == '\x85' || c == '\u2028' || c == '\u2029'

/-- A letter, a digit or one of the two marks that names may have. -/
def isName (c : Char) : Bool :=
  c.isAlphanum || c == '_' || c == '-'

/-- A blank, a break or the end of the text comes next. -/
def endsWord : List Char → Bool
  | [] => true
  | c :: _ => isBlank c || isBreak c

/-- A break or the end of the text comes next. -/
def endsLine : List Char → Bool
  | [] => true
  | c :: _ => isBreak c

/-- The line is one that separates documents. -/
def marksDocument : List Char → Bool
  | '-' :: '-' :: '-' :: cs => endsWord cs
  | '.' :: '.' :: '.' :: cs => endsWord cs
  | _ => false

structure Cursor where
  rest : List Char
  index : Nat
  line : Nat
  column : Nat
  deriving Repr, DecidableEq

namespace Cursor

def ofChars (cs : List Char) : Cursor := ⟨cs, 0, 0, 0⟩

/-- Goes on by characters that are no breaks. -/
def skip (c : Cursor) (count : Nat) : Cursor :=
  ⟨c.rest.drop count, c.index + count, c.line, c.column + count⟩

/-- Goes on behind the characters that `p` accepts, which are no breaks. -/
def skipWhile (c : Cursor) (p : Char → Bool) : Cursor :=
  c.skip (c.rest.takeWhile p).length

/-- Goes on behind the break that comes next. -/
def skipBreak (c : Cursor) : Cursor :=
  match c.rest with
  | '\r' :: '\n' :: cs => ⟨cs, c.index + 2, c.line + 1, 0⟩
  | _ :: cs => ⟨cs, c.index + 1, c.line + 1, 0⟩
  | [] => c

/-- The character that stands for the break that comes next. -/
def breakChar (c : Cursor) : List Char :=
  match c.rest with
  | '\u2028' :: _ => ['\u2028']
  | '\u2029' :: _ => ['\u2029']
  | [] => []
  | _ => ['\n']

/-- A line that separates documents starts here. -/
def atDocumentMark (c : Cursor) : Bool :=
  c.column == 0 && marksDocument c.rest

end Cursor

end CircuitFixtures.Yaml
