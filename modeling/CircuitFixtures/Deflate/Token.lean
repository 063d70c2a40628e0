/-!
# Tokens

Compressed data is a list of tokens: a byte written out, or a copy of bytes that
stand a given distance back. `Token.expand` gives the bytes that a list of tokens
stands for; bytes before the start of the data count as zero, so it is total.

`expandAfter_append` splits an expansion, `size_step` counts the bytes of one token, and
`expandAfter_literals` says that written-out bytes stand for themselves.
-/

namespace CircuitFixtures.Deflate

inductive Token where
  | literal (x : UInt8)
  | copy (length distance : Nat)
  deriving Repr, DecidableEq

namespace Token

/-- The number of bytes a token stands for. -/
def size : Token → Nat
  | .literal _ => 1
  | .copy length _ => length

/-- A copy has 3 to 258 bytes and reaches 1 to 32768 bytes back. -/
def Encodable : Token → Prop
  | .literal _ => True
  | .copy length distance => 3 ≤ length ∧ length ≤ 258 ∧ 1 ≤ distance ∧ distance ≤ 32768

instance : DecidablePred Encodable := fun t => by
  cases t <;> unfold Encodable <;> infer_instance

/-- The byte `distance` places before the end, or zero where there is none. -/
def back (out : Array UInt8) (distance : Nat) : UInt8 :=
  if distance ≤ out.size then out.getD (out.size - distance) 0 else 0

/-- Appends `length` bytes, each a copy of the one `distance` places back. -/
def repeatBack (distance : Nat) : (length : Nat) → Array UInt8 → Array UInt8
  | 0, out => out
  | length + 1, out => repeatBack distance length (out.push (back out distance))

def step (out : Array UInt8) : Token → Array UInt8
  | .literal x => out.push x
  | .copy length distance => repeatBack distance length out

/-- The bytes `out` followed by those that the tokens stand for. -/
def expandAfter (out : Array UInt8) (ts : List Token) : Array UInt8 :=
  ts.foldl step out

def expand (ts : List Token) : Array UInt8 :=
  expandAfter #[] ts

/-- The number of bytes a list of tokens stands for. -/
def totalSize (ts : List Token) : Nat :=
  ts.foldl (fun n t => n + t.size) 0

theorem expandAfter_append (out : Array UInt8) (ts us : List Token) :
    expandAfter out (ts ++ us) = expandAfter (expandAfter out ts) us := by
  simp [expandAfter]

theorem size_repeatBack (distance length : Nat) (out : Array UInt8) :
    (repeatBack distance length out).size = out.size + length := by
  induction length generalizing out with
  | zero => rfl
  | succ length ih => simp only [repeatBack, ih, Array.size_push]; omega

theorem size_step (out : Array UInt8) (t : Token) : (step out t).size = out.size + t.size := by
  cases t with
  | literal x => simp [step, size]
  | copy length distance => simp [step, size, size_repeatBack]

theorem expandAfter_literals (out : Array UInt8) (xs : List UInt8) :
    expandAfter out (xs.map .literal) = out ++ xs.toArray := by
  induction xs generalizing out with
  | nil => simp [expandAfter]
  | cons x xs ih =>
    have h : expandAfter out ((x :: xs).map .literal) =
        expandAfter (out.push x) (xs.map .literal) := rfl
    rw [h, ih]
    simp

end Token

end CircuitFixtures.Deflate
