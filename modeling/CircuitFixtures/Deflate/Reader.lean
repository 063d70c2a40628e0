import CircuitFixtures.Bits
import CircuitFixtures.Deflate.Alphabet
import CircuitFixtures.Deflate.Codes
import CircuitFixtures.Deflate.Token

/-!
# Reading compressed data

Reads blocks into tokens until the last block ends. Each step takes at least one bit, so
reading ends on every input. Data that ends early is `Fault.incomplete`, and anything
else that the format does not allow is `Fault.corrupt`; a copy that reaches back before
the start of the data is allowed and finds zeros there.
-/

namespace CircuitFixtures.Deflate

/-- A number of `width` bits. -/
def readNumber (width : Nat) (r : BitReader) : Except Fault (Nat × BitReader) :=
  match r.number? width with
  | some p => .ok p
  | none => .error .incomplete

theorem size_readNumber {width n : Nat} {r r' : BitReader}
    (h : readNumber width r = .ok (n, r')) : r'.size + width = r.size := by
  unfold readNumber at h
  split at h
  · rename_i p hp
    cases h
    exact BitReader.size_number? hp
  · cases h

/-- The value of a symbol of the given table with its extra bits. -/
def readValue (ranges : Array Range) (index : Nat) (r : BitReader) :
    Except Fault (Nat × BitReader) :=
  match ranges[index]? with
  | none => .error .corrupt
  | some range =>
    match readNumber range.extra r with
    | .error e => .error e
    | .ok (n, r) => .ok (range.base + n, r)

theorem size_readValue {ranges : Array Range} {index n : Nat} {r r' : BitReader}
    (h : readValue ranges index r = .ok (n, r')) : r'.size ≤ r.size := by
  unfold readValue at h
  split at h
  · cases h
  · split at h
    · cases h
    · rename_i hn
      cases h
      have := size_readNumber hn
      omega

/-- The rest of a copy, after its length symbol. -/
def readCopy (distances : CodeTree) (index : Nat) (r : BitReader) :
    Except Fault (Token × BitReader) :=
  match readValue lengthRanges index r with
  | .error e => .error e
  | .ok (length, r) =>
    match distances.read r with
    | .error e => .error e
    | .ok (symbol, r) =>
      match readValue distanceRanges symbol r with
      | .error e => .error e
      | .ok (distance, r) => .ok (.copy length distance, r)

theorem size_readCopy {distances : CodeTree} {index : Nat} {t : Token} {r r' : BitReader}
    (h : readCopy distances index r = .ok (t, r')) : r'.size ≤ r.size := by
  unfold readCopy at h
  split at h
  · cases h
  · rename_i h1
    split at h
    · cases h
    · rename_i h2
      split at h
      · cases h
      · rename_i h3
        cases h
        have := size_readValue h1
        have := CodeTree.size_read h2
        have := size_readValue h3
        omega

/-- The next token, or `none` at the end of the block. -/
def readToken (codes : Codes) (r : BitReader) : Except Fault (Option Token × BitReader) :=
  match codes.literals.read r with
  | .error e => .error e
  | .ok (symbol, r) =>
    if symbol < endOfBlock then .ok (some (.literal (UInt8.ofNat symbol)), r)
    else if symbol = endOfBlock then .ok (none, r)
    else
      match readCopy codes.distances (symbol - firstLength) r with
      | .error e => .error e
      | .ok (t, r) => .ok (some t, r)

theorem size_readToken {codes : Codes} {t : Option Token} {r r' : BitReader}
    (h : readToken codes r = .ok (t, r')) : r'.size < r.size := by
  unfold readToken at h
  split at h
  · cases h
  · rename_i h1
    have h2 := CodeTree.size_read h1
    split at h
    · cases h
      exact h2
    · split at h
      · cases h
        exact h2
      · split at h
        · cases h
        · rename_i h3
          cases h
          exact Nat.lt_of_le_of_lt (size_readCopy h3) h2

/-- Tokens up to the end of the block, behind those in `ts`. -/
def readTokens (codes : Codes) (r : BitReader) (ts : Array Token) :
    Except Fault (Array Token × BitReader) :=
  match _h : readToken codes r with
  | .error e => .error e
  | .ok (none, r) => .ok (ts, r)
  | .ok (some t, r) => readTokens codes r (ts.push t)
termination_by r.size
decreasing_by exact size_readToken _h

theorem size_readTokens {codes : Codes} {r r' : BitReader} {ts us : Array Token}
    (h : readTokens codes r ts = .ok (us, r')) : r'.size ≤ r.size := by
  fun_induction readTokens codes r ts with
  | case1 => cases h
  | case2 r ts r1 h1 =>
    cases h
    exact Nat.le_of_lt (size_readToken h1)
  | case3 r ts t r1 h1 ih =>
    have := size_readToken h1
    have := ih h
    omega

/-- `count` more code lengths, behind those in `lengths`, which are latest first. -/
def readLengths (tree : CodeTree) (count : Nat) (lengths : List Nat) (r : BitReader) :
    Except Fault (List Nat × BitReader) :=
  if count = 0 then .ok (lengths.reverse, r)
  else
    match _h : tree.read r with
    | .error e => .error e
    | .ok (symbol, r1) =>
      if symbol = 16 ∧ lengths = [] then .error .corrupt
      else
        match _h' : readNumber (LengthSymbol.extra symbol) r1 with
        | .error e => .error e
        | .ok (value, r2) =>
          match LengthSymbol.meaning? lengths.head? ⟨symbol, value⟩ with
          | none => .error .corrupt
          | some (n, times) =>
            if count < times then .error .corrupt
            else readLengths tree (count - times) (List.replicate times n ++ lengths) r2
termination_by r.size
decreasing_by
  have := CodeTree.size_read _h
  have := size_readNumber _h'
  omega

theorem size_readLengths {tree : CodeTree} {count : Nat} {lengths out : List Nat}
    {r r' : BitReader} (h : readLengths tree count lengths r = .ok (out, r')) :
    r'.size ≤ r.size := by
  fun_induction readLengths tree count lengths r with
  | case1 =>
    cases h
    exact Nat.le_refl _
  | case2 => cases h
  | case3 => cases h
  | case4 => cases h
  | case5 => cases h
  | case6 => cases h
  | case7 count lengths r _ symbol r1 h1 _ value r2 h2 n times _ _ ih =>
    have := CodeTree.size_read h1
    have := size_readNumber h2
    have := ih h
    omega

/-- `count` numbers of three bits. -/
def readTriples : (count : Nat) → BitReader → Except Fault (List Nat × BitReader)
  | 0, r => .ok ([], r)
  | count + 1, r =>
    match readNumber 3 r with
    | .error e => .error e
    | .ok (n, r) =>
      match readTriples count r with
      | .error e => .error e
      | .ok (ns, r) => .ok (n :: ns, r)

theorem size_readTriples {count : Nat} {ns : List Nat} {r r' : BitReader}
    (h : readTriples count r = .ok (ns, r')) : r'.size ≤ r.size := by
  induction count generalizing r r' ns with
  | zero =>
    cases h
    exact Nat.le_refl _
  | succ count ih =>
    simp only [readTriples] at h
    split at h
    · cases h
    · rename_i h1
      split at h
      · cases h
      · rename_i h2
        cases h
        have := size_readNumber h1
        have := ih h2
        omega

/-- The code lengths that numbers in writing order stand for. -/
def unorder (ns : List Nat) : List Nat :=
  (List.range 19).map (fun s =>
    (((lengthOrder.zip ns).find? (fun p => p.1 == s)).map (·.2)).getD 0)

/-- The codes of a block that describes its own. -/
def readCodes (r : BitReader) : Except Fault (Codes × BitReader) :=
  match readNumber 5 r with
  | .error e => .error e
  | .ok (a, r) =>
    match readNumber 5 r with
    | .error e => .error e
    | .ok (b, r) =>
      match readNumber 4 r with
      | .error e => .error e
      | .ok (c, r) =>
        if 286 < a + 257 ∨ 30 < b + 1 then .error .corrupt
        else
          match readTriples (c + 4) r with
          | .error e => .error e
          | .ok (ns, r) =>
            match CodeTree.ofFullLengths? (unorder ns) with
            | none => .error .corrupt
            | some tree =>
              match readLengths tree (a + 257 + (b + 1)) [] r with
              | .error e => .error e
              | .ok (lengths, r) =>
                match Codes.ofLengths? (lengths.take (a + 257)) (lengths.drop (a + 257)) with
                | none => .error .corrupt
                | some codes => .ok (codes, r)

theorem size_readCodes {codes : Codes} {r r' : BitReader}
    (h : readCodes r = .ok (codes, r')) : r'.size ≤ r.size := by
  unfold readCodes at h
  repeat' split at h
  all_goals first | cases h; done | skip
  rename_i h1 _ _ _ h2 _ _ _ h3 _ _ _ _ h4 _ _ _ _ _ _ h5 _ _ _
  cases h
  have := size_readNumber h1
  have := size_readNumber h2
  have := size_readNumber h3
  have := size_readTriples h4
  have := size_readLengths h5
  omega

/-- The bytes of a block that holds them as they are. -/
def readStored (r : BitReader) (ts : Array Token) : Except Fault (Array Token × BitReader) :=
  match r.align.rest with
  | a :: b :: c :: d :: rest =>
    let n := a.toNat + 256 * b.toNat
    if n + (c.toNat + 256 * d.toNat) = 65535 then
      let (xs, rest) := rest.splitAt n
      if xs.length < n then .error .incomplete
      else .ok (ts ++ xs.map Token.literal, ⟨[], rest⟩)
    else .error .corrupt
  | _ => .error .incomplete

theorem size_readStored {ts us : Array Token} {r r' : BitReader}
    (h : readStored r ts = .ok (us, r')) : r'.size ≤ r.size := by
  unfold readStored at h
  split at h
  · rename_i a b c d rest hr
    simp only [List.splitAt_eq] at h
    split at h
    · split at h
      · cases h
      · cases h
        have h2 : r.rest = a :: b :: c :: d :: rest := hr
        simp only [BitReader.size, h2, List.length_drop, List.length_cons, List.length_nil]
        omega
    · cases h
  · cases h

/-- One block behind the tokens in `ts`, and whether it is the last. -/
def readBlock (r : BitReader) (ts : Array Token) :
    Except Fault (Bool × Array Token × BitReader) :=
  match readNumber 1 r with
  | .error e => .error e
  | .ok (last, r) =>
    match readNumber 2 r with
    | .error e => .error e
    | .ok (kind, r) =>
      let body :=
        if kind = 0 then readStored r ts
        else if kind = 1 then readTokens .fixed r ts
        else if kind = 2 then
          match readCodes r with
          | .error e => .error e
          | .ok (codes, r) => readTokens codes r ts
        else .error .corrupt
      match body with
      | .error e => .error e
      | .ok (ts, r) => .ok (last == 1, ts, r)

theorem size_readBlock {last : Bool} {ts us : Array Token} {r r' : BitReader}
    (h : readBlock r ts = .ok (last, us, r')) : r'.size < r.size := by
  unfold readBlock at h
  split at h
  · cases h
  · rename_i n r1 h1
    split at h
    · cases h
    · rename_i kind r2 h2
      dsimp only at h
      split at h
      · cases h
      · rename_i vs r3 h3
        cases h
        have hbody : r'.size ≤ r2.size := by
          split at h3
          · exact size_readStored h3
          · split at h3
            · exact size_readTokens h3
            · split at h3
              · split at h3
                · cases h3
                · rename_i h4
                  exact Nat.le_trans (size_readTokens h3) (size_readCodes h4)
              · cases h3
        have := size_readNumber h1
        have := size_readNumber h2
        omega

/-- All blocks up to the last, behind the tokens in `ts`. -/
def readBlocks (r : BitReader) (ts : Array Token) : Except Fault (Array Token × BitReader) :=
  match _h : readBlock r ts with
  | .error e => .error e
  | .ok (true, ts, r) => .ok (ts, r)
  | .ok (false, ts, r) => readBlocks r ts
termination_by r.size
decreasing_by exact size_readBlock _h

/-- The bytes that compressed data stands for, and what follows the compressed data. -/
def decompress (data : List UInt8) : Except Fault (List UInt8 × List UInt8) :=
  match readBlocks (.ofBytes data) #[] with
  | .error e => .error e
  | .ok (ts, r) => .ok ((Token.expand ts.toList).toList, r.align.rest)

end CircuitFixtures.Deflate
