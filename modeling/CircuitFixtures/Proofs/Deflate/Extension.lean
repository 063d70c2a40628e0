import CircuitFixtures.Proofs.Deflate.Blocks

/-!
# Bytes behind compressed data

A reader looks at no byte behind those it takes: where it succeeds, it gives the same with more
bytes at the end, and leaves these (`readBlocks_extend`, `decompress_extend`). So compressed
data that is cut short is not read to its end.
-/

namespace CircuitFixtures

namespace BitReader

/-- The same position with more bytes at the end. -/
def extend (r : BitReader) (ys : List UInt8) : BitReader :=
  ⟨r.pending, r.rest ++ ys⟩

theorem next?_extend {r r' : BitReader} {b : Bool} (h : r.next? = some (b, r'))
    (ys : List UInt8) : (r.extend ys).next? = some (b, r'.extend ys) := by
  match r with
  | ⟨c :: cs, rest⟩ =>
    rw [next?] at h
    cases h
    rfl
  | ⟨[], x :: rest⟩ =>
    rw [next?, Bits.ofByte] at h
    cases h
    rfl
  | ⟨[], []⟩ =>
    rw [next?] at h
    cases h

theorem number?_extend {width n : Nat} {r r' : BitReader} (h : r.number? width = some (n, r'))
    (ys : List UInt8) : (r.extend ys).number? width = some (n, r'.extend ys) := by
  induction width generalizing r n with
  | zero =>
    rw [number?] at h ⊢
    cases h
    rfl
  | succ width ih =>
    rw [number?] at h ⊢
    split at h
    · cases h
    · rename_i b r1 h1
      split at h
      · cases h
      · rename_i m r2 h2
        cases h
        rw [next?_extend h1]
        dsimp only
        rw [ih h2]

end BitReader

namespace Deflate

theorem readNumber_extend {width n : Nat} {r r' : BitReader}
    (h : readNumber width r = .ok (n, r')) (ys : List UInt8) :
    readNumber width (r.extend ys) = .ok (n, r'.extend ys) := by
  rw [readNumber] at h ⊢
  split at h
  · rename_i p hp
    cases h
    rw [BitReader.number?_extend hp]
  · cases h

theorem readValue_extend {ranges : Array Range} {index n : Nat} {r r' : BitReader}
    (h : readValue ranges index r = .ok (n, r')) (ys : List UInt8) :
    readValue ranges index (r.extend ys) = .ok (n, r'.extend ys) := by
  rw [readValue] at h ⊢
  split at h
  · cases h
  · rename_i range hrange
    split at h
    · cases h
    · rename_i hn
      cases h
      rw [readNumber_extend hn]

theorem CodeTree.walk_extend {tree : CodeTree} {s : Nat} {r r' : BitReader}
    (h : tree.walk r = .ok (s, r')) (ys : List UInt8) :
    tree.walk (r.extend ys) = .ok (s, r'.extend ys) := by
  induction tree generalizing r with
  | gap => cases h
  | leaf t =>
    cases h
    rfl
  | fork zero one ihz iho =>
    rw [walk] at h ⊢
    split at h
    · cases h
    · rename_i r1 h1
      rw [BitReader.next?_extend h1]
      exact ihz h
    · rename_i r1 h1
      rw [BitReader.next?_extend h1]
      exact iho h

theorem CodeTree.read_extend {tree : CodeTree} {s : Nat} {r r' : BitReader}
    (h : tree.read r = .ok (s, r')) (ys : List UInt8) :
    tree.read (r.extend ys) = .ok (s, r'.extend ys) := by
  cases tree with
  | gap => cases h
  | leaf t => cases h
  | fork zero one => exact @walk_extend (.fork zero one) _ _ _ h ys

theorem readCopy_extend {distances : CodeTree} {index : Nat} {t : Token} {r r' : BitReader}
    (h : readCopy distances index r = .ok (t, r')) (ys : List UInt8) :
    readCopy distances index (r.extend ys) = .ok (t, r'.extend ys) := by
  rw [readCopy] at h ⊢
  split at h
  · cases h
  · rename_i h1
    split at h
    · cases h
    · rename_i h2
      split at h
      · cases h
      · rename_i h3
        cases h
        simp only [readValue_extend h1, CodeTree.read_extend h2, readValue_extend h3]

theorem readToken_extend {codes : Codes} {t : Option Token} {r r' : BitReader}
    (h : readToken codes r = .ok (t, r')) (ys : List UInt8) :
    readToken codes (r.extend ys) = .ok (t, r'.extend ys) := by
  rw [readToken] at h ⊢
  split at h
  · cases h
  · rename_i symbol r1 h1
    rw [CodeTree.read_extend h1]
    dsimp only
    split
    · rename_i hliteral
      rw [if_pos hliteral] at h
      cases h
      rfl
    · rename_i hliteral
      rw [if_neg hliteral] at h
      split
      · rename_i hend
        rw [if_pos hend] at h
        cases h
        rfl
      · rename_i hend
        rw [if_neg hend] at h
        split at h
        · cases h
        · rename_i h2
          cases h
          rw [readCopy_extend h2]

theorem readTokens_extend {codes : Codes} {ts us : Array Token} {r r' : BitReader}
    (h : readTokens codes r ts = .ok (us, r')) (ys : List UInt8) :
    readTokens codes (r.extend ys) ts = .ok (us, r'.extend ys) := by
  fun_induction readTokens codes r ts with
  | case1 => cases h
  | case2 r ts r1 h1 =>
    cases h
    rw [readTokens_eq, readToken_extend h1]
  | case3 r ts t r1 h1 ih =>
    rw [readTokens_eq, readToken_extend h1]
    exact ih h

theorem readLengths_extend {tree : CodeTree} {count : Nat} {ns out : List Nat}
    {r r' : BitReader} (h : readLengths tree count ns r = .ok (out, r')) (ys : List UInt8) :
    readLengths tree count ns (r.extend ys) = .ok (out, r'.extend ys) := by
  fun_induction readLengths tree count ns r with
  | case1 ns r =>
    cases h
    rw [readLengths_eq, if_pos rfl]
  | case2 => cases h
  | case3 => cases h
  | case4 => cases h
  | case5 => cases h
  | case6 => cases h
  | case7 count ns r hcount symbol r1 h1 hfirst value r2 h2 n times hmeaning hfits ih =>
    rw [readLengths_eq, if_neg hcount, CodeTree.read_extend h1]
    dsimp only
    rw [if_neg hfirst, readNumber_extend h2]
    dsimp only
    rw [hmeaning]
    dsimp only
    rw [if_neg hfits]
    exact ih h

theorem readTriples_extend {count : Nat} {ns : List Nat} {r r' : BitReader}
    (h : readTriples count r = .ok (ns, r')) (ys : List UInt8) :
    readTriples count (r.extend ys) = .ok (ns, r'.extend ys) := by
  induction count generalizing r ns with
  | zero =>
    cases h
    rfl
  | succ count ih =>
    rw [readTriples] at h ⊢
    split at h
    · cases h
    · rename_i h1
      split at h
      · cases h
      · rename_i h2
        cases h
        simp only [readNumber_extend h1, ih h2]

theorem readCodes_extend {codes : Codes} {r r' : BitReader} (h : readCodes r = .ok (codes, r'))
    (ys : List UInt8) : readCodes (r.extend ys) = .ok (codes, r'.extend ys) := by
  rw [readCodes] at h ⊢
  split at h
  · cases h
  · rename_i h1
    split at h
    · cases h
    · rename_i h2
      split at h
      · cases h
      · rename_i h3
        split at h
        · cases h
        · rename_i hfits
          split at h
          · cases h
          · rename_i h4
            split at h
            · cases h
            · rename_i htree
              split at h
              · cases h
              · rename_i h5
                split at h
                · cases h
                · rename_i hcodes
                  cases h
                  simp only [readNumber_extend h1, readNumber_extend h2, readNumber_extend h3,
                    if_neg hfits, readTriples_extend h4, htree, readLengths_extend h5, hcodes]

theorem readStored_extend {ts us : Array Token} {r r' : BitReader}
    (h : readStored r ts = .ok (us, r')) (ys : List UInt8) :
    readStored (r.extend ys) ts = .ok (us, r'.extend ys) := by
  rw [readStored] at h ⊢
  split at h
  · rename_i a b c d rest hrest
    have hmore : (r.extend ys).align.rest = a :: b :: c :: d :: (rest ++ ys) :=
      congrArg (· ++ ys) hrest
    rw [hmore]
    simp only [List.splitAt_eq] at h ⊢
    split at h
    · rename_i hsum
      split at h
      · cases h
      · rename_i henough
        rw [List.length_take] at henough
        have hlength : a.toNat + 256 * b.toNat ≤ rest.length := by omega
        cases h
        rw [if_pos hsum, List.take_append_of_le_length hlength,
          List.drop_append_of_le_length hlength, List.length_take, Nat.min_eq_left hlength,
          if_neg (Nat.lt_irrefl _)]
        rfl
    · cases h
  · cases h

theorem readBlock_extend {last : Bool} {ts us : Array Token} {r r' : BitReader}
    (h : readBlock r ts = .ok (last, us, r')) (ys : List UInt8) :
    readBlock (r.extend ys) ts = .ok (last, us, r'.extend ys) := by
  rw [readBlock] at h ⊢
  split at h
  · cases h
  · rename_i h1
    split at h
    · cases h
    · rename_i kind r2 h2
      dsimp only at h
      rw [readNumber_extend h1]
      dsimp only
      rw [readNumber_extend h2]
      dsimp only
      split at h
      · cases h
      · rename_i vs r3 h3
        cases h
        split at h3
        · rename_i hstored
          rw [if_pos hstored, readStored_extend h3]
        · rename_i hstored
          rw [if_neg hstored]
          split at h3
          · rename_i hfixed
            rw [if_pos hfixed, readTokens_extend h3]
          · rename_i hfixed
            rw [if_neg hfixed]
            split at h3
            · rename_i hown
              rw [if_pos hown]
              split at h3
              · cases h3
              · rename_i h4
                rw [readCodes_extend h4]
                dsimp only
                rw [readTokens_extend h3]
            · cases h3

theorem readBlocks_extend {ts us : Array Token} {r r' : BitReader}
    (h : readBlocks r ts = .ok (us, r')) (ys : List UInt8) :
    readBlocks (r.extend ys) ts = .ok (us, r'.extend ys) := by
  fun_induction readBlocks r ts with
  | case1 => cases h
  | case2 r ts ts' r1 h1 =>
    cases h
    rw [readBlocks_eq, readBlock_extend h1]
  | case3 r ts ts' r1 h1 ih =>
    rw [readBlocks_eq, readBlock_extend h1]
    exact ih h

theorem decompress_extend {xs data rest : List UInt8} (h : decompress xs = .ok (data, rest))
    (ys : List UInt8) : decompress (xs ++ ys) = .ok (data, rest ++ ys) := by
  rw [decompress] at h ⊢
  split at h
  · cases h
  · rename_i ts r hr
    cases h
    have hextend : BitReader.ofBytes (xs ++ ys) = (BitReader.ofBytes xs).extend ys := rfl
    rw [hextend, readBlocks_extend hr]
    rfl

end Deflate

end CircuitFixtures
