import CircuitFixtures.Deflate.Reader
import CircuitFixtures.Deflate.Writer
import CircuitFixtures.Proofs.Deflate.CodeLengths

/-!
# Tokens written and read

A number that fits its bits is read back (`readNumber_ofBits`), a length or distance with the
symbol that `locate` finds for it (`readValue_of_holds`), and so the tokens of a block with any
codes that have words for them (`readTokens_tokensBits`). The fixed codes have words for every
token (`coded_fixed`), and those made for the tokens of a block for these (`coded_own`).
-/

namespace CircuitFixtures.Deflate

theorem readNumber_ofBits {width n : Nat} (h : n < Nat.pow 2 width) (bs : List Bool) :
    readNumber width (.ofBits (Bits.ofNat width n ++ bs)) = .ok (n, .ofBits bs) := by
  rw [readNumber, BitReader.number?_ofBits, Nat.mod_eq_of_lt h]

/-! ## Lengths and distances -/

/-- The values of each range go on up to the base of the next, and those of the last up to
`limit`. -/
def Tiles (ranges : Array Range) (limit : Nat) : Prop :=
  ∀ i < ranges.size,
    (ranges.getD (i + 1) ⟨limit, 0⟩).base ≤
      (ranges.getD i ⟨limit, 0⟩).base + Nat.pow 2 (ranges.getD i ⟨limit, 0⟩).extra

instance (ranges : Array Range) (limit : Nat) : Decidable (Tiles ranges limit) :=
  inferInstanceAs (Decidable (∀ i < ranges.size, _))

/-- The value lies in the range at the place found, at the offset found. -/
structure Located.Holds (l : Located) (ranges : Array Range) (value : Nat) : Prop where
  range : ∃ base, ranges[l.index]? = some ⟨base, l.extra⟩ ∧ base + l.offset = value
  offset : l.offset < Nat.pow 2 l.extra

private theorem locateBelow_holds {ranges : Array Range} {limit value : Nat}
    (htiles : Tiles ranges limit) (hfirst : (ranges.getD 0 ⟨limit, 0⟩).base ≤ value) {count : Nat}
    (hcount : count ≤ ranges.size) (hvalue : value < (ranges.getD count ⟨limit, 0⟩).base) :
    (locateBelow ranges value count).Holds ranges value := by
  induction count with
  | zero => omega
  | succ count ih =>
    have hget (r : Range) : ranges.getD count r = ranges[count] :=
      Array.getElem_eq_getD r |>.symm
    have hstep := htiles count hcount
    rw [hget] at hstep
    rw [locateBelow, hget]
    split
    · rename_i hle
      refine ⟨⟨ranges[count].base, Array.getElem?_eq_getElem hcount, ?_⟩, ?_⟩
      · exact Nat.add_sub_cancel' hle
      · exact Nat.sub_lt_left_of_lt_add hle (Nat.lt_of_lt_of_le hvalue hstep)
    · rename_i hlt
      exact ih (Nat.le_of_succ_le hcount) (by rw [hget]; omega)

theorem locate_holds {ranges : Array Range} {limit value : Nat} (htiles : Tiles ranges limit)
    (hfirst : (ranges.getD 0 ⟨limit, 0⟩).base ≤ value) (hvalue : value < limit) :
    (locate ranges value).Holds ranges value := by
  refine locateBelow_holds htiles hfirst (Nat.le_refl _) ?_
  rw [Array.getD_eq_getD_getElem?, Array.getElem?_eq_none (Nat.le_refl _)]
  exact hvalue

theorem locate_length {length : Nat} (hleast : 3 ≤ length) (hmost : length ≤ 258) :
    (locate lengthRanges length).Holds lengthRanges length := by
  have htiles : Tiles lengthRanges 259 := by decide
  exact locate_holds htiles hleast (Nat.lt_succ_of_le hmost)

theorem locate_distance {distance : Nat} (hleast : 1 ≤ distance) (hmost : distance ≤ 32768) :
    (locate distanceRanges distance).Holds distanceRanges distance := by
  have htiles : Tiles distanceRanges 32769 := by decide
  exact locate_holds htiles hleast (Nat.lt_succ_of_le hmost)

theorem Located.Holds.index_lt {l : Located} {ranges : Array Range} {value : Nat}
    (h : l.Holds ranges value) : l.index < ranges.size := by
  obtain ⟨base, hbase, -⟩ := h.range
  exact (Array.getElem?_eq_some_iff.1 hbase).1

theorem readValue_of_holds {l : Located} {ranges : Array Range} {value : Nat}
    (h : l.Holds ranges value) (bs : List Bool) :
    readValue ranges l.index (.ofBits (Bits.ofNat l.extra l.offset ++ bs)) =
      .ok (value, .ofBits bs) := by
  obtain ⟨base, hbase, rfl⟩ := h.range
  rw [readValue, hbase]
  simp only [readNumber_ofBits h.offset]

/-! ## Tokens -/

/-- The trees of both codes have the words that are computed from the lengths. -/
structure Codes.Spells (codes : Codes) (literals distances : List Nat) : Prop where
  literals : codes.literals.Spells literals
  distances : codes.distances.Spells distances

/-- The symbols of a token have words. -/
structure Token.Coded (literals distances : List Nat) (t : Token) : Prop where
  symbol : CodeTree.InUse literals t.symbol
  distance : ∀ s, t.distanceSymbol? = some s → CodeTree.InUse distances s

section

variable {codes : Codes} {literals distances : List Nat}

theorem readToken_tokenBits (hcodes : codes.Spells literals distances) {t : Token}
    (ht : t.Encodable) (hcoded : t.Coded literals distances) (bs : List Bool) :
    readToken codes (.ofBits ((Words.ofLengths literals distances).tokenBits t ++ bs)) =
      .ok (some t, .ofBits bs) := by
  cases t with
  | literal x =>
    have hx : x.toNat < endOfBlock := UInt8.toNat_lt x
    have hread := hcodes.literals.read hcoded.symbol bs
    rw [Token.symbol] at hread
    rw [readToken, Words.tokenBits, Words.ofLengths, hread]
    simp only [if_pos hx, UInt8.ofNat_toNat]
  | copy length distance =>
    obtain ⟨hlength, hlength', hdistance, hdistance'⟩ := ht
    have hl := locate_length hlength hlength'
    have hd := locate_distance hdistance hdistance'
    have hread := hcodes.literals.read hcoded.symbol
    have hread' := hcodes.distances.read (hcoded.distance _ rfl)
    have hnot : ¬ firstLength + (locate lengthRanges length).index < endOfBlock := by
      rw [firstLength, endOfBlock]
      omega
    have hne : firstLength + (locate lengthRanges length).index ≠ endOfBlock := by
      rw [firstLength, endOfBlock]
      omega
    rw [Token.symbol] at hread
    rw [Words.tokenBits, Words.ofLengths, List.append_assoc, List.append_assoc, List.append_assoc,
      readToken, hread]
    simp only [if_neg hnot, if_neg hne, Nat.add_sub_cancel_left, readCopy, readValue_of_holds hl,
      hread', readValue_of_holds hd]

theorem readToken_end (hcodes : codes.Spells literals distances)
    (hend : CodeTree.InUse literals endOfBlock) (bs : List Bool) :
    readToken codes
        (.ofBits ((Words.ofLengths literals distances).literals.getD endOfBlock [] ++ bs)) =
      .ok (none, .ofBits bs) := by
  rw [readToken, Words.ofLengths, hcodes.literals.read hend]
  rfl

end

/-- The loop over the tokens, step by step. -/
theorem readTokens_eq (codes : Codes) (r : BitReader) (ts : Array Token) :
    readTokens codes r ts =
      match readToken codes r with
      | .error e => .error e
      | .ok (none, r) => .ok (ts, r)
      | .ok (some t, r) => readTokens codes r (ts.push t) := by
  rw [readTokens]
  split
  · rename_i h
    rw [h]
  · rename_i h
    rw [h]
  · rename_i h
    rw [h]

/-- A block's body gives its tokens back and leaves the reader behind its end. -/
theorem readTokens_tokensBits {codes : Codes} {literals distances : List Nat}
    (hcodes : codes.Spells literals distances) (hend : CodeTree.InUse literals endOfBlock)
    {ts : List Token} (hts : ∀ t ∈ ts, t.Encodable)
    (hcoded : ∀ t ∈ ts, t.Coded literals distances) (bs : List Bool) (us : Array Token) :
    readTokens codes (.ofBits ((Words.ofLengths literals distances).tokensBits ts ++ bs)) us =
      .ok (us ++ ts.toArray, .ofBits bs) := by
  induction ts generalizing us with
  | nil =>
    have hread := readToken_end hcodes hend bs
    rw [Words.tokensBits, List.flatMap_nil, List.nil_append, readTokens_eq, hread,
      Array.append_empty]
  | cons t ts ih =>
    obtain ⟨ht, hts⟩ := List.forall_mem_cons.1 hts
    obtain ⟨hct, hcts⟩ := List.forall_mem_cons.1 hcoded
    have hread := readToken_tokenBits hcodes ht hct
      ((Words.ofLengths literals distances).tokensBits ts ++ bs)
    have hrest := ih hts hcts (us.push t)
    have hpush : us.push t ++ ts.toArray = us ++ (t :: ts).toArray := by simp
    have hbits : (Words.ofLengths literals distances).tokensBits (t :: ts) =
        (Words.ofLengths literals distances).tokenBits t ++
          (Words.ofLengths literals distances).tokensBits ts := by
      rw [Words.tokensBits, List.flatMap_cons, List.append_assoc, Words.tokensBits]
    rw [hbits, List.append_assoc, readTokens_eq, hread]
    simp only [hrest, hpush]

/-! ## The codes that tokens are written with -/

theorem Token.Encodable.symbol_lt {t : Token} (ht : t.Encodable) : t.symbol < 286 := by
  cases t with
  | literal x => exact Nat.lt_trans (UInt8.toNat_lt x) (by decide)
  | copy length distance =>
    have hindex : (locate lengthRanges length).index < 29 := (locate_length ht.1 ht.2.1).index_lt
    rw [Token.symbol, firstLength]
    omega

theorem Token.Encodable.distanceSymbol_lt {t : Token} (ht : t.Encodable) {s : Nat}
    (hs : t.distanceSymbol? = some s) : s < 30 := by
  cases t with
  | literal x => cases hs
  | copy length distance =>
    cases hs
    exact (locate_distance ht.2.2.1 ht.2.2.2).index_lt

theorem fixed_spells :
    Codes.fixed.Spells Codes.fixedLiteralLengths Codes.fixedDistanceLengths := by
  have hlmost : ∀ n ∈ Codes.fixedLiteralLengths, n ≤ CodeTree.maxLength := by decide +kernel
  have hdmost : ∀ n ∈ Codes.fixedDistanceLengths, n ≤ CodeTree.maxLength := by decide +kernel
  have hltwo : 2 ≤ (CodeTree.used Codes.fixedLiteralLengths).length := by decide +kernel
  have hdtwo : 2 ≤ (CodeTree.used Codes.fixedDistanceLengths).length := by decide +kernel
  obtain ⟨literals, hl, hlwords⟩ := CodeTree.ofFullLengths?_of_weight hlmost (by decide +kernel)
  obtain ⟨distances, hd, hdwords⟩ := CodeTree.ofFullLengths?_of_weight hdmost (by decide +kernel)
  have hfixed : Codes.fixed = ⟨literals, distances⟩ := by
    rw [Codes.fixed, Codes.ofLengths?, CodeTree.ofLengths?_of_two hltwo,
      CodeTree.ofLengths?_of_two hdtwo, hl, hd]
    rfl
  rw [hfixed]
  exact ⟨hlwords, hdwords⟩

theorem inUse_fixed {s : Nat} (h : s < 288) : CodeTree.InUse Codes.fixedLiteralLengths s := by
  have hlength : Codes.fixedLiteralLengths.length = 288 := by decide +kernel
  have hpos : ∀ n ∈ Codes.fixedLiteralLengths, n ≠ 0 := by decide +kernel
  have hn := List.getElem?_eq_getElem (hlength.symm ▸ h : s < Codes.fixedLiteralLengths.length)
  exact ⟨_, hn, hpos _ (List.mem_of_getElem? hn)⟩

/-- The fixed codes have words for every token. -/
theorem coded_fixed {t : Token} (ht : t.Encodable) :
    t.Coded Codes.fixedLiteralLengths Codes.fixedDistanceLengths where
  symbol := inUse_fixed (Nat.lt_trans ht.symbol_lt (by decide))
  distance := fun _ hs =>
    ⟨5, List.getElem?_replicate_of_lt (Nat.lt_trans (ht.distanceSymbol_lt hs) (by decide)),
      by decide⟩

theorem inUse_literalLengths {ts : List Token} {s : Nat}
    (hs : s ∈ endOfBlock :: ts.map Token.symbol) (hlt : s < 286) :
    CodeTree.InUse (literalLengths ts) s :=
  CodeLengths.inUse_ofCounts_tally (by decide) (by decide) hs hlt

theorem inUse_endOfBlock (ts : List Token) : CodeTree.InUse (literalLengths ts) endOfBlock :=
  inUse_literalLengths List.mem_cons_self (by decide)

theorem inUse_distanceLengths {ts : List Token} {s : Nat}
    (hs : s ∈ ts.filterMap Token.distanceSymbol?) (hlt : s < 30) :
    CodeTree.InUse (distanceLengths ts) s :=
  CodeLengths.inUse_ofCounts_tally (by decide) (by decide) hs hlt

/-- The codes made for the tokens of a block have words for these tokens and for its end. -/
theorem coded_own {ts : List Token} {t : Token} (ht : t ∈ ts) (hencodable : t.Encodable) :
    t.Coded (literalLengths ts) (distanceLengths ts) where
  symbol := inUse_literalLengths (List.mem_cons_of_mem _ (List.mem_map_of_mem ht))
    hencodable.symbol_lt
  distance := fun _ hs => inUse_distanceLengths (List.mem_filterMap.2 ⟨t, ht, hs⟩)
    (hencodable.distanceSymbol_lt hs)

theorem exists_literalTree (ts : List Token) :
    ∃ tree, CodeTree.ofLengths? (literalLengths ts) = some tree ∧
      tree.Spells (literalLengths ts) :=
  CodeLengths.ofLengths?_ofCounts (by decide) (Nat.le_refl _)
    (CodeLengths.size_tally_le (by decide) _)

theorem exists_distanceTree (ts : List Token) :
    ∃ tree, CodeTree.ofLengths? (distanceLengths ts) = some tree ∧
      tree.Spells (distanceLengths ts) :=
  CodeLengths.ofLengths?_ofCounts (by decide) (Nat.le_refl _)
    (CodeLengths.size_tally_le (by decide) _)

end CircuitFixtures.Deflate
