import CircuitFixtures.Bytes.LittleEndian
import CircuitFixtures.Proofs.Deflate.Description
import CircuitFixtures.Proofs.Deflate.Matching

/-!
# Blocks written and read

Each of the three forms of a block gives back what was written: the tokens of its group, or
its bytes (`readBlock_blockBits`). Over the blocks of all groups the bytes written so far and
the bytes still to be written stay those of the data, and every block ends where the next one
is placed (`readBlocks_blocksBits`), so compressed data is read back with nothing taken from
what follows it (`decompress_compress_append`).
-/

namespace CircuitFixtures

namespace Bits

theorem ofNat_byte (n : Nat) : ofNat 8 n = ofByte (UInt8.ofNat n) := by
  rw [← ofByte_ofNat_toNat (length_ofNat 8 n), toNat_ofNat]
  congr 1
  apply UInt8.toNat_inj.1
  rw [UInt8.toNat_ofNat', UInt8.toNat_ofNat']
  exact Nat.mod_mod n 256

theorem ofNat_two_bytes (n : Nat) :
    ofNat 16 n = ofBytes [UInt8.ofNat n, UInt8.ofNat (n / 256)] := by
  have hsplit : ofNat 16 n = ofNat 8 n ++ ofNat 8 (n / 256) := by
    have hdiv : n / 256 = n / 2 / 2 / 2 / 2 / 2 / 2 / 2 / 2 := by omega
    rw [hdiv]
    rfl
  rw [hsplit, ofNat_byte, ofNat_byte, ofBytes_cons, ofBytes_cons]
  exact congrArg (_ ++ ·) (List.append_nil _).symm

end Bits

namespace Deflate

private theorem append_toArrays {α : Type} (as : Array α) (xs ys : List α) :
    as ++ xs.toArray ++ ys.toArray = as ++ (xs ++ ys).toArray := by
  simp

/-! ## What tokens add -/

namespace Token

theorem repeatBack_append (distance length : Nat) (out : Array UInt8) :
    ∃ zs : List UInt8, repeatBack distance length out = out ++ zs.toArray := by
  induction length generalizing out with
  | zero => exact ⟨[], by rw [repeatBack, Array.append_empty]⟩
  | succ length ih =>
    obtain ⟨zs, hzs⟩ := ih (out.push (back out distance))
    refine ⟨back out distance :: zs, ?_⟩
    rw [repeatBack, hzs]
    simp

theorem step_append (out : Array UInt8) (t : Token) :
    ∃ zs : List UInt8, step out t = out ++ zs.toArray ∧ zs.length = t.size := by
  have hadds : ∃ zs : List UInt8, step out t = out ++ zs.toArray := by
    cases t with
    | literal x => exact ⟨[x], Array.append_singleton.symm⟩
    | copy length distance => exact repeatBack_append distance length out
  obtain ⟨zs, hzs⟩ := hadds
  have hsize := size_step out t
  rw [hzs, Array.size_append] at hsize
  exact ⟨zs, hzs, Nat.add_left_cancel hsize⟩

private theorem totalSize_cons (t : Token) (ts : List Token) :
    totalSize (t :: ts) = t.size + totalSize ts := by
  have hfrom (us : List Token) (n : Nat) :
      us.foldl (fun n t => n + t.size) n = n + us.foldl (fun n t => n + t.size) 0 := by
    induction us generalizing n with
    | nil => rfl
    | cons u us ih =>
      rw [List.foldl_cons, List.foldl_cons, ih, ih (0 + u.size)]
      omega
  rw [totalSize, List.foldl_cons, hfrom, totalSize, Nat.zero_add]

theorem expandAfter_adds (out : Array UInt8) (ts : List Token) :
    ∃ zs : List UInt8, expandAfter out ts = out ++ zs.toArray ∧ zs.length = totalSize ts := by
  induction ts generalizing out with
  | nil => exact ⟨[], Array.append_empty.symm, rfl⟩
  | cons t ts ih =>
    obtain ⟨zs, hzs, hsize⟩ := step_append out t
    obtain ⟨ys, hys, hrest⟩ := ih (step out t)
    refine ⟨zs ++ ys, ?_, by rw [List.length_append, hsize, hrest, totalSize_cons]⟩
    rw [← append_toArrays, ← hzs, ← hys]
    rfl

/-- Tokens that stand for the bytes `xs` after `out` stand for them part by part. -/
theorem expandAfter_split {out : Array UInt8} {ts us : List Token} {xs : List UInt8}
    (h : expandAfter out (ts ++ us) = out ++ xs.toArray) :
    expandAfter out ts = out ++ (xs.take (totalSize ts)).toArray ∧
      expandAfter (out ++ (xs.take (totalSize ts)).toArray) us =
        out ++ (xs.take (totalSize ts)).toArray ++ (xs.drop (totalSize ts)).toArray := by
  obtain ⟨zs, hzs, hsize⟩ := expandAfter_adds out ts
  obtain ⟨ys, hys, -⟩ := expandAfter_adds (out ++ zs.toArray) us
  have hxs : zs ++ ys = xs := by
    rw [expandAfter_append, hzs, hys, append_toArrays] at h
    exact List.toArray_inj ((Array.append_right_inj out).1 h)
  have htake : xs.take (totalSize ts) = zs := by rw [← hxs, ← hsize, List.take_left]
  have hdrop : xs.drop (totalSize ts) = ys := by rw [← hxs, ← hsize, List.drop_left]
  rw [htake, hdrop]
  exact ⟨hzs, hys⟩

end Token

/-! ## One block -/

private theorem readNumber_last (last : Bool) (bs : List Bool) :
    readNumber 1 (.ofBits (last :: bs)) = .ok (last.toNat, .ofBits bs) := by
  have hbits : last :: bs = Bits.ofNat 1 last.toNat ++ bs := by cases last <;> rfl
  rw [hbits, readNumber_ofBits (by cases last <;> decide)]

private theorem last_eq (last : Bool) : (last.toNat == 1) = last := by
  cases last <;> rfl

theorem readBlock_fixed (last : Bool) {us : List Token} (hus : ∀ t ∈ us, t.Encodable)
    (bs : List Bool) (ts : Array Token) :
    readBlock (.ofBits (last :: (fixedBlock us ++ bs))) ts =
      .ok (last, ts ++ us.toArray, .ofBits bs) := by
  have hbody := readTokens_tokensBits fixed_spells (inUse_fixed (by decide)) hus
    (fun t ht => coded_fixed (hus t ht)) bs ts
  have hkind : fixedBlock us ++ bs = Bits.ofNat 2 1 ++ (Words.fixed.tokensBits us ++ bs) := by
    rw [fixedBlock, List.append_assoc]
    rfl
  rw [readBlock, readNumber_last, hkind]
  dsimp only
  rw [readNumber_ofBits (by decide)]
  dsimp only
  rw [if_neg (by decide), if_pos rfl, Words.fixed, hbody]
  dsimp only
  rw [last_eq]

theorem ofLengths?_trimZeros (least : Nat) (lengths : List Nat) :
    CodeTree.ofLengths? (trimZeros least lengths) = CodeTree.ofLengths? lengths := by
  obtain ⟨k, hk⟩ := trimZeros_prefix least lengths
  rw [← CodeTree.ofLengths?_append_zeros _ k, ← hk]

/-- The codes that a block describes are those its tokens are written with. -/
theorem exists_ownCodes (ts : List Token) :
    ∃ codes, Codes.ofLengths? (trimZeros 257 (literalLengths ts))
        (trimZeros 1 (distanceLengths ts)) = some codes ∧
      codes.Spells (literalLengths ts) (distanceLengths ts) := by
  obtain ⟨l, hl, hlwords⟩ := exists_literalTree ts
  obtain ⟨d, hd, hdwords⟩ := exists_distanceTree ts
  refine ⟨⟨l, d⟩, ?_, hlwords, hdwords⟩
  rw [Codes.ofLengths?, ofLengths?_trimZeros, ofLengths?_trimZeros, hl, hd]

private theorem length_trimmed {least limit size : Nat} (h : least ≤ size) (symbols : List Nat) :
    least ≤ (trimZeros least
        (CodeLengths.ofCounts limit (CodeLengths.tally size symbols))).length ∧
      (trimZeros least (CodeLengths.ofCounts limit (CodeLengths.tally size symbols))).length ≤
        size := by
  have hlength : (CodeLengths.ofCounts limit (CodeLengths.tally size symbols)).length = size := by
    rw [CodeLengths.length_ofCounts, CodeLengths.size_tally]
  have hbounds := length_trimZeros (hlength.symm ▸ h)
  rwa [hlength] at hbounds

private theorem lt_of_mem_trimmed {least size n : Nat} {symbols : List Nat}
    (hsize : size ≤ Nat.pow 2 CodeTree.maxLength)
    (h : n ∈ trimZeros least
      (CodeLengths.ofCounts CodeTree.maxLength (CodeLengths.tally size symbols))) : n < 16 :=
  Nat.lt_succ_of_le (CodeLengths.le_of_mem_ofCounts (by decide)
    (CodeLengths.size_tally_le hsize symbols) (mem_of_mem_trimZeros h))

/-- The end of the block has a length, which is described. -/
private theorem exists_described (ts : List Token) :
    ∃ n ∈ trimZeros 257 (literalLengths ts), n ≠ 0 := by
  obtain ⟨n, hn, hpos⟩ := inUse_endOfBlock ts
  obtain ⟨k, hk⟩ := trimZeros_prefix 257 (literalLengths ts)
  have hmem := List.mem_of_getElem? hn
  rw [hk, List.mem_append] at hmem
  rcases hmem with hmem | hzero
  · exact ⟨n, hmem, hpos⟩
  · exact absurd (List.eq_of_mem_replicate hzero) hpos

theorem readBlock_own (last : Bool) {us : List Token} (hus : ∀ t ∈ us, t.Encodable)
    (bs : List Bool) (ts : Array Token) :
    readBlock (.ofBits (last :: (ownBlock us ++ bs))) ts =
      .ok (last, ts ++ us.toArray, .ofBits bs) := by
  obtain ⟨codes, hcodes, hspells⟩ := exists_ownCodes us
  obtain ⟨n, hn, hpos⟩ := exists_described us
  have hmost : ∀ n ∈ trimZeros 257 (literalLengths us) ++ trimZeros 1 (distanceLengths us),
      n < 16 := fun n hn =>
    (List.mem_append.1 hn).elim (lt_of_mem_trimmed (by decide)) (lt_of_mem_trimmed (by decide))
  have hliterals : 257 ≤ (trimZeros 257 (literalLengths us)).length ∧
      (trimZeros 257 (literalLengths us)).length ≤ 286 := length_trimmed (by decide) _
  have hdistances : 1 ≤ (trimZeros 1 (distanceLengths us)).length ∧
      (trimZeros 1 (distanceLengths us)).length ≤ 30 := length_trimmed (by decide) _
  have hread := readCodes_describe hliterals hdistances hmost hn hpos hcodes
  have hbody := readTokens_tokensBits hspells (inUse_endOfBlock us) hus
    (fun t ht => coded_own ht (hus t ht)) bs ts
  have hkind : ownBlock us ++ bs = Bits.ofNat 2 2 ++
      (describe (trimZeros 257 (literalLengths us)) (trimZeros 1 (distanceLengths us)) ++
        ((Words.ofLengths (literalLengths us) (distanceLengths us)).tokensBits us ++ bs)) := by
    rw [ownBlock, List.append_assoc, List.append_assoc]
    rfl
  rw [readBlock, readNumber_last, hkind]
  dsimp only
  rw [readNumber_ofBits (by decide)]
  dsimp only
  rw [if_neg (by decide), if_neg (by decide), if_pos rfl, hread]
  dsimp only
  rw [hbody]
  dsimp only
  rw [last_eq]

private theorem two_bytes {n : Nat} (h : n < 65536) :
    (UInt8.ofNat n).toNat + 256 * (UInt8.ofNat (n / 256)).toNat = n := by
  rw [UInt8.toNat_ofNat', UInt8.toNat_ofNat']
  omega

private theorem storedBlock_append (before : Nat) (xs ys : List UInt8) :
    storedBlock before xs ++ Bits.ofBytes ys =
      Bits.ofNat 2 0 ++ (List.replicate ((8 - (before + 2) % 8) % 8) false ++
        Bits.ofBytes (UInt8.ofNat xs.length :: UInt8.ofNat (xs.length / 256) ::
          UInt8.ofNat (65535 - xs.length) :: UInt8.ofNat ((65535 - xs.length) / 256) ::
            (xs ++ ys))) := by
  have hbytes : Bits.ofNat 16 xs.length ++ (Bits.ofNat 16 (65535 - xs.length) ++
      (Bits.ofBytes xs ++ Bits.ofBytes ys)) =
        Bits.ofBytes (UInt8.ofNat xs.length :: UInt8.ofNat (xs.length / 256) ::
          UInt8.ofNat (65535 - xs.length) :: UInt8.ofNat ((65535 - xs.length) / 256) ::
            (xs ++ ys)) := by
    rw [Bits.ofNat_two_bytes, Bits.ofNat_two_bytes, ← Bits.ofBytes_append,
      ← Bits.ofBytes_append, ← Bits.ofBytes_append]
    rfl
  rw [← hbytes, storedBlock]
  simp only [List.append_assoc]
  rfl

theorem length_storedBlock (before : Nat) (xs : List UInt8) :
    (storedBlock before xs).length = 2 + (8 - (before + 2) % 8) % 8 + 32 + 8 * xs.length := by
  simp only [storedBlock, List.length_append, List.length_replicate, Bits.length_ofNat,
    Bits.length_ofBytes, List.length_cons, List.length_nil]

/-- After the two bits that name the form and those that fill the byte, the rest is whole
bytes. -/
theorem readBlock_stored (last : Bool) {before : Nat} {xs : List UInt8} {bs : List Bool}
    (hlength : xs.length < 65536)
    (halign : (before + (storedBlock before xs).length + bs.length) % 8 = 0)
    (ts : Array Token) :
    readBlock (.ofBits (last :: (storedBlock before xs ++ bs))) ts =
      .ok (last, ts ++ (xs.map .literal).toArray, .ofBits bs) := by
  have hpad : (8 - (before + 2) % 8) % 8 < 8 := Nat.mod_lt _ (by decide)
  obtain ⟨cs, ys, hcs, rfl⟩ := BitReader.exists_pending bs
  rw [length_storedBlock, List.length_append, Bits.length_ofBytes] at halign
  have hnil : cs = [] := List.eq_nil_of_length_eq_zero (by omega)
  subst hnil
  rw [List.nil_append, readBlock, readNumber_last, storedBlock_append]
  dsimp only
  rw [readNumber_ofBits (by decide)]
  dsimp only
  rw [if_pos rfl, readStored, BitReader.rest_align_ofBits (by rwa [List.length_replicate])]
  dsimp only
  rw [two_bytes hlength, two_bytes (by omega), if_pos (Nat.add_sub_cancel' (by omega)),
    List.splitAt_eq, List.take_left, List.drop_left]
  dsimp only
  rw [if_neg (Nat.lt_irrefl _)]
  dsimp only
  have happend : ts ++ xs.map Token.literal = ts ++ (xs.map Token.literal).toArray :=
    Array.ext' (by simp)
  rw [last_eq, happend, ← BitReader.ofBytes_eq_ofBits]
  rfl

theorem blockBits_cases (before : Nat) (group : Group) (xs : List UInt8) :
    (xs.length < 65536 ∧ blockBits before group xs = storedBlock before xs) ∨
      blockBits before group xs = fixedBlock group.tokens ∨
      blockBits before group xs = ownBlock group.tokens := by
  unfold blockBits
  dsimp only
  generalize hc : (if xs.length < ownCodesFrom then fixedBlock group.tokens
    else ownBlock group.tokens) = coded
  have hcoded : coded = fixedBlock group.tokens ∨ coded = ownBlock group.tokens := by
    rw [← hc]
    split
    · exact .inl rfl
    · exact .inr rfl
  split
  · rename_i hstored
    rw [Bool.and_eq_true, Bool.and_eq_true, decide_eq_true_eq] at hstored
    exact .inl ⟨hstored.1.2, rfl⟩
  · exact .inr hcoded

/-- The tokens that a block gives stand for the bytes it was written for. -/
theorem readBlock_blockBits (last : Bool) (before : Nat) {group : Group} {xs : List UInt8}
    {out : Array UInt8} (hencodable : ∀ t ∈ group.tokens, t.Encodable)
    (hexpand : Token.expandAfter out group.tokens = out ++ xs.toArray) (bs : List Bool)
    (halign : (before + (blockBits before group xs).length + bs.length) % 8 = 0)
    (ts : Array Token) :
    ∃ us : List Token,
      readBlock (.ofBits (last :: (blockBits before group xs ++ bs))) ts =
        .ok (last, ts ++ us.toArray, .ofBits bs) ∧
      Token.expandAfter out us = out ++ xs.toArray := by
  rcases blockBits_cases before group xs with ⟨hlength, hbits⟩ | hbits | hbits
  · rw [hbits] at halign ⊢
    exact ⟨xs.map .literal, readBlock_stored last hlength halign ts,
      Token.expandAfter_literals out xs⟩
  · rw [hbits]
    exact ⟨group.tokens, readBlock_fixed last hencodable bs ts, hexpand⟩
  · rw [hbits]
    exact ⟨group.tokens, readBlock_own last hencodable bs ts, hexpand⟩

/-! ## All blocks -/

/-- The loop over the blocks, step by step. -/
theorem readBlocks_eq (r : BitReader) (ts : Array Token) :
    readBlocks r ts =
      match readBlock r ts with
      | .error e => .error e
      | .ok (true, ts, r) => .ok (ts, r)
      | .ok (false, ts, r) => readBlocks r ts := by
  rw [readBlocks]
  split
  · rename_i h
    rw [h]
  · rename_i h
    rw [h]
  · rename_i h
    rw [h]

theorem blocksBits_cons (before : Nat) (group : Group) {groups : List Group} (xs : List UInt8)
    (h : groups ≠ []) :
    blocksBits before (group :: groups) xs =
      (false :: blockBits (before + 1) group (xs.take (Token.totalSize group.tokens))) ::
        blocksBits
          (before + 1 +
            (blockBits (before + 1) group (xs.take (Token.totalSize group.tokens))).length)
          groups (xs.drop (Token.totalSize group.tokens)) := by
  rw [blocksBits, List.length_cons, ← Nat.add_assoc, Nat.add_right_comm]
  exact h

/-- The blocks of groups that stand for `xs` after `out` give tokens that do so, too. The bits
before and behind them are whole bytes together with them. -/
theorem readBlocks_blocksBits {groups : List Group} (hgroups : groups ≠ []) (before : Nat)
    {xs : List UInt8} {out : Array UInt8} (hencodable : ∀ t ∈ Group.flatten groups, t.Encodable)
    (hexpand : Token.expandAfter out (Group.flatten groups) = out ++ xs.toArray)
    (bs : List Bool)
    (halign : (before + (blocksBits before groups xs).flatten.length + bs.length) % 8 = 0)
    (ts : Array Token) :
    ∃ us : List Token,
      readBlocks (.ofBits ((blocksBits before groups xs).flatten ++ bs)) ts =
        .ok (ts ++ us.toArray, .ofBits bs) ∧
      Token.expandAfter out us = out ++ xs.toArray := by
  induction groups generalizing before xs out ts with
  | nil => exact absurd rfl hgroups
  | cons group groups ih =>
    rw [Group.flatten, List.flatMap_cons] at hencodable hexpand
    by_cases hlast : groups = []
    · subst hlast
      rw [List.flatMap_nil, List.append_nil] at hencodable hexpand
      rw [blocksBits, List.flatten_singleton, List.length_cons] at halign
      obtain ⟨us, hread, hus⟩ := readBlock_blockBits true (before + 1) hencodable hexpand bs
        (by omega) ts
      refine ⟨us, ?_, hus⟩
      rw [blocksBits, List.flatten_singleton, List.cons_append, readBlocks_eq, hread]
    · obtain ⟨hfirst, hothers⟩ := Token.expandAfter_split hexpand
      have hblock := readBlock_blockBits false (before + 1)
        (fun t ht => hencodable t (List.mem_append_left _ ht)) hfirst
      rw [blocksBits_cons before group xs hlast, List.flatten_cons, List.length_append,
        List.length_cons] at halign
      rw [blocksBits_cons before group xs hlast, List.flatten_cons, List.append_assoc,
        List.cons_append]
      generalize blockBits (before + 1) group (xs.take _) = block at hblock halign ⊢
      have hblocks := ih hlast (before + 1 + block.length)
        (fun t ht => hencodable t (List.mem_append_right _ ht)) hothers
      generalize (blocksBits (before + 1 + block.length) groups (xs.drop _)).flatten = later
        at hblocks halign ⊢
      obtain ⟨us, hread, hus⟩ := hblock (later ++ bs) (by rw [List.length_append]; omega) ts
      obtain ⟨vs, hreads, hvs⟩ := hblocks (by omega) (ts ++ us.toArray)
      refine ⟨us ++ vs, ?_, ?_⟩
      · rw [readBlocks_eq, hread]
        dsimp only
        rw [hreads, append_toArrays]
      · rw [Token.expandAfter_append, hus, hvs, append_toArrays, List.take_append_drop]

/-! ## Compressed data -/

/-- Compressed data is read back, and what follows it is left as it is. -/
theorem decompress_compress_append (data ys : List UInt8) :
    decompress (compress data ++ ys) = .ok (data, ys) := by
  have hexpand : Token.expandAfter #[] (Group.flatten (tokenize data)) = #[] ++ data.toArray :=
    (expand_tokenize data).trans Array.empty_append.symm
  have hpad : (8 - (blocksBits 0 (tokenize data) data).flatten.length % 8) % 8 < 8 :=
    Nat.mod_lt _ (by decide)
  obtain ⟨us, hread, hus⟩ := readBlocks_blocksBits (tokenize_ne_nil data) 0
    (encodable_tokenize data) hexpand
    (List.replicate ((8 - (blocksBits 0 (tokenize data) data).flatten.length % 8) % 8) false
      ++ Bits.ofBytes ys)
    (by rw [List.length_append, List.length_replicate, Bits.length_ofBytes]; omega) #[]
  rw [decompress, compress, BitReader.ofBytes_eq_ofBits, Bits.ofBytes_append,
    Bits.ofBytes_toBytes, List.append_assoc, hread]
  dsimp only
  rw [BitReader.rest_align_ofBits (by rwa [List.length_replicate]), Array.empty_append,
    Token.expand, hus, Array.empty_append]

end Deflate

end CircuitFixtures
