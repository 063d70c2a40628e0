import CircuitFixtures.Bits

/-!
# Readers placed by the bits that are left

Bits written a number at a time are packed into bytes only at the end. `BitReader.ofBits`
places a reader in front of given bits, with as many of them pending as leave whole bytes,
so what a writer puts down can be read back without a word about bytes:
`next?_ofBits` takes the first bit and `number?_ofBits` a number. Where the bits of whole
bytes are left, the reader is the one of these bytes (`ofBits_append_ofBytes`).
-/

namespace CircuitFixtures

namespace Bits

theorem length_ofBytes (xs : List UInt8) : (ofBytes xs).length = 8 * xs.length := by
  have h := BitReader.size_eq_length_toBits (.ofBytes xs)
  simpa [BitReader.ofBytes, BitReader.size, BitReader.toBits] using h.symm

theorem ofBytes_cons (x : UInt8) (xs : List UInt8) : ofBytes (x :: xs) = ofByte x ++ ofBytes xs :=
  rfl

theorem ofBytes_append (xs ys : List UInt8) : ofBytes (xs ++ ys) = ofBytes xs ++ ofBytes ys :=
  List.flatMap_append

private theorem toNat_false (n : Nat) : toNat (List.replicate n false) = 0 := by
  induction n with
  | zero => rfl
  | succ n ih =>
    rw [List.replicate_succ, toNat, ih]
    rfl

theorem toNat_append_false (bs : List Bool) (n : Nat) :
    toNat (bs ++ List.replicate n false) = toNat bs := by
  induction bs with
  | nil => exact toNat_false n
  | cons b bs ih => rw [List.cons_append, toNat, toNat, ih]

private theorem eq_of_length_eq_eight {bs : List Bool} (h : bs.length = 8) :
    ∃ b0 b1 b2 b3 b4 b5 b6 b7, bs = [b0, b1, b2, b3, b4, b5, b6, b7] := by
  match bs, h with
  | [b0, b1, b2, b3, b4, b5, b6, b7], _ => exact ⟨b0, b1, b2, b3, b4, b5, b6, b7, rfl⟩

theorem ofByte_ofNat_toNat {bs : List Bool} (h : bs.length = 8) :
    ofByte (UInt8.ofNat (toNat bs)) = bs := by
  obtain ⟨b0, b1, b2, b3, b4, b5, b6, b7, rfl⟩ := eq_of_length_eq_eight h
  revert b0 b1 b2 b3 b4 b5 b6 b7
  decide +kernel

private theorem pack_append (front acc : Array UInt8) (bs : List Bool) :
    pack (front ++ acc) bs = front ++ pack acc bs := by
  fun_induction pack acc bs with
  | case1 acc b0 b1 b2 b3 b4 b5 b6 b7 bs ih => rw [pack, ← Array.append_push, ih]
  | case2 acc => rw [pack]
  | case3 acc bs hlong hnil =>
    rw [pack, Array.append_push]
    · exact hlong
    · exact hnil

/-- Eight bits make a byte. -/
theorem toBytes_byte {bs : List Bool} (h : bs.length = 8) (cs : List Bool) :
    toBytes (bs ++ cs) = UInt8.ofNat (toNat bs) :: toBytes cs := by
  obtain ⟨b0, b1, b2, b3, b4, b5, b6, b7, rfl⟩ := eq_of_length_eq_eight h
  have hpack := pack_append #[UInt8.ofNat (toNat [b0, b1, b2, b3, b4, b5, b6, b7])] #[] cs
  simp only [toBytes, List.cons_append, List.nil_append, pack]
  rw [Array.append_empty] at hpack
  rw [List.push_toArray, List.nil_append, hpack]
  simp

/-- Fewer bits make a byte as if zeros stood behind them. -/
theorem toBytes_short {bs : List Bool} (hpos : bs ≠ []) (h : bs.length < 8) :
    toBytes bs = [UInt8.ofNat (toNat bs)] := by
  rw [toBytes, pack]
  · rfl
  · intro b0 b1 b2 b3 b4 b5 b6 b7 cs heq
    rw [heq] at h
    simp only [List.length_cons] at h
    omega
  · exact hpos

/-- Packed bits come back with the zeros that fill the last byte. -/
theorem ofBytes_toBytes (bs : List Bool) :
    ofBytes (toBytes bs) = bs ++ List.replicate ((8 - bs.length % 8) % 8) false := by
  induction h : bs.length using Nat.strongRecOn generalizing bs with
  | _ n ih =>
    by_cases hlong : 8 ≤ n
    · have hlen : (bs.take 8).length = 8 := by rw [List.length_take]; omega
      have hrest : (bs.drop 8).length = n - 8 := by rw [List.length_drop, h]
      have hmod : (n - 8) % 8 = n % 8 := by omega
      have hbytes : toBytes bs = UInt8.ofNat (toNat (bs.take 8)) :: toBytes (bs.drop 8) := by
        rw [← toBytes_byte hlen, List.take_append_drop]
      rw [hbytes, ofBytes_cons, ofByte_ofNat_toNat hlen, ih (n - 8) (by omega) _ hrest, hmod,
        ← List.append_assoc, List.take_append_drop]
    · by_cases hnil : bs = []
      · subst hnil
        cases h
        rfl
      · have hpos : 0 < n := h ▸ List.length_pos_iff.2 hnil
        have hfill : (bs ++ List.replicate (8 - n) false).length = 8 := by
          rw [List.length_append, List.length_replicate]
          omega
        have hmod : (8 - n % 8) % 8 = 8 - n := by omega
        rw [toBytes_short hnil (by omega), ofBytes_cons, ← toNat_append_false bs (8 - n),
          ofByte_ofNat_toNat hfill, hmod]
        exact List.append_nil _

end Bits

namespace BitReader

/-- A reader in front of the given bits. -/
def ofBits (bs : List Bool) : BitReader :=
  ⟨bs.take (bs.length % 8), Bits.toBytes (bs.drop (bs.length % 8))⟩

theorem ofBits_append_ofBytes {bs : List Bool} (h : bs.length < 8) (xs : List UInt8) :
    ofBits (bs ++ Bits.ofBytes xs) = ⟨bs, xs⟩ := by
  have hmod : (bs ++ Bits.ofBytes xs).length % 8 = bs.length := by
    rw [List.length_append, Bits.length_ofBytes]
    omega
  rw [ofBits, hmod, List.take_left, List.drop_left, Bits.toBytes_ofBytes]

theorem ofBytes_eq_ofBits (xs : List UInt8) : ofBytes xs = ofBits (Bits.ofBytes xs) := by
  have hnil : ([] : List Bool).length < 8 := by decide
  exact (ofBits_append_ofBytes hnil xs).symm

/-- Every row of bits is a few bits in front of whole bytes. -/
theorem exists_pending (bs : List Bool) :
    ∃ cs xs, cs.length < 8 ∧ bs = cs ++ Bits.ofBytes xs := by
  refine ⟨bs.take (bs.length % 8), Bits.toBytes (bs.drop (bs.length % 8)), ?_, ?_⟩
  · rw [List.length_take]
    omega
  · have hmod : (8 - (bs.length - bs.length % 8) % 8) % 8 = 0 := by omega
    rw [Bits.ofBytes_toBytes, List.length_drop, hmod, List.replicate_zero, List.append_nil,
      List.take_append_drop]

theorem next?_ofBits (b : Bool) (bs : List Bool) :
    (ofBits (b :: bs)).next? = some (b, ofBits bs) := by
  obtain ⟨cs, xs, hlen, rfl⟩ := exists_pending bs
  rw [ofBits_append_ofBytes hlen, ← List.cons_append]
  by_cases h : cs.length = 7
  · have hbyte : (b :: cs).length = 8 := by rw [List.length_cons, h]
    -- The bit and the seven after it are a byte of which nothing is read yet.
    rw [← Bits.ofByte_ofNat_toNat hbyte, ← Bits.ofBytes_cons, ← ofBytes_eq_ofBits, ofBytes,
      next?, Bits.ofByte_ofNat_toNat hbyte]
  · have hshort : (b :: cs).length < 8 := by
      rw [List.length_cons]
      omega
    rw [ofBits_append_ofBytes hshort, next?]

private theorem number?_length_ofBits (ws bs : List Bool) :
    (ofBits (ws ++ bs)).number? ws.length = some (Bits.toNat ws, ofBits bs) := by
  induction ws with
  | nil => rfl
  | cons w ws ih =>
    rw [List.cons_append, List.length_cons, number?, next?_ofBits]
    simp only [ih]
    rfl

theorem number?_ofBits (width n : Nat) (bs : List Bool) :
    (ofBits (Bits.ofNat width n ++ bs)).number? width =
      some (n % Nat.pow 2 width, ofBits bs) := by
  have h := number?_length_ofBits (Bits.ofNat width n) bs
  rwa [Bits.length_ofNat, Bits.toNat_ofNat] at h

theorem rest_align_ofBits {bs : List Bool} (h : bs.length < 8) (xs : List UInt8) :
    (ofBits (bs ++ Bits.ofBytes xs)).align.rest = xs := by
  rw [ofBits_append_ofBytes h]
  rfl

end BitReader

end CircuitFixtures
