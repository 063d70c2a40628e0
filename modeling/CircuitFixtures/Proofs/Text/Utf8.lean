import CircuitFixtures.Text.Utf8

/-!
# UTF-8 is a one-to-one code

`decode_eq_ok_iff`: bytes are text exactly when they are the written form of that text, so
every text has one written form and every written form reads back.

The reading steps are stated first, one for each length of a character. The bytes that
may stand second in a character (`isSecond_iff`) are what keeps a number from having two
forms.
-/

namespace CircuitFixtures.Utf8

/-! ## Widths -/

theorem length_encodeChar (c : Char) : (encodeChar c).length = width c := by
  unfold encodeChar width
  dsimp only
  split
  · rfl
  · split
    · rfl
    · split <;> rfl

theorem length_encode (cs : List Char) : (encode cs).length = size cs := by
  induction cs with
  | nil => rfl
  | cons c cs ih =>
    have hs : encode (c :: cs) = encodeChar c ++ encode cs := rfl
    rw [hs, List.length_append, length_encodeChar, ih, size_cons]

theorem one_le_width (c : Char) : 1 ≤ width c := by
  unfold width
  split
  · decide
  · split
    · decide
    · split <;> decide

theorem length_le_size (cs : List Char) : cs.length ≤ size cs := by
  induction cs with
  | nil => exact Nat.le_refl 0
  | cons c cs ih =>
    have hc := one_le_width c
    rw [size_cons, List.length_cons]
    omega

theorem size_append (cs ds : List Char) : size (cs ++ ds) = size cs + size ds := by
  induction cs with
  | nil => exact (Nat.zero_add _).symm
  | cons c cs ih => rw [List.cons_append, size_cons, size_cons, ih, Nat.add_assoc]

theorem size_replicate (n : Nat) (c : Char) : size (List.replicate n c) = n * width c := by
  induction n with
  | zero => exact (Nat.zero_mul _).symm
  | succ n ih => rw [List.replicate_succ, size_cons, ih, Nat.add_mul, Nat.one_mul, Nat.add_comm]

theorem utf8Size_eq (c : Char) : c.utf8Size = width c := by
  have h (n : Nat) (hn : n < UInt32.size) : c.val ≤ UInt32.ofNatLT n hn ↔ c.toNat < n + 1 := by
    rw [UInt32.le_iff_toNat_le, UInt32.toNat_ofNatLT, Nat.lt_succ_iff]
    rfl
  simp only [Char.utf8Size, width, h]

/-- The size of a string is that of its characters. -/
theorem utf8ByteSize_ofList (cs : List Char) : (String.ofList cs).utf8ByteSize = size cs := by
  induction cs with
  | nil => rfl
  | cons c cs ih =>
    have hstring : String.ofList (c :: cs) = String.singleton c ++ String.ofList cs := by
      rw [String.singleton_eq_ofList, ← String.ofList_append, List.singleton_append]
    rw [hstring, String.utf8ByteSize_append, String.utf8ByteSize_singleton, ih, utf8Size_eq,
      size_cons]

/-! ## Reading one character -/

section Step

variable (cs : Array Char) (index : Nat) (a b c d : UInt8) (xs : List UInt8)

private theorem decodeAfter_one (h : lengthOf a.toNat = 1) :
    decodeAfter cs index (a :: xs) = decodeAfter (cs.push (Char.ofNat a.toNat)) (index + 1) xs := by
  rw [decodeAfter.eq_def]
  simp [h]

private theorem decodeAfter_two (h : lengthOf a.toNat = 2)
    (hb : isSecond a.toNat b.toNat = true) :
    decodeAfter cs index (a :: b :: xs) =
      decodeAfter (cs.push (Char.ofNat ((a.toNat - 0xC0) * 64 + (b.toNat - 0x80)))) (index + 2)
        xs := by
  rw [decodeAfter.eq_def]
  simp [h, hb]

private theorem decodeAfter_three (h : lengthOf a.toNat = 3)
    (hb : isSecond a.toNat b.toNat = true) (hc : isTail c.toNat = true) :
    decodeAfter cs index (a :: b :: c :: xs) =
      decodeAfter
        (cs.push (Char.ofNat
          ((a.toNat - 0xE0) * 4096 + (b.toNat - 0x80) * 64 + (c.toNat - 0x80))))
        (index + 3) xs := by
  rw [decodeAfter.eq_def]
  simp [h, hb, hc]

private theorem decodeAfter_four (h : lengthOf a.toNat = 4)
    (hb : isSecond a.toNat b.toNat = true) (hc : isTail c.toNat = true)
    (hd : isTail d.toNat = true) :
    decodeAfter cs index (a :: b :: c :: d :: xs) =
      decodeAfter
        (cs.push (Char.ofNat ((a.toNat - 0xF0) * 262144 + (b.toNat - 0x80) * 4096 +
          (c.toNat - 0x80) * 64 + (d.toNat - 0x80))))
        (index + 4) xs := by
  rw [decodeAfter.eq_def]
  simp [h, hb, hc, hd]

end Step

theorem isTail_iff {n : Nat} : isTail n = true ↔ 0x80 ≤ n ∧ n < 0xC0 := by
  simp [isTail]

/-- The second byte keeps overlong forms, surrogates and numbers that are too great out. -/
theorem isSecond_iff {m n : Nat} :
    isSecond m n = true ↔
      (0x80 ≤ n ∧ n < 0xC0) ∧ (m = 0xE0 → 0xA0 ≤ n) ∧ (m = 0xED → n < 0xA0) ∧
        (m = 0xF0 → 0x90 ≤ n) ∧ (m = 0xF4 → n < 0x90) := by
  simp only [isSecond, isTail]
  split
  · simp; omega
  · split
    · simp; omega
    · split
      · simp; omega
      · split <;> simp <;> omega

/-- The first byte decides how long a character is. -/
theorem lengthOf_cases (n : Nat) :
    lengthOf n = 0 ∨ (lengthOf n = 1 ∧ n < 0x80) ∨ (lengthOf n = 2 ∧ 0xC2 ≤ n ∧ n < 0xE0) ∨
      (lengthOf n = 3 ∧ 0xE0 ≤ n ∧ n < 0xF0) ∨ (lengthOf n = 4 ∧ 0xF0 ≤ n ∧ n < 0xF5) := by
  simp only [lengthOf, Bool.and_eq_true, decide_eq_true_eq]
  split
  · simp; omega
  · split
    · simp; omega
    · split
      · simp; omega
      · split
        · simp; omega
        · simp

private theorem lengthOf_two {n : Nat} (h : 0xC2 ≤ n) (h' : n < 0xE0) : lengthOf n = 2 := by
  unfold lengthOf
  rw [if_neg (by omega), if_pos (by simp [h, h'])]

private theorem lengthOf_three {n : Nat} (h : 0xE0 ≤ n) (h' : n < 0xF0) : lengthOf n = 3 := by
  unfold lengthOf
  rw [if_neg (by omega), if_neg (by simp; omega), if_pos (by simp [h, h'])]

private theorem lengthOf_four {n : Nat} (h : 0xF0 ≤ n) (h' : n < 0xF5) : lengthOf n = 4 := by
  unfold lengthOf
  rw [if_neg (by omega), if_neg (by simp; omega), if_neg (by simp; omega),
    if_pos (by simp [h, h'])]

/-! ## Written text reads back -/

private theorem toNat_ofNat_of_lt {n : Nat} (h : n < 256) : (UInt8.ofNat n).toNat = n := by
  rw [UInt8.toNat_ofNat']
  exact Nat.mod_eq_of_lt h

theorem decodeAfter_encodeChar (cs : Array Char) (index : Nat) (c : Char) (xs : List UInt8) :
    decodeAfter cs index (encodeChar c ++ xs) =
      decodeAfter (cs.push c) (index + width c) xs := by
  have hv : c.toNat < 0xD800 ∨ (0xDFFF < c.toNat ∧ c.toNat < 0x110000) := c.valid
  have hc := Char.ofNat_toNat c
  unfold encodeChar width
  generalize c.toNat = n at hv hc
  subst hc
  have tail (m : Nat) : (UInt8.ofNat (0x80 + m % 64)).toNat = 0x80 + m % 64 :=
    toNat_ofNat_of_lt (by omega)
  have third : isTail (0x80 + n / 64 % 64) = true := isTail_iff.2 (by omega)
  have last : isTail (0x80 + n % 64) = true := isTail_iff.2 (by omega)
  dsimp only
  split
  · have ha : (UInt8.ofNat n).toNat = n := toNat_ofNat_of_lt (by omega)
    have hl : lengthOf n = 1 := by rw [lengthOf, if_pos (by omega)]
    rw [List.cons_append, List.nil_append, decodeAfter_one _ _ _ _ (by rw [ha, hl]), ha]
  · split
    · have ha : (UInt8.ofNat (0xC0 + n / 64)).toNat = 0xC0 + n / 64 :=
        toNat_ofNat_of_lt (by omega)
      have hl : lengthOf (0xC0 + n / 64) = 2 := lengthOf_two (by omega) (by omega)
      have hs : isSecond (0xC0 + n / 64) (0x80 + n % 64) = true := isSecond_iff.2 (by omega)
      have hn : (0xC0 + n / 64 - 0xC0) * 64 + (0x80 + n % 64 - 0x80) = n := by omega
      simp only [List.cons_append, List.nil_append]
      rw [decodeAfter_two _ _ _ _ _ (by rw [ha, hl]) (by rw [ha, tail, hs]), ha, tail, hn]
    · split
      · have ha : (UInt8.ofNat (0xE0 + n / 4096)).toNat = 0xE0 + n / 4096 :=
          toNat_ofNat_of_lt (by omega)
        have hl : lengthOf (0xE0 + n / 4096) = 3 := lengthOf_three (by omega) (by omega)
        have hs : isSecond (0xE0 + n / 4096) (0x80 + n / 64 % 64) = true :=
          isSecond_iff.2 (by omega)
        have hn : (0xE0 + n / 4096 - 0xE0) * 4096 + (0x80 + n / 64 % 64 - 0x80) * 64 +
            (0x80 + n % 64 - 0x80) = n := by omega
        simp only [List.cons_append, List.nil_append]
        rw [decodeAfter_three _ _ _ _ _ _ (by rw [ha, hl]) (by rw [ha, tail, hs])
          (by rw [tail, last]), ha, tail, tail, hn]
      · have ha : (UInt8.ofNat (0xF0 + n / 262144)).toNat = 0xF0 + n / 262144 :=
          toNat_ofNat_of_lt (by omega)
        have hl : lengthOf (0xF0 + n / 262144) = 4 := lengthOf_four (by omega) (by omega)
        have hs : isSecond (0xF0 + n / 262144) (0x80 + n / 4096 % 64) = true :=
          isSecond_iff.2 (by omega)
        have hn : (0xF0 + n / 262144 - 0xF0) * 262144 + (0x80 + n / 4096 % 64 - 0x80) * 4096 +
            (0x80 + n / 64 % 64 - 0x80) * 64 + (0x80 + n % 64 - 0x80) = n := by omega
        simp only [List.cons_append, List.nil_append]
        rw [decodeAfter_four _ _ _ _ _ _ _ (by rw [ha, hl]) (by rw [ha, tail, hs])
          (by rw [tail, third]) (by rw [tail, last]), ha, tail, tail, tail, hn]

theorem decodeAfter_encode (cs : Array Char) (index : Nat) (ds : List Char) :
    decodeAfter cs index (encode ds) = .ok (cs ++ ds.toArray) := by
  induction ds generalizing cs index with
  | nil => simp [encode, decodeAfter]
  | cons d ds ih =>
    have hs : encode (d :: ds) = encodeChar d ++ encode ds := rfl
    rw [hs, decodeAfter_encodeChar, ih]
    simp

theorem decode_encode (cs : List Char) : decode (encode cs) = .ok cs := by
  simp [decode, decodeAfter_encode, Except.map]

theorem encode_injective {cs ds : List Char} (h : encode cs = encode ds) : cs = ds := by
  have hread := decode_encode cs
  rw [h, decode_encode] at hread
  exact (Except.ok.inj hread).symm

/-! ## What reads is the written form -/

private theorem toNat_ofNat_char {n : Nat} (h : n < 0xD800 ∨ (0xDFFF < n ∧ n < 0x110000)) :
    (Char.ofNat n).toNat = n := by
  rw [Char.ofNat, dif_pos h]
  rfl

private theorem ofNat_eq {n : Nat} {a : UInt8} (h : n = a.toNat) : UInt8.ofNat n = a := by
  rw [h, UInt8.ofNat_toNat]

theorem encodeChar_one {a : UInt8} (h : a.toNat < 0x80) :
    encodeChar (Char.ofNat a.toNat) = [a] := by
  have hn : (Char.ofNat a.toNat).toNat = a.toNat := toNat_ofNat_char (by omega)
  simp only [encodeChar, hn, if_pos h, UInt8.ofNat_toNat]

private theorem encodeChar_two {a b : UInt8} (ha : 0xC2 ≤ a.toNat ∧ a.toNat < 0xE0)
    (hb : isSecond a.toNat b.toNat = true) :
    encodeChar (Char.ofNat ((a.toNat - 0xC0) * 64 + (b.toNat - 0x80))) = [a, b] := by
  have hs := isSecond_iff.1 hb
  have hn : (Char.ofNat ((a.toNat - 0xC0) * 64 + (b.toNat - 0x80))).toNat =
      (a.toNat - 0xC0) * 64 + (b.toNat - 0x80) := toNat_ofNat_char (by omega)
  simp only [encodeChar, hn]
  rw [if_neg (by omega), if_pos (by omega), ofNat_eq (a := a) (by omega),
    ofNat_eq (a := b) (by omega)]

private theorem encodeChar_three {a b c : UInt8} (ha : 0xE0 ≤ a.toNat ∧ a.toNat < 0xF0)
    (hb : isSecond a.toNat b.toNat = true) (hc : isTail c.toNat = true) :
    encodeChar (Char.ofNat
      ((a.toNat - 0xE0) * 4096 + (b.toNat - 0x80) * 64 + (c.toNat - 0x80))) = [a, b, c] := by
  have hs := isSecond_iff.1 hb
  have ht := isTail_iff.1 hc
  have hn : (Char.ofNat ((a.toNat - 0xE0) * 4096 + (b.toNat - 0x80) * 64 +
      (c.toNat - 0x80))).toNat = (a.toNat - 0xE0) * 4096 + (b.toNat - 0x80) * 64 +
        (c.toNat - 0x80) := toNat_ofNat_char (by omega)
  simp only [encodeChar, hn]
  rw [if_neg (by omega), if_neg (by omega), if_pos (by omega), ofNat_eq (a := a) (by omega),
    ofNat_eq (a := b) (by omega), ofNat_eq (a := c) (by omega)]

private theorem encodeChar_four {a b c d : UInt8} (ha : 0xF0 ≤ a.toNat ∧ a.toNat < 0xF5)
    (hb : isSecond a.toNat b.toNat = true) (hc : isTail c.toNat = true)
    (hd : isTail d.toNat = true) :
    encodeChar (Char.ofNat ((a.toNat - 0xF0) * 262144 + (b.toNat - 0x80) * 4096 +
      (c.toNat - 0x80) * 64 + (d.toNat - 0x80))) = [a, b, c, d] := by
  have hs := isSecond_iff.1 hb
  have ht := isTail_iff.1 hc
  have hu := isTail_iff.1 hd
  have hn : (Char.ofNat ((a.toNat - 0xF0) * 262144 + (b.toNat - 0x80) * 4096 +
      (c.toNat - 0x80) * 64 + (d.toNat - 0x80))).toNat = (a.toNat - 0xF0) * 262144 +
        (b.toNat - 0x80) * 4096 + (c.toNat - 0x80) * 64 + (d.toNat - 0x80) :=
    toNat_ofNat_char (by omega)
  simp only [encodeChar, hn]
  rw [if_neg (by omega), if_neg (by omega), if_neg (by omega), ofNat_eq (a := a) (by omega),
    ofNat_eq (a := b) (by omega), ofNat_eq (a := c) (by omega), ofNat_eq (a := d) (by omega)]

/-- One character in front of characters that are known. -/
private theorem encode_push {cs ds : Array Char} {c : Char} {front rest : List UInt8}
    (hc : encodeChar c = front)
    (h : ∃ es : List Char, ds = cs.push c ++ es.toArray ∧ encode es = rest) :
    ∃ es : List Char, ds = cs ++ es.toArray ∧ encode es = front ++ rest := by
  obtain ⟨es, rfl, rfl⟩ := h
  exact ⟨c :: es, by simp, by simp [encode, hc]⟩

-- Along the reader's own recursion: only the cases that read a character go on.
theorem encode_of_decodeAfter {cs ds : Array Char} {index : Nat} {xs : List UInt8}
    (h : decodeAfter cs index xs = .ok ds) :
    ∃ es : List Char, ds = cs ++ es.toArray ∧ encode es = xs := by
  fun_induction decodeAfter cs index xs with
  | case1 cs =>
    cases h
    exact ⟨[], by simp, rfl⟩
  | case3 cs index a n rest hl ih =>
    have hn : n < 0x80 := by have := lengthOf_cases n; omega
    exact encode_push (encodeChar_one hn) (ih h)
  | case6 cs index a n b rest hl m hb ih =>
    have hn : 0xC2 ≤ n ∧ n < 0xE0 := by have := lengthOf_cases n; omega
    exact encode_push (encodeChar_two hn (by simpa using hb)) (ih h)
  | case10 cs index a n b hl m hb c rest k hc ih =>
    have hn : 0xE0 ≤ n ∧ n < 0xF0 := by have := lengthOf_cases n; omega
    exact encode_push (encodeChar_three hn (by simpa using hb) (by simpa using hc)) (ih h)
  | case16 cs index a n b m hb c k hc d rest l hd h0 h1 h2 h3 ih =>
    have hn : 0xF0 ≤ n ∧ n < 0xF5 := by
      rcases lengthOf_cases n with e | ⟨e, -⟩ | ⟨e, -⟩ | ⟨e, -⟩ | ⟨-, hn⟩
      · exact absurd e h0
      · exact absurd e h1
      · exact absurd e h2
      · exact absurd e h3
      · exact hn
    exact encode_push
      (encodeChar_four hn (by simpa using hb) (by simpa using hc) (by simpa using hd)) (ih h)
  | _ => cases h

/-- Bytes are text exactly when they are its written form. -/
theorem decode_eq_ok_iff {xs : List UInt8} {cs : List Char} :
    decode xs = .ok cs ↔ xs = encode cs := by
  constructor
  · intro h
    unfold decode at h
    cases hd : decodeAfter #[] 0 xs with
    | error e =>
      rw [hd] at h
      cases h
    | ok ds =>
      rw [hd] at h
      obtain ⟨es, rfl, rfl⟩ := encode_of_decodeAfter hd
      cases h
      simp
  · rintro rfl
    exact decode_encode cs

end CircuitFixtures.Utf8
