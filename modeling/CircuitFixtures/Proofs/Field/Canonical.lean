import CircuitFixtures.Proofs.Field.Text

/-!
# Canonical elements

What the readers of field elements take, and with which fault they refuse the rest, for all bytes and
all texts. A text is one of three things (`Field.ofText_cases`): no digits, digits of a number below
the order, or digits of a number that is not. `Field.decoding_canonical` has this with the forms that
are written.
-/

namespace CircuitFixtures

namespace Hex

/-- The digits of bytes stand for the number of the bytes. -/
theorem numeral_encode (xs : List UInt8) : numeral (encode xs) = BigEndian.decode xs := by
  have hdecode : decode (encode xs) = .ok (BigEndian.decode xs) := decodeAfter_encode 0 0 xs
  exact (decode_eq_ok_iff.1 hdecode).2.symm

end Hex

namespace Field

variable {s : String} {ds : List Char} {xs : List UInt8}

/-- The text is one to 64 digits of either case, with or without a lead. -/
def Written (s : String) (ds : List Char) : Prop :=
  Numeral ds ∧ (s.toList = ds ∨ s.toList = '0' :: 'x' :: ds)

theorem ofText_of_written (h : Written s ds) : ofText s = ofBytes (digitBytes ds) := by
  obtain ⟨hds, htext⟩ := h
  have hrest : (dropLead? s.toList).getD s.toList = ds := by
    rcases htext with htext | htext
    · rw [htext, dropLead?_of_isDigit hds.isDigit]
      rfl
    · rw [htext]
      rfl
  rw [ofText, ofChars, hrest, ofDigits_of_numeral hds]

theorem ofText_of_not_written (h : ¬ ∃ ds, Written s ds) :
    ∃ reason, ofText s = .error (.badDigits s reason) := by
  have hrest : ¬ Numeral ((dropLead? s.toList).getD s.toList) := by
    intro hnumeral
    refine h ⟨_, hnumeral, ?_⟩
    cases hlead : dropLead? s.toList with
    | none => exact .inl rfl
    | some ds => exact .inr (dropLead?_eq_some_iff.1 hlead)
  obtain ⟨reason, hreason⟩ := ofDigits_of_not_numeral s.toList hrest
  rw [String.ofList_toList] at hreason
  exact ⟨reason, hreason⟩

/-- The digits in the message of a number that is not below the order. -/
theorem ofText_of_order_le (h : Written s ds) (horder : order ≤ Hex.numeral ds) :
    ∃ es, IsCanonicalText es ∧ Hex.numeral es = Hex.numeral ds ∧
      ofText s = .error (.notBelowOrder es) := by
  have hle := h.1.length_digitBytes
  rw [← h.1.decode_digitBytes] at horder
  refine ⟨Hex.encode (padded (digitBytes ds)), ⟨?_, fun c hc => Hex.mem_alphabet_of_mem_encode hc⟩,
    ?_, ?_⟩
  · rw [Hex.length_encode, length_padded hle]
    rfl
  · rw [Hex.numeral_encode, decode_padded, h.1.decode_digitBytes]
  · rw [ofText_of_written h, ofBytes_of_order_le hle horder]

theorem ofText_of_lt (h : Written s ds) (hlt : Hex.numeral ds < order) :
    ofText s = .ok ⟨Hex.numeral ds, hlt⟩ := by
  rw [ofText_of_written h, ofBytes_eq_ok_iff, toBytes_eq_padded_iff h.1.length_digitBytes,
    h.1.decode_digitBytes]
  exact ⟨h.1.length_digitBytes, rfl⟩

/-- A text is no digits, or they make a number below the order, or one that is not. -/
inductive Reads (s : String) : Except Fault Field → Prop
  | element {ds : List Char} (written : Written s ds) (lt : Hex.numeral ds < order) :
    Reads s (.ok ⟨Hex.numeral ds, lt⟩)
  | notBelow {ds es : List Char} (written : Written s ds) (le : order ≤ Hex.numeral ds)
    (canonical : IsCanonicalText es) (same : Hex.numeral es = Hex.numeral ds) :
    Reads s (.error (.notBelowOrder es))
  | noDigits (none : ¬ ∃ ds, Written s ds) (reason : DigitsFault) :
    Reads s (.error (.badDigits s reason))

theorem ofText_cases (s : String) : Reads s (ofText s) := by
  by_cases hwritten : ∃ ds, Written s ds
  · obtain ⟨ds, h⟩ := hwritten
    by_cases hlt : Hex.numeral ds < order
    · rw [ofText_of_lt h hlt]
      exact .element h hlt
    · have hle := Nat.not_lt.1 hlt
      obtain ⟨es, hes, hsame, hfault⟩ := ofText_of_order_le h hle
      rw [hfault]
      exact .notBelow h hle hes hsame
  · obtain ⟨reason, hfault⟩ := ofText_of_not_written hwritten
    rw [hfault]
    exact .noDigits hwritten reason

theorem ofText_eq_ok_iff {x : Field} :
    ofText s = .ok x ↔ ∃ ds, Written s ds ∧ x.val = Hex.numeral ds := by
  constructor
  · intro h
    have hreads := h ▸ ofText_cases s
    cases hreads with
    | element hwritten => exact ⟨_, hwritten, rfl⟩
  · rintro ⟨ds, hwritten, hval⟩
    have hx : (⟨Hex.numeral ds, hval ▸ x.val_lt⟩ : Field) = x := by simp only [← hval]
    rw [ofText_of_lt hwritten (hval ▸ x.val_lt), hx]

theorem ofText_eq_notBelowOrder_iff :
    ofText s = .error (.notBelowOrder es) ↔
      ∃ ds, Written s ds ∧ order ≤ Hex.numeral ds ∧ IsCanonicalText es ∧
        Hex.numeral es = Hex.numeral ds := by
  constructor
  · intro h
    have hreads := h ▸ ofText_cases s
    cases hreads with
    | notBelow hwritten hle hes hsame => exact ⟨_, hwritten, hle, hes, hsame⟩
  · rintro ⟨ds, hwritten, hle, hes, hsame⟩
    obtain ⟨fs, hfs, hsame', hfault⟩ := ofText_of_order_le hwritten hle
    have hlength : fs.length = es.length := hfs.1.trans hes.1.symm
    rw [hfault, Hex.eq_of_numeral_eq hfs.2 hes.2 hlength (hsame'.trans hsame.symm)]

theorem ofText_eq_badDigits_iff :
    (∃ reason, ofText s = .error (.badDigits s reason)) ↔ ¬ ∃ ds, Written s ds := by
  constructor
  · rintro ⟨reason, h⟩
    have hreads := h ▸ ofText_cases s
    cases hreads with
    | noDigits hnone => exact hnone
  · exact ofText_of_not_written

theorem toHex_injective {x y : Field} (h : x.toHex = y.toHex) : x = y := by
  have hread : (.ok x : Except Fault Field) = .ok y := by rw [← ofText_toHex, ← ofText_toHex, h]
  exact Except.ok.inj hread

/-- Bytes are read exactly where there are at most 32 of them and their number is below the order, and
the element has these bytes behind zeros. A text is read exactly where it is one to 64 digits of a
number below the order, with or without a lead; digits of any other number are refused with the number,
and all else is no digits. Each element has its own text of 64 digits in lower case, which is read with
and without a lead, and a number of 128 bits keeps its value. -/
theorem decoding_canonical :
    (∀ xs : List UInt8,
      ((∃ x, ofBytes xs = .ok x) ↔ xs.length ≤ 32 ∧ BigEndian.value xs < order) ∧
      ∀ x, ofBytes xs = .ok x ↔
        xs.length ≤ 32 ∧ x.toBytes = List.replicate (32 - xs.length) 0 ++ xs) ∧
    (∀ s : String,
      ((∃ x, ofText s = .ok x) ↔ ∃ ds, Written s ds ∧ Hex.numeral ds < order) ∧
      (∀ x, ofText s = .ok x ↔ ∃ ds, Written s ds ∧ x.val = Hex.numeral ds) ∧
      (∀ es, ofText s = .error (.notBelowOrder es) ↔
        ∃ ds, Written s ds ∧ order ≤ Hex.numeral ds ∧ IsCanonicalText es ∧
          Hex.numeral es = Hex.numeral ds) ∧
      ((∃ reason, ofText s = .error (.badDigits s reason)) ↔ ¬ ∃ ds, Written s ds)) ∧
    (∀ x : Field, IsCanonicalText x.toHex.toList ∧ ofText x.toHex = .ok x ∧ ofText x.toText = .ok x) ∧
    (∀ x y : Field, x = y ↔ x.toHex = y.toHex) ∧
    ∀ n : BitVec 128, (ofNat n.toNat).toBytes.length = 32 ∧
      BigEndian.value (ofNat n.toNat).toBytes = n.toNat := by
  refine ⟨fun xs => ⟨?_, fun x => ofBytes_eq_ok_iff⟩,
    fun s => ⟨?_, fun x => ofText_eq_ok_iff, fun es => ofText_eq_notBelowOrder_iff,
      ofText_eq_badDigits_iff⟩, fun x => ⟨?_, ofText_toHex x, ofText_toText x⟩, fun x y => ?_,
    fun n => ⟨length_toBytes _, ?_⟩⟩
  · rw [ofBytes_isOk_iff, BigEndian.decode_eq_value]
    rfl
  · simp only [ofText_eq_ok_iff]
    constructor
    · rintro ⟨x, ds, hwritten, hval⟩
      exact ⟨ds, hwritten, hval ▸ x.val_lt⟩
    · rintro ⟨ds, hwritten, hlt⟩
      exact ⟨⟨_, hlt⟩, ds, hwritten, rfl⟩
  · rw [toHex, String.toList_ofList]
    exact isCanonicalText_toDigits x
  · exact ⟨fun h => h ▸ rfl, toHex_injective⟩
  · have hlt : n.toNat < order := Nat.lt_trans n.isLt (by decide)
    rw [← BigEndian.decode_eq_value, decode_toBytes, val_ofNat hlt]

-- A lead is dropped once, and the position of what is no digit counts the zero in front.
example : ofText "0x0xA" = .error (.badDigits "0x0xA" (.notDigit 120 2)) := rfl

end Field

end CircuitFixtures
