import CircuitFixtures.Proofs.Field.Bytes
import CircuitFixtures.Proofs.Text.Hex

/-!
# Written field elements

What the readers of field elements accept, said about the text alone.

`ofChars_eq_ok_iff` is the lenient reader: one to 64 digits of either case, with or without
a lead `0x`, whose number is an element. `ofFixedChars_eq_ok_iff` is the fixed-width reader.
It asks for a lead and for 64 bytes after it, and hands these to the lenient reader, which
drops a lead of its own; so a second lead and 62 digits are taken as well.
-/

namespace CircuitFixtures.Field

/-- One to 64 digits that stand for the element `x`. -/
structure Digits (ds : List Char) (x : Field) : Prop where
  isDigit : ∀ c ∈ ds, Hex.IsDigit c
  ne_nil : ds ≠ []
  length_le : ds.length ≤ 64
  val_eq : x.val = Hex.numeral ds

/-- One to 64 digits of either case. -/
structure Numeral (ds : List Char) : Prop where
  isDigit : ∀ c ∈ ds, Hex.IsDigit c
  ne_nil : ds ≠ []
  length_le : ds.length ≤ 64

theorem digits_iff {ds : List Char} {x : Field} :
    Digits ds x ↔ Numeral ds ∧ x.val = Hex.numeral ds := by
  constructor
  · rintro ⟨hd, hne, hle, hval⟩
    exact ⟨⟨hd, hne, hle⟩, hval⟩
  · rintro ⟨⟨hd, hne, hle⟩, hval⟩
    exact ⟨hd, hne, hle, hval⟩

/-- The bytes of digits, two for each, with a zero in front of an odd number of them. -/
def digitBytes (ds : List Char) : List UInt8 :=
  BigEndian.encode ((ds.length + 1) / 2) (Hex.numeral ds)

theorem Numeral.length_digitBytes {ds : List Char} (h : Numeral ds) :
    (digitBytes ds).length ≤ width := by
  have hle := h.length_le
  rw [digitBytes, BigEndian.length_encode, width]
  omega

theorem Numeral.decode_digitBytes {ds : List Char} (h : Numeral ds) :
    BigEndian.decode (digitBytes ds) = Hex.numeral ds := by
  have hlt := Hex.numeral_lt h.isDigit
  have hpow : Nat.pow 16 ds.length ≤ Nat.pow 256 ((ds.length + 1) / 2) := by
    have hsquare : Nat.pow 256 ((ds.length + 1) / 2) = 16 ^ (2 * ((ds.length + 1) / 2)) :=
      (Nat.pow_mul 16 2 _).symm
    rw [hsquare]
    exact Nat.pow_le_pow_right (by decide) (by omega)
  rw [digitBytes, BigEndian.decode_encode, Nat.mod_eq_of_lt (Nat.lt_of_lt_of_le hlt hpow)]

theorem ofDigits_of_numeral {text ds : List Char} (h : Numeral ds) :
    ofDigits text ds = ofBytes (digitBytes ds) := by
  have hn : Hex.decode ds = .ok (Hex.numeral ds) := Hex.decode_eq_ok_iff.2 ⟨h.isDigit, rfl⟩
  have hempty : ds.length ≠ 0 := fun h0 => h.ne_nil (List.length_eq_zero_iff.1 h0)
  have hwidth : ¬ 2 * width < ds.length := Nat.not_lt.2 h.length_le
  simp only [ofDigits, Hex.size_of_isDigit h.isDigit, if_neg hempty, if_neg hwidth, hn, digitBytes]

/-- All else is refused as no digits, whatever number some of it stands for. -/
theorem ofDigits_of_not_numeral (text : List Char) {cs : List Char} (h : ¬ Numeral cs) :
    ∃ reason, ofDigits text cs = .error (.badDigits (String.ofList text) reason) := by
  rw [ofDigits]
  dsimp only
  split
  · exact ⟨_, rfl⟩
  · rename_i hempty
    split
    · exact ⟨_, rfl⟩
    · rename_i hwidth
      split
      · rename_i n hn
        have hd := (Hex.decode_eq_ok_iff.1 hn).1
        rw [Hex.size_of_isDigit hd] at hempty hwidth
        have hne : cs ≠ [] := by
          rintro rfl
          exact hempty rfl
        exact absurd ⟨hd, hne, Nat.not_lt.1 hwidth⟩ h
      · exact ⟨_, rfl⟩

theorem ofDigits_eq_ok_iff {text cs : List Char} {x : Field} :
    ofDigits text cs = .ok x ↔ Digits cs x := by
  rw [digits_iff]
  by_cases h : Numeral cs
  · rw [ofDigits_of_numeral h, ofBytes_eq_ok_iff, toBytes_eq_padded_iff h.length_digitBytes,
      h.decode_digitBytes]
    exact and_congr_left fun _ => iff_of_true h.length_digitBytes h
  · obtain ⟨reason, hreason⟩ := ofDigits_of_not_numeral text h
    rw [hreason]
    constructor
    · intro hok
      cases hok
    · rintro ⟨hcs, -⟩
      exact absurd hcs h

/-! ## Leads -/

theorem dropLead?_eq_some_iff {text cs : List Char} :
    dropLead? text = some cs ↔ text = '0' :: 'x' :: cs := by
  unfold dropLead?
  split
  · simp
  · rename_i h
    constructor
    · intro hs
      cases hs
    · rintro rfl
      exact absurd rfl (h cs)

private theorem not_isDigit_x : ¬ Hex.IsDigit 'x' := by decide

/-- A lead is not made of digits. -/
theorem dropLead?_of_isDigit {cs : List Char} (h : ∀ c ∈ cs, Hex.IsDigit c) :
    dropLead? cs = none := by
  cases hl : dropLead? cs with
  | none => rfl
  | some ds =>
    rw [dropLead?_eq_some_iff] at hl
    subst hl
    exact absurd (h 'x' (by simp)) not_isDigit_x

private theorem size_lead (cs : List Char) : Utf8.size ('0' :: 'x' :: cs) = 2 + Utf8.size cs := by
  have h0 : Utf8.width '0' = 1 := by decide
  have h1 : Utf8.width 'x' = 1 := by decide
  rw [Utf8.size_cons, Utf8.size_cons, h0, h1]
  omega

/-! ## Readers -/

theorem ofChars_eq_ok_iff {text : List Char} {x : Field} :
    ofChars text = .ok x ↔ ∃ ds, Digits ds x ∧ (text = ds ∨ text = '0' :: 'x' :: ds) := by
  constructor
  · intro h
    have hd := ofDigits_eq_ok_iff.1 h
    cases hl : dropLead? text with
    | none =>
      rw [hl] at hd
      exact ⟨text, hd, .inl rfl⟩
    | some ds =>
      rw [hl] at hd
      exact ⟨ds, hd, .inr (dropLead?_eq_some_iff.1 hl)⟩
  · rintro ⟨ds, hd, rfl | rfl⟩
    · rw [ofChars, dropLead?_of_isDigit hd.isDigit]
      exact ofDigits_eq_ok_iff.2 hd
    · exact ofDigits_eq_ok_iff.2 hd

/-- A text that is read takes no more bytes than a lead and 64 digits. -/
theorem size_le_of_ofChars {text : List Char} {x : Field} (h : ofChars text = .ok x) :
    Utf8.size text ≤ 66 := by
  obtain ⟨ds, hd, rfl | rfl⟩ := ofChars_eq_ok_iff.1 h
  · have hlen := hd.length_le
    rw [Hex.size_of_isDigit hd.isDigit]
    omega
  · have hlen := hd.length_le
    rw [size_lead, Hex.size_of_isDigit hd.isDigit]
    omega

/-! ## The canonical text -/

/-- 64 digits in lower case, without a lead. -/
def IsCanonicalText (text : List Char) : Prop :=
  text.length = 64 ∧ ∀ c ∈ text, c ∈ Hex.alphabet

instance : DecidablePred IsCanonicalText := fun text =>
  decidable_of_iff (text.length = 64 ∧ text.all (fun c => decide (c ∈ Hex.alphabet)) = true)
    (by simp [IsCanonicalText])

theorem isCanonicalText_toDigits (x : Field) : IsCanonicalText x.toDigits :=
  ⟨length_toDigits x, fun _ => Hex.mem_alphabet_of_mem_encode⟩

theorem digits_toDigits (x : Field) : Digits x.toDigits x := by
  have hd : ∀ c ∈ x.toDigits, Hex.IsDigit c := fun c hc =>
    Hex.isDigit_of_mem_alphabet ((isCanonicalText_toDigits x).2 c hc)
  have hval := (Hex.decode_eq_ok_iff.1 (decode_toDigits x)).2
  have hlen := length_toDigits x
  refine ⟨hd, ?_, by omega, hval⟩
  intro hnil
  rw [hnil] at hlen
  cases hlen

theorem ofChars_toDigits (x : Field) : ofChars x.toDigits = .ok x :=
  ofChars_eq_ok_iff.2 ⟨_, digits_toDigits x, .inl rfl⟩

/-- The digits that are written are the only canonical text of an element. -/
theorem eq_toDigits_of_ofChars {text : List Char} {x : Field} (hc : IsCanonicalText text)
    (h : ofChars text = .ok x) : text = x.toDigits := by
  obtain ⟨ds, hd, rfl | rfl⟩ := ofChars_eq_ok_iff.1 h
  · have hval : Hex.numeral text = Hex.numeral x.toDigits := by
      rw [← hd.val_eq, (digits_toDigits x).val_eq]
    have hlen : text.length = x.toDigits.length := by rw [hc.1, length_toDigits]
    exact Hex.eq_of_numeral_eq hc.2 (isCanonicalText_toDigits x).2 hlen hval
  · have hx : 'x' ∈ Hex.alphabet := hc.2 'x' (by simp)
    exact absurd hx (by decide)

example : ¬ IsCanonicalText "0x0A".toList := by decide

/-! ## The fixed-width reader -/

/-- The fixed-width reader takes its lead and 64 digits, or its lead, another one and 62
digits. -/
theorem ofFixedChars_eq_ok_iff {text : List Char} {x : Field} :
    ofFixedChars text = .ok x ↔
      ∃ ds, Digits ds x ∧ ((text = '0' :: 'x' :: ds ∧ ds.length = 64) ∨
        (text = '0' :: 'x' :: '0' :: 'x' :: ds ∧ ds.length = 62)) := by
  constructor
  · intro h
    unfold ofFixedChars at h
    split at h
    · cases h
    · rename_i cs hl
      have htext := dropLead?_eq_some_iff.1 hl
      split at h
      · rename_i hsize
        obtain ⟨ds, hd, rfl | rfl⟩ := ofChars_eq_ok_iff.1 h
        · rw [Hex.size_of_isDigit hd.isDigit] at hsize
          exact ⟨cs, hd, .inl ⟨htext, hsize⟩⟩
        · rw [size_lead, Hex.size_of_isDigit hd.isDigit, width] at hsize
          exact ⟨ds, hd, .inr ⟨htext, by omega⟩⟩
      · cases h
  · rintro ⟨ds, hd, ⟨rfl, hlen⟩ | ⟨rfl, hlen⟩⟩
    · have hl : dropLead? ('0' :: 'x' :: ds) = some ds := rfl
      have hsize : Utf8.size ds = 2 * width := by rw [Hex.size_of_isDigit hd.isDigit, hlen, width]
      simp only [ofFixedChars, hl, hsize, if_pos]
      exact ofChars_eq_ok_iff.2 ⟨ds, hd, .inl rfl⟩
    · have hl : dropLead? ('0' :: 'x' :: '0' :: 'x' :: ds) = some ('0' :: 'x' :: ds) := rfl
      have hsize : Utf8.size ('0' :: 'x' :: ds) = 2 * width := by
        rw [size_lead, Hex.size_of_isDigit hd.isDigit, hlen, width]
      simp only [ofFixedChars, hl, hsize, if_pos]
      exact ofChars_eq_ok_iff.2 ⟨ds, hd, .inr rfl⟩

end CircuitFixtures.Field
