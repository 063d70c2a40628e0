import CircuitFixtures.Json.Printer
import CircuitFixtures.Json.Reader
import CircuitFixtures.Proofs.Text.Utf8

/-!
# Written texts and indices are read back

`textTail_escaped` says that the characters between the quotes are read as they were before
they were escaped. It rests on one step: a character is either written as it is, or behind a
backslash in a way that `escape` takes back (`escapeChar_cases`). `indexKey_decimal` says that
the digits of an index, between quotes, are read as that index.
-/

namespace CircuitFixtures.Json

/-! ## Blanks -/

theorem skipBlanks_cons {c : Char} {cs : List Char} (h : isBlank c = false) :
    skipBlanks (c :: cs) = c :: cs := by
  simp [skipBlanks, h]

theorem skipBlanks_append {bs cs : List Char} (h : ∀ b ∈ bs, isBlank b = true) :
    skipBlanks (bs ++ cs) = skipBlanks cs := by
  rw [skipBlanks, List.dropWhile_append_of_pos h, skipBlanks]

theorem isBlank_of_mem_newLine {level : Nat} {c : Char} (h : c ∈ newLine level) :
    isBlank c = true := by
  rcases List.mem_cons.1 h with rfl | h
  · rfl
  · rw [List.eq_of_mem_replicate h]
    rfl

theorem skipBlanks_newLine (level : Nat) (cs : List Char) :
    skipBlanks (newLine level ++ cs) = skipBlanks cs :=
  skipBlanks_append fun _ => isBlank_of_mem_newLine

/-! ## Escaped characters -/

private theorem decode_controlDigits {n : Nat} (h : n < 32) :
    Hex.decode ['0', '0', Hex.digitOf (n / 16), Hex.digitOf (n % 16)] = .ok n := by
  have h0 : Hex.valueOf? '0' = some 0 := by decide
  have h1 := Hex.valueOf?_digitOf (show n / 16 < 16 by omega)
  have h2 := Hex.valueOf?_digitOf (show n % 16 < 16 by omega)
  have hn : 16 * (n / 16) + n % 16 = n := by omega
  simp [Hex.decode, Hex.decodeAfter, h0, h1, h2, hn]

/-- A control character that has no letter of its own is read by its number. -/
theorem escape_control {c : Char} (h : c.toNat < 32) (rest : List Char) :
    escape ('u' :: '0' :: '0' :: Hex.digitOf (c.toNat / 16) :: Hex.digitOf (c.toNat % 16) :: rest) =
      .ok (c, rest) := by
  generalize hhi : Hex.digitOf (c.toNat / 16) = hi
  generalize hlo : Hex.digitOf (c.toNat % 16) = lo
  have hlong : ¬ Utf8.size ('0' :: '0' :: hi :: lo :: rest) < 4 := by
    have hle := Utf8.length_le_size ('0' :: '0' :: hi :: lo :: rest)
    simp only [List.length_cons] at hle
    omega
  have hread : hexEscape ('0' :: '0' :: hi :: lo :: rest) = .ok (c.toNat, rest) := by
    have hdigits := decode_controlDigits h
    rw [hhi, hlo] at hdigits
    simp [hexEscape, hlong, hdigits]
  have hlone : ¬ (0xDC00 ≤ c.toNat ∧ c.toNat ≤ 0xDFFF) := by omega
  have hplane : c.toNat < 0xD800 ∨ 0xDBFF < c.toNat := by omega
  simp only [escape, unicodeEscape, hread, if_neg hlone, if_pos hplane, Char.ofNat_toNat]

/-- A character is written as it is, or behind a backslash so that `escape` takes it back. -/
theorem escapeChar_cases (c : Char) :
    (escapeChar c = [c] ∧ c ≠ '"' ∧ c ≠ '\\' ∧ ¬ c.toNat < 32) ∨
      ∃ e, escapeChar c = '\\' :: e ∧ ∀ rest, escape (e ++ rest) = .ok (c, rest) := by
  fun_cases escapeChar c
  case case8 hlow => exact .inr ⟨_, rfl, escape_control hlow⟩
  case case9 hquote hbackslash _ _ _ _ _ hhigh => exact .inl ⟨rfl, hquote, hbackslash, hhigh⟩
  -- The other characters have a letter of their own.
  all_goals
    rename_i heq
    subst heq
    exact .inr ⟨_, rfl, fun _ => rfl⟩

/-! ## Texts -/

theorem textAfter_escapeChar (acc : List Char) (c : Char) (rest : List Char) :
    textAfter acc (escapeChar c ++ rest) = textAfter (c :: acc) rest := by
  rcases escapeChar_cases c with ⟨he, hquote, hbackslash, hhigh⟩ | ⟨e, he, hread⟩
  · rw [he, List.singleton_append, textAfter]
    · rw [if_neg hhigh]
    · exact hquote
    · exact hbackslash
  · rw [he, List.cons_append, textAfter, hread]

theorem textAfter_escaped (acc cs rest : List Char) :
    textAfter acc (cs.flatMap escapeChar ++ '"' :: rest) = .ok (acc.reverse ++ cs, rest) := by
  induction cs generalizing acc with
  | nil => simp [textAfter]
  | cons c cs ih =>
    rw [List.flatMap_cons, List.append_assoc, textAfter_escapeChar, ih]
    simp

/-- The characters of a text, escaped, and its closing quote. -/
theorem textTail_escaped (cs rest : List Char) :
    textTail (cs.flatMap escapeChar ++ '"' :: rest) = .ok (cs, rest) :=
  textAfter_escaped [] cs rest

example : quote ['"', '\n', '\x01', 'é'] = "\"\\\"\\n\\u0001é\"".toList := by decide

theorem quote_append (cs rest : List Char) :
    quote cs ++ rest = '"' :: (cs.flatMap escapeChar ++ '"' :: rest) := by
  simp [quote]

/-! ## Indices -/

theorem isDigit_of_mem_decimal {n : Nat} {c : Char} (h : c ∈ decimal n) : c.isDigit = true :=
  Nat.isDigit_of_mem_toDigits (by decide) (by decide) h

theorem escapeChar_of_isDigit {c : Char} (h : c.isDigit = true) : escapeChar c = [c] := by
  have hne {d : Char} (hd : d.isDigit = false) : c ≠ d := by
    rintro rfl
    rw [h] at hd
    cases hd
  have hhigh : ¬ c.toNat < 32 := by
    have hc : 48 ≤ c.val ∧ c.val ≤ 57 := by simpa [Char.isDigit] using h
    have hzero : 48 ≤ c.toNat := UInt32.le_iff_toNat_le.1 hc.1
    omega
  rw [escapeChar, if_neg (hne rfl), if_neg (hne rfl), if_neg (hne rfl), if_neg (hne rfl),
    if_neg (hne rfl), if_neg (hne rfl), if_neg (hne rfl), if_neg hhigh]

/-- Digits are not escaped. -/
theorem quote_decimal (n : Nat) : quote (decimal n) = '"' :: (decimal n ++ ['"']) := by
  have hplain : ∀ c ∈ decimal n, escapeChar c = [c] :=
    fun c hc => escapeChar_of_isDigit (isDigit_of_mem_decimal hc)
  rw [quote, List.flatMap_def, List.map_congr_left hplain, ← List.flatMap_def]
  simp

/-- The digits of a positive number do not start with a zero. -/
theorem decimal_eq_cons {n : Nat} (h : 0 < n) : ∃ d ds, decimal n = d :: ds ∧ d ≠ '0' := by
  induction n using Nat.strongRecOn with
  | ind n ih =>
    rw [decimal, Nat.toDigits_eq_if (by decide)]
    split
    · rename_i hn
      have all : ∀ k : Fin 10, 0 < k.val → Nat.digitChar k.val ≠ '0' := by decide
      exact ⟨_, _, rfl, all ⟨n, hn⟩ h⟩
    · rename_i hn
      obtain ⟨d, ds, hds, hd⟩ := ih (n / 10) (by omega) (by omega)
      rw [decimal] at hds
      exact ⟨d, ds ++ [(n % 10).digitChar], by rw [hds, List.cons_append], hd⟩

theorem le_ofDigitChars (n : Nat) (ds : List Char) : n ≤ Nat.ofDigitChars 10 ds n := by
  rw [Nat.ofDigitChars_eq_ofDigitChars_zero]
  have hpos : 0 < 10 ^ ds.length := Nat.pow_pos (by decide)
  exact Nat.le_trans (Nat.le_mul_of_pos_left n hpos) (Nat.le_add_right _ _)

/-- Digits up to something else are read as one number while it stays within bounds. -/
theorem significandDigits_append (n count : Nat) {ds : List Char} {c : Char} (cs : List Char)
    (hd : ∀ d ∈ ds, d.isDigit = true) (hc : c.isDigit = false)
    (hmax : Nat.ofDigitChars 10 ds n ≤ maxSignificand) :
    significandDigits n count (ds ++ c :: cs) =
      (Nat.ofDigitChars 10 ds n, count + ds.length, c :: cs) := by
  induction ds generalizing n count with
  | nil => simp [significandDigits, hc]
  | cons d ds ih =>
    have hstep : Nat.ofDigitChars 10 (d :: ds) n = Nat.ofDigitChars 10 ds (10 * n + (d.toNat - 48)) :=
      Nat.ofDigitChars_cons
    rw [hstep] at hmax ⊢
    have hin : d.isDigit = true ∧ 10 * n + (d.toNat - 48) ≤ maxSignificand :=
      ⟨hd d List.mem_cons_self, Nat.le_trans (le_ofDigitChars _ ds) hmax⟩
    rw [List.cons_append, significandDigits, if_pos hin,
      ih _ _ (fun e he => hd e (List.mem_cons_of_mem _ he)) hmax, List.length_cons]
    simp only [Prod.mk.injEq, true_and, and_true]
    omega

theorem afterInteger_quote (n : Nat) (rest : List Char) :
    afterInteger false n 0 ('"' :: rest) = .ok (.integer n, '"' :: rest) := by
  simp [afterInteger]

/-- The digits of a number within bounds, up to a quote. -/
theorem unsigned_decimal {n : Nat} (h : n ≤ maxSignificand) (rest : List Char) :
    unsigned false (decimal n ++ '"' :: rest) = .ok (.integer n, '"' :: rest) := by
  rcases Nat.eq_zero_or_pos n with rfl | hn
  · exact afterInteger_quote 0 rest
  · obtain ⟨d, ds, hds, hzero⟩ := decimal_eq_cons hn
    have hdigits : ∀ e ∈ d :: ds, e.isDigit = true := fun e he =>
      isDigit_of_mem_decimal (n := n) (hds ▸ he)
    have hvalue : Nat.ofDigitChars 10 ds (d.toNat - 48) = n := by
      have hread : Nat.ofDigitChars 10 (decimal n) 0 = n := Nat.ofDigitChars_ten_toDigits
      rw [hds, Nat.ofDigitChars_cons] at hread
      simpa using hread
    have hscan := significandDigits_append (d.toNat - 48) 1 (c := '"') rest
      (fun e he => hdigits e (List.mem_cons_of_mem _ he)) rfl (hvalue.symm ▸ h)
    rw [hvalue] at hscan
    rw [hds, List.cons_append]
    simp [unsigned, hzero, hdigits d List.mem_cons_self, hscan, afterInteger_quote]

theorem number_of_isDigit {c : Char} (h : c.isDigit = true) (cs : List Char) :
    number (c :: cs) = unsigned false (c :: cs) := by
  unfold number
  split
  · rename_i heq
    cases heq
    cases h
  · rfl

/-- The digits of an index and the closing quote. -/
theorem indexKey_decimal (i : Index) (rest : List Char) :
    indexKey (decimal i.toNat ++ '"' :: rest) = .ok (i, rest) := by
  have hi := UInt32.toNat_lt i
  have hmax : i.toNat ≤ maxSignificand := by
    have hbound : 4294967296 ≤ maxSignificand := by decide
    omega
  have hread := unsigned_decimal hmax rest
  obtain ⟨d, ds, hds⟩ : ∃ d ds, decimal i.toNat = d :: ds :=
    List.exists_cons_of_ne_nil Nat.toDigits_ne_nil
  have hdigit : d.isDigit = true := isDigit_of_mem_decimal (n := i.toNat) (by simp [hds])
  have hrange : ¬ ((i.toNat : Int) < 0 ∨ 4294967295 < (i.toNat : Int)) := by omega
  rw [hds, List.cons_append] at hread ⊢
  rw [← number_of_isDigit hdigit] at hread
  simp only [indexKey, hdigit, Bool.or_true, if_true, hread, if_neg hrange]
  simp

end CircuitFixtures.Json
