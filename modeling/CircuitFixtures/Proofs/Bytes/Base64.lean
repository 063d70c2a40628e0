import CircuitFixtures.Bytes.Base64
import CircuitFixtures.Proofs.Text.Utf8

/-!
# What Base64 writes is read back, and nothing else

Three bytes are four numbers of six bits each (`sextets`). A last group of fewer bytes is
written as if zeros followed, without the numbers that hold nothing but zeros, so one set of
equations about `sextets` reads all three kinds of groups back (`bytes_sextets`), and one finds the
bytes of what is read (`sextets_bytes`). `decode_eq_ok_iff` puts the groups together, and
`encode_asText` says that the symbols are characters of one byte.
-/

namespace CircuitFixtures.Base64

/-! ## Symbols -/

theorem valueOf?_symbolOf {n : Nat} (h : n < 64) : valueOf? (symbolOf n) = some n := by
  have all : ∀ k : Fin 64, valueOf? (symbolOf k.val) = some k.val := by decide
  exact all ⟨n, h⟩

theorem symbolOf_ne_pad {n : Nat} (h : n < 64) : symbolOf n ≠ pad := by
  have all : ∀ k : Fin 64, symbolOf k.val ≠ pad := by decide
  exact all ⟨n, h⟩

theorem toNat_symbolOf_lt {n : Nat} (h : n < 64) : (symbolOf n).toNat < 128 := by
  have all : ∀ k : Fin 64, (symbolOf k.val).toNat < 128 := by decide
  exact all ⟨n, h⟩

theorem values_symbols (offset : Nat) {ns : List Nat} (h : ∀ n ∈ ns, n < 64) :
    values offset (ns.map symbolOf) = .ok ns := by
  induction ns generalizing offset with
  | nil => rfl
  | cons n ns ih =>
    have hn : n < 64 := h n List.mem_cons_self
    have hns := ih (offset + 1) fun m hm => h m (List.mem_cons_of_mem _ hm)
    simp only [List.map_cons, values, valueOf?_symbolOf hn, hns]

/-! ## Groups -/

/-- Three bytes as four numbers of six bits. -/
def sextets (a b c : UInt8) : List Nat :=
  [a.toNat / 4, 16 * (a.toNat % 4) + b.toNat / 16, 4 * (b.toNat % 16) + c.toNat / 64,
    c.toNat % 64]

theorem lt_of_mem_sextets {a b c : UInt8} {n : Nat} (h : n ∈ sextets a b c) : n < 64 := by
  have ha := UInt8.toNat_lt a
  have hb := UInt8.toNat_lt b
  have hc := UInt8.toNat_lt c
  simp only [sextets, List.mem_cons, List.not_mem_nil, or_false] at h
  omega

/-- The text of bytes, group by group. -/
def groups : List UInt8 → List UInt8
  | a :: b :: c :: rest => (sextets a b c).map symbolOf ++ groups rest
  | [a, b] => ((sextets a b 0).take 3).map symbolOf ++ [pad]
  | [a] => ((sextets a 0 0).take 2).map symbolOf ++ [pad, pad]
  | [] => []

theorem encodeAfter_eq (out : Array UInt8) (xs : List UInt8) :
    (encodeAfter out xs).toList = out.toList ++ groups xs := by
  fun_induction encodeAfter out xs with
  | case1 out a b c rest n ih =>
    have hb := UInt8.toNat_lt b
    have hc := UInt8.toNat_lt c
    have h1 : n / 262144 = a.toNat / 4 := by omega
    have h2 : n / 4096 % 64 = 16 * (a.toNat % 4) + b.toNat / 16 := by omega
    have h3 : n / 64 % 64 = 4 * (b.toNat % 16) + c.toNat / 64 := by omega
    have h4 : n % 64 = c.toNat % 64 := by omega
    rw [ih, h1, h2, h3, h4]
    simp [groups, sextets]
  | case2 out a b n =>
    have hb := UInt8.toNat_lt b
    have h1 : n / 4096 = a.toNat / 4 := by omega
    have h2 : n / 64 % 64 = 16 * (a.toNat % 4) + b.toNat / 16 := by omega
    have h3 : n % 64 = 4 * (b.toNat % 16) := by omega
    rw [h1, h2, h3]
    simp [groups, sextets]
  | case3 out a n =>
    have h1 : n / 64 = a.toNat / 4 := by omega
    have h2 : n % 64 = 16 * (a.toNat % 4) := by omega
    rw [h1, h2]
    simp [groups, sextets]
  | case4 => simp [groups]

theorem encode_eq_groups (xs : List UInt8) : encode xs = groups xs := by
  rw [encode, encodeAfter_eq, List.nil_append]

theorem length_groups_mod (xs : List UInt8) : (groups xs).length % 4 = 0 := by
  fun_induction groups xs with
  | case1 a b c rest ih =>
    have hlen : ((sextets a b c).map symbolOf).length = 4 := rfl
    rw [List.length_append, hlen]
    omega
  | case2 a b => simp [sextets]
  | case3 a => simp [sextets]
  | case4 => rfl

/-- Symbols and filling are characters of one byte. -/
theorem lt_of_mem_groups {xs : List UInt8} {x : UInt8} (h : x ∈ groups xs) :
    x.toNat < 128 := by
  have symbols {ns : List Nat} (hns : ∀ n ∈ ns, n < 64) (hx : x ∈ ns.map symbolOf) :
      x.toNat < 128 := by
    obtain ⟨n, hn, rfl⟩ := List.mem_map.1 hx
    exact toNat_symbolOf_lt (hns n hn)
  have filling (hx : x = pad) : x.toNat < 128 := by
    rw [hx]
    decide
  fun_induction groups xs with
  | case1 a b c rest ih =>
    rcases List.mem_append.1 h with h | h
    · exact symbols (fun n => lt_of_mem_sextets) h
    · exact ih h
  | case2 a b =>
    rcases List.mem_append.1 h with h | h
    · exact symbols (fun n hn => lt_of_mem_sextets (List.mem_of_mem_take hn)) h
    · exact filling (by simpa using h)
  | case3 a =>
    rcases List.mem_append.1 h with h | h
    · exact symbols (fun n hn => lt_of_mem_sextets (List.mem_of_mem_take hn)) h
    · exact filling (by simpa using h)
  | case4 => cases h

/-! ## Reading groups -/

private theorem byte_eq {n : Nat} {x : UInt8} (h : n = x.toNat) : UInt8.ofNat n = x := by
  rw [h, UInt8.ofNat_toNat]

/-- The bytes that four numbers of six bits stand for; a last byte of zeros leaves the number
before it without the bits that it would fill. -/
theorem bytes_sextets (a b c : UInt8) : ∃ p q r s, sextets a b c = [p, q, r, s] ∧
    UInt8.ofNat (4 * p + q / 16) = a ∧
    UInt8.ofNat (16 * (q % 16) + r / 4) = b ∧
    UInt8.ofNat (64 * (r % 4) + s) = c ∧
    (b = 0 → q % 16 = 0) ∧ (c = 0 → r % 4 = 0) := by
  have hb := UInt8.toNat_lt b
  have hc := UInt8.toNat_lt c
  refine ⟨_, _, _, _, rfl, byte_eq (by omega), byte_eq (by omega), byte_eq (by omega), ?_, ?_⟩
  · rintro rfl
    simp
  · rintro rfl
    simp

/-- The filling is told from the symbols by its byte. -/
theorem splitPad_symbols (offset k : Nat) {ns : List Nat} (h : ∀ n ∈ ns, n < 64)
    (hlen : 2 ≤ ns.length) :
    splitPad offset (ns.map symbolOf ++ List.replicate k pad) = .ok (ns, k) := by
  have hsymbols : ∀ x ∈ ns.map symbolOf, (x != pad) = true := by
    intro x hx
    obtain ⟨n, hn, rfl⟩ := List.mem_map.1 hx
    simpa using symbolOf_ne_pad (h n hn)
  have htake : (ns.map symbolOf ++ List.replicate k pad).takeWhile (· != pad) =
      ns.map symbolOf := by
    rw [List.takeWhile_append_of_pos hsymbols]
    simp
  have hdrop : (ns.map symbolOf ++ List.replicate k pad).dropWhile (· != pad) =
      List.replicate k pad := by
    rw [List.dropWhile_append_of_pos hsymbols]
    simp
  have hshort : ¬ (ns.map symbolOf).length < 2 := by
    rw [List.length_map]
    exact Nat.not_lt.2 hlen
  have hfilling : (List.replicate k pad).any (· != pad) = false := by simp
  simp only [splitPad, htake, hdrop, values_symbols offset h, hshort, hfilling]
  cases k with
  | zero => rfl
  | succ k => simp

theorem decodeLast_groups_one (offset : Nat) (a : UInt8) :
    decodeLast offset (groups [a]) = .ok [a] := by
  obtain ⟨p, q, r, s, hs, ha, -, -, hq, -⟩ := bytes_sextets a 0 0
  have hns : ∀ n ∈ (sextets a 0 0).take 2, n < 64 :=
    fun n hn => lt_of_mem_sextets (List.mem_of_mem_take hn)
  have hsplit : splitPad offset (groups [a]) = .ok ((sextets a 0 0).take 2, 2) :=
    splitPad_symbols offset 2 hns (by simp [sextets])
  simp [decodeLast, hsplit, hs, hq rfl, ha, -UInt8.ofNat_add]

theorem decodeLast_groups_two (offset : Nat) (a b : UInt8) :
    decodeLast offset (groups [a, b]) = .ok [a, b] := by
  obtain ⟨p, q, r, s, hs, ha, hb, -, -, hr⟩ := bytes_sextets a b 0
  have hns : ∀ n ∈ (sextets a b 0).take 3, n < 64 :=
    fun n hn => lt_of_mem_sextets (List.mem_of_mem_take hn)
  have hsplit : splitPad offset (groups [a, b]) = .ok ((sextets a b 0).take 3, 1) :=
    splitPad_symbols offset 1 hns (by simp [sextets])
  simp [decodeLast, hsplit, hs, hr rfl, ha, hb, -UInt8.ofNat_add]

theorem decodeLast_groups_three (offset : Nat) (a b c : UInt8) :
    decodeLast offset (groups [a, b, c]) = .ok [a, b, c] := by
  obtain ⟨p, q, r, s, hs, ha, hb, hc, -, -⟩ := bytes_sextets a b c
  have hns : ∀ n ∈ sextets a b c, n < 64 := fun n => lt_of_mem_sextets
  have hsplit : splitPad offset (groups [a, b, c]) = .ok (sextets a b c, 0) :=
    splitPad_symbols offset 0 hns (by simp [sextets])
  simp [decodeLast, hsplit, hs, ha, hb, hc, -UInt8.ofNat_add]

/-- A text of at most four symbols is a last group. -/
theorem decodeAfter_last {out : Array UInt8} {offset : Nat} {xs ys : List UInt8}
    (hne : xs ≠ []) (hlen : xs.length ≤ 4) (h : decodeLast offset xs = .ok ys) :
    decodeAfter out offset xs = .ok (out ++ ys) := by
  unfold decodeAfter
  split
  · rename_i hfour
    simp only [List.length_cons] at hlen
    omega
  · exact absurd rfl hne
  · rw [h]

/-- A full group in front of others is read by itself. -/
theorem decodeAfter_group (out : Array UInt8) (offset : Nat) (a b c : UInt8) {xs : List UInt8}
    (hne : xs ≠ []) :
    decodeAfter out offset ((sextets a b c).map symbolOf ++ xs) =
      decodeAfter (((out.push a).push b).push c) (offset + 4) xs := by
  obtain ⟨p, q, r, s, hs, ha, hb, hc, -, -⟩ := bytes_sextets a b c
  have hvalues : values offset [symbolOf p, symbolOf q, symbolOf r, symbolOf s] =
      .ok [p, q, r, s] := by
    have hns : ∀ n ∈ sextets a b c, n < 64 := fun n => lt_of_mem_sextets
    have h := values_symbols offset hns
    rwa [hs] at h
  obtain ⟨x, rest, rfl⟩ := List.exists_cons_of_ne_nil hne
  rw [hs]
  simp only [List.map_cons, List.map_nil, List.cons_append, List.nil_append]
  rw [decodeAfter]
  simp only [hvalues, ha, hb, hc]

theorem groups_ne_nil {xs : List UInt8} (h : xs ≠ []) : groups xs ≠ [] := by
  fun_cases groups xs with
  | case1 a b c rest => simp [sextets]
  | case2 a b => simp
  | case3 a => simp
  | case4 => exact absurd rfl h

theorem decodeAfter_groups (out : Array UInt8) (offset : Nat) (xs : List UInt8) :
    decodeAfter out offset (groups xs) = .ok (out ++ xs) := by
  fun_induction groups xs generalizing out offset with
  | case1 a b c rest ih =>
    cases rest with
    | nil =>
      exact decodeAfter_last (by simp [sextets]) (by simp [groups, sextets])
        (decodeLast_groups_three offset a b c)
    | cons d rest =>
      rw [decodeAfter_group out offset a b c (groups_ne_nil (by simp)), ih]
      simp
  | case2 a b =>
    exact decodeAfter_last (by simp) (by simp [sextets]) (decodeLast_groups_two offset a b)
  | case3 a =>
    exact decodeAfter_last (by simp) (by simp [sextets]) (decodeLast_groups_one offset a)
  | case4 => simp [decodeAfter]

/-! ## Groups that are read -/

theorem eq_symbolOf_of_valueOf? {x : UInt8} {n : Nat} (h : valueOf? x = some n) :
    n < 64 ∧ x = symbolOf n := by
  simp only [valueOf?] at h
  split at h
  · cases h
    refine ⟨by omega, ?_⟩
    rw [symbolOf, if_pos (by omega)]
    exact (byte_eq (by omega)).symm
  split at h
  · cases h
    refine ⟨by omega, ?_⟩
    rw [symbolOf, if_neg (by omega), if_pos (by omega)]
    exact (byte_eq (by omega)).symm
  split at h
  · cases h
    refine ⟨by omega, ?_⟩
    rw [symbolOf, if_neg (by omega), if_neg (by omega), if_pos (by omega)]
    exact (byte_eq (by omega)).symm
  split at h
  · rename_i hx
    cases h
    exact ⟨by decide, (byte_eq hx.symm).symm⟩
  split at h
  · rename_i hx
    cases h
    exact ⟨by decide, (byte_eq hx.symm).symm⟩
  · cases h

theorem eq_symbols_of_values {offset : Nat} {xs : List UInt8} {ns : List Nat}
    (h : values offset xs = .ok ns) : (∀ n ∈ ns, n < 64) ∧ xs = ns.map symbolOf := by
  induction xs generalizing offset ns with
  | nil =>
    cases h
    exact ⟨fun n hn => absurd hn List.not_mem_nil, rfl⟩
  | cons x xs ih =>
    rw [values] at h
    split at h
    · cases h
    · rename_i n hn
      split at h
      · cases h
      · rename_i ns' hns
        cases h
        obtain ⟨hlt, rfl⟩ := eq_symbolOf_of_valueOf? hn
        obtain ⟨hall, rfl⟩ := ih hns
        exact ⟨List.forall_mem_cons.2 ⟨hlt, hall⟩, rfl⟩

/-- The bytes of four numbers of six bits have these numbers. -/
theorem sextets_bytes {p q r s : Nat} (hp : p < 64) (hq : q < 64) (hr : r < 64) (hs : s < 64) :
    sextets (UInt8.ofNat (4 * p + q / 16)) (UInt8.ofNat (16 * (q % 16) + r / 4))
      (UInt8.ofNat (64 * (r % 4) + s)) = [p, q, r, s] := by
  have ha : (UInt8.ofNat (4 * p + q / 16)).toNat = 4 * p + q / 16 :=
    UInt8.toNat_ofNat_of_lt' (by simp [UInt8.size]; omega)
  have hb : (UInt8.ofNat (16 * (q % 16) + r / 4)).toNat = 16 * (q % 16) + r / 4 :=
    UInt8.toNat_ofNat_of_lt' (by simp [UInt8.size]; omega)
  have hc : (UInt8.ofNat (64 * (r % 4) + s)).toNat = 64 * (r % 4) + s :=
    UInt8.toNat_ofNat_of_lt' (by simp [UInt8.size]; omega)
  simp only [sextets, ha, hb, hc, List.cons.injEq, and_true]
  omega

/-- The filling is the rest of the group. -/
theorem eq_of_splitPad {offset k : Nat} {xs : List UInt8} {ns : List Nat}
    (h : splitPad offset xs = .ok (ns, k)) :
    (∀ n ∈ ns, n < 64) ∧ xs = ns.map symbolOf ++ List.replicate k pad := by
  have hxs := List.takeWhile_append_dropWhile (p := (· != pad)) (l := xs)
  simp only [splitPad] at h
  split at h
  · cases h
  · rename_i ns' hns
    obtain ⟨hall, hsymbols⟩ := eq_symbols_of_values hns
    rw [hsymbols] at hxs
    split at h
    · rename_i hnone
      cases h
      rw [List.isEmpty_iff.1 hnone] at hxs
      exact ⟨hall, hxs.symm⟩
    · split at h
      · cases h
      · rename_i hfilling
        cases h
        rw [not_or, Bool.not_eq_true, List.any_eq_false] at hfilling
        have hpad : xs.dropWhile (· != pad) =
            List.replicate (xs.dropWhile (· != pad)).length pad :=
          List.eq_replicate_iff.2 ⟨rfl, fun x hx => by simpa using hfilling.2 x hx⟩
        rw [← hpad]
        exact ⟨hall, hxs.symm⟩

section

variable {p q r s : Nat} (hp : p < 64) (hq : q < 64) (hr : r < 64) (hs : s < 64)

include hp hq

/-- A group of one byte; the second symbol has no bits to spare. -/
theorem groups_one (hlast : q % 16 = 0) :
    groups [UInt8.ofNat (4 * p + q / 16)] = [p, q].map symbolOf ++ [pad, pad] := by
  have hsextets := sextets_bytes hp hq (Nat.zero_lt_succ 63) (Nat.zero_lt_succ 63)
  rw [hlast] at hsextets
  have hzeros : sextets (UInt8.ofNat (4 * p + q / 16)) 0 0 = [p, q, 0, 0] := hsextets
  rw [groups, hzeros]
  rfl

include hr

theorem groups_two (hlast : r % 4 = 0) :
    groups [UInt8.ofNat (4 * p + q / 16), UInt8.ofNat (16 * (q % 16) + r / 4)] =
      [p, q, r].map symbolOf ++ [pad] := by
  have hsextets := sextets_bytes hp hq hr (Nat.zero_lt_succ 63)
  rw [hlast] at hsextets
  have hzero : sextets (UInt8.ofNat (4 * p + q / 16)) (UInt8.ofNat (16 * (q % 16) + r / 4)) 0 =
      [p, q, r, 0] := hsextets
  rw [groups, hzero]
  rfl

include hs

theorem groups_three (ys : List UInt8) :
    groups (UInt8.ofNat (4 * p + q / 16) :: UInt8.ofNat (16 * (q % 16) + r / 4) ::
      UInt8.ofNat (64 * (r % 4) + s) :: ys) = [p, q, r, s].map symbolOf ++ groups ys := by
  rw [groups, sextets_bytes hp hq hr hs]

end

/-- What is read as the last group is a group that is written. -/
theorem eq_groups_of_decodeLast {offset : Nat} {xs ys : List UInt8} (hlen : xs.length ≤ 4)
    (h : decodeLast offset xs = .ok ys) : xs = groups ys := by
  rw [decodeLast] at h
  split at h
  · cases h
  rename_i ns k hsplit
  obtain ⟨hall, rfl⟩ := eq_of_splitPad hsplit
  rw [List.length_append, List.length_map, List.length_replicate] at hlen
  dsimp only at h
  split at h
  · cases h
  split at h
  · cases h
  rename_i hshort hfull
  rw [ne_eq, Decidable.not_not] at hfull
  -- At most four symbols and filling, and as many as a group has.
  split at h
  · rename_i p q
    simp only [List.length_cons, List.length_nil] at hlen hfull
    obtain ⟨hp, hq⟩ : p < 64 ∧ q < 64 := by simpa using hall
    obtain rfl : k = 2 := by omega
    split at h
    · rename_i hlast
      cases h
      exact (groups_one hp hq hlast).symm
    · cases h
  · rename_i p q r
    simp only [List.length_cons, List.length_nil] at hlen hfull
    obtain ⟨hp, hq, hr⟩ : p < 64 ∧ q < 64 ∧ r < 64 := by simpa using hall
    obtain rfl : k = 1 := by omega
    split at h
    · rename_i hlast
      cases h
      exact (groups_two hp hq hr hlast).symm
    · cases h
  · rename_i p q r s
    simp only [List.length_cons, List.length_nil] at hlen
    obtain ⟨hp, hq, hr, hs⟩ : p < 64 ∧ q < 64 ∧ r < 64 ∧ s < 64 := by simpa using hall
    obtain rfl : k = 0 := by omega
    cases h
    exact (groups_three hp hq hr hs []).symm
  · cases h

theorem eq_groups_of_decodeAfter {out out' : Array UInt8} {offset : Nat} {xs : List UInt8}
    (h : decodeAfter out offset xs = .ok out') :
    ∃ ys : List UInt8, out' = out ++ ys ∧ xs = groups ys := by
  fun_induction decodeAfter out offset xs with
  | case1 out offset a b c d e rest p q r s hvalues ih =>
    obtain ⟨hall, hsymbols⟩ := eq_symbols_of_values hvalues
    obtain ⟨hp, hq, hr, hs⟩ : p < 64 ∧ q < 64 ∧ r < 64 ∧ s < 64 := by simpa using hall
    obtain ⟨ys, rfl, hys⟩ := ih h
    refine ⟨UInt8.ofNat (4 * p + q / 16) :: UInt8.ofNat (16 * (q % 16) + r / 4) ::
      UInt8.ofNat (64 * (r % 4) + s) :: ys, by simp, ?_⟩
    rw [groups_three hp hq hr hs, ← hsymbols, ← hys]
    rfl
  | case2 => cases h
  | case3 => cases h
  | case4 out offset =>
    cases h
    exact ⟨[], by simp, rfl⟩
  | case5 => cases h
  | case6 out offset xs hlong hne ys hlast =>
    cases h
    refine ⟨ys, rfl, eq_groups_of_decodeLast ?_ hlast⟩
    rcases xs with _ | ⟨a, _ | ⟨b, _ | ⟨c, _ | ⟨d, _ | ⟨e, rest⟩⟩⟩⟩⟩
    · simp
    · simp
    · simp
    · simp
    · simp
    · exact absurd rfl (hlong a b c d e rest)

/-! ## Whole texts -/

theorem decode_encode (xs : List UInt8) : decode (encode xs) = .ok xs := by
  have hfull : ¬ (groups xs).length % 4 = 1 := by
    have h := length_groups_mod xs
    omega
  have hread := decodeAfter_groups #[] 0 xs
  simp [decode, encode_eq_groups, hfull, hread, Except.map]

/-- The text that a reader takes for bytes is the one that they are written as. -/
theorem decode_eq_ok_iff {xs ys : List UInt8} : decode xs = .ok ys ↔ xs = encode ys := by
  constructor
  · intro h
    rw [decode] at h
    split at h
    · cases h
    · cases hread : decodeAfter #[] 0 xs with
      | error e =>
        rw [hread] at h
        cases h
      | ok out =>
        rw [hread] at h
        cases h
        obtain ⟨ys, rfl, rfl⟩ := eq_groups_of_decodeAfter hread
        simp [encode_eq_groups]
  · rintro rfl
    exact decode_encode ys

/-- The bytes of the text are the symbols themselves. -/
theorem encode_asText (xs : List UInt8) :
    Utf8.encode ((encode xs).map (fun x => Char.ofNat x.toNat)) = encode xs := by
  rw [encode_eq_groups, Utf8.encode, List.flatMap_map]
  have hone : ∀ x ∈ groups xs, Utf8.encodeChar (Char.ofNat x.toNat) = [x] :=
    fun x hx => Utf8.encodeChar_one (lt_of_mem_groups hx)
  rw [List.flatMap_def, List.map_congr_left hone, ← List.flatMap_def]
  simp

end CircuitFixtures.Base64
