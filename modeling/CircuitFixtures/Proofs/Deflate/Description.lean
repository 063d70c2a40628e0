import CircuitFixtures.Proofs.Deflate.Tokens

/-!
# Descriptions of codes

The code lengths of a block are written as symbols for runs, these with a code of their own,
and the lengths of that code as numbers of three bits. `Unpacks` is what a row of symbols adds
to the lengths before it; `packLengths` makes rows that add the lengths packed
(`unpacks_packLengths`), and reading a row gives what it adds (`readLengths_of_unpacks`).
`readCodes_describe` puts the description together.
-/

namespace CircuitFixtures.Deflate

/-! ## Symbols for runs -/

/-- The symbols, whose values fit their extra bits, turn the lengths `before` into `after`;
both are given latest first. -/
inductive Unpacks : (before : List Nat) → List LengthSymbol → (after : List Nat) → Prop
  | nil (ns : List Nat) : Unpacks ns [] ns
  | cons {ns out : List Nat} {s : LengthSymbol} {ss : List LengthSymbol} {n times : Nat}
      (fits : s.value < Nat.pow 2 (LengthSymbol.extra s.symbol))
      (meaning : LengthSymbol.meaning? ns.head? s = some (n, times))
      (rest : Unpacks (List.replicate times n ++ ns) ss out) : Unpacks ns (s :: ss) out

theorem Unpacks.append {ns ms out : List Nat} {ss us : List LengthSymbol}
    (h : Unpacks ns ss ms) (h' : Unpacks ms us out) : Unpacks ns (ss ++ us) out := by
  induction h with
  | nil => exact h'
  | cons fits meaning _ ih => exact .cons fits meaning (ih h')

theorem Unpacks.single {ns : List Nat} {s : LengthSymbol} {n times : Nat}
    (fits : s.value < Nat.pow 2 (LengthSymbol.extra s.symbol))
    (meaning : LengthSymbol.meaning? ns.head? s = some (n, times)) :
    Unpacks ns [s] (List.replicate times n ++ ns) :=
  .cons fits meaning (.nil _)

theorem Unpacks.length_le {ns out : List Nat} {ss : List LengthSymbol} (h : Unpacks ns ss out) :
    ns.length ≤ out.length := by
  induction h with
  | nil => exact Nat.le_refl _
  | cons _ _ _ ih =>
    rw [List.length_append] at ih
    omega

theorem pos_of_meaning? {previous : Option Nat} {s : LengthSymbol} {n times : Nat}
    (h : LengthSymbol.meaning? previous s = some (n, times)) : 0 < times := by
  rw [LengthSymbol.meaning?] at h
  split at h
  · cases h
    decide
  · split at h
    · obtain ⟨m, -, hm⟩ := Option.map_eq_some_iff.1 h
      cases hm
      omega
    · split at h
      · cases h
        omega
      · cases h
        omega

private theorem unpacks_length {n : Nat} (hn : n < 16) (ns : List Nat) :
    Unpacks ns [⟨n, 0⟩] (n :: ns) := by
  have hmeaning : LengthSymbol.meaning? ns.head? ⟨n, 0⟩ = some (n, 1) := by
    rw [LengthSymbol.meaning?, if_pos hn]
  exact Unpacks.single (Nat.two_pow_pos _) hmeaning

private theorem unpacks_replicate {n : Nat} (hn : n < 16) (count : Nat) (ns : List Nat) :
    Unpacks ns (List.replicate count ⟨n, 0⟩) (List.replicate count n ++ ns) := by
  induction count generalizing ns with
  | zero => exact .nil _
  | succ count ih =>
    have h := (unpacks_length hn ns).append (ih (n :: ns))
    rwa [List.append_cons, ← List.replicate_succ'] at h

private theorem replicate_take_append {count part : Nat} (h : part ≤ count) (n : Nat)
    (ns : List Nat) :
    List.replicate (count - part) n ++ (List.replicate part n ++ ns) =
      List.replicate count n ++ ns := by
  rw [← List.append_assoc, List.replicate_append_replicate, Nat.sub_add_cancel h]

theorem unpacks_packZeros (count : Nat) (ns : List Nat) :
    Unpacks ns (packZeros count) (List.replicate count 0 ++ ns) := by
  fun_induction packZeros count generalizing ns with
  | case1 count _ => exact unpacks_replicate (by decide) count ns
  | case2 count hleast hmost =>
    have h : Unpacks ns [⟨17, count - 3⟩] (List.replicate (3 + (count - 3)) 0 ++ ns) :=
      .single (Nat.lt_of_le_of_lt (Nat.sub_le_sub_right hmost 3) (by decide : 7 < Nat.pow 2 3)) rfl
    rwa [Nat.add_sub_cancel' (Nat.not_lt.1 hleast)] at h
  | case3 count hleast hmore hmost =>
    have h : Unpacks ns [⟨18, count - 11⟩] (List.replicate (11 + (count - 11)) 0 ++ ns) :=
      .single (Nat.lt_of_le_of_lt (Nat.sub_le_sub_right hmost 11) (by decide : 127 < Nat.pow 2 7))
        rfl
    rwa [Nat.add_sub_cancel' (Nat.not_le.1 hmore)] at h
  | case4 count hleast hmore hmost ih =>
    have h : Unpacks ns [⟨18, 127⟩] (List.replicate 138 0 ++ ns) := .single (by decide) rfl
    have hall := h.append (ih _)
    rwa [replicate_take_append (Nat.le_of_not_le hmost)] at hall

theorem unpacks_packAgain {n : Nat} (hn : n < 16) (count : Nat) {ns : List Nat}
    (hns : ns.head? = some n) :
    Unpacks ns (packAgain n count) (List.replicate count n ++ ns) := by
  have again (value : Nat) {ms : List Nat} (hms : ms.head? = some n) :
      LengthSymbol.meaning? ms.head? ⟨16, value⟩ = some (n, 3 + value) := by
    rw [hms]
    rfl
  fun_induction packAgain n count generalizing ns with
  | case1 count _ => exact unpacks_replicate hn count ns
  | case2 count hleast hmost =>
    have h : Unpacks ns [⟨16, count - 3⟩] (List.replicate (3 + (count - 3)) n ++ ns) :=
      .single (Nat.lt_of_le_of_lt (Nat.sub_le_sub_right hmost 3) (by decide : 3 < Nat.pow 2 2))
        (again _ hns)
    rwa [Nat.add_sub_cancel' (Nat.not_lt.1 hleast)] at h
  | case3 count hleast hmost ih =>
    have h : Unpacks ns [⟨16, 3⟩] (List.replicate 6 n ++ ns) := .single (by decide) (again _ hns)
    have hhead : (List.replicate 6 n ++ ns).head? = some n := rfl
    have hall := h.append (ih hhead)
    rwa [replicate_take_append (Nat.le_of_not_le hmost)] at hall

/-! ## Packed lengths -/

theorem flatMap_runs (ls : List Nat) :
    (runs ls).flatMap (fun p => List.replicate p.2 p.1) = ls := by
  induction ls with
  | nil => rfl
  | cons n ls ih =>
    rw [runs]
    cases hruns : runs ls with
    | nil =>
      rw [hruns] at ih
      rw [← ih]
      rfl
    | cons p others =>
      rw [hruns, List.flatMap_cons] at ih
      dsimp only
      split
      · rename_i heq
        rw [List.flatMap_cons, List.replicate_succ, List.cons_append, heq, ih]
      · rw [List.flatMap_cons, List.flatMap_cons, ih]
        rfl

theorem pos_of_mem_runs {ls : List Nat} {p : Nat × Nat} (h : p ∈ runs ls) : 0 < p.2 := by
  induction ls generalizing p with
  | nil => exact absurd h List.not_mem_nil
  | cons n ls ih =>
    rw [runs] at h
    split at h
    · rename_i m count others hruns
      rw [hruns] at ih
      split at h
      · rcases List.mem_cons.1 h with rfl | h
        · exact Nat.succ_pos _
        · exact ih (List.mem_cons_of_mem _ h)
      · rcases List.mem_cons.1 h with rfl | h
        · exact Nat.one_pos
        · exact ih h
    · rcases List.mem_singleton.1 h with rfl
      exact Nat.one_pos

private theorem unpacks_run {n count : Nat} (hn : n < 16) (hcount : 0 < count) (ns : List Nat) :
    Unpacks ns (if n = 0 then packZeros count else ⟨n, 0⟩ :: packAgain n (count - 1))
      (List.replicate count n ++ ns) := by
  split
  · rename_i hzero
    rw [hzero]
    exact unpacks_packZeros count ns
  · have hhead : (n :: ns).head? = some n := rfl
    have h := (unpacks_length hn ns).append (unpacks_packAgain hn (count - 1) hhead)
    have hall := replicate_take_append hcount n ns
    rw [List.replicate_one, List.singleton_append] at hall
    rwa [hall] at h

private theorem unpacks_runs {rs : List (Nat × Nat)} (h : ∀ p ∈ rs, p.1 < 16 ∧ 0 < p.2)
    (ns : List Nat) :
    Unpacks ns
      (rs.flatMap (fun p =>
        if p.1 = 0 then packZeros p.2 else ⟨p.1, 0⟩ :: packAgain p.1 (p.2 - 1)))
      ((rs.flatMap (fun p => List.replicate p.2 p.1)).reverse ++ ns) := by
  induction rs generalizing ns with
  | nil => exact .nil _
  | cons p rs ih =>
    obtain ⟨hlength, hcount⟩ := h p List.mem_cons_self
    have hrest := ih (fun q hq => h q (List.mem_cons_of_mem _ hq)) (List.replicate p.2 p.1 ++ ns)
    rw [List.flatMap_cons, List.flatMap_cons, List.reverse_append, List.reverse_replicate,
      List.append_assoc]
    exact (unpacks_run hlength hcount ns).append hrest

theorem unpacks_packLengths {ls : List Nat} (h : ∀ n ∈ ls, n < 16) (ns : List Nat) :
    Unpacks ns (packLengths ls) (ls.reverse ++ ns) := by
  have hruns : ∀ p ∈ runs ls, p.1 < 16 ∧ 0 < p.2 := by
    intro p hp
    have hpos := pos_of_mem_runs hp
    refine ⟨h p.1 ?_, hpos⟩
    rw [← flatMap_runs ls]
    exact List.mem_flatMap.2 ⟨p, hp, List.mem_replicate.2 ⟨Nat.ne_of_gt hpos, rfl⟩⟩
  have hall := unpacks_runs hruns ns
  rwa [flatMap_runs] at hall

/-! ## Reading the symbols -/

theorem readLengths_eq (tree : CodeTree) (count : Nat) (ns : List Nat) (r : BitReader) :
    readLengths tree count ns r =
      if count = 0 then .ok (ns.reverse, r)
      else
        match tree.read r with
        | .error e => .error e
        | .ok (symbol, r) =>
          if symbol = 16 ∧ ns = [] then .error .corrupt
          else
            match readNumber (LengthSymbol.extra symbol) r with
            | .error e => .error e
            | .ok (value, r) =>
              match LengthSymbol.meaning? ns.head? ⟨symbol, value⟩ with
              | none => .error .corrupt
              | some (n, times) =>
                if count < times then .error .corrupt
                else readLengths tree (count - times) (List.replicate times n ++ ns) r := by
  rw [readLengths]
  split
  · rfl
  · split
    · rename_i h
      rw [h]
    · rename_i h
      rw [h]
      dsimp only
      split
      · rfl
      · split
        · rename_i h'
          exact h' ▸ rfl
        · rename_i h'
          exact h' ▸ rfl

theorem readLengths_of_unpacks {tree : CodeTree} {lengths : List Nat}
    (htree : tree.Spells lengths) {ns out : List Nat} {ss : List LengthSymbol}
    (h : Unpacks ns ss out) (hss : ∀ s ∈ ss, CodeTree.InUse lengths s.symbol) {count : Nat}
    (hcount : out.length = count + ns.length) (bs : List Bool) :
    readLengths tree count ns
        (.ofBits (ss.flatMap (LengthSymbol.bits (CodeLengths.wordTable lengths)) ++ bs)) =
      .ok (out.reverse, .ofBits bs) := by
  induction h generalizing count with
  | nil =>
    have hzero : count = 0 := by omega
    rw [readLengths_eq, if_pos hzero, List.flatMap_nil, List.nil_append]
  | cons fits meaning rest ih =>
    rename_i ns out s ss n times
    obtain ⟨hs, hss⟩ := List.forall_mem_cons.1 hss
    have hpos := pos_of_meaning? meaning
    have hlen := rest.length_le
    rw [List.length_append, List.length_replicate] at hlen
    have hfirst : ¬ (s.symbol = 16 ∧ ns = []) := by
      rintro ⟨hs, rfl⟩
      rw [LengthSymbol.meaning?, if_neg (by omega), if_pos hs] at meaning
      cases meaning
    have hleft : out.length = count - times + (List.replicate times n ++ ns).length := by
      rw [List.length_append, List.length_replicate]
      omega
    have hrest := ih hss hleft
    rw [readLengths_eq, if_neg (by omega), List.flatMap_cons, List.append_assoc, LengthSymbol.bits,
      List.append_assoc, htree.read hs]
    simp only [if_neg hfirst, readNumber_ofBits fits, meaning, hrest]
    exact if_neg (by omega)

/-! ## Zeros at the end -/

theorem trimZeros_prefix (least : Nat) (ls : List Nat) :
    ∃ k, ls = trimZeros least ls ++ List.replicate k 0 := by
  have hzeros (ns : List Nat) :
      ∃ k, ns = (ns.reverse.dropWhile (· == 0)).reverse ++ List.replicate k 0 := by
    have hall : ∀ n ∈ ns.reverse.takeWhile (· == 0), n = 0 := fun n hn =>
      eq_of_beq (List.all_eq_true.1 List.all_takeWhile n hn)
    refine ⟨(ns.reverse.takeWhile (· == 0)).length, ?_⟩
    rw [← List.reverse_replicate, ← List.eq_replicate_of_mem hall, ← List.reverse_append,
      List.takeWhile_append_dropWhile, List.reverse_reverse]
  obtain ⟨k, hk⟩ := hzeros (ls.drop least)
  refine ⟨k, ?_⟩
  rw [trimZeros, List.append_assoc, ← hk, List.take_append_drop]

theorem length_trimZeros {least : Nat} {ls : List Nat} (h : least ≤ ls.length) :
    least ≤ (trimZeros least ls).length ∧ (trimZeros least ls).length ≤ ls.length := by
  constructor
  · rw [trimZeros, List.length_append, List.length_take]
    omega
  · obtain ⟨k, hk⟩ := trimZeros_prefix least ls
    have hlen := congrArg List.length hk
    rw [List.length_append] at hlen
    omega

theorem mem_of_mem_trimZeros {least n : Nat} {ls : List Nat} (h : n ∈ trimZeros least ls) :
    n ∈ ls := by
  obtain ⟨k, hk⟩ := trimZeros_prefix least ls
  rw [hk]
  exact List.mem_append_left _ h

/-! ## The lengths of the code of code lengths -/

private theorem find_zip_append_zeros (order ns : List Nat) (k s : Nat) :
    (((order.zip (ns ++ List.replicate k 0)).find? (fun p => p.1 == s)).map (·.2)).getD 0 =
      (((order.zip ns).find? (fun p => p.1 == s)).map (·.2)).getD 0 := by
  induction order generalizing ns k with
  | nil => rfl
  | cons o order ih =>
    cases ns with
    | nil =>
      cases k with
      | zero => rfl
      | succ k =>
        have hrest := ih [] k
        rw [List.nil_append, List.zip_nil_right] at hrest
        rw [List.nil_append, List.replicate_succ, List.zip_cons_cons, List.find?_cons]
        split
        · rfl
        · rw [hrest]
          rfl
    | cons n ns =>
      rw [List.cons_append, List.zip_cons_cons, List.zip_cons_cons, List.find?_cons,
        List.find?_cons]
      split
      · rfl
      · exact ih ns k

theorem unorder_append_zeros (ns : List Nat) (k : Nat) :
    unorder (ns ++ List.replicate k 0) = unorder ns :=
  List.map_congr_left fun s _ => find_zip_append_zeros lengthOrder ns k s

/-- Numbers put into writing order are found again, also when zeros at the end are dropped. -/
theorem unorder_trimZeros {lengths : List Nat} (h : lengths.length = 19) (least : Nat) :
    unorder (trimZeros least (lengthOrder.map (fun s => lengths.getD s 0))) = lengths := by
  obtain ⟨k, hk⟩ := trimZeros_prefix least (lengthOrder.map (fun s => lengths.getD s 0))
  rw [← unorder_append_zeros _ k, ← hk]
  have hall (f : Nat → Nat) : unorder (lengthOrder.map f) = (List.range 19).map f := rfl
  rw [hall]
  apply List.ext_getElem
  · rw [List.length_map, List.length_range, h]
  · intro i hi hi'
    rw [List.getElem_map, List.getElem_range, List.getD_eq_getElem?_getD,
      List.getElem?_eq_getElem hi', Option.getD_some]

theorem readTriples_ofBits {ns : List Nat} (h : ∀ n ∈ ns, n < 8) (bs : List Bool) :
    readTriples ns.length (.ofBits (ns.flatMap (Bits.ofNat 3) ++ bs)) =
      .ok (ns, .ofBits bs) := by
  induction ns with
  | nil => rfl
  | cons n ns ih =>
    have hn : n < Nat.pow 2 3 := h n List.mem_cons_self
    rw [List.flatMap_cons, List.append_assoc, List.length_cons, readTriples]
    simp only [readNumber_ofBits hn, ih fun m hm => h m (List.mem_cons_of_mem _ hm)]

/-! ## The symbols in a description -/

theorem symbol_of_mem_packZeros {count : Nat} {s : LengthSymbol} (h : s ∈ packZeros count) :
    s.symbol = 0 ∨ s.symbol = 17 ∨ s.symbol = 18 := by
  fun_induction packZeros count with
  | case1 => exact .inl (congrArg LengthSymbol.symbol (List.eq_of_mem_replicate h))
  | case2 => exact .inr (.inl (congrArg LengthSymbol.symbol (List.mem_singleton.1 h)))
  | case3 => exact .inr (.inr (congrArg LengthSymbol.symbol (List.mem_singleton.1 h)))
  | case4 count _ _ _ ih =>
    rcases List.mem_cons.1 h with rfl | h
    · exact .inr (.inr rfl)
    · exact ih h

theorem symbol_of_mem_packAgain {n count : Nat} {s : LengthSymbol} (h : s ∈ packAgain n count) :
    s.symbol = n ∨ s.symbol = 16 := by
  fun_induction packAgain n count with
  | case1 => exact .inl (congrArg LengthSymbol.symbol (List.eq_of_mem_replicate h))
  | case2 => exact .inr (congrArg LengthSymbol.symbol (List.mem_singleton.1 h))
  | case3 count _ _ ih =>
    rcases List.mem_cons.1 h with rfl | h
    · exact .inr rfl
    · exact ih h

theorem exists_mem_packZeros {count : Nat} (h : 0 < count) : ∃ s, s ∈ packZeros count := by
  fun_cases packZeros count with
  | case1 => exact ⟨_, List.mem_replicate.2 ⟨Nat.ne_of_gt h, rfl⟩⟩
  | case2 => exact ⟨_, List.mem_cons_self⟩
  | case3 => exact ⟨_, List.mem_cons_self⟩
  | case4 => exact ⟨_, List.mem_cons_self⟩

theorem exists_again {n count : Nat} (h : 3 ≤ count) :
    ∃ s ∈ packAgain n count, s.symbol = 16 := by
  fun_cases packAgain n count with
  | case1 hless => omega
  | case2 => exact ⟨_, List.mem_cons_self, rfl⟩
  | case3 => exact ⟨_, List.mem_cons_self, rfl⟩

theorem exists_run {ls : List Nat} {n : Nat} (h : n ∈ ls) : ∃ count, (n, count) ∈ runs ls := by
  rw [← flatMap_runs ls] at h
  obtain ⟨⟨m, count⟩, hrun, hn⟩ := List.mem_flatMap.1 h
  rw [List.eq_of_mem_replicate hn]
  exact ⟨count, hrun⟩

theorem runs_replicate (n count : Nat) :
    runs (List.replicate (count + 1) n) = [(n, count + 1)] := by
  induction count with
  | zero => rfl
  | succ count ih =>
    rw [List.replicate_succ, runs, ih]
    exact if_pos rfl

theorem symbol_lt_of_mem_packLengths {ls : List Nat} (h : ∀ n ∈ ls, n < 16) {s : LengthSymbol}
    (hs : s ∈ packLengths ls) : s.symbol < 19 := by
  obtain ⟨⟨n, count⟩, hrun, hs⟩ := List.mem_flatMap.1 hs
  have hn : n < 16 := by
    apply h
    rw [← flatMap_runs ls]
    exact List.mem_flatMap.2
      ⟨_, hrun, List.mem_replicate.2 ⟨Nat.ne_of_gt (pos_of_mem_runs hrun), rfl⟩⟩
  split at hs
  · rcases symbol_of_mem_packZeros hs with h | h | h <;> omega
  · rcases List.mem_cons.1 hs with rfl | hs
    · exact Nat.lt_trans hn (by decide)
    · rcases symbol_of_mem_packAgain hs with h | h
      · omega
      · omega

/-- A length other than zero is a symbol itself. -/
theorem exists_symbol {ls : List Nat} {n : Nat} (hn : n ∈ ls) (hpos : n ≠ 0) :
    ∃ s ∈ packLengths ls, s.symbol = n := by
  obtain ⟨count, hrun⟩ := exists_run hn
  refine ⟨⟨n, 0⟩, List.mem_flatMap.2 ⟨_, hrun, ?_⟩, rfl⟩
  rw [if_neg hpos]
  exact List.mem_cons_self

theorem exists_symbol_zero {ls : List Nat} (h : 0 ∈ ls) :
    ∃ s ∈ packLengths ls, s.symbol = 0 ∨ s.symbol = 17 ∨ s.symbol = 18 := by
  obtain ⟨count, hrun⟩ := exists_run h
  obtain ⟨s, hs⟩ := exists_mem_packZeros (pos_of_mem_runs hrun)
  exact ⟨s, List.mem_flatMap.2 ⟨_, hrun, hs⟩, symbol_of_mem_packZeros hs⟩

/-- Many lengths, not all of them zero, give two different symbols at least. -/
theorem exists_two_symbols {ls : List Nat} (h : ∀ n ∈ ls, n < 16) (hlength : 4 ≤ ls.length)
    {n : Nat} (hn : n ∈ ls) (hpos : n ≠ 0) :
    ∃ s ∈ packLengths ls, ∃ t ∈ packLengths ls, s.symbol ≠ t.symbol := by
  obtain ⟨s, hs, hsn⟩ := exists_symbol hn hpos
  have hsmall := h n hn
  refine ⟨s, hs, ?_⟩
  by_cases hequal : ∀ m ∈ ls, m = n
  · -- One run: its length comes first, and then that it goes on.
    obtain ⟨count, hcount⟩ := Nat.exists_eq_add_of_le' hlength
    have hls : ls = List.replicate (count + 3 + 1) n := by
      rw [List.eq_replicate_iff]
      exact ⟨hcount, hequal⟩
    obtain ⟨t, ht, htagain⟩ := exists_again (n := n) (Nat.le_add_left 3 count)
    refine ⟨t, ?_, by omega⟩
    rw [hls, packLengths, runs_replicate, List.flatMap_cons, List.flatMap_nil, List.append_nil,
      if_neg hpos]
    exact List.mem_cons_of_mem _ ht
  · obtain ⟨m, hm, hne⟩ : ∃ m ∈ ls, m ≠ n := by simpa using hequal
    by_cases hzero : m = 0
    · obtain ⟨t, ht, htzero⟩ := exists_symbol_zero (hzero ▸ hm)
      exact ⟨t, ht, by omega⟩
    · obtain ⟨t, ht, htm⟩ := exists_symbol hm hzero
      exact ⟨t, ht, by omega⟩

/-! ## The description -/

/-- The code of code lengths is full and has a word for every symbol of a description. -/
theorem exists_lengthTree {ls : List Nat} (h : ∀ n ∈ ls, n < 16) (hlength : 4 ≤ ls.length)
    {n : Nat} (hn : n ∈ ls) (hpos : n ≠ 0) :
    ∃ tree, CodeTree.ofFullLengths? (lengthLengths (packLengths ls)) = some tree ∧
      tree.Spells (lengthLengths (packLengths ls)) := by
  obtain ⟨s, hs, t, ht, hne⟩ := exists_two_symbols h hlength hn hpos
  have inUse {s : LengthSymbol} (hs : s ∈ packLengths ls) :
      CodeTree.InUse (CodeLengths.tally 19 ((packLengths ls).map (·.symbol))).toList s.symbol :=
    CodeLengths.inUse_tally (List.mem_map_of_mem hs) (symbol_lt_of_mem_packLengths h hs)
  exact CodeLengths.ofFullLengths?_ofCounts (by decide) (by decide)
    (CodeLengths.size_tally_le (by decide) _) (CodeLengths.two_le_used (inUse hs) (inUse ht) hne)

theorem inUse_lengthLengths {ls : List Nat} (h : ∀ n ∈ ls, n < 16) {s : LengthSymbol}
    (hs : s ∈ packLengths ls) : CodeTree.InUse (lengthLengths (packLengths ls)) s.symbol :=
  CodeLengths.inUse_ofCounts_tally (by decide) (by decide) (List.mem_map_of_mem hs)
    (symbol_lt_of_mem_packLengths h hs)

/-- The lengths of the code of code lengths fit three bits each, and there are as many as four bits
can say. -/
theorem ordered_fits {ns : List Nat} (hsmall : ∀ m ∈ ns, m < 8) :
    (∀ n ∈ trimZeros 4 (lengthOrder.map (fun s => ns.getD s 0)), n < 8) ∧
      4 ≤ (trimZeros 4 (lengthOrder.map (fun s => ns.getD s 0))).length ∧
      (trimZeros 4 (lengthOrder.map (fun s => ns.getD s 0))).length ≤ 19 := by
  have hmap : (lengthOrder.map (fun s => ns.getD s 0)).length = 19 := List.length_map _
  have hfour : 4 ≤ (lengthOrder.map (fun s => ns.getD s 0)).length := by
    rw [hmap]
    decide
  have hbounds := length_trimZeros hfour
  rw [hmap] at hbounds
  refine ⟨fun n hn => ?_, hbounds⟩
  obtain ⟨s, -, rfl⟩ := List.mem_map.1 (mem_of_mem_trimZeros hn)
  rw [List.getD_eq_getElem?_getD]
  cases hs : ns[s]? with
  | none => exact Nat.succ_pos _
  | some m => exact hsmall m (List.mem_of_getElem? hs)

/-- A description gives the codes back, where their lengths are as many and as great as a
description allows and not all zero. -/
theorem readCodes_describe {literals distances : List Nat} {codes : Codes}
    (hliterals : 257 ≤ literals.length ∧ literals.length ≤ 286)
    (hdistances : 1 ≤ distances.length ∧ distances.length ≤ 30)
    (hmost : ∀ n ∈ literals ++ distances, n < 16) {n : Nat} (hn : n ∈ literals) (hpos : n ≠ 0)
    (hcodes : Codes.ofLengths? literals distances = some codes) (bs : List Bool) :
    readCodes (.ofBits (describe literals distances ++ bs)) = .ok (codes, .ofBits bs) := by
  have hmany : 4 ≤ (literals ++ distances).length := by
    rw [List.length_append]
    omega
  obtain ⟨tree, htree, hspells⟩ :=
    exists_lengthTree hmost hmany (List.mem_append_left distances hn) hpos
  have hcount : (literals ++ distances).reverse.length =
      literals.length + distances.length + ([] : List Nat).length := by
    rw [List.length_reverse, List.length_append]
    rfl
  have hlengths := readLengths_of_unpacks hspells (unpacks_packLengths hmost [])
    (fun s hs => inUse_lengthLengths hmost hs) (by rwa [List.append_nil]) bs
  rw [List.append_nil, List.reverse_reverse] at hlengths
  have hns : (lengthLengths (packLengths (literals ++ distances))).length = 19 := by
    rw [lengthLengths, CodeLengths.length_ofCounts, CodeLengths.size_tally]
  have hsmall : ∀ m ∈ lengthLengths (packLengths (literals ++ distances)), m < 8 := fun m hm =>
    Nat.lt_succ_of_le (CodeLengths.le_of_mem_ofCounts (by decide)
      (CodeLengths.size_tally_le (by decide) _) hm)
  rw [describe]
  generalize lengthLengths (packLengths (literals ++ distances)) = ns at *
  have hunorder := unorder_trimZeros hns 4
  obtain ⟨hordered, hleast, hgreatest⟩ := ordered_fits hsmall
  generalize trimZeros 4 (lengthOrder.map (fun s => ns.getD s 0)) = ordered at *
  have h1 : literals.length - 257 + 257 = literals.length := Nat.sub_add_cancel hliterals.1
  have h2 : distances.length - 1 + 1 = distances.length := Nat.sub_add_cancel hdistances.1
  have h3 : ordered.length - 4 + 4 = ordered.length := Nat.sub_add_cancel hleast
  have hfits : ¬ (286 < literals.length ∨ 30 < distances.length) := by omega
  simp only [List.append_assoc]
  rw [readCodes, readNumber_ofBits (show _ < 32 by omega)]
  dsimp only
  rw [readNumber_ofBits (show _ < 32 by omega)]
  dsimp only
  rw [readNumber_ofBits (show _ < 16 by omega)]
  dsimp only
  rw [h1, h2, h3, if_neg hfits, readTriples_ofBits hordered]
  dsimp only
  rw [hunorder, htree]
  dsimp only
  rw [hlengths]
  dsimp only
  rw [List.take_left, List.drop_left, hcodes]

end CircuitFixtures.Deflate
