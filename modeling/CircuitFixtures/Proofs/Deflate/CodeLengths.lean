import CircuitFixtures.Proofs.Deflate.Words

/-!
# Code lengths make codes

The lengths of `ofCounts` always make a code. The profile that `merge` gives is that of a tree in
which every node has two children (`merge_full`), so its symbols take no less room than there is
when those below the limit are moved up to it, and the room they take too much is at most their
number (`Profile.Full.kraft`). A round of `relieve` gives up just one leaf of room and no symbol
(`deepen_spec`), so that `shorten` leaves a full code with all its symbols (`shorten_spec`). These
lengths go to the symbols that occur, and to no other (`used_assign`).
-/

namespace CircuitFixtures.Deflate.CodeLengths

open CodeTree

/-! ## Full profiles -/

namespace Profile

theorem sum_add (p q : Profile) : (add p q).sum = p.sum + q.sum := by
  fun_induction add p q with
  | case1 q => simp
  | case2 p => simp
  | case3 m p n q ih =>
    simp only [List.sum_cons, ih]
    omega

theorem sum_join (p q : Profile) : (p.join q).sum = p.sum + q.sum := by
  rw [join, List.sum_cons, sum_add, Nat.zero_add]

theorem drop_add (p q : Profile) (n : Nat) : (add p q).drop n = add (p.drop n) (q.drop n) := by
  fun_induction add p q generalizing n with
  | case1 q => simp [add]
  | case2 p => cases p.drop n <;> simp [add]
  | case3 k p m q ih =>
    cases n with
    | zero => rfl
    | succ n => exact ih n

/-- The profiles of trees in which every node that is no symbol has two children. -/
inductive Full : Profile → Prop
  | single : Full [1]
  | join {p q : Profile} (left : Full p) (right : Full q) : Full (p.join q)

/-- The room that the symbols down to a depth take, in nodes of that depth. -/
def room : (depth : Nat) → Profile → Nat
  | _, [] => 0
  | 0, n :: _ => n
  | depth + 1, n :: p => n * Nat.pow 2 (depth + 1) + room depth p

/-- How many symbols stand below a depth. -/
def deeper (depth : Nat) (p : Profile) : Nat :=
  (p.drop (depth + 1)).sum

theorem room_add (depth : Nat) (p q : Profile) :
    room depth (add p q) = room depth p + room depth q := by
  fun_induction add p q generalizing depth with
  | case1 q => simp [room]
  | case2 p => simp [room]
  | case3 m p n q ih =>
    cases depth with
    | zero => rfl
    | succ depth =>
      simp only [room, ih, Nat.add_mul]
      omega

theorem deeper_add (depth : Nat) (p q : Profile) :
    deeper depth (add p q) = deeper depth p + deeper depth q := by
  rw [deeper, drop_add, sum_add, deeper, deeper]

theorem Full.sum_pos {p : Profile} (h : p.Full) : 1 ≤ p.sum := by
  induction h with
  | single => exact Nat.le_refl 1
  | join _ _ ihp ihq =>
    rw [sum_join]
    omega

/-- Each node at a depth is a symbol, stands below a symbol, or has symbols below it. -/
theorem Full.kraft {p : Profile} (h : p.Full) (depth : Nat) :
    room depth p ≤ Nat.pow 2 depth ∧ Nat.pow 2 depth ≤ room depth p + deeper depth p := by
  induction h generalizing depth with
  | single =>
    cases depth with
    | zero => decide
    | succ depth =>
      simp [room, deeper]
  | @join p q hp hq ihp ihq =>
    cases depth with
    | zero =>
      have hpos := (Full.join hp hq).sum_pos
      rw [Profile.join] at hpos ⊢
      simpa [room, deeper] using hpos
    | succ depth =>
      obtain ⟨hpmost, hpleast⟩ := ihp depth
      obtain ⟨hqmost, hqleast⟩ := ihq depth
      have htwo : Nat.pow 2 (depth + 1) = Nat.pow 2 depth + Nat.pow 2 depth :=
        Nat.two_pow_succ depth
      have hroom : room (depth + 1) (p.join q) = room depth p + room depth q := by
        rw [Profile.join, room, Nat.zero_mul, Nat.zero_add, room_add]
      have hdeeper : deeper (depth + 1) (p.join q) = deeper depth p + deeper depth q := by
        rw [Profile.join, deeper, List.drop_succ_cons, ← deeper, deeper_add]
      omega

end Profile

/-! ## Merging -/

/-- The symbols and groups from which a profile of `leaves` symbols is merged. -/
structure Pool (singles : List Nat) (groups : List Group) (items leaves : Nat) : Prop where
  full : ∀ g ∈ groups, g.profile.Full
  items : singles.length + groups.length = items
  leaves : singles.length + (groups.map (fun g => g.profile.sum)).sum = leaves

/-- What is taken first is a full group, and the others are left. -/
theorem Pool.lightest {singles : List Nat} {groups : List Group} {items leaves : Nat}
    (h : Pool singles groups (items + 1) leaves) :
    ∃ others, (merge.lightest singles groups).1.profile.Full ∧
      (merge.lightest singles groups).1.profile.sum + others = leaves ∧
      Pool (merge.lightest singles groups).2.1 (merge.lightest singles groups).2.2 items
        others := by
  obtain ⟨hfull, hitems, hleaves⟩ := h
  fun_cases merge.lightest singles groups with
  | case1 => cases hitems
  | case2 g groups =>
    obtain ⟨hg, hgroups⟩ := List.forall_mem_cons.1 hfull
    simp only [List.length_nil, List.length_cons, List.map_cons, List.sum_cons] at hitems hleaves
    exact ⟨_, hg, by simpa using hleaves, hgroups, by simpa using hitems, rfl⟩
  | case3 n singles =>
    simp only [List.length_nil, List.length_cons] at hitems hleaves
    exact ⟨_, .single, by simpa [Nat.add_comm] using hleaves, hfull, by simpa using hitems, rfl⟩
  | case4 n singles g groups hlt =>
    obtain ⟨hg, hgroups⟩ := List.forall_mem_cons.1 hfull
    simp only [List.length_cons, List.map_cons, List.sum_cons] at hitems hleaves
    refine ⟨singles.length + 1 + (groups.map (fun g => g.profile.sum)).sum, hg, ?_, hgroups, ?_,
      rfl⟩
    · dsimp only
      omega
    · dsimp only
      rw [List.length_cons]
      omega
  | case5 n singles g groups hlt =>
    rw [List.length_cons] at hitems hleaves
    refine ⟨singles.length + ((g :: groups).map (fun g => g.profile.sum)).sum, .single, ?_, hfull,
      ?_, rfl⟩
    · dsimp only
      rw [List.sum_singleton]
      omega
    · dsimp only
      omega

/-- All symbols are merged into one full profile. -/
theorem merge_full {rounds : Nat} {singles : List Nat} {groups : List Group} {leaves : Nat}
    (h : Pool singles groups (rounds + 1) leaves) (hend : rounds = 0 → singles = []) :
    (merge rounds singles groups).Full ∧ (merge rounds singles groups).sum = leaves := by
  induction rounds generalizing singles groups with
  | zero =>
    obtain ⟨hfull, hitems, hleaves⟩ := h
    rw [hend rfl, List.length_nil, Nat.zero_add] at hitems hleaves
    obtain ⟨g, rfl⟩ := List.length_eq_one_iff.1 hitems
    rw [List.map_singleton, List.sum_singleton] at hleaves
    exact ⟨hfull g List.mem_cons_self, hleaves⟩
  | succ rounds ih =>
    obtain ⟨others, hfirst, hfirstSum, hpool⟩ := h.lightest
    obtain ⟨rest, hsecond, hsecondSum, hrest⟩ := hpool.lightest
    rw [merge]
    generalize merge.lightest singles groups = first
      at hfirst hfirstSum hpool hsecond hsecondSum hrest ⊢
    generalize merge.lightest first.2.1 first.2.2 = second at hsecond hsecondSum hrest ⊢
    obtain ⟨hfull, hitems, hleaves⟩ := hrest
    refine ih ⟨?_, ?_, ?_⟩ ?_
    · intro g hg
      rcases List.mem_append.1 hg with hg | hg
      · exact hfull g hg
      · rw [List.mem_singleton.1 hg]
        exact hfirst.join hsecond
    · rw [List.length_append, List.length_singleton]
      omega
    · rw [List.map_append, List.sum_append, List.map_singleton, List.sum_singleton,
        Profile.sum_join]
      omega
    · intro hzero
      exact List.eq_nil_of_length_eq_zero (by omega)

/-! ## Shortening -/

/-- Hanging a symbol one below takes no room and makes place for one more. -/
theorem deepen_spec {n : Nat} {rest : List Nat} (h : ∃ m ∈ rest, m ≠ 0) :
    ∃ n' rest', deepen (n :: rest) = n' :: rest' ∧ n ≤ n' ∧ rest'.length = rest.length ∧
      n' + rest'.sum = n + rest.sum + 1 ∧
      ∀ leaf, fill leaf (n' :: rest') = fill leaf (n :: rest) := by
  induction rest generalizing n with
  | nil =>
    obtain ⟨m, hm, -⟩ := h
    exact absurd hm List.not_mem_nil
  | cons m rest ih =>
    by_cases hm : m = 0
    · subst hm
      have hrest : ∃ m ∈ rest, m ≠ 0 := by simpa using h
      obtain ⟨m', rest', hdeepen, hle, hlength, hsum, hfill⟩ := ih (n := 0) hrest
      refine ⟨n, m' :: rest', ?_, Nat.le_refl n, ?_, ?_, fun leaf => ?_⟩
      · rw [deepen, if_pos rfl, hdeepen]
      · rw [List.length_cons, List.length_cons, hlength]
      · rw [List.sum_cons, List.sum_cons]
        omega
      · show n * leaf + fill (2 * leaf) (m' :: rest') = n * leaf + fill (2 * leaf) (0 :: rest)
        rw [hfill]
    · refine ⟨n + 2, (m - 1) :: rest, ?_, Nat.le_add_right n 2, rfl, ?_, fun leaf => ?_⟩
      · rw [deepen, if_neg hm]
      · rw [List.sum_cons, List.sum_cons]
        omega
      · obtain ⟨k, rfl⟩ := Nat.exists_eq_succ_of_ne_zero hm
        simp only [fill, Nat.succ_eq_add_one, Nat.add_sub_cancel, Nat.add_mul]
        omega

theorem fill_zeros {rest : List Nat} (h : ∀ m ∈ rest, m = 0) (leaf : Nat) :
    fill leaf rest = 0 ∧ rest.sum = 0 := by
  induction rest generalizing leaf with
  | nil => exact ⟨rfl, rfl⟩
  | cons m rest ih =>
    obtain ⟨rfl, hrest⟩ := List.forall_mem_cons.1 h
    obtain ⟨hfill, hsum⟩ := ih hrest (2 * leaf)
    rw [fill, hfill, List.sum_cons, hsum, Nat.zero_mul]
    exact ⟨rfl, rfl⟩

/-- The room that is taken too much is given up, one leaf in each round, and no symbol is lost. -/
theorem relieve_spec {rounds n : Nat} {rest : List Nat}
    (hfill : fill 1 (n :: rest) = Nat.pow 2 (rest.length + 1) + rounds) (hrounds : rounds ≤ n)
    (hsum : n + rest.sum ≤ Nat.pow 2 (rest.length + 1)) :
    fill 1 (relieve rounds (n :: rest)) = Nat.pow 2 (rest.length + 1) ∧
      (relieve rounds (n :: rest)).sum = n + rest.sum ∧
      (relieve rounds (n :: rest)).length = rest.length + 1 := by
  induction rounds generalizing n rest with
  | zero => exact ⟨hfill, List.sum_cons, List.length_cons⟩
  | succ rounds ih =>
    have hshallow : ∃ m ∈ rest, m ≠ 0 := by
      apply Decidable.byContradiction
      intro hnone
      have hzeros : ∀ m ∈ rest, m = 0 := by simpa using hnone
      obtain ⟨hroom, hnone⟩ := fill_zeros hzeros 2
      rw [fill, hroom] at hfill
      omega
    obtain ⟨n', rest', hdeepen, hle, hlength, hsum', hfill'⟩ := deepen_spec (n := n) hshallow
    have hstep : relieve (rounds + 1) (n :: rest) = relieve rounds ((n' - 1) :: rest') := by
      rw [relieve, hdeepen]
    have hroom : fill 1 ((n' - 1) :: rest') + 1 = fill 1 (n :: rest) := by
      rw [← hfill', fill, fill]
      omega
    have hfill₁ : fill 1 ((n' - 1) :: rest') = Nat.pow 2 (rest'.length + 1) + rounds := by
      rw [hlength]
      omega
    have hsum₁ : n' - 1 + rest'.sum ≤ Nat.pow 2 (rest'.length + 1) := by
      rw [hlength]
      omega
    obtain ⟨hspec, hkept, hdepths⟩ := ih hfill₁ (by omega) hsum₁
    rw [hstep, ← hlength]
    refine ⟨hspec, ?_, hdepths⟩
    rw [hkept]
    omega

theorem fill_snoc (leaf n : Nat) (ns : List Nat) :
    fill leaf (ns ++ [n]) = fill leaf ns + n * (Nat.pow 2 ns.length * leaf) := by
  induction ns generalizing leaf with
  | nil => simp [fill]
  | cons m ns ih =>
    have hroom : Nat.pow 2 ns.length * (2 * leaf) = Nat.pow 2 (ns.length + 1) * leaf := by
      rw [← Nat.mul_assoc]
      rfl
    rw [List.cons_append, fill, fill, ih, hroom, List.length_cons, Nat.add_assoc]

theorem Profile.length_front (count : Nat) (p : Profile) : (front count p).length = count := by
  fun_induction front count p with
  | case1 => rfl
  | case2 count ih => rw [List.length_cons, ih]
  | case3 count n p ih => rw [List.length_cons, ih]

theorem Profile.sum_front (count : Nat) (p : Profile) :
    (front count p).sum + (p.drop count).sum = p.sum := by
  fun_induction front count p with
  | case1 p => rw [List.sum_nil, List.drop_zero, Nat.zero_add]
  | case2 count ih => simpa using ih
  | case3 count n p ih =>
    rw [List.sum_cons, List.drop_succ_cons, List.sum_cons, ← ih, Nat.add_assoc]

/-- The numbers of symbols at the first depths, the deepest first, fill the room they take. -/
theorem Profile.fill_front (depth : Nat) (p : Profile) :
    fill 1 (front (depth + 1) p).reverse = room depth p := by
  induction depth generalizing p with
  | zero => cases p <;> simp [front, fill, room]
  | succ depth ih =>
    have hlength := length_front (depth + 1)
    cases p with
    | nil =>
      rw [front, List.reverse_cons, fill_snoc, ih, Nat.zero_mul, room, room]
    | cons n p =>
      rw [front, List.reverse_cons, fill_snoc, ih, List.length_reverse, hlength, Nat.mul_one,
        room, Nat.add_comm]

/-- All symbols of a full profile get a length, and their words take all the room. -/
theorem shorten_spec {p : Profile} {limit : Nat} (h : p.Full) (htwo : 2 ≤ p.sum)
    (hmost : p.sum ≤ Nat.pow 2 (limit + 1)) :
    fill 1 (shorten (limit + 1) p) = Nat.pow 2 (limit + 1) ∧
      (shorten (limit + 1) p).sum = p.sum ∧ (shorten (limit + 1) p).length = limit + 1 := by
  have hkraft := h.kraft (limit + 1)
  obtain ⟨q, rfl⟩ : ∃ q, p = 0 :: q := by
    cases h with
    | single => exact absurd htwo (by decide)
    | join => exact ⟨_, rfl⟩
  rw [Profile.room, Profile.deeper, List.drop_succ_cons, Nat.zero_mul, Nat.zero_add,
    ← Profile.fill_front] at hkraft
  obtain ⟨hroom, hrest⟩ := hkraft
  have hlength : (Profile.front (limit + 1) q).reverse.length = limit + 1 := by
    rw [List.length_reverse, Profile.length_front]
  have hsum : (Profile.front (limit + 1) q).reverse.sum + (q.drop (limit + 1)).sum =
      (0 :: q).sum := by
    rw [List.sum_reverse, Profile.sum_front, List.sum_cons, Nat.zero_add]
  rw [shorten, List.tail_cons]
  simp only [← List.sum_eq_foldl]
  generalize (Profile.front (limit + 1) q).reverse = depths at hroom hrest hlength hsum ⊢
  cases depths with
  | nil => cases hlength
  | cons n rest =>
    dsimp only
    have hlimit : rest.length = limit := Nat.succ.inj hlength
    subst hlimit
    generalize (q.drop (rest.length + 1)).sum = below at hrest hsum ⊢
    have hfill : fill 1 ((n + below) :: rest) = fill 1 (n :: rest) + below := by
      rw [fill, fill]
      omega
    obtain ⟨rounds, hrounds⟩ := Nat.exists_eq_add_of_le (hfill ▸ hrest)
    rw [List.sum_cons] at hsum
    have hspec := relieve_spec hrounds (by omega) (by omega)
    rw [hrounds, Nat.add_sub_cancel_left]
    refine ⟨hspec.1, ?_, hspec.2.2⟩
    rw [hspec.2.1]
    omega

/-! ## Lengths of symbols -/

/-- Two symbols or more get lengths whose words take all the room. -/
theorem numbers_full {limit : Nat} {counts : List Nat} (htwo : 2 ≤ counts.length)
    (hmost : counts.length ≤ Nat.pow 2 (limit + 1)) :
    fill 1 (numbers (limit + 1) counts) = Nat.pow 2 (limit + 1) ∧
      (numbers (limit + 1) counts).sum = counts.length ∧
      (numbers (limit + 1) counts).length = limit + 1 := by
  have hpool : Pool counts [] (counts.length - 1 + 1) counts.length :=
    ⟨fun g hg => absurd hg List.not_mem_nil, by rw [List.length_nil]; omega, Nat.add_zero _⟩
  obtain ⟨hfull, hsum⟩ := merge_full hpool (by omega)
  have hnumbers : numbers (limit + 1) counts =
      shorten (limit + 1) (merge (counts.length - 1) counts []) := by
    match counts, htwo with
    | _ :: _ :: _, _ => rfl
  rw [hnumbers]
  rw [← hsum] at htwo hmost
  obtain ⟨hroom, hall, hlength⟩ := shorten_spec hfull htwo hmost
  exact ⟨hroom, hall.trans hsum, hlength⟩

/-- Every symbol gets a length, and none a greater one than the limit. -/
theorem numbers_all {limit : Nat} {counts : List Nat}
    (hmost : counts.length ≤ Nat.pow 2 (limit + 1)) :
    (numbers (limit + 1) counts).sum = counts.length ∧
      (numbers (limit + 1) counts).length ≤ limit + 1 := by
  match counts with
  | [] => exact ⟨rfl, Nat.zero_le _⟩
  | [_] => simp [numbers]
  | m :: n :: rest =>
    have htwo : 2 ≤ (m :: n :: rest).length := Nat.le_add_left 2 _
    obtain ⟨-, hsum, hlength⟩ := numbers_full htwo hmost
    exact ⟨hsum, Nat.le_of_eq hlength⟩

theorem length_spread (limit : Nat) (ns : List Nat) : (spread limit ns).length = ns.sum := by
  have hfrom (first : Nat) : ((ns.zipIdx first).flatMap
      (fun p => List.replicate p.1 (limit - p.2))).length = ns.sum := by
    induction ns generalizing first with
    | nil => rfl
    | cons n ns ih =>
      rw [List.zipIdx_cons, List.flatMap_cons, List.length_append, List.length_replicate, ih,
        List.sum_cons]
  exact hfrom 0

theorem pos_of_mem_spread {limit length : Nat} {ns : List Nat} (hns : ns.length ≤ limit)
    (h : length ∈ spread limit ns) : length ≠ 0 := by
  obtain ⟨p, hp, hlength⟩ := List.mem_flatMap.1 h
  have hplace := List.snd_lt_of_mem_zipIdx hp
  rw [List.eq_of_mem_replicate hlength]
  omega

theorem fill_double (leaf : Nat) (ns : List Nat) : fill (2 * leaf) ns = 2 * fill leaf ns := by
  induction ns generalizing leaf with
  | nil => rfl
  | cons n ns ih => rw [fill, fill, ih, Nat.mul_left_comm, ← Nat.mul_add]

theorem fill_pow (exponent : Nat) (ns : List Nat) :
    fill (Nat.pow 2 exponent) ns = Nat.pow 2 exponent * fill 1 ns := by
  induction exponent with
  | zero => exact (Nat.one_mul _).symm
  | succ exponent ih =>
    have hdouble : Nat.pow 2 (exponent + 1) = 2 * Nat.pow 2 exponent := Nat.mul_comm _ _
    rw [hdouble, fill_double, ih, Nat.mul_assoc]

theorem weight_spread {limit : Nat} {ns : List Nat} (hns : ns.length ≤ limit)
    (hlimit : limit ≤ maxLength) {ps : List (Nat × Nat)} (hps : ps.map (·.1) = spread limit ns) :
    weight ps = Nat.pow 2 (maxLength - limit) * fill 1 ns := by
  have hfrom (first : Nat) (h : first + ns.length ≤ limit) : (((ns.zipIdx first).flatMap
      (fun p => List.replicate p.1 (limit - p.2))).map (fun n => Nat.pow 2 (maxLength - n))).sum =
        fill (Nat.pow 2 (maxLength - limit + first)) ns := by
    clear hps
    induction ns generalizing first with
    | nil => rfl
    | cons n ns ih =>
      rw [List.length_cons] at h hns
      have hleaf : maxLength - (limit - first) = maxLength - limit + first := by omega
      have hdouble : Nat.pow 2 (maxLength - limit + (first + 1)) =
          2 * Nat.pow 2 (maxLength - limit + first) := Nat.mul_comm _ _
      rw [List.zipIdx_cons, List.flatMap_cons, List.map_append, List.sum_append,
        List.map_replicate, List.sum_replicate_nat, hleaf, ih (by omega) (first + 1) (by omega),
        hdouble, fill]
  rw [weight_eq_sum, hps, spread, hfrom 0 (by omega), Nat.add_zero, fill_pow]

/-! ## Lengths by symbol -/

private theorem getElem?_foldl_set {ps : List (Nat × Nat)} (hnodup : (ps.map (·.2)).Nodup)
    {table : Array Nat} (hsize : ∀ p ∈ ps, p.2 < table.size) {n s : Nat} :
    (ps.foldl (fun (table : Array Nat) p => table.setIfInBounds p.2 p.1) table)[s]? = some n ↔
      (n, s) ∈ ps ∨ s ∉ ps.map (·.2) ∧ table[s]? = some n := by
  induction ps generalizing table with
  | nil => simp
  | cons p ps ih =>
    rw [List.map_cons, List.nodup_cons] at hnodup
    obtain ⟨hfirst, hsizes⟩ := List.forall_mem_cons.1 hsize
    rw [List.foldl_cons, ih hnodup.2 (by rwa [Array.size_setIfInBounds]),
      Array.getElem?_setIfInBounds]
    by_cases hs : p.2 = s
    · subst hs
      have hlater : (n, p.2) ∉ ps := fun hmem =>
        hnodup.1 (List.mem_map.2 ⟨(n, p.2), hmem, rfl⟩)
      obtain ⟨m, s⟩ := p
      simp [hfirst, hlater, hnodup.1, eq_comm]
    · obtain ⟨m, t⟩ := p
      have hne : s ≠ t := fun h => hs h.symm
      simp [hs, hne]

/-- The symbols in use are those that are given a length. -/
theorem used_assign {size : Nat} {symbols lengths : List Nat}
    (hlength : lengths.length = symbols.length) (hnodup : symbols.Nodup)
    (hsize : ∀ s ∈ symbols, s < size) (hpos : ∀ n ∈ lengths, n ≠ 0) :
    (used (assign size symbols lengths)).Perm (lengths.zip symbols) := by
  have hsymbols : (lengths.zip symbols).map (·.2) = symbols :=
    List.map_snd_zip (Nat.le_of_eq hlength.symm)
  rw [← hsymbols] at hnodup
  have hbound : ∀ p ∈ lengths.zip symbols, p.2 < (Array.replicate size 0).size := by
    intro p hp
    rw [Array.size_replicate]
    exact hsize p.2 (List.of_mem_zip hp).2
  have hnodup_of {ps : List (Nat × Nat)} (h : (ps.map (·.2)).Nodup) : ps.Nodup :=
    List.Pairwise.of_map _ (fun _ _ hne heq => hne (congrArg _ heq)) h
  refine (List.perm_ext_iff_of_nodup (hnodup_of (nodup_symbols _)) (hnodup_of hnodup)).2 fun p => ?_
  rw [mem_used, assign, Array.getElem?_toList, getElem?_foldl_set hnodup hbound]
  constructor
  · rintro ⟨hmem | ⟨-, hzero⟩, hne⟩
    · exact hmem
    · rw [Array.getElem?_replicate] at hzero
      split at hzero
      · exact absurd (Option.some.inj hzero).symm hne
      · cases hzero
  · intro hmem
    exact ⟨.inl hmem, hpos p.1 (List.of_mem_zip hmem).1⟩

theorem length_assign (size : Nat) (symbols lengths : List Nat) :
    (assign size symbols lengths).length = size := by
  have hsize (ps : List (Nat × Nat)) (table : Array Nat) :
      (ps.foldl (fun (table : Array Nat) p => table.setIfInBounds p.2 p.1) table).size =
        table.size := by
    induction ps generalizing table with
    | nil => rfl
    | cons p ps ih => rw [List.foldl_cons, ih, Array.size_setIfInBounds]
  rw [assign, Array.length_toList, hsize, Array.size_replicate]

theorem length_ofCounts (limit : Nat) (counts : Array Nat) :
    (ofCounts limit counts).length = counts.size :=
  length_assign _ _ _

/-! ## The code made for counts -/

theorem spread_one (limit : Nat) : spread (limit + 1) (List.replicate limit 0 ++ [1]) = [1] := by
  have hnone (first : Nat) : ((List.replicate limit 0).zipIdx first).flatMap
      (fun p => List.replicate p.1 (limit + 1 - p.2)) = [] := by
    refine List.flatMap_eq_nil_iff.2 fun p hp => ?_
    rw [List.eq_of_mem_replicate (List.fst_mem_of_mem_zipIdx hp), List.replicate_zero]
  rw [spread, List.zipIdx_append, List.flatMap_append, hnone, List.length_replicate]
  simp

section

variable {limit : Nat} {counts : Array Nat}

/-- The lengths that the symbols in use get, the rarest symbol first. -/
def given (limit : Nat) (counts : Array Nat) : List Nat :=
  spread limit (numbers limit ((ranked counts.toList).map (·.1)))

theorem length_used_le (hsize : counts.size ≤ Nat.pow 2 limit) :
    (used counts.toList).length ≤ Nat.pow 2 limit := by
  have hused : (used counts.toList).length ≤ counts.toList.zipIdx.length :=
    List.length_filter_le _ _
  rw [List.length_zipIdx, Array.length_toList] at hused
  exact Nat.le_trans hused hsize

/-- The symbols in use are those that occur, each with the length it is given. -/
theorem used_ofCounts (hpos : 1 ≤ limit) (hsize : counts.size ≤ Nat.pow 2 limit) :
    (given limit counts).length = (ranked counts.toList).length ∧
      (used (ofCounts limit counts)).Perm
        ((given limit counts).zip ((ranked counts.toList).map (·.2))) := by
  obtain ⟨limit, rfl⟩ := Nat.exists_eq_succ_of_ne_zero (Nat.one_le_iff_ne_zero.1 hpos)
  have hmost : ((ranked counts.toList).map (·.1)).length ≤ Nat.pow 2 (limit + 1) := by
    rw [List.length_map, (ranked_perm _).length_eq]
    exact length_used_le hsize
  obtain ⟨hsum, hnumbers⟩ := numbers_all hmost
  have hlength : (given (limit + 1) counts).length = (ranked counts.toList).length := by
    rw [given, length_spread, hsum, List.length_map]
  refine ⟨hlength, used_assign ?_ ?_ ?_ fun n hn => pos_of_mem_spread hnumbers hn⟩
  · rw [List.length_map]
    exact hlength
  · exact ((ranked_perm _).map _).nodup_iff.2 (nodup_symbols _)
  · intro s hs
    obtain ⟨p, hp, rfl⟩ := List.mem_map.1 hs
    have hcount := (mem_ranked.1 hp).1
    exact (List.getElem?_eq_some_iff.1 hcount).1

theorem symbols_ofCounts (hpos : 1 ≤ limit) (hsize : counts.size ≤ Nat.pow 2 limit) :
    ((used (ofCounts limit counts)).map (·.2)).Perm ((used counts.toList).map (·.2)) := by
  obtain ⟨hlength, hperm⟩ := used_ofCounts hpos hsize
  have hsymbols := hperm.map Prod.snd
  rw [List.map_snd_zip (Nat.le_of_eq (by rw [List.length_map, hlength]))] at hsymbols
  exact hsymbols.trans ((ranked_perm _).map _)

theorem lengths_ofCounts (hpos : 1 ≤ limit) (hsize : counts.size ≤ Nat.pow 2 limit) :
    ((used (ofCounts limit counts)).map (·.1)).Perm (given limit counts) := by
  obtain ⟨hlength, hperm⟩ := used_ofCounts hpos hsize
  have hlengths := hperm.map Prod.fst
  rwa [List.map_fst_zip (Nat.le_of_eq (by rw [List.length_map, hlength]))] at hlengths

theorem le_of_mem_ofCounts (hpos : 1 ≤ limit) (hsize : counts.size ≤ Nat.pow 2 limit) {n : Nat}
    (h : n ∈ ofCounts limit counts) : n ≤ limit := by
  by_cases hn : n = 0
  · exact hn ▸ Nat.zero_le _
  · obtain ⟨s, hs⟩ := List.mem_iff_getElem?.1 h
    have hused : (n, s) ∈ used (ofCounts limit counts) := mem_used.2 ⟨hs, hn⟩
    have hgiven := (lengths_ofCounts hpos hsize).mem_iff.1 (List.mem_map_of_mem hused)
    obtain ⟨p, -, hp⟩ := List.mem_flatMap.1 hgiven
    have hlength : n = limit - p.2 := List.eq_of_mem_replicate hp
    exact hlength ▸ Nat.sub_le _ _

/-- A symbol that occurs has a word. -/
theorem inUse_ofCounts (hpos : 1 ≤ limit) (hsize : counts.size ≤ Nat.pow 2 limit) {s : Nat}
    (h : InUse counts.toList s) : InUse (ofCounts limit counts) s := by
  obtain ⟨count, hs, hcount⟩ := h
  have hused : (count, s) ∈ used counts.toList :=
    mem_used.2 ⟨hs, hcount⟩
  have hmem := (symbols_ofCounts hpos hsize).mem_iff.2 (List.mem_map_of_mem hused)
  obtain ⟨p, hp, rfl⟩ := List.mem_map.1 hmem
  exact ⟨p.1, mem_used.1 hp⟩

/-- The only symbol that occurs gets length 1. -/
theorem used_ofCounts_single (hpos : 1 ≤ limit) (hsize : counts.size ≤ Nat.pow 2 limit)
    {count s : Nat} (hused : used counts.toList = [(count, s)]) :
    used (ofCounts limit counts) = [(1, s)] := by
  obtain ⟨-, hperm⟩ := used_ofCounts hpos hsize
  have hranked : ranked counts.toList = [(count, s)] :=
    List.perm_singleton.1 (hused ▸ ranked_perm counts.toList)
  obtain ⟨limit, rfl⟩ := Nat.exists_eq_succ_of_ne_zero (Nat.one_le_iff_ne_zero.1 hpos)
  have hgiven : given (limit + 1) counts = [1] := by
    rw [given, hranked]
    exact spread_one limit
  rw [hgiven, hranked] at hperm
  exact List.perm_singleton.1 hperm

/-- Where two symbols or more occur, their words take all the room. -/
theorem weight_ofCounts (hpos : 1 ≤ limit) (hlimit : limit ≤ maxLength)
    (hsize : counts.size ≤ Nat.pow 2 limit) (htwo : 2 ≤ (used counts.toList).length) :
    weight (used (ofCounts limit counts)) = Nat.pow 2 maxLength := by
  obtain ⟨hlength, hperm⟩ := used_ofCounts hpos hsize
  have hcount : ((ranked counts.toList).map (·.1)).length = (used counts.toList).length := by
    rw [List.length_map, (ranked_perm _).length_eq]
  have hmost := hcount ▸ length_used_le hsize
  have hfst : ((given limit counts).zip ((ranked counts.toList).map (·.2))).map Prod.fst =
      spread limit (numbers limit ((ranked counts.toList).map (·.1))) :=
    List.map_fst_zip (Nat.le_of_eq (by rw [List.length_map, hlength]))
  obtain ⟨limit, rfl⟩ := Nat.exists_eq_succ_of_ne_zero (Nat.one_le_iff_ne_zero.1 hpos)
  obtain ⟨hfill, -, hdepths⟩ := numbers_full (hcount ▸ htwo) hmost
  have hroom : Nat.pow 2 (maxLength - (limit + 1)) * Nat.pow 2 (limit + 1) =
      Nat.pow 2 (maxLength - (limit + 1) + (limit + 1)) := (Nat.pow_add 2 _ _).symm
  rw [weight_perm hperm, weight_spread (Nat.le_of_eq hdepths) hlimit hfst, hfill, hroom,
    Nat.sub_add_cancel hlimit]

theorem ofFullLengths?_ofCounts (hpos : 1 ≤ limit) (hlimit : limit ≤ maxLength)
    (hsize : counts.size ≤ Nat.pow 2 limit) (htwo : 2 ≤ (used counts.toList).length) :
    ∃ tree, ofFullLengths? (ofCounts limit counts) = some tree ∧
      tree.Spells (ofCounts limit counts) :=
  ofFullLengths?_of_weight
    (fun _ hn => Nat.le_trans (le_of_mem_ofCounts hpos hsize hn) hlimit)
    (weight_ofCounts hpos hlimit hsize htwo)

/-- The lengths made for counts are those of a code, and its tree has their words. -/
theorem ofLengths?_ofCounts (hpos : 1 ≤ limit) (hlimit : limit ≤ maxLength)
    (hsize : counts.size ≤ Nat.pow 2 limit) :
    ∃ tree, ofLengths? (ofCounts limit counts) = some tree ∧
      tree.Spells (ofCounts limit counts) := by
  have hcount := (symbols_ofCounts hpos hsize).length_eq
  rw [List.length_map, List.length_map] at hcount
  match hused : used counts.toList with
  | [] =>
    rw [hused, List.length_nil] at hcount
    exact ofLengths?_of_none (List.eq_nil_of_length_eq_zero hcount)
  | [(count, s)] => exact ofLengths?_of_one (used_ofCounts_single hpos hsize hused)
  | _ :: _ :: _ =>
    have htwo : 2 ≤ (used counts.toList).length := by
      rw [hused]
      exact Nat.le_add_left 2 _
    rw [ofLengths?_of_two (hcount ▸ htwo)]
    exact ofFullLengths?_ofCounts hpos hlimit hsize htwo

end

/-! ## Counting symbols -/

private theorem size_foldl_modify (symbols : List Nat) (counts : Array Nat) :
    (symbols.foldl (fun (counts : Array Nat) s => counts.modify s (· + 1)) counts).size =
      counts.size := by
  induction symbols generalizing counts with
  | nil => rfl
  | cons s symbols ih => rw [List.foldl_cons, ih, Array.size_modify]

theorem size_tally (size : Nat) (symbols : List Nat) : (tally size symbols).size = size := by
  rw [tally, size_foldl_modify, Array.size_replicate]

theorem size_tally_le {size limit : Nat} (h : size ≤ Nat.pow 2 limit) (symbols : List Nat) :
    (tally size symbols).size ≤ Nat.pow 2 limit :=
  (size_tally size symbols).symm ▸ h

private theorem getElem?_foldl_modify (symbols : List Nat) (counts : Array Nat) (s : Nat) :
    (symbols.foldl (fun (counts : Array Nat) s => counts.modify s (· + 1)) counts)[s]? =
      counts[s]?.map (· + symbols.count s) := by
  induction symbols generalizing counts with
  | nil => simp
  | cons t symbols ih =>
    rw [List.foldl_cons, ih, Array.getElem?_modify, List.count_cons]
    by_cases h : t = s
    · subst h
      cases counts[t]? with
      | none => simp
      | some n => simp; omega
    · simp [h]

/-- The symbols counted are in use. -/
theorem inUse_tally {size s : Nat} {symbols : List Nat} (hs : s ∈ symbols) (hsize : s < size) :
    InUse (tally size symbols).toList s := by
  refine ⟨symbols.count s, ?_, Nat.ne_of_gt (List.count_pos_iff.2 hs)⟩
  rw [Array.getElem?_toList, tally, getElem?_foldl_modify, Array.getElem?_replicate, if_pos hsize,
    Option.map_some, Nat.zero_add]

/-- A symbol that is counted has a word in the code made for the counts. -/
theorem inUse_ofCounts_tally {limit size s : Nat} {symbols : List Nat} (hpos : 1 ≤ limit)
    (hsize : size ≤ Nat.pow 2 limit) (hs : s ∈ symbols) (hlt : s < size) :
    InUse (ofCounts limit (tally size symbols)) s :=
  inUse_ofCounts hpos (size_tally_le hsize symbols) (inUse_tally hs hlt)

theorem two_le_used {numbers : List Nat} {s t : Nat} (hs : InUse numbers s) (ht : InUse numbers t)
    (hne : s ≠ t) : 2 ≤ (used numbers).length := by
  obtain ⟨m, hm⟩ := hs
  obtain ⟨n, hn⟩ := ht
  have hsused : (m, s) ∈ used numbers := mem_used.2 hm
  have htused : (n, t) ∈ used numbers := mem_used.2 hn
  match used numbers, hsused, htused with
  | [], h, _ => exact absurd h List.not_mem_nil
  | [p], h, h' =>
    have heq := (List.mem_singleton.1 h).trans (List.mem_singleton.1 h').symm
    exact absurd (congrArg Prod.snd heq) hne
  | _ :: _ :: _, _, _ => exact Nat.le_add_left 2 _

end CircuitFixtures.Deflate.CodeLengths
