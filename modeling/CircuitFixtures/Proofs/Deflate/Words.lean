import CircuitFixtures.Deflate.Words
import CircuitFixtures.Proofs.Bits.Position
import Mathlib.Algebra.GroupWithZero.Nat

/-!
# Words of prefix codes

Lengths make a full code where the rooms that their words take add up to the room there is
(`CodeTree.ofFullLengths?_of_weight`). The tree of such a code has its words side by side, each
where the rooms of those before it end (`CodeTree.words_grow`), and so the words that are computed
from the lengths are those of the tree (`CodeTree.Spells`), from which they are read back as their
symbols (`CodeTree.read_word`).
-/

namespace CircuitFixtures.Deflate

namespace CodeTree

/-! ## Reading a word -/

theorem walk_ofBits {tree : CodeTree} {s : Nat} {w : List Bool} (h : (s, w) ∈ tree.words)
    (bs : List Bool) : tree.walk (.ofBits (w ++ bs)) = .ok (s, .ofBits bs) := by
  induction tree generalizing w with
  | gap => exact absurd h List.not_mem_nil
  | leaf t =>
    obtain ⟨rfl, rfl⟩ := Prod.mk.inj (List.mem_singleton.1 h)
    rfl
  | fork zero one ihz iho =>
    rw [words, List.mem_append, List.mem_map, List.mem_map] at h
    rcases h with ⟨⟨t, u⟩, hm, heq⟩ | ⟨⟨t, u⟩, hm, heq⟩
    · obtain ⟨rfl, rfl⟩ := Prod.mk.inj heq
      rw [List.cons_append, walk, BitReader.next?_ofBits]
      exact ihz hm
    · obtain ⟨rfl, rfl⟩ := Prod.mk.inj heq
      rw [List.cons_append, walk, BitReader.next?_ofBits]
      exact iho hm

/-- The tree has a node at its top. -/
def IsFork (tree : CodeTree) : Prop :=
  ∃ zero one, tree = .fork zero one

theorem read_word {tree : CodeTree} (hfork : tree.IsFork) {s : Nat} {w : List Bool}
    (h : (s, w) ∈ tree.words) (bs : List Bool) :
    tree.read (.ofBits (w ++ bs)) = .ok (s, .ofBits bs) := by
  obtain ⟨zero, one, rfl⟩ := hfork
  exact walk_ofBits h bs

/-! ## Ranked symbols -/

theorem mem_used {lengths : List Nat} {p : Nat × Nat} :
    p ∈ used lengths ↔ lengths[p.2]? = some p.1 ∧ p.1 ≠ 0 := by
  rw [used, List.mem_filter, List.mem_zipIdx_iff_getElem?]
  simp

theorem used_ascending (lengths : List Nat) : (used lengths).Pairwise (fun p q => p.2 < q.2) := by
  have hsymbols : (lengths.zipIdx.map Prod.snd).Pairwise (· < ·) := by
    rw [List.zipIdx_map_snd]
    exact List.pairwise_lt_range'
  exact (List.pairwise_map.1 hsymbols).sublist List.filter_sublist

theorem nodup_symbols (lengths : List Nat) : ((used lengths).map (·.2)).Nodup :=
  List.pairwise_map.2 ((used_ascending lengths).imp Nat.ne_of_lt)

theorem ranked_perm (lengths : List Nat) : (ranked lengths).Perm (used lengths) :=
  List.mergeSort_perm _ _

theorem mem_ranked {lengths : List Nat} {p : Nat × Nat} :
    p ∈ ranked lengths ↔ lengths[p.2]? = some p.1 ∧ p.1 ≠ 0 :=
  (ranked_perm lengths).mem_iff.trans mem_used

theorem isFork_of_grow {room : Nat} {p : Nat × Nat} {ps : List (Nat × Nat)} (h : p.1 ≠ 0) :
    (grow (room + 1) 0 (p :: ps)).1.IsFork := by
  rw [grow, if_neg fun hle => h (Nat.le_zero.1 hle)]
  exact ⟨_, _, rfl⟩

theorem isFork_of_ofFullLengths? {lengths : List Nat} {tree : CodeTree}
    (h : ofFullLengths? lengths = some tree) : tree.IsFork := by
  rw [ofFullLengths?] at h
  split at h
  · rename_i hfull
    cases h
    cases hps : ranked lengths with
    | nil => rw [hps] at hfull; cases hfull
    | cons p ps => exact isFork_of_grow (mem_ranked.1 (hps ▸ List.mem_cons_self)).2
  · cases h

/-! ## Full codes -/

/-- The room of the words of symbols, given with their lengths, in words of the greatest
length. -/
def weight : List (Nat × Nat) → Nat
  | [] => 0
  | p :: ps => Nat.pow 2 (maxLength - p.1) + weight ps

theorem weight_perm {ps qs : List (Nat × Nat)} (h : ps.Perm qs) : weight ps = weight qs := by
  induction h with
  | nil => rfl
  | cons p _ ih => rw [weight, weight, ih]
  | swap p q ps =>
    simp only [weight]
    omega
  | trans _ _ ih1 ih2 => exact ih1.trans ih2

theorem weight_eq_sum (ps : List (Nat × Nat)) :
    weight ps = ((ps.map (·.1)).map (fun n => Nat.pow 2 (maxLength - n))).sum := by
  induction ps with
  | nil => rfl
  | cons p ps ih => rw [weight, ih, List.map_cons, List.map_cons, List.sum_cons]

theorem weight_eq_zero {ps : List (Nat × Nat)} (h : weight ps = 0) : ps = [] := by
  cases ps with
  | nil => rfl
  | cons p ps =>
    have hpos : 0 < Nat.pow 2 (maxLength - p.1) := Nat.two_pow_pos _
    rw [weight] at h
    omega

/-- Symbols in the order of their lengths, none of them above the node or too long. -/
structure Layout (depth : Nat) (ps : List (Nat × Nat)) : Prop where
  sorted : ps.Pairwise (fun p q => p.1 ≤ q.1)
  least : ∀ p ∈ ps, depth ≤ p.1
  most : ∀ p ∈ ps, p.1 ≤ maxLength

theorem Layout.below {depth : Nat} {p : Nat × Nat} {ps : List (Nat × Nat)}
    (h : Layout depth (p :: ps)) (hp : depth < p.1) : Layout (depth + 1) (p :: ps) where
  sorted := h.sorted
  least := by
    intro q hq
    rcases List.mem_cons.1 hq with rfl | hq
    · exact hp
    · exact Nat.le_trans hp (List.rel_of_pairwise_cons h.sorted hq)
  most := h.most

theorem Layout.suffix {depth : Nat} {ps qs : List (Nat × Nat)} (h : Layout depth ps)
    (hq : qs <:+ ps) : Layout depth qs where
  sorted := h.sorted.sublist hq.sublist
  least := fun p hp => h.least p (hq.mem hp)
  most := fun p hp => h.most p (hq.mem hp)

/-- The room of a node is that of its two children. -/
theorem room_eq_twice {depth : Nat} (h : depth < maxLength) :
    Nat.pow 2 (maxLength - depth) = 2 * Nat.pow 2 (maxLength - (depth + 1)) := by
  have hstep : maxLength - depth = maxLength - (depth + 1) + 1 := by omega
  rw [hstep]
  exact Nat.pow_succ'

/-- With symbols enough, a node is filled, and what is left over lacks just its room. -/
theorem grow_full {room depth : Nat} {ps : List (Nat × Nat)} (h : Layout depth ps)
    (hroom : room + depth = maxLength + 1) (hdepth : depth ≤ maxLength)
    (hweight : Nat.pow 2 (maxLength - depth) ≤ weight ps) :
    (grow room depth ps).1.isFull = true ∧ (grow room depth ps).2 <:+ ps ∧
      weight (grow room depth ps).2 + Nat.pow 2 (maxLength - depth) = weight ps := by
  fun_induction grow room depth ps with
  | case1 room depth =>
    have hpos : 0 < Nat.pow 2 (maxLength - depth) := Nat.two_pow_pos _
    rw [weight] at hweight
    omega
  | case2 => omega
  | case3 room depth length symbol rest hle =>
    have hlength : length = depth := Nat.le_antisymm hle (h.least _ List.mem_cons_self)
    refine ⟨rfl, List.suffix_cons _ _, ?_⟩
    rw [weight, hlength, Nat.add_comm]
  | case4 room depth length symbol rest hlt zero one ihz iho =>
    have hmost : length ≤ maxLength := h.most _ List.mem_cons_self
    have hbelow := h.below (Nat.not_le.1 hlt)
    have hhalf := room_eq_twice (Nat.lt_of_lt_of_le (Nat.not_le.1 hlt) hmost)
    have hzero : zero.1.isFull = true ∧ zero.2 <:+ (length, symbol) :: rest ∧
        weight zero.2 + Nat.pow 2 (maxLength - (depth + 1)) = weight ((length, symbol) :: rest) :=
      ihz hbelow (by omega) (by omega) (by omega)
    obtain ⟨hzfull, hzrest, hzweight⟩ := hzero
    have hone : one.1.isFull = true ∧ one.2 <:+ zero.2 ∧
        weight one.2 + Nat.pow 2 (maxLength - (depth + 1)) = weight zero.2 :=
      iho (hbelow.suffix hzrest) (by omega) (by omega) (by omega)
    obtain ⟨hofull, horest, howeight⟩ := hone
    refine ⟨by rw [isFull, hzfull, hofull]; rfl, horest.trans hzrest, ?_⟩
    change weight one.2 + Nat.pow 2 (maxLength - depth) = weight ((length, symbol) :: rest)
    omega

theorem ranked_sorted (lengths : List Nat) :
    (ranked lengths).Pairwise (fun p q => p.1 ≤ q.1) := by
  have hsorted : (ranked lengths).Pairwise (fun p q => decide (p.1 ≤ q.1) = true) :=
    List.pairwise_mergeSort (fun a b c => by simpa using Nat.le_trans)
      (fun a b => by simpa using Nat.le_total a.1 b.1) _
  exact hsorted.imp of_decide_eq_true

theorem ranked_layout {lengths : List Nat} (h : ∀ n ∈ lengths, n ≤ maxLength) :
    Layout 0 (ranked lengths) where
  sorted := ranked_sorted lengths
  least := fun _ _ => Nat.zero_le _
  most := fun _ hp => h _ (List.mem_of_getElem? (mem_ranked.1 hp).1)

/-! ## Words side by side -/

/-- The words of symbols, given with their lengths, each beginning where the rooms of those before
it end; `start` is the room in front of the first. -/
def place (start : Nat) : List (Nat × Nat) → List (Nat × List Bool)
  | [] => []
  | p :: ps =>
    (p.2, (Bits.ofNat p.1 (start / Nat.pow 2 (maxLength - p.1))).reverse) ::
      place (start + Nat.pow 2 (maxLength - p.1)) ps

private theorem ofNat_even (width n : Nat) :
    Bits.ofNat (width + 1) (2 * n) = false :: Bits.ofNat width n := by
  rw [Bits.ofNat, Nat.mul_mod_right, Nat.mul_div_cancel_left n Nat.two_pos]
  rfl

private theorem ofNat_odd (width n : Nat) :
    Bits.ofNat (width + 1) (2 * n + 1) = true :: Bits.ofNat width n := by
  have hmod : (2 * n + 1) % 2 = 1 := by omega
  have hdiv : (2 * n + 1) / 2 = n := by omega
  rw [Bits.ofNat, hmod, hdiv]
  rfl

/-- The words below a node are those of the symbols it takes; `path` is the number of the word
that leads to the node. -/
theorem words_grow {room depth : Nat} {ps : List (Nat × Nat)} (path : Nat) (h : Layout depth ps)
    (hroom : room + depth = maxLength + 1) (hdepth : depth ≤ maxLength)
    (hweight : Nat.pow 2 (maxLength - depth) ≤ weight ps) :
    (grow room depth ps).1.words.map (fun p => (p.1, (Bits.ofNat depth path).reverse ++ p.2)) ++
        place ((path + 1) * Nat.pow 2 (maxLength - depth)) (grow room depth ps).2 =
      place (path * Nat.pow 2 (maxLength - depth)) ps := by
  fun_induction grow room depth ps generalizing path with
  | case1 room depth =>
    have hpos : 0 < Nat.pow 2 (maxLength - depth) := Nat.two_pow_pos _
    rw [weight] at hweight
    omega
  | case2 => omega
  | case3 room depth length symbol rest hle =>
    have hlength : length = depth := Nat.le_antisymm hle (h.least _ List.mem_cons_self)
    have hpos : 0 < Nat.pow 2 (maxLength - depth) := Nat.two_pow_pos _
    subst hlength
    rw [words, place, Nat.mul_div_cancel _ hpos, Nat.succ_mul]
    simp
  | case4 room depth length symbol rest hlt zero one ihz iho =>
    have hmost : length ≤ maxLength := h.most _ List.mem_cons_self
    have hbelow := h.below (Nat.not_le.1 hlt)
    have hhalf := room_eq_twice (Nat.lt_of_lt_of_le (Nat.not_le.1 hlt) hmost)
    have hroom' : room + (depth + 1) = maxLength + 1 := by omega
    have hdepth' : depth + 1 ≤ maxLength := by omega
    have hzero : zero.1.isFull = true ∧ zero.2 <:+ (length, symbol) :: rest ∧
        weight zero.2 + Nat.pow 2 (maxLength - (depth + 1)) = weight ((length, symbol) :: rest) :=
      grow_full hbelow hroom' hdepth' (by omega)
    obtain ⟨-, hzrest, hzweight⟩ := hzero
    have hleft :
        zero.1.words.map (fun p => (p.1, (Bits.ofNat depth path).reverse ++ false :: p.2)) ++
        place ((2 * path + 1) * Nat.pow 2 (maxLength - (depth + 1))) zero.2 =
          place (2 * path * Nat.pow 2 (maxLength - (depth + 1))) ((length, symbol) :: rest) := by
      rw [← ihz (2 * path) hbelow hroom' hdepth' (by omega), ofNat_even]
      simp [zero]
    have hright :
        one.1.words.map (fun p => (p.1, (Bits.ofNat depth path).reverse ++ true :: p.2)) ++
        place ((2 * path + 1 + 1) * Nat.pow 2 (maxLength - (depth + 1))) one.2 =
          place ((2 * path + 1) * Nat.pow 2 (maxLength - (depth + 1))) zero.2 := by
      rw [← iho (2 * path + 1) (hbelow.suffix hzrest) hroom' hdepth' (by omega), ofNat_odd]
      simp [one]
    have hstart : path * Nat.pow 2 (maxLength - depth) =
        2 * path * Nat.pow 2 (maxLength - (depth + 1)) := by
      rw [hhalf, ← Nat.mul_assoc, Nat.mul_comm path 2]
    have hend : (path + 1) * Nat.pow 2 (maxLength - depth) =
        (2 * path + 1 + 1) * Nat.pow 2 (maxLength - (depth + 1)) := by
      have htwice : (path + 1) * 2 = 2 * path + 1 + 1 := by omega
      rw [hhalf, ← Nat.mul_assoc, htwice]
    rw [hstart, hend, ← hleft, ← hright, words, List.map_append, List.map_map, List.map_map,
      List.append_assoc]
    rfl

theorem mem_place {before after : List (Nat × Nat)} {p : Nat × Nat} (start : Nat) :
    (p.2, (Bits.ofNat p.1 ((start + weight before) / Nat.pow 2 (maxLength - p.1))).reverse) ∈
      place start (before ++ p :: after) := by
  induction before generalizing start with
  | nil => exact List.mem_cons_self
  | cons q before ih =>
    have hrest := ih (start + Nat.pow 2 (maxLength - q.1))
    rw [Nat.add_assoc] at hrest
    exact List.mem_cons_of_mem _ hrest

/-! ## Words from lengths -/

open CodeLengths

theorem weight_filter_or {f g : Nat × Nat → Bool} (hdisjoint : ∀ p, f p = true → g p = false)
    (ps : List (Nat × Nat)) :
    weight (ps.filter (fun p => f p || g p)) = weight (ps.filter f) + weight (ps.filter g) := by
  induction ps with
  | nil => rfl
  | cons p ps ih =>
    cases hf : f p with
    | true =>
      have hg := hdisjoint p hf
      simp [hf, hg, weight, ih, Nat.add_assoc]
    | false =>
      cases hg : g p with
      | true => simp [hf, hg, weight, ih, Nat.add_left_comm]
      | false => simp [hf, hg, ih]

theorem weight_of_length (lengths : List Nat) (first length : Nat) :
    weight ((lengths.zipIdx first).filter (fun p => p.1 == length)) =
      lengths.count length * Nat.pow 2 (maxLength - length) := by
  induction lengths generalizing first with
  | nil => exact (Nat.zero_mul _).symm
  | cons n lengths ih =>
    by_cases h : n = length
    · subst h
      simp [weight, ih, Nat.succ_mul, Nat.add_comm]
    · simp [h, ih]

/-- The symbols with shorter words take the room in front of the first word of a length. -/
theorem weight_shorter (lengths : List Nat) {length : Nat} (hmost : length + 1 ≤ maxLength) :
    weight (lengths.zipIdx.filter (fun p => p.1 != 0 && decide (p.1 < length + 1))) =
      firstWord lengths (length + 1) * Nat.pow 2 (maxLength - (length + 1)) := by
  induction length with
  | zero =>
    have hnone : lengths.zipIdx.filter (fun p => p.1 != 0 && decide (p.1 < 0 + 1)) = [] := by
      simp
    rw [hnone, firstWord, Nat.zero_mul]
    rfl
  | succ length ih =>
    have hsplit : ∀ p : Nat × Nat, (p.1 != 0 && decide (p.1 < length + 1 + 1)) =
        ((p.1 != 0 && decide (p.1 < length + 1)) || p.1 == length + 1) := by
      intro p
      rw [Bool.eq_iff_iff]
      simp
      omega
    have hdisjoint : ∀ p : Nat × Nat,
        (p.1 != 0 && decide (p.1 < length + 1)) = true → (p.1 == length + 1) = false := by
      intro p hp
      simp at hp ⊢
      omega
    rw [List.filter_congr (fun p _ => hsplit p), weight_filter_or hdisjoint, ih (by omega),
      weight_of_length, ← Nat.add_mul, room_eq_twice hmost, firstWord, ← Nat.mul_assoc,
      Nat.mul_comm _ 2]

theorem filter_zipIdx_lt (lengths : List Nat) (first count : Nat) :
    (lengths.zipIdx first).filter (fun p => decide (p.2 < first + count)) =
      (lengths.take count).zipIdx first := by
  induction lengths generalizing first count with
  | nil => rw [List.take_nil]; rfl
  | cons n lengths ih =>
    cases count with
    | zero =>
      rw [List.take_zero, List.zipIdx_nil, List.filter_eq_nil_iff]
      intro p hp
      have hfirst := List.le_snd_of_mem_zipIdx hp
      simpa using hfirst
    | succ count =>
      have hcount : first + (count + 1) = first + 1 + count := by omega
      have hhere : first < first + 1 + count := by omega
      rw [List.zipIdx_cons, List.take_succ_cons, List.zipIdx_cons, hcount,
        List.filter_cons_of_pos (by exact decide_eq_true hhere), ih]

/-- The earlier symbols with words of the same length. -/
theorem weight_earlier (lengths : List Nat) (length symbol : Nat) :
    weight (lengths.zipIdx.filter (fun p => p.1 == length && decide (p.2 < symbol))) =
      (lengths.take symbol).count length * Nat.pow 2 (maxLength - length) := by
  have hearlier := filter_zipIdx_lt lengths 0 symbol
  rw [Nat.zero_add] at hearlier
  rw [← List.filter_filter, hearlier, weight_of_length]

/-- Ranking leaves the symbols with words of one length in their order. -/
theorem filter_ranked (lengths : List Nat) (length : Nat) :
    (ranked lengths).filter (fun p => p.1 == length) =
      (used lengths).filter (fun p => p.1 == length) := by
  have hequal : ((used lengths).filter (fun p => p.1 == length)).Pairwise
      (fun p q => decide (p.1 ≤ q.1) = true) := by
    refine List.pairwise_of_forall_sublist fun {p q} hpq => ?_
    have hp := (List.mem_filter.1 (hpq.subset List.mem_cons_self)).2
    have hq := (List.mem_filter.1 (hpq.subset (List.mem_cons_of_mem _ List.mem_cons_self))).2
    rw [eq_of_beq hp, eq_of_beq hq]
    exact decide_eq_true (Nat.le_refl _)
  have hsub : ((used lengths).filter (fun p => p.1 == length)).Sublist (ranked lengths) :=
    List.sublist_mergeSort (fun a b c => by simpa using Nat.le_trans)
      (fun a b => by simpa using Nat.le_total a.1 b.1) hequal List.filter_sublist
  have hfilter := hsub.filter (fun p => p.1 == length)
  rw [List.filter_filter, List.filter_congr (fun p _ => Bool.and_self _)] at hfilter
  exact (hfilter.eq_of_length ((ranked_perm lengths).filter _).length_eq.symm).symm

/-- The place of a symbol in a code: shorter words first, then the earlier symbols. -/
def isBefore (p q : Nat × Nat) : Bool :=
  decide (p.1 < q.1) || (p.1 == q.1 && decide (p.2 < q.2))

theorem ranked_pairwise (lengths : List Nat) :
    (ranked lengths).Pairwise (fun p q => isBefore p q = true) := by
  refine List.pairwise_of_forall_sublist fun {p q} hpq => ?_
  have hle : p.1 ≤ q.1 := List.pairwise_iff_forall_sublist.1 (ranked_sorted lengths) hpq
  rcases Nat.lt_or_eq_of_le hle with hlt | heq
  · simp [isBefore, hlt]
  · -- Both stand in the part that keeps the order of the symbols.
    have hpart := hpq.filter (fun r => r.1 == q.1)
    have hboth : [p, q].filter (fun r => r.1 == q.1) = [p, q] := by simp [heq]
    rw [filter_ranked, hboth] at hpart
    have hlt := List.pairwise_iff_forall_sublist.1 (used_ascending lengths)
      (hpart.trans List.filter_sublist)
    simp [isBefore, heq, hlt]

/-- The symbols before a symbol in use. -/
theorem exists_before {lengths : List Nat} {p : Nat × Nat} (h : p ∈ ranked lengths) :
    ∃ before after, ranked lengths = before ++ p :: after ∧
      before.Perm ((used lengths).filter (isBefore · p)) := by
  obtain ⟨before, after, heq⟩ := List.append_of_mem h
  refine ⟨before, after, heq, ?_⟩
  have hpairwise := ranked_pairwise lengths
  rw [heq, List.pairwise_append, List.pairwise_cons] at hpairwise
  obtain ⟨-, ⟨hafter, -⟩, hbefore⟩ := hpairwise
  have hkept : before.filter (isBefore · p) = before :=
    List.filter_eq_self.2 fun q hq => hbefore q hq p List.mem_cons_self
  have hdropped : (p :: after).filter (isBefore · p) = [] := by
    refine List.filter_eq_nil_iff.2 fun q hq => ?_
    rcases List.mem_cons.1 hq with rfl | hq
    · simp [isBefore]
    · have hlate := hafter q hq
      simp [isBefore] at hlate ⊢
      omega
  have hperm := (ranked_perm lengths).filter (isBefore · p)
  rwa [heq, List.filter_append, hkept, hdropped, List.append_nil] at hperm

theorem weight_before (lengths : List Nat) {length : Nat} (symbol : Nat) (hpos : length ≠ 0)
    (hmost : length ≤ maxLength) :
    weight ((used lengths).filter (isBefore · (length, symbol))) =
      (firstWord lengths length + (lengths.take symbol).count length) *
        Nat.pow 2 (maxLength - length) := by
  have hsplit : ∀ p : Nat × Nat, (isBefore p (length, symbol) && p.1 != 0) =
      ((p.1 != 0 && decide (p.1 < length)) || (p.1 == length && decide (p.2 < symbol))) := by
    intro p
    rw [Bool.eq_iff_iff]
    simp [isBefore]
    omega
  have hdisjoint : ∀ p : Nat × Nat, (p.1 != 0 && decide (p.1 < length)) = true →
      (p.1 == length && decide (p.2 < symbol)) = false := by
    intro p hp
    simp at hp ⊢
    omega
  obtain ⟨shorter, rfl⟩ := Nat.exists_eq_succ_of_ne_zero hpos
  rw [used, List.filter_filter, List.filter_congr (fun p _ => hsplit p),
    weight_filter_or hdisjoint, weight_shorter lengths hmost, weight_earlier, Nat.add_mul]

/-- Side by side, the words of a code are those computed from its lengths. -/
theorem word_mem_place {lengths : List Nat} {symbol length : Nat}
    (hsymbol : lengths[symbol]? = some length) (hpos : length ≠ 0) (hmost : length ≤ maxLength) :
    (symbol, word lengths symbol) ∈ place 0 (ranked lengths) := by
  have hranked : (length, symbol) ∈ ranked lengths := mem_ranked.2 ⟨hsymbol, hpos⟩
  obtain ⟨before, after, heq, hperm⟩ := exists_before hranked
  have hroom : 0 < Nat.pow 2 (maxLength - length) := Nat.two_pow_pos _
  have hweight := weight_before lengths symbol hpos hmost
  have hplace : (symbol, (Bits.ofNat length
      ((0 + weight before) / Nat.pow 2 (maxLength - length))).reverse) ∈
        place 0 (before ++ (length, symbol) :: after) := mem_place 0
  rw [← heq, Nat.zero_add, weight_perm hperm, hweight,
    Nat.mul_div_cancel _ hroom] at hplace
  have hlength : lengths.getD symbol 0 = length := by
    rw [List.getD_eq_getElem?_getD, hsymbol, Option.getD_some]
  rwa [word, hlength]

/-- The symbol has a word. -/
def InUse (lengths : List Nat) (symbol : Nat) : Prop :=
  ∃ length, lengths[symbol]? = some length ∧ length ≠ 0

/-- A tree has the words that are computed from the lengths. -/
structure Spells (tree : CodeTree) (lengths : List Nat) : Prop where
  fork : tree.IsFork
  word : ∀ symbol, InUse lengths symbol → (symbol, word lengths symbol) ∈ tree.words

theorem Spells.read {tree : CodeTree} {lengths : List Nat} (h : tree.Spells lengths)
    {symbol : Nat} (hsymbol : InUse lengths symbol) (bs : List Bool) :
    tree.read (.ofBits ((wordTable lengths).getD symbol [] ++ bs)) =
      .ok (symbol, .ofBits bs) := by
  rw [getD_wordTable]
  exact read_word h.fork (h.word symbol hsymbol) bs

/-- Lengths whose words take all the room make a full code. -/
theorem ofFullLengths?_of_weight {lengths : List Nat} (hmost : ∀ n ∈ lengths, n ≤ maxLength)
    (hweight : weight (used lengths) = Nat.pow 2 maxLength) :
    ∃ tree, ofFullLengths? lengths = some tree ∧ tree.Spells lengths := by
  have hlayout := ranked_layout hmost
  have hranked : weight (ranked lengths) = Nat.pow 2 maxLength :=
    (weight_perm (ranked_perm lengths)).trans hweight
  have hroom : Nat.pow 2 (maxLength - 0) ≤ weight (ranked lengths) := Nat.le_of_eq hranked.symm
  obtain ⟨hfull, -, hrest⟩ := grow_full hlayout (Nat.add_zero (maxLength + 1)) (Nat.zero_le _) hroom
  have hnil : (grow (maxLength + 1) 0 (ranked lengths)).2 = [] :=
    weight_eq_zero (by rw [hranked] at hrest; exact Nat.add_eq_right.1 hrest)
  have htree : ofFullLengths? lengths = some (grow (maxLength + 1) 0 (ranked lengths)).1 := by
    rw [ofFullLengths?]
    simp only [hnil, hfull]
    rfl
  have hwords := words_grow 0 hlayout (Nat.add_zero (maxLength + 1)) (Nat.zero_le _) hroom
  rw [hnil, place, List.append_nil, Nat.zero_mul] at hwords
  have hsame : (grow (maxLength + 1) 0 (ranked lengths)).1.words = place 0 (ranked lengths) :=
    (List.map_id _).symm.trans hwords
  refine ⟨_, htree, isFork_of_ofFullLengths? htree, ?_⟩
  rintro symbol ⟨length, hsymbol, hpos⟩
  rw [hsame]
  exact word_mem_place hsymbol hpos (hmost length (List.mem_of_getElem? hsymbol))

/-! ## Codes of few symbols -/

theorem ofLengths?_of_two {lengths : List Nat} (h : 2 ≤ (used lengths).length) :
    ofLengths? lengths = ofFullLengths? lengths := by
  rw [← (ranked_perm lengths).length_eq] at h
  rw [ofLengths?]
  split
  · rename_i hps
    rw [hps, List.length_nil] at h
    omega
  · rename_i hps
    rw [hps, List.length_singleton] at h
    omega
  · rfl

theorem ofLengths?_of_none {lengths : List Nat} (h : used lengths = []) :
    ∃ tree, ofLengths? lengths = some tree ∧ tree.Spells lengths := by
  have hranked : ranked lengths = [] := List.perm_nil.1 (h ▸ ranked_perm lengths)
  refine ⟨.fork .gap .gap, by rw [ofLengths?, hranked], ⟨_, _, rfl⟩, ?_⟩
  rintro symbol ⟨length, hsymbol, hpos⟩
  have hmem : (length, symbol) ∈ ranked lengths := mem_ranked.2 ⟨hsymbol, hpos⟩
  rw [hranked] at hmem
  exact absurd hmem List.not_mem_nil

/-- The only word of a code of one symbol is a zero. -/
theorem ofLengths?_of_one {lengths : List Nat} {s : Nat} (h : used lengths = [(1, s)]) :
    ∃ tree, ofLengths? lengths = some tree ∧ tree.Spells lengths := by
  have hranked : ranked lengths = [(1, s)] := List.perm_singleton.1 (h ▸ ranked_perm lengths)
  refine ⟨.fork (.leaf s) .gap, by rw [ofLengths?, hranked]; rfl, ⟨_, _, rfl⟩, ?_⟩
  rintro symbol ⟨length, hsymbol, hpos⟩
  have hmem : (length, symbol) ∈ ranked lengths := mem_ranked.2 ⟨hsymbol, hpos⟩
  rw [hranked, List.mem_singleton, Prod.mk.injEq] at hmem
  have hmost : length ≤ maxLength := hmem.1 ▸ by decide
  have hplace := word_mem_place hsymbol hpos hmost
  rw [hranked] at hplace
  simpa [place, words, Bits.ofNat] using hplace

/-! ## Zeros at the end -/

theorem used_append_zeros (lengths : List Nat) (k : Nat) :
    used (lengths ++ List.replicate k 0) = used lengths := by
  have hzeros : ((List.replicate k 0).zipIdx (0 + lengths.length)).filter (fun p => p.1 != 0) =
      [] := by
    refine List.filter_eq_nil_iff.2 fun p hp => ?_
    have hzero := List.eq_of_mem_replicate (List.fst_mem_of_mem_zipIdx hp)
    simp [hzero]
  rw [used, List.zipIdx_append, List.filter_append, hzeros, List.append_nil, used]

theorem ofLengths?_append_zeros (lengths : List Nat) (k : Nat) :
    ofLengths? (lengths ++ List.replicate k 0) = ofLengths? lengths := by
  have hranked : ranked (lengths ++ List.replicate k 0) = ranked lengths := by
    rw [ranked, used_append_zeros, ranked]
  rw [ofLengths?, ofLengths?, ofFullLengths?, ofFullLengths?, hranked]

end CodeTree

end CircuitFixtures.Deflate
