import CircuitFixtures.Assignment
import CircuitFixtures.Proofs.Index.Ascending

/-!
# Indices without a gap

`Index.Interval start n is` says that a list of indices holds the `n` numbers from `start` on and
nothing else, and `Index.UpTo n is` that it holds those from `1` to `n`.

* Of ascending indices this fixes the whole list (`Index.interval_iff`).
* No interval goes past the last index (`Index.Interval.end_le`).
* The test for a gap compares each key with a sum of 64 bits, and none of these sums wraps around
  (`Index.toUInt64_eq_add_iff`). So it decides, for every assignment and every start, whether the
  keys are an interval (`Assignment.contiguous_exactly`).
-/

namespace CircuitFixtures

namespace Index

/-! ## Intervals -/

/-- Exactly the `n` numbers from `start` on. -/
def Interval (start n : Nat) (is : List Index) : Prop :=
  ∀ k : Nat, k ∈ is.map (·.toNat) ↔ start ≤ k ∧ k < start + n

/-- Exactly the indices `1`, `2` and so on up to `n`. -/
def UpTo (n : Nat) (is : List Index) : Prop :=
  ∀ k : Nat, k ∈ is.map (·.toNat) ↔ 1 ≤ k ∧ k ≤ n

section

variable {start n : Nat} {is js : List Index} {i : Index}

theorem upTo_iff_interval : UpTo n is ↔ Interval 1 n is := by
  have hend (k : Nat) : k ≤ n ↔ k < 1 + n := by omega
  simp only [UpTo, Interval, hend]

private theorem ascending_toNat (h : is.Pairwise (· < ·)) :
    (is.map (·.toNat)).Pairwise (· < ·) :=
  List.pairwise_map.2 (h.imp fun hij => UInt32.lt_iff_toNat_lt.1 hij)

theorem toNat_list_injective (h : is.map (·.toNat) = js.map (·.toNat)) : is = js :=
  (List.map_inj_right fun _ _ hij => UInt32.toNat_inj.1 hij).1 h

/-- Strictly ascending lists of numbers with the same members are equal. -/
private theorem ascending_ext {xs ys : List Nat} (hx : xs.Pairwise (· < ·))
    (hy : ys.Pairwise (· < ·)) (h : ∀ k, k ∈ xs ↔ k ∈ ys) : xs = ys := by
  have hperm : xs.Perm ys :=
    (List.perm_ext_iff_of_nodup (hx.imp Nat.ne_of_lt) (hy.imp Nat.ne_of_lt)).2 h
  exact hperm.eq_of_pairwise (fun _ _ _ _ hxy hyx => absurd hxy (Nat.lt_asymm hyx)) hx hy

/-- In an ascending list each number of the interval stands at its place. -/
theorem interval_iff (h : is.Pairwise (· < ·)) :
    Interval start n is ↔ is.map (·.toNat) = List.range' start n := by
  constructor
  · intro hint
    exact ascending_ext (ascending_toNat h) List.pairwise_lt_range' fun k =>
      (hint k).trans List.mem_range'_1.symm
  · intro heq k
    rw [heq, List.mem_range'_1]

theorem Interval.length_eq (h : is.Pairwise (· < ·)) (hint : Interval start n is) :
    is.length = n := by
  have hlen := congrArg List.length ((interval_iff h).1 hint)
  rwa [List.length_map, List.length_range'] at hlen

theorem Interval.mem_iff (hint : Interval start n is) :
    i ∈ is ↔ start ≤ i.toNat ∧ i.toNat < start + n := by
  rw [← hint i.toNat, List.mem_map]
  constructor
  · intro hi
    exact ⟨i, hi, rfl⟩
  · rintro ⟨j, hj, hji⟩
    rwa [← UInt32.toNat_inj.1 hji]

/-- Each number of an interval is an index, the last one too. -/
theorem Interval.end_le (hint : Interval start n is) (hstart : start ≤ 4294967296) :
    start + n ≤ 4294967296 := by
  cases n with
  | zero => exact hstart
  | succ n =>
    obtain ⟨i, -, hi⟩ := List.mem_map.1 ((hint (start + n)).2 ⟨by omega, by omega⟩)
    have hlt : i.toNat < 4294967296 := UInt32.toNat_lt i
    omega

theorem interval_of_mem_iff (hend : start + n ≤ 4294967296)
    (h : ∀ i : Index, i ∈ is ↔ start ≤ i.toNat ∧ i.toNat < start + n) : Interval start n is := by
  intro k
  rw [List.mem_map]
  constructor
  · rintro ⟨i, hi, rfl⟩
    exact (h i).1 hi
  · intro hk
    have hval : (UInt32.ofNat k).toNat = k := by
      rw [UInt32.toNat_ofNat']
      exact Nat.mod_eq_of_lt (Nat.lt_of_lt_of_le hk.2 hend)
    exact ⟨UInt32.ofNat k, (h _).2 (by rwa [hval]), hval⟩

theorem upTo_iff (h : is.Pairwise (· < ·)) : UpTo n is ↔ is.map (·.toNat) = List.range' 1 n :=
  upTo_iff_interval.trans (interval_iff h)

theorem UpTo.length_eq (h : is.Pairwise (· < ·)) (hup : UpTo n is) : is.length = n :=
  (upTo_iff_interval.1 hup).length_eq h

theorem UpTo.eq (hi : is.Pairwise (· < ·)) (hj : js.Pairwise (· < ·)) (his : UpTo n is)
    (hjs : UpTo n js) : is = js :=
  toNat_list_injective (((upTo_iff hi).1 his).trans ((upTo_iff hj).1 hjs).symm)

theorem UpTo.mem_iff (hup : UpTo n is) : i ∈ is ↔ 1 ≤ i.toNat ∧ i.toNat ≤ n := by
  rw [(upTo_iff_interval.1 hup).mem_iff]
  omega

theorem UpTo.lt_size (hup : UpTo n is) : n < 4294967296 := by
  have hend := (upTo_iff_interval.1 hup).end_le (by omega)
  omega

theorem upTo_of_mem_iff (hn : n < 4294967296)
    (h : ∀ i : Index, i ∈ is ↔ 1 ≤ i.toNat ∧ i.toNat ≤ n) : UpTo n is := by
  refine upTo_iff_interval.2 (interval_of_mem_iff (by omega) fun i => ?_)
  rw [h i]
  omega

end

/-! ## The test for a gap -/

/-- The 64-bit sum of an index and a position does not wrap around, as there are no more positions
than indices. -/
theorem toUInt64_eq_add_iff {i start : Index} {k : Nat} (hk : k ≤ 4294967296) :
    i.toUInt64 = start.toUInt64 + UInt64.ofNat k ↔ i.toNat = start.toNat + k := by
  have hstart : start.toNat < 4294967296 := UInt32.toNat_lt start
  have hpos : (UInt64.ofNat k).toNat = k :=
    UInt64.toNat_ofNat_of_lt' (Nat.lt_of_le_of_lt hk (by decide))
  have hsum : (start.toUInt64 + UInt64.ofNat k).toNat = start.toNat + k := by
    rw [UInt64.toNat_add, UInt32.toNat_toUInt64, hpos]
    exact Nat.mod_eq_of_lt (by omega)
  rw [← UInt64.toNat_inj, hsum, UInt32.toNat_toUInt64]

/-- The loop over the positions: each index is the one its position gives. -/
private theorem all_zipIdx_iff {start : Index} {is : List Index} {k : Nat}
    (hk : k + is.length ≤ 4294967296) :
    (is.zipIdx k).all (fun p => p.1.toUInt64 == start.toUInt64 + UInt64.ofNat p.2) = true ↔
      is.map (·.toNat) = List.range' (start.toNat + k) is.length := by
  -- The bound is on the position behind the last one, which the rest of the list has too.
  induction is generalizing k with
  | nil => simp
  | cons i is ih =>
    rw [List.length_cons] at hk
    rw [List.zipIdx_cons, List.all_cons, Bool.and_eq_true, ih (by omega), beq_iff_eq,
      toUInt64_eq_add_iff (by omega), List.map_cons, List.length_cons, List.range'_succ,
      List.cons.injEq, Nat.add_assoc]

end Index

namespace Assignment

theorem ascending_keys (m : Assignment) : m.keys.Pairwise (· < ·) :=
  List.pairwise_map.2 m.ascending

theorem isContiguousFrom_iff_interval (m : Assignment) (start : Index) :
    m.isContiguousFrom start = true ↔ Index.Interval start.toNat m.keys.length m.keys := by
  have hkeys : 0 + m.keys.length ≤ 4294967296 := by
    rw [Nat.zero_add]
    exact length_le_of_ascending m.ascending_keys
  rw [Index.interval_iff m.ascending_keys, isContiguousFrom, Index.all_zipIdx_iff hkeys]
  rfl

theorem isContiguousFrom_one_iff (m : Assignment) :
    m.isContiguousFrom 1 = true ↔ Index.UpTo m.keys.length m.keys := by
  rw [isContiguousFrom_iff_interval, Index.upTo_iff_interval]
  rfl

theorem isContiguousFrom_one_iff_exists (m : Assignment) :
    m.isContiguousFrom 1 = true ↔ ∃ n, Index.UpTo n m.keys := by
  rw [isContiguousFrom_one_iff]
  constructor
  · exact fun h => ⟨_, h⟩
  · rintro ⟨n, h⟩
    rwa [h.length_eq m.ascending_keys]

/-- The test is exact at every start: its result is true where the keys are the numbers from `start`
on, as many as there are entries, and no others. So it is false where they would have to go past
the last index, and true where there are none. -/
theorem contiguous_exactly (m : Assignment) (start : Index) :
    (m.isContiguousFrom start = true ↔
      ∀ k : Nat, k ∈ m.keys.map (·.toNat) ↔ start.toNat ≤ k ∧ k < start.toNat + m.size) ∧
    (4294967296 < start.toNat + m.size → m.isContiguousFrom start = false) ∧
    isContiguousFrom IndexMap.empty start = true := by
  have hexact : m.isContiguousFrom start = true ↔
      Index.Interval start.toNat m.size m.keys := by
    rw [isContiguousFrom_iff_interval, IndexMap.keys, List.length_map]
    rfl
  refine ⟨hexact, fun hpast => Bool.eq_false_iff.2 fun h => ?_, rfl⟩
  have hstart : start.toNat < 4294967296 := UInt32.toNat_lt start
  have hend := (hexact.1 h).end_le (Nat.le_of_lt hstart)
  omega

/-- The last two indices. -/
def lastTwo : Assignment :=
  .ofList [(4294967294, Field.one), (4294967295, Field.zero)]

/-- The last two indices are contiguous from the first of them. The last index and `0`, to which a sum
of 32 bits would go on, are not contiguous from the last index. -/
theorem contiguous_at_the_end :
    lastTwo.isContiguousFrom 4294967294 = true ∧
      isContiguousFrom (.ofList [(4294967295, Field.one), (0, Field.zero)]) 4294967295 = false := by
  have hlast : Index.Interval 4294967294 2 lastTwo.keys :=
    (Index.interval_iff lastTwo.ascending_keys).2 (by decide)
  exact ⟨(contiguous_exactly lastTwo 4294967294).1.2 hlast,
    (contiguous_exactly _ 4294967295).2.1 (by decide)⟩

end Assignment

end CircuitFixtures
