import CircuitFixtures.Proofs.Assignment.Edits

/-!
# Entries with repeated keys

A map made of a list of entries holds the last entry of every key (`IndexMap.get?_ofList`) and is
as large as the list has different keys (`IndexMap.size_ofList`). Where no key stands twice in the
list, it has the entries of the list, sorted (`IndexMap.perm_entries_ofList`), whatever their order
in the list is (`IndexMap.ofList_of_perm`).
-/

namespace CircuitFixtures.IndexMap

variable {α β : Type}

/-- The value of the last entry with key `i`. -/
def last? (i : Index) (es : List (Index × α)) : Option α :=
  lookup i es.reverse

/-- No key stands twice. -/
def Distinct (es : List (Index × α)) : Prop :=
  (es.map (·.1)).Nodup

instance (es : List (Index × α)) : Decidable (Distinct es) :=
  inferInstanceAs (Decidable (List.Nodup _))

theorem lookup_append (i : Index) (es fs : List (Index × α)) :
    lookup i (es ++ fs) = (lookup i es).or (lookup i fs) := by
  induction es with
  | nil => rfl
  | cons p es ih =>
    rw [List.cons_append, lookup, lookup]
    split
    · rfl
    · exact ih

theorem last?_cons (i j : Index) (x : α) (es : List (Index × α)) :
    last? j ((i, x) :: es) = (last? j es).or (if j = i then some x else none) := by
  rw [last?, List.reverse_cons, lookup_append]
  rfl

/-- Entries that are added one after the other. -/
theorem get?_foldl_insert (es : List (Index × α)) (m : IndexMap α) (i : Index) :
    (es.foldl (fun m p => m.insert p.1 p.2) m).get? i = (last? i es).or (m.get? i) := by
  induction es generalizing m with
  | nil => rfl
  | cons p es ih =>
    rw [List.foldl_cons, ih, get?_insert, last?_cons, Option.or_assoc]
    split <;> rfl

theorem get?_ofList (es : List (Index × α)) (i : Index) : (ofList es).get? i = last? i es := by
  rw [ofList, get?_foldl_insert, get?_empty, Option.or_none]

theorem mem_keys_foldl_insert {es : List (Index × α)} {m : IndexMap α} {i : Index} :
    i ∈ (es.foldl (fun m p => m.insert p.1 p.2) m).keys ↔ i ∈ m.keys ∨ i ∈ es.map (·.1) := by
  induction es generalizing m with
  | nil => simp
  | cons p es ih =>
    rw [List.foldl_cons, ih, mem_keys_insert, List.map_cons, List.mem_cons, or_comm (a := i = p.1),
      or_assoc]

theorem mem_keys_ofList {es : List (Index × α)} {i : Index} :
    i ∈ (ofList es).keys ↔ i ∈ es.map (·.1) := by
  rw [ofList, mem_keys_foldl_insert]
  exact or_iff_right List.not_mem_nil

/-! ## Entries without repeats -/

section

variable {es fs : List (Index × α)} {i : Index} {x : α}

theorem Distinct.of_perm (h : Distinct es) (hperm : es.Perm fs) : Distinct fs :=
  (hperm.map _).nodup_iff.1 h

theorem last?_eq_some_iff (h : Distinct es) : last? i es = some x ↔ (i, x) ∈ es := by
  induction es generalizing x with
  | nil => simp [last?, lookup]
  | cons p es ih =>
    obtain ⟨j, y⟩ := p
    obtain ⟨hj, hes⟩ := List.nodup_cons.1 h
    rw [last?_cons, List.mem_cons, ← ih hes]
    by_cases hij : i = j
    · subst hij
      -- The index does not come again.
      have hnone : last? i es = none := by
        apply Option.eq_none_iff_forall_ne_some.2
        intro z hz
        exact hj (List.mem_map.2 ⟨(i, z), (ih hes).1 hz, rfl⟩)
      simp [hnone, eq_comm]
    · simp [hij]

theorem ofList_of_perm (h : Distinct es) (hperm : es.Perm fs) : ofList es = ofList fs := by
  apply ext_get?
  intro i
  apply Option.ext
  intro x
  rw [get?_ofList, get?_ofList, last?_eq_some_iff h, last?_eq_some_iff (h.of_perm hperm),
    hperm.mem_iff]

/-- The entries of the map are those of the list. -/
theorem perm_entries_ofList (h : Distinct es) : (ofList es).entries.Perm es := by
  have hentries : (ofList es).entries.Nodup :=
    (ofList es).ascending.imp fun hpq heq => UInt32.ne_of_lt hpq (congrArg Prod.fst heq)
  have hes : es.Nodup :=
    List.Pairwise.of_map _ (fun _ _ hne heq => hne (congrArg Prod.fst heq)) h
  refine (List.perm_ext_iff_of_nodup hentries hes).2 fun p => ?_
  rw [← last?_eq_some_iff h, ← get?_ofList, get?_eq_some]

end

/-! ## Sizes -/

theorem nodup_keys (m : IndexMap α) : m.keys.Nodup :=
  (List.pairwise_map.2 m.ascending).imp UInt32.ne_of_lt

/-- Indices that stand once each are fewer than the members of a list that holds no others, unless
these stand once each too. -/
theorem length_le_and_nodup {ks is : List Index} (hks : ks.Nodup) (h : ∀ i, i ∈ ks ↔ i ∈ is) :
    ks.length ≤ is.length ∧ (ks.length = is.length → is.Nodup) := by
  induction is generalizing ks with
  | nil =>
    have hnil : ks = [] :=
      List.eq_nil_iff_forall_not_mem.2 fun i hi => List.not_mem_nil ((h i).1 hi)
    rw [hnil]
    exact ⟨Nat.le_refl 0, fun _ => List.nodup_nil⟩
  | cons i is ih =>
    by_cases hi : i ∈ is
    · have hrest : ∀ j, j ∈ ks ↔ j ∈ is := by
        intro j
        rw [h, List.mem_cons]
        exact or_iff_right_of_imp fun hj => hj ▸ hi
      have hle := (ih hks hrest).1
      rw [List.length_cons]
      exact ⟨by omega, fun heq => by omega⟩
    · have hrest : ∀ j, j ∈ ks.erase i ↔ j ∈ is := by
        intro j
        rw [hks.mem_erase_iff, h, List.mem_cons]
        constructor
        · rintro ⟨hne, hj | hj⟩
          · exact absurd hj hne
          · exact hj
        · intro hj
          exact ⟨fun heq => hi (heq ▸ hj), .inr hj⟩
      have hmem : i ∈ ks := (h i).2 List.mem_cons_self
      have hlength := List.length_erase_of_mem hmem
      have hpos := List.length_pos_of_mem hmem
      obtain ⟨hle, hnodup⟩ := ih (hks.erase i) hrest
      rw [List.length_cons]
      exact ⟨by omega, fun heq => List.nodup_cons.2 ⟨hi, hnodup (by omega)⟩⟩

/-- A map with the keys of the entries is as large as they are many when no key stands twice. -/
theorem size_eq_length_iff {m : IndexMap β} {es : List (Index × α)}
    (h : ∀ i, i ∈ m.keys ↔ i ∈ es.map (·.1)) : m.size = es.length ↔ Distinct es := by
  have hkeys : m.keys.length = m.size := List.length_map _
  have hes : (es.map (·.1)).length = es.length := List.length_map _
  rw [← hkeys, ← hes]
  constructor
  · exact (length_le_and_nodup m.nodup_keys h).2
  · intro hdistinct
    exact ((List.perm_ext_iff_of_nodup m.nodup_keys hdistinct).2 h).length_eq

private theorem nodup_eraseDups (is : List Index) : is.eraseDups.Nodup := by
  cases is with
  | nil => simp
  | cons i is =>
    rw [List.eraseDups_cons, List.nodup_cons]
    constructor
    · intro hi
      have hother := (List.mem_filter.1 (List.mem_eraseDups.1 hi)).2
      simp at hother
    · exact nodup_eraseDups (is.filter fun j => !j == i)
termination_by is.length
decreasing_by
  have hle := List.length_filter_le (fun j => !j == i) is
  simp_all only [List.length_cons]
  omega

/-- A map of a list of entries is as large as the list has different keys. -/
theorem size_ofList (es : List (Index × α)) :
    (ofList es).size = (es.map (·.1)).eraseDups.length := by
  have hmem : ∀ i, i ∈ (ofList es).keys ↔ i ∈ (es.map (·.1)).eraseDups := by
    intro i
    rw [mem_keys_ofList, List.mem_eraseDups]
  have hkeys : (ofList es).keys.length = (ofList es).size := List.length_map _
  rw [← hkeys]
  exact ((List.perm_ext_iff_of_nodup (nodup_keys _) (nodup_eraseDups _)).2 hmem).length_eq

end CircuitFixtures.IndexMap
