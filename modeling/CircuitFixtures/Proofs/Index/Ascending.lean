import CircuitFixtures.Index.Set

/-!
# Ascending lists of indices

Sets of indices are equal when they have the same members (`IndexSet.ext_mem`), and so are ascending
lists (`Index.Lists.eq_iff`). Neither a set nor a map has more entries than there are indices
(`IndexSet.length_elems_le`, `IndexMap.length_entries_le`), and a map is made of its own entries
(`IndexMap.ofList_entries`).
-/

namespace CircuitFixtures

-- The bound that carries the induction: the first index and the length together.
private theorem toNat_add_length_le {i : Index} {is : List Index}
    (h : (i :: is).Pairwise (· < ·)) : i.toNat + (i :: is).length ≤ 4294967296 := by
  induction is generalizing i with
  | nil =>
    have hi := UInt32.toNat_lt i
    simp only [List.length_cons, List.length_nil]
    omega
  | cons j is ih =>
    obtain ⟨hi, hrest⟩ := List.pairwise_cons.1 h
    have hij : i.toNat < j.toNat := UInt32.lt_iff_toNat_lt.1 (hi j List.mem_cons_self)
    have hj := ih hrest
    simp only [List.length_cons] at hj ⊢
    omega

theorem length_le_of_ascending {is : List Index} (h : is.Pairwise (· < ·)) :
    is.length ≤ 4294967296 := by
  cases is with
  | nil => simp
  | cons i is =>
    have hle := toNat_add_length_le h
    omega

namespace IndexSet

theorem length_elems_le (s : IndexSet) : s.elems.length ≤ 4294967296 :=
  length_le_of_ascending s.ascending

theorem ext_mem {s t : IndexSet} (h : ∀ i, i ∈ s.elems ↔ i ∈ t.elems) : s = t := by
  -- A set is a map without values.
  have tagged (u : IndexSet) :
      (u.elems.map (fun i => (i, ()))).Pairwise (fun p q => p.1 < q.1) := by
    simpa [List.pairwise_map] using u.ascending
  have hmap : s.elems.map (fun i => (i, ())) = t.elems.map (fun i => (i, ())) :=
    IndexMap.eq_of_mem_iff (tagged s) (tagged t) fun p => by simp [h]
  have helems : s.elems = t.elems := by
    have hfst := congrArg (List.map (·.1)) hmap
    simpa [Function.comp_def] using hfst
  cases s
  cases t
  cases helems
  rfl

theorem eq_ofList_iff {s : IndexSet} {is : List Index} :
    s = ofList is ↔ ∀ i, i ∈ s.elems ↔ i ∈ is := by
  constructor
  · rintro rfl i
    exact mem_ofList
  · intro h
    exact ext_mem fun i => (h i).trans mem_ofList.symm

end IndexSet

/-- Ascending lists with the same members are equal. -/
theorem eq_of_ascending {is js : List Index} (his : is.Pairwise (· < ·)) (hjs : js.Pairwise (· < ·))
    (h : ∀ i, i ∈ is ↔ i ∈ js) : is = js := by
  have hset : (⟨is, his⟩ : IndexSet) = ⟨js, hjs⟩ := IndexSet.ext_mem h
  exact congrArg IndexSet.elems hset

/-- The list has the wanted indices, all of them, in ascending order. -/
def Index.Lists (is : List Index) (wanted : Index → Prop) : Prop :=
  is.Pairwise (· < ·) ∧ ∀ i, i ∈ is ↔ wanted i

theorem Index.Lists.eq_iff {is js : List Index} {wanted wanted' : Index → Prop}
    (h : Lists is wanted) (h' : Lists js wanted') : is = js ↔ ∀ i, wanted i ↔ wanted' i := by
  constructor
  · rintro rfl i
    rw [← h.2, h'.2]
  · intro hwanted
    exact eq_of_ascending h.1 h'.1 fun i => (h.2 i).trans ((hwanted i).trans (h'.2 i).symm)

theorem Index.Lists.unique {is js : List Index} {wanted : Index → Prop} (h : Lists is wanted)
    (h' : Lists js wanted) : is = js :=
  (h.eq_iff h').2 fun _ => Iff.rfl

namespace IndexMap

variable {α : Type}

theorem length_entries_le (m : IndexMap α) : m.entries.length ≤ 4294967296 := by
  have h : (m.entries.map (·.1)).Pairwise (· < ·) := List.pairwise_map.2 m.ascending
  simpa using length_le_of_ascending h

private theorem insertEntry_of_lt {i : Index} {x : α} {es : List (Index × α)}
    (h : ∀ p ∈ es, p.1 < i) : insertEntry i x es = es ++ [(i, x)] := by
  induction es with
  | nil => rfl
  | cons p es ih =>
    obtain ⟨j, y⟩ := p
    have hj : j < i := h _ List.mem_cons_self
    rw [insertEntry, if_neg (UInt32.lt_asymm hj), if_neg (UInt32.ne_of_lt hj).symm,
      ih fun p hp => h p (List.mem_cons_of_mem _ hp)]
    rfl

private theorem entries_foldl_insert {m : IndexMap α} {es : List (Index × α)}
    (h : (m.entries ++ es).Pairwise (fun p q => p.1 < q.1)) :
    (es.foldl (fun n p => n.insert p.1 p.2) m).entries = m.entries ++ es := by
  induction es generalizing m with
  | nil => simp
  | cons p es ih =>
    have hp : ∀ q ∈ m.entries, q.1 < p.1 := fun q hq =>
      (List.pairwise_append.1 h).2.2 q hq p List.mem_cons_self
    have hins : (m.insert p.1 p.2).entries = m.entries ++ [p] := insertEntry_of_lt hp
    rw [List.foldl_cons, ih (by rwa [hins, List.append_assoc]), hins, List.append_assoc]
    rfl

theorem ext_entries {m n : IndexMap α} (h : m.entries = n.entries) : m = n := by
  cases m
  cases n
  cases h
  rfl

theorem ofList_entries (m : IndexMap α) : ofList m.entries = m :=
  ext_entries (entries_foldl_insert (m := empty) (List.nil_append m.entries ▸ m.ascending))

end IndexMap

end CircuitFixtures
