/-!
# Maps from witness indices

Finite maps with 32-bit keys, kept as a list of entries with strictly ascending keys.
`IndexMap.get?` is the view: `get?_insert`, `get?_erase`, `get?_filter` and `get?_map` say what
each operation does to it, `exchange_eq` what adding an entry gives back, and `ext_get?` says that
a map is its view.
-/

namespace CircuitFixtures

/-- The index of a circuit variable. -/
abbrev Index := UInt32

/-- The name of a variable. -/
def Index.text (i : Index) : String :=
  "_" ++ toString i.toNat

structure IndexMap (α : Type) where
  entries : List (Index × α)
  ascending : entries.Pairwise (fun p q => p.1 < q.1)
  deriving Repr, DecidableEq

namespace IndexMap

variable {α : Type}

def empty : IndexMap α :=
  ⟨[], List.Pairwise.nil⟩

instance : Inhabited (IndexMap α) := ⟨empty⟩

def size (m : IndexMap α) : Nat :=
  m.entries.length

def isEmpty (m : IndexMap α) : Bool :=
  m.entries.isEmpty

/-- The keys, ascending. -/
def keys (m : IndexMap α) : List Index :=
  m.entries.map (·.1)

/-- The value of the first entry with key `i`. -/
def lookup (i : Index) : List (Index × α) → Option α
  | [] => none
  | (j, x) :: rest => if i = j then some x else lookup i rest

def get? (m : IndexMap α) (i : Index) : Option α :=
  lookup i m.entries

def contains (m : IndexMap α) (i : Index) : Bool :=
  (m.get? i).isSome

/-- Puts an entry in its place in front of the greater keys and replaces one of its key. -/
def insertEntry (i : Index) (x : α) : List (Index × α) → List (Index × α)
  | [] => [(i, x)]
  | (j, y) :: rest =>
    if i < j then (i, x) :: (j, y) :: rest
    else if i = j then (i, x) :: rest
    else (j, y) :: insertEntry i x rest

theorem fst_mem_insertEntry {i : Index} {x : α} {es : List (Index × α)} {p : Index × α}
    (h : p ∈ insertEntry i x es) : p.1 = i ∨ p ∈ es := by
  induction es with
  | nil =>
    simp only [insertEntry, List.mem_singleton] at h
    exact .inl (by rw [h])
  | cons q rest ih =>
    obtain ⟨j, y⟩ := q
    simp only [insertEntry] at h
    split at h
    · rcases List.mem_cons.1 h with rfl | h
      · exact .inl rfl
      · exact .inr h
    · split at h
      · rcases List.mem_cons.1 h with rfl | h
        · exact .inl rfl
        · exact .inr (List.mem_cons_of_mem _ h)
      · rcases List.mem_cons.1 h with rfl | h
        · exact .inr List.mem_cons_self
        · rcases ih h with h | h
          · exact .inl h
          · exact .inr (List.mem_cons_of_mem _ h)

theorem lt_of_not_lt_of_ne {i j : Index} (h : ¬ i < j) (h' : i ≠ j) : j < i := by
  rcases UInt32.lt_or_eq_of_le (UInt32.not_lt.1 h) with h1 | h1
  · exact h1
  · exact absurd h1.symm h'

theorem ascending_insertEntry (i : Index) (x : α) {es : List (Index × α)}
    (h : es.Pairwise (fun p q => p.1 < q.1)) :
    (insertEntry i x es).Pairwise (fun p q => p.1 < q.1) := by
  induction es with
  | nil => simp [insertEntry]
  | cons q rest ih =>
    obtain ⟨j, y⟩ := q
    obtain ⟨hj, hrest⟩ := List.pairwise_cons.1 h
    simp only [insertEntry]
    split
    · rename_i hij
      refine List.pairwise_cons.2 ⟨fun p hp => ?_, h⟩
      rcases List.mem_cons.1 hp with rfl | hp
      · exact hij
      · exact UInt32.lt_trans hij (hj p hp)
    · rename_i hij
      split
      · rename_i heq
        subst heq
        exact List.pairwise_cons.2 ⟨hj, hrest⟩
      · rename_i hne
        refine List.pairwise_cons.2 ⟨fun p hp => ?_, ih hrest⟩
        rcases fst_mem_insertEntry hp with hp | hp
        · rw [hp]
          exact lt_of_not_lt_of_ne hij hne
        · exact hj p hp

/-- Adds an entry, in place of an entry of the same key. -/
def insert (m : IndexMap α) (i : Index) (x : α) : IndexMap α :=
  ⟨insertEntry i x m.entries, ascending_insertEntry i x m.ascending⟩

/-- The entries that `keep` accepts. -/
def filter (m : IndexMap α) (keep : Index → α → Bool) : IndexMap α :=
  ⟨m.entries.filter (fun p => keep p.1 p.2), m.ascending.filter _⟩

def erase (m : IndexMap α) (i : Index) : IndexMap α :=
  m.filter (fun j _ => j != i)

/-- The map that the entries make when they are added in order. -/
def ofList (es : List (Index × α)) : IndexMap α :=
  es.foldl (fun m p => m.insert p.1 p.2) empty

def toList (m : IndexMap α) : List (Index × α) :=
  m.entries

/-- The values changed one by one. -/
def map {β : Type} (m : IndexMap α) (f : α → β) : IndexMap β :=
  ⟨m.entries.map (fun p => (p.1, f p.2)), by
    simpa [List.pairwise_map] using m.ascending⟩

theorem lookup_insertEntry (i j : Index) (x : α) (es : List (Index × α)) :
    lookup j (insertEntry i x es) = if j = i then some x else lookup j es := by
  induction es with
  | nil => simp [insertEntry, lookup]
  | cons q rest ih =>
    obtain ⟨k, y⟩ := q
    simp only [insertEntry]
    split
    · simp [lookup]
    · split
      · rename_i heq
        subst heq
        by_cases hj : j = i <;> simp [lookup, hj]
      · rename_i hne
        by_cases hj : j = i
        · subst hj
          simp [lookup, hne, ih]
        · by_cases hk : j = k <;> simp [lookup, hk, hj, ih]
          intro hki
          exact absurd hki.symm (fun h => hne h)

theorem get?_insert (m : IndexMap α) (i j : Index) (x : α) :
    (m.insert i x).get? j = if j = i then some x else m.get? j :=
  lookup_insertEntry i j x m.entries

theorem get?_empty (i : Index) : (empty : IndexMap α).get? i = none := rfl

theorem lookup_eq_some {i : Index} {x : α} {es : List (Index × α)}
    (h : es.Pairwise (fun p q => p.1 < q.1)) : lookup i es = some x ↔ (i, x) ∈ es := by
  induction es with
  | nil => simp [lookup]
  | cons q rest ih =>
    obtain ⟨j, y⟩ := q
    obtain ⟨hj, hrest⟩ := List.pairwise_cons.1 h
    by_cases hij : i = j
    · subst hij
      simp only [lookup, if_pos, Option.some.injEq, List.mem_cons, Prod.mk.injEq, true_and]
      constructor
      · exact fun hx => .inl hx.symm
      · rintro (hx | hm)
        · exact hx.symm
        · exact absurd (hj _ hm) (UInt32.lt_irrefl _)
    · simp [lookup, hij, ih hrest]

theorem get?_eq_some {m : IndexMap α} {i : Index} {x : α} :
    m.get? i = some x ↔ (i, x) ∈ m.entries :=
  lookup_eq_some m.ascending

/-- Strictly ascending lists with the same members are equal. -/
theorem eq_of_mem_iff {es fs : List (Index × α)} (he : es.Pairwise (fun p q => p.1 < q.1))
    (hf : fs.Pairwise (fun p q => p.1 < q.1)) (h : ∀ p, p ∈ es ↔ p ∈ fs) : es = fs := by
  induction es generalizing fs with
  | nil =>
    cases fs with
    | nil => rfl
    | cons q fs => exact absurd ((h q).2 List.mem_cons_self) List.not_mem_nil
  | cons p es ih =>
    cases fs with
    | nil => exact absurd ((h p).1 List.mem_cons_self) List.not_mem_nil
    | cons q fs =>
      obtain ⟨hp, hes⟩ := List.pairwise_cons.1 he
      obtain ⟨hq, hfs⟩ := List.pairwise_cons.1 hf
      have hpq : p = q := by
        rcases List.mem_cons.1 ((h p).1 List.mem_cons_self) with h1 | h1
        · exact h1
        · rcases List.mem_cons.1 ((h q).2 List.mem_cons_self) with h2 | h2
          · exact h2.symm
          · exact absurd (UInt32.lt_trans (hq p h1) (hp q h2)) (UInt32.lt_irrefl _)
      subst hpq
      have htail : ∀ r, r ∈ es ↔ r ∈ fs := by
        intro r
        constructor
        · intro hr
          rcases List.mem_cons.1 ((h r).1 (List.mem_cons_of_mem _ hr)) with h1 | h1
          · subst h1
            exact absurd (hp r hr) (UInt32.lt_irrefl _)
          · exact h1
        · intro hr
          rcases List.mem_cons.1 ((h r).2 (List.mem_cons_of_mem _ hr)) with h1 | h1
          · subst h1
            exact absurd (hq r hr) (UInt32.lt_irrefl _)
          · exact h1
      rw [ih hes hfs htail]

/-- As `insertEntry`, with the value that the new one replaces. -/
def exchangeEntry (i : Index) (x : α) : List (Index × α) → Option α × List (Index × α)
  | [] => (none, [(i, x)])
  | (j, y) :: rest =>
    if i < j then (none, (i, x) :: (j, y) :: rest)
    else if i = j then (some y, (i, x) :: rest)
    else
      match exchangeEntry i x rest with
      | (old, rest) => (old, (j, y) :: rest)

theorem exchangeEntry_snd (i : Index) (x : α) (es : List (Index × α)) :
    (exchangeEntry i x es).2 = insertEntry i x es := by
  induction es with
  | nil => rfl
  | cons q rest ih =>
    obtain ⟨j, y⟩ := q
    simp only [exchangeEntry, insertEntry]
    split
    · rfl
    · split
      · rfl
      · rw [← ih]

theorem exchangeEntry_fst (i : Index) (x : α) {es : List (Index × α)}
    (h : es.Pairwise (fun p q => p.1 < q.1)) : (exchangeEntry i x es).1 = lookup i es := by
  induction es with
  | nil => rfl
  | cons q rest ih =>
    obtain ⟨j, y⟩ := q
    obtain ⟨hj, hrest⟩ := List.pairwise_cons.1 h
    simp only [exchangeEntry, lookup]
    split
    · rename_i hij
      rw [if_neg (UInt32.ne_of_lt hij)]
      cases hi : lookup i rest with
      | none => rfl
      | some z =>
        -- The keys behind `j` are greater than `i`.
        have hji : j < i := hj _ ((lookup_eq_some hrest).1 hi)
        exact absurd hij (UInt32.lt_asymm hji)
    · split
      · rfl
      · exact ih hrest

/-- Adds an entry, and gives the value of the one of its key that it replaces. -/
def exchange (m : IndexMap α) (i : Index) (x : α) : Option α × IndexMap α :=
  let replaced := exchangeEntry i x m.entries
  (replaced.1, ⟨replaced.2, exchangeEntry_snd i x m.entries ▸ ascending_insertEntry i x m.ascending⟩)

theorem exchange_eq (m : IndexMap α) (i : Index) (x : α) :
    m.exchange i x = (m.get? i, m.insert i x) := by
  simp only [exchange, exchangeEntry_fst i x m.ascending, exchangeEntry_snd]
  rfl

theorem ext_get? {m n : IndexMap α} (h : ∀ i, m.get? i = n.get? i) : m = n := by
  have hm : m.entries = n.entries := by
    refine eq_of_mem_iff m.ascending n.ascending (fun p => ?_)
    obtain ⟨i, x⟩ := p
    rw [← get?_eq_some, ← get?_eq_some, h]
  cases m
  cases n
  cases hm
  rfl

theorem get?_filter (m : IndexMap α) (keep : Index → α → Bool) (i : Index) :
    (m.filter keep).get? i = (m.get? i).filter (keep i) := by
  apply Option.ext
  intro x
  rw [get?_eq_some, Option.filter_eq_some_iff, get?_eq_some]
  simp [filter]

theorem get?_map {β : Type} (m : IndexMap α) (f : α → β) (i : Index) :
    (m.map f).get? i = (m.get? i).map f := by
  apply Option.ext
  intro y
  simp only [get?_eq_some, Option.map_eq_some_iff, map, List.mem_map, Prod.mk.injEq]
  constructor
  · rintro ⟨⟨j, x⟩, hp, rfl, rfl⟩
    exact ⟨x, hp, rfl⟩
  · rintro ⟨x, hp, rfl⟩
    exact ⟨(i, x), hp, rfl, rfl⟩

theorem keys_map {β : Type} (m : IndexMap α) (f : α → β) : (m.map f).keys = m.keys := by
  simp [keys, map]

theorem get?_erase (m : IndexMap α) (i j : Index) :
    (m.erase i).get? j = if j = i then none else m.get? j := by
  rw [erase, get?_filter]
  by_cases h : j = i
  · simp [h]
  · cases m.get? j <;> simp [h, Option.filter]

end IndexMap

end CircuitFixtures
