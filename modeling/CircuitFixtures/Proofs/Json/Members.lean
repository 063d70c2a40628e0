import CircuitFixtures.Proofs.Json.Object

/-!
# What the members of an object say

`Members` lists the members of an object with indices as keys, in the order they stand in and with
those that repeat a key. The reader makes a map of that list (`Members.read`, `members_of_read`,
`takes_indexObject`), a text has one such list at most (`unambiguous_entries`), and every list can be
written (`entries_written`).
-/

namespace CircuitFixtures.Json

variable {α β : Type}

/-- What a text says in front of a rest. -/
abbrev Spelling (α : Type) := List Char → α → List Char → Prop

/-- The reader takes what is spelled, and makes something of it. -/
def Takes (read : Reader β) (spells : Spelling α) (make : α → β) : Prop :=
  ∀ ⦃cs y rest⦄, read cs = .ok (y, rest) ↔ ∃ x, spells cs x rest ∧ make x = y

/-- What a reader takes, as it is. -/
def spelled (read : Reader α) : Spelling α := fun cs x rest =>
  read cs = .ok (x, rest)

theorem takes_spelled (read : Reader α) : Takes read (spelled read) id := by
  intro cs y rest
  simp [spelled]

/-- A text is one thing in front of one rest. -/
def Unambiguous (spells : Spelling α) : Prop :=
  ∀ ⦃cs x y rest rest'⦄, spells cs x rest → spells cs y rest' → x = y ∧ rest = rest'

theorem unambiguous_spelled (read : Reader α) : Unambiguous (spelled read) := by
  intro cs x y rest rest' h h'
  rw [spelled] at h h'
  rw [h] at h'
  cases h'
  exact ⟨rfl, rfl⟩

theorem wrongType_ne_ok {expected : String} {cs rest : List Char} {x : α} :
    wrongType expected cs ≠ .ok (x, rest) := by
  intro h
  unfold wrongType at h
  grind [failAt, failNext]

/-! ## Values of members -/

/-- A value behind a colon. -/
def Valued (spells : Spelling α) : Spelling α := fun cs x rest =>
  ∃ cs', colon cs = .ok ((), cs') ∧ spells cs' x rest

theorem takes_memberValue {read : Reader β} {spells : Spelling α} {make : α → β}
    (h : Takes read spells make) : Takes (memberValue read) (Valued spells) make := by
  intro cs y rest
  rw [memberValue]
  cases hcolon : colon cs with
  | error e => simp [Valued, hcolon]
  | ok r =>
    obtain ⟨⟨⟩, cs'⟩ := r
    simpa [Valued, hcolon] using @h cs' y rest

theorem unambiguous_valued {spells : Spelling α} (h : Unambiguous spells) :
    Unambiguous (Valued spells) := by
  rintro cs x y rest rest' ⟨cs1, hcolon, hx⟩ ⟨cs2, hcolon', hy⟩
  rw [hcolon] at hcolon'
  cases hcolon'
  exact h hx hy

/-! ## Members -/

section Entries

variable (value : Reader α)

/-- The members behind the brace of an object, up to the brace that closes it. Each takes at least
one character. -/
inductive Members : (first : Bool) → Spelling (List (Index × α))
  | done {first : Bool} {cs rest : List Char} (hend : nextKey first cs = .ok (false, rest)) :
    Members first cs [] rest
  | more {first : Bool} {cs cs1 cs2 cs3 rest : List Char} {i : Index} {x : α}
    {es : List (Index × α)} (hkey : nextKey first cs = .ok (true, cs1))
    (hindex : indexKey cs1 = .ok (i, cs2)) (hvalue : memberValue value cs2 = .ok (x, cs3))
    (hshorter : cs3.length < cs.length) (hmore : Members false cs3 es rest) :
    Members first cs ((i, x) :: es) rest

/-- An object with the entries as its members. -/
def Entries : Spelling (List (Index × α)) := fun cs es rest =>
  ∃ cs' closing, skipBlanks cs = '{' :: cs' ∧ Members value true cs' es closing ∧
    rest = closing.tail

variable {value}

theorem Members.read {first : Bool} {cs rest : List Char} {es : List (Index × α)}
    (h : Members value first cs es rest) (m : IndexMap α) :
    indexMembers value first m cs = .ok (es.foldl (fun m p => m.insert p.1 p.2) m, rest) := by
  induction h generalizing m with
  | done hend =>
    rw [indexMembers, hend]
    rfl
  | more hkey hindex hvalue hshorter _ ih =>
    rw [indexMembers, hkey]
    simp only [hindex, hvalue, if_pos hshorter]
    exact ih _

theorem members_of_read {first : Bool} {m m' : IndexMap α} {cs rest : List Char}
    (h : indexMembers value first m cs = .ok (m', rest)) :
    ∃ es, Members value first cs es rest ∧ es.foldl (fun m p => m.insert p.1 p.2) m = m' := by
  fun_induction indexMembers value first m cs with
  | case2 first m cs rest' hend =>
    cases h
    exact ⟨[], .done hend, rfl⟩
  | case5 first m cs cs1 hkey i cs2 hindex x cs3 hvalue hshorter ih =>
    obtain ⟨es, hes, hfold⟩ := ih h
    exact ⟨(i, x) :: es, .more hkey hindex hvalue hshorter hes, hfold⟩
  | _ => cases h

theorem unambiguous_members (first : Bool) : Unambiguous (Members value first) := by
  intro cs es es' rest rest' h h'
  induction h generalizing es' with
  | done hend =>
    cases h' with
    | done hend' =>
      rw [hend] at hend'
      cases hend'
      exact ⟨rfl, rfl⟩
    | more hkey =>
      rw [hend] at hkey
      cases hkey
  | more hkey hindex hvalue _ _ ih =>
    cases h' with
    | done hend =>
      rw [hkey] at hend
      cases hend
    | more hkey' hindex' hvalue' _ hmore' =>
      rw [hkey] at hkey'
      cases hkey'
      rw [hindex] at hindex'
      cases hindex'
      rw [hvalue] at hvalue'
      cases hvalue'
      obtain ⟨rfl, rfl⟩ := ih hmore'
      exact ⟨rfl, rfl⟩

theorem unambiguous_entries : Unambiguous (Entries value) := by
  rintro cs es es' rest rest' ⟨cs1, closing, hbrace, h, rfl⟩ ⟨cs2, closing', hbrace', h', rfl⟩
  rw [hbrace] at hbrace'
  cases hbrace'
  obtain ⟨rfl, rfl⟩ := unambiguous_members true h h'
  exact ⟨rfl, rfl⟩

/-- An object is read as the map that its members make one after the other. -/
theorem takes_indexObject : Takes (indexObject value) (Entries value) IndexMap.ofList := by
  intro cs m rest
  rw [indexObject]
  split
  · rename_i hskip
    simp [Entries, hskip, failNext]
  · rename_i cs' hskip
    constructor
    · intro h
      split at h
      · rename_i m' closing hread
        cases h
        obtain ⟨es, hes, rfl⟩ := members_of_read hread
        exact ⟨es, ⟨cs', closing, hskip, hes, rfl⟩, rfl⟩
      · cases h
    · rintro ⟨es, ⟨cs'', closing, hskip', hes, rfl⟩, rfl⟩
      rw [hskip] at hskip'
      cases hskip'
      rw [hes.read]
      rfl
  · rename_i hnil hbrace
    constructor
    · intro h
      exact absurd h wrongType_ne_ok
    · rintro ⟨es, ⟨cs', closing, hskip, -⟩, -⟩
      exact absurd hskip (hbrace cs')

/-! ## Every list can be written -/

variable {write : α → List Char}

theorem members_written (h : Reads value write) (level : Nat) (first : Bool)
    (es : List (Index × α)) {closing rest : List Char} (hclosing : skipBlanks closing = '}' :: rest) :
    Members value first (lines level first (written write es) ++ closing) es ('}' :: rest) := by
  induction es generalizing first with
  | nil => exact .done (nextKey_end hclosing)
  | cons p es ih =>
    obtain ⟨i, x⟩ := p
    have hmore := ih false
    generalize hbehind : lines level false (written write es) ++ closing = behind at hmore
    have htext : lines level first (written write ((i, x) :: es)) ++ closing =
        separator first ++ newLine level ++
          '"' :: (decimal i.toNat ++ '"' :: ':' :: ' ' :: (write x ++ behind)) := by
      simp [written, lines, quote_decimal, ← hbehind]
    have hshorter : behind.length < (separator first ++ newLine level ++
        '"' :: (decimal i.toNat ++ '"' :: ':' :: ' ' :: (write x ++ behind))).length := by
      simp only [List.length_append, List.length_cons]
      omega
    rw [htext]
    exact .more (nextKey_line level first _) (indexKey_decimal i _) (memberValue_written h x _)
      hshorter hmore

/-- The object that is written of entries has them as its members. -/
theorem entries_written (h : Reads value write) (level : Nat) (es : List (Index × α))
    (rest : List Char) :
    Entries value (' ' :: (object level (written write es) ++ rest)) es rest := by
  obtain ⟨closing, hobject, hclosing⟩ := object_append level (written write es) rest
  rw [hobject]
  exact ⟨_, '}' :: rest, rfl, members_written h (level + 1) true es hclosing, rfl⟩

end Entries

end CircuitFixtures.Json
