import CircuitFixtures.Proofs.Index.Ascending
import CircuitFixtures.Proofs.Json.Text

/-!
# Written objects are read back

`object` writes its members line by line; what stands in front of a member, a comma or
nothing, is what `nextKey` looks for (`nextKey_line`, `nextKey_end`). `Reads` relates a reader of
values to the way they are written, whatever follows. `indexObject_reads` carries it from the
values to an object with indices as keys, by induction on the entries.
-/

namespace CircuitFixtures.Json

/-! ## Members -/

/-- What separates a member from the one in front of it. -/
def separator (first : Bool) : List Char :=
  if first then [] else [',']

/-- Members behind others, or behind the brace when `first` is set. -/
def lines (level : Nat) (first : Bool) : List (List Char × List Char) → List Char
  | [] => []
  | (key, value) :: ms =>
    separator first ++ newLine level ++ quote key ++ ':' :: ' ' :: value ++ lines level false ms

theorem members_eq_lines (level : Nat) (ms : List (List Char × List Char)) :
    members level ms = lines level true ms := by
  have behind (m : List Char × List Char) (ms : List (List Char × List Char)) :
      lines level false (m :: ms) = ',' :: lines level true (m :: ms) := by
    simp [lines, separator]
  fun_induction members level ms with
  | case1 => rfl
  | case2 key value => simp [lines, separator]
  | case3 key value ms hms ih =>
    obtain ⟨m, ms, rfl⟩ := List.exists_cons_of_ne_nil hms
    rw [lines, behind, ih]
    simp [separator]

/-- The members stand between braces, and only blanks come before the one that closes. -/
theorem object_append (level : Nat) (ms : List (List Char × List Char)) (rest : List Char) :
    ∃ closing, object level ms ++ rest = '{' :: (lines (level + 1) true ms ++ closing) ∧
      skipBlanks closing = '}' :: rest := by
  fun_cases object level ms with
  | case1 => exact ⟨'}' :: rest, rfl, skipBlanks_cons rfl⟩
  | case2 hms =>
    refine ⟨newLine level ++ '}' :: rest, ?_, ?_⟩
    · rw [members_eq_lines]
      simp
    · rw [skipBlanks_newLine, skipBlanks_cons rfl]

theorem nextKey_line (level : Nat) (first : Bool) (cs : List Char) :
    nextKey first (separator first ++ newLine level ++ '"' :: cs) = .ok (true, cs) := by
  have hquote : skipBlanks (newLine level ++ '"' :: cs) = '"' :: cs := by
    rw [skipBlanks_newLine, skipBlanks_cons rfl]
  cases first with
  | true => simp [separator, nextKey, hquote]
  | false =>
    have hcomma : skipBlanks (',' :: (newLine level ++ '"' :: cs)) =
        ',' :: (newLine level ++ '"' :: cs) := skipBlanks_cons rfl
    simp [separator, nextKey, hcomma, hquote]

theorem nextKey_end {first : Bool} {cs rest : List Char} (h : skipBlanks cs = '}' :: rest) :
    nextKey first cs = .ok (false, '}' :: rest) := by
  simp [nextKey, h]

/-! ## Values -/

/-- The reader takes back what is written behind a blank, whatever follows. -/
def Reads {α : Type} (read : Reader α) (write : α → List Char) : Prop :=
  ∀ x rest, read (' ' :: (write x ++ rest)) = .ok (x, rest)

theorem text_reads : Reads text quote := by
  intro cs rest
  have hskip : skipBlanks (' ' :: (quote cs ++ rest)) = quote cs ++ rest := by
    rw [quote_append]
    rfl
  rw [text, hskip, quote_append]
  exact textTail_escaped cs rest

theorem memberValue_written {α : Type} {value : Reader α} {write : α → List Char}
    (h : Reads value write) (x : α) (rest : List Char) :
    memberValue value (':' :: ' ' :: (write x ++ rest)) = .ok (x, rest) := by
  have hcolon : colon (':' :: ' ' :: (write x ++ rest)) = .ok ((), ' ' :: (write x ++ rest)) := rfl
  rw [memberValue, hcolon]
  exact h x rest

/-! ## Objects with indices as keys -/

section Indices

variable {α : Type} {value : Reader α} {write : α → List Char}

/-- Entries as members of an object. -/
def written (write : α → List Char) (es : List (Index × α)) : List (List Char × List Char) :=
  es.map (fun p => (decimal p.1.toNat, write p.2))

/-- One entry behind others. -/
theorem indexMembers_cons (h : Reads value write) (level : Nat) (first : Bool) (m : IndexMap α)
    (i : Index) (x : α) (rest : List Char) :
    indexMembers value first m
      (separator first ++ newLine level ++ quote (decimal i.toNat) ++ ':' :: ' ' :: write x ++ rest) =
        indexMembers value false (m.insert i x) rest := by
  have htext : separator first ++ newLine level ++ quote (decimal i.toNat) ++
      ':' :: ' ' :: write x ++ rest =
        separator first ++ newLine level ++
          '"' :: (decimal i.toNat ++ '"' :: ':' :: ' ' :: (write x ++ rest)) := by
    simp [quote_decimal]
  have hshorter : rest.length < (separator first ++ newLine level ++
      '"' :: (decimal i.toNat ++ '"' :: ':' :: ' ' :: (write x ++ rest))).length := by
    simp only [List.length_append, List.length_cons]
    omega
  rw [htext, indexMembers, nextKey_line]
  simp only [indexKey_decimal, memberValue_written h, if_pos hshorter]

theorem indexMembers_lines (h : Reads value write) (level : Nat) (first : Bool) (m : IndexMap α)
    (es : List (Index × α)) (rest : List Char) :
    indexMembers value first m (lines level first (written write es) ++ rest) =
      indexMembers value (first && es.isEmpty) (es.foldl (fun m p => m.insert p.1 p.2) m) rest := by
  induction es generalizing first m with
  | nil => simp [written, lines]
  | cons p es ih =>
    obtain ⟨i, x⟩ := p
    have htext : lines level first (written write ((i, x) :: es)) ++ rest =
        separator first ++ newLine level ++ quote (decimal i.toNat) ++ ':' :: ' ' :: write x ++
          (lines level false (written write es) ++ rest) := by
      simp [written, lines]
    rw [htext, indexMembers_cons h, ih]
    simp

/-- An object of entries is read as the map that they make. -/
theorem indexObject_reads (h : Reads value write) (level : Nat) :
    Reads (indexObject value) (fun m => object level (written write m.entries)) := by
  intro m rest
  obtain ⟨closing, hobject, hclosing⟩ := object_append level (written write m.entries) rest
  have hmap : m.entries.foldl (fun m p => m.insert p.1 p.2) .empty = m := IndexMap.ofList_entries m
  have hmembers : indexMembers value true .empty
      (lines (level + 1) true (written write m.entries) ++ closing) = .ok (m, '}' :: rest) := by
    rw [indexMembers_lines h, hmap, indexMembers, nextKey_end hclosing]
  have hskip (cs : List Char) : skipBlanks (' ' :: '{' :: cs) = '{' :: cs := rfl
  rw [hobject, indexObject, hskip]
  simp only [hmembers, List.tail_cons]

end Indices

end CircuitFixtures.Json
