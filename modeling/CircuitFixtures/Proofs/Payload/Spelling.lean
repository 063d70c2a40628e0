import CircuitFixtures.Proofs.Payload.UniqueDecoding
import Mathlib.Data.List.Forall2

/-!
# One form and many forms

Most grammars of payloads have one form for each value, the one that is written
(`PartBytes.eq_encode`, `MessageBytes.eq_encode` and so on). The others are `Spelled`: their bytes
are those of a spelling, and a value may have several. Spellings are `PrefixFree` where no bytes are
those of two of them, whatever follows; then the bytes of a payload fix what is spelled in it.
-/

namespace CircuitFixtures.Payload

/-! ## Grammars with one form -/

theorem NumberBytes.eq_encode {width n : Nat} {q : List UInt8} (h : NumberBytes width q n) :
    q = LittleEndian.encode width n := by
  rw [← h.1, ← h.2, LittleEndian.encode_decode]

theorem CharsBytes.eq_encode {q : List UInt8} {cs : List Char} (h : CharsBytes q cs) :
    q = encodeChars cs := by
  obtain ⟨n, rfl, hn⟩ := h
  rw [hn.eq_encode]
  rfl

section

variable {α : Type} {G : Grammar α} {encode : α → List UInt8}

theorem Sequence.eq_flatMap {q : List UInt8} {xs : List α} (h : Sequence G q xs)
    (hG : ∀ q x, G q x → q = encode x) : q = xs.flatMap encode := by
  induction h with
  | nil => rfl
  | cons hx _ ih => rw [hG _ _ hx, ih, List.flatMap_cons]

theorem ListBytes.eq_encode {q : List UInt8} {xs : List α} (h : ListBytes G q xs)
    (hG : ∀ q x, G q x → q = encode x) : q = encodeList encode xs := by
  obtain ⟨n, s, rfl, hn, hs⟩ := h
  rw [hn.eq_encode, hs.eq_flatMap hG]
  rfl

end

theorem InputBytes.eq_encode {q : List UInt8} {x : Input} (h : InputBytes q x) :
    q = encodeInput x := by
  obtain ⟨a, b, rfl, ha, hb⟩ := h
  rw [NumberBytes.eq_encode ha, NumberBytes.eq_encode hb]
  rfl

theorem PartBytes.eq_encode {q : List UInt8} {p : Part} (h : PartBytes q p) :
    q = encodePart p := by
  cases p with
  | input x => exact InputBytes.eq_encode h
  | inputs xs => exact ListBytes.eq_encode h fun _ _ => InputBytes.eq_encode
  | number n => exact NumberBytes.eq_encode h
  | output i => exact NumberBytes.eq_encode h
  | outputs is => exact ListBytes.eq_encode h fun _ _ => NumberBytes.eq_encode

theorem BlackBoxBytes.eq_encode {q : List UInt8} {c : BlackBox} (h : BlackBoxBytes q c) :
    q = encodeBlackBox c := by
  obtain ⟨a, b, rfl, ha, hb⟩ := h
  rw [NumberBytes.eq_encode ha.1, hb.eq_flatMap fun _ _ => PartBytes.eq_encode]
  rfl

theorem BlackBoxBytes.fits {q : List UInt8} {c : BlackBox} (h : BlackBoxBytes q c) :
    ∀ p ∈ c.parts, p.Fits := by
  obtain ⟨_, _, -, -, hs⟩ := h
  exact hs.forall_mem fun _ _ => PartBytes.fits

theorem LocationBytes.eq_encode {q : List UInt8} {l : Location} (h : LocationBytes q l) :
    q = encodeLocation l := by
  cases l with
  | circuit i =>
    obtain ⟨a, b, rfl, ha, hb⟩ := h
    rw [NumberBytes.eq_encode ha.1, NumberBytes.eq_encode hb]
    rfl
  | procedure i j =>
    obtain ⟨a, b, c, rfl, ha, hb, hc⟩ := h
    rw [NumberBytes.eq_encode ha.1, NumberBytes.eq_encode hb, NumberBytes.eq_encode hc,
      ← List.append_assoc]
    rfl

theorem MessageBytes.eq_encode {q : List UInt8} {m : Location × String} (h : MessageBytes q m) :
    q = encodeMessage m := by
  obtain ⟨a, b, rfl, ha, hb⟩ := h
  rw [ha.eq_encode, CharsBytes.eq_encode hb]
  rfl

theorem MessageBytes.text_lt {q : List UInt8} {m : Location × String} (h : MessageBytes q m) :
    (Utf8.encode m.2.toList).length < countLimit := by
  obtain ⟨_, _, -, -, _, -, hn⟩ := h
  exact hn.lt_countLimit

/-! ## Spellings -/

section

variable {α β : Type}

/-- The bytes of the grammar are the bytes of the spellings of its values. -/
def Spelled (G : Grammar α) (bytes : β → List UInt8) (Spells : β → α → Prop) : Prop :=
  ∀ q x, G q x ↔ ∃ w, Spells w x ∧ q = bytes w

/-- The items are spelled one by one, and there are not too many for a count. -/
structure ListSpells (Spells : β → α → Prop) (ws : List β) (xs : List α) : Prop where
  length_lt : ws.length < countLimit
  items : List.Forall₂ Spells ws xs

variable {G : Grammar α} {bytes : β → List UInt8} {Spells : β → α → Prop}

theorem Spelled.sequence (h : Spelled G bytes Spells) :
    Spelled (Sequence G) (fun ws => ws.flatMap bytes) (List.Forall₂ Spells) := by
  intro q xs
  constructor
  · intro hs
    induction hs with
    | nil => exact ⟨[], .nil, rfl⟩
    | cons hx _ ih =>
      obtain ⟨w, hw, rfl⟩ := (h _ _).1 hx
      obtain ⟨ws, hws, rfl⟩ := ih
      exact ⟨w :: ws, .cons hw hws, rfl⟩
  · rintro ⟨ws, hws, rfl⟩
    induction hws with
    | nil => exact .nil
    | cons hw _ ih => exact .cons ((h _ _).2 ⟨_, hw, rfl⟩) ih

theorem Spelled.list (h : Spelled G bytes Spells) :
    Spelled (ListBytes G) (encodeList bytes) (ListSpells Spells) := by
  intro q xs
  constructor
  · rintro ⟨n, s, rfl, hn, hs⟩
    obtain ⟨ws, hws, rfl⟩ := (h.sequence _ _).1 hs
    have hlen : ws.length = xs.length := hws.length_eq
    refine ⟨ws, ⟨?_, hws⟩, ?_⟩
    · rw [hlen]
      exact hn.lt_countLimit
    · rw [hn.eq_encode, ← hlen]
      rfl
  · rintro ⟨ws, ⟨hlt, hws⟩, rfl⟩
    have hlen : ws.length = xs.length := hws.length_eq
    refine ⟨_, _, rfl, ?_, (h.sequence _ _).2 ⟨ws, hws, rfl⟩⟩
    rw [← hlen]
    exact numberBytes_encode hlt

/-- Spellings that have one form for each value are known from the values. -/
theorem eq_map_of_forall₂ {f : α → β} {ws : List β} {xs : List α}
    (h : List.Forall₂ Spells ws xs) (hf : ∀ w ∈ ws, ∀ x, Spells w x → w = f x) :
    ws = xs.map f := by
  induction h with
  | nil => rfl
  | cons hw _ ih =>
    rw [List.forall_mem_cons] at hf
    rw [List.map_cons, hf.1 _ hw, ih hf.2]

theorem encodeList_map (f : α → β) (xs : List α) :
    encodeList bytes (xs.map f) = encodeList (fun x => bytes (f x)) xs := by
  simp [encodeList, List.flatMap_map]

end

/-! ## Prefix-free bytes -/

/-- The bytes of one of the values that `P` holds of are never those of another, not even with
more bytes behind them. -/
def PrefixFree {α : Type} (P : α → Prop) (bytes : α → List UInt8) : Prop :=
  ∀ x y r s, P x → P y → bytes x ++ r = bytes y ++ s → x = y ∧ r = s

section

variable {α β : Type} {P : α → Prop} {Q : β → Prop}
variable {bytes : α → List UInt8} {bytes' : β → List UInt8}

/-- Bytes that a decoder takes are prefix-free. -/
theorem Decodes.prefixFree {d : Decoder α} {G : Grammar α} (h : Decodes d G)
    (hb : ∀ x, P x → G (bytes x) x) : PrefixFree P bytes := by
  intro x y r s hx hy heq
  have hr := h.reads (hb x hx) r
  rw [heq, h.reads (hb y hy) s] at hr
  obtain ⟨rfl, rfl⟩ := Prod.mk.inj (Except.ok.inj hr)
  exact ⟨rfl, rfl⟩

theorem PrefixFree.mono {P' : α → Prop} (h : PrefixFree P bytes) (hP : ∀ x, P' x → P x) :
    PrefixFree P' bytes :=
  fun x y r s hx hy => h x y r s (hP x hx) (hP y hy)

theorem PrefixFree.pair (h : PrefixFree P bytes) (h' : PrefixFree Q bytes') :
    PrefixFree (fun z => P z.1 ∧ Q z.2) (fun z : α × β => bytes z.1 ++ bytes' z.2) := by
  intro x y r s hx hy heq
  rw [List.append_assoc, List.append_assoc] at heq
  obtain ⟨hfst, hmiddle⟩ := h _ _ _ _ hx.1 hy.1 heq
  obtain ⟨hsnd, hrest⟩ := h' _ _ _ _ hx.2 hy.2 hmiddle
  exact ⟨Prod.ext hfst hsnd, hrest⟩

theorem PrefixFree.flatMap (h : PrefixFree P bytes) {xs ys : List α} {r s : List UInt8}
    (hlen : xs.length = ys.length) (hx : ∀ x ∈ xs, P x) (hy : ∀ y ∈ ys, P y)
    (heq : xs.flatMap bytes ++ r = ys.flatMap bytes ++ s) : xs = ys ∧ r = s := by
  induction xs generalizing ys with
  | nil =>
    cases ys with
    | nil => exact ⟨rfl, heq⟩
    | cons y ys => cases hlen
  | cons x xs ih =>
    cases ys with
    | nil => cases hlen
    | cons y ys =>
      rw [List.forall_mem_cons] at hx hy
      rw [List.flatMap_cons, List.flatMap_cons, List.append_assoc, List.append_assoc] at heq
      obtain ⟨rfl, hrest⟩ := h _ _ _ _ hx.1 hy.1 heq
      obtain ⟨rfl, rfl⟩ := ih (Nat.succ.inj hlen) hx.2 hy.2 hrest
      exact ⟨rfl, rfl⟩

theorem prefixFree_number : PrefixFree (· < countLimit) (LittleEndian.encode 8) :=
  (decodes_number 8).prefixFree fun _ hn => numberBytes_encode hn

theorem PrefixFree.list (h : PrefixFree P bytes) :
    PrefixFree (fun xs => xs.length < countLimit ∧ ∀ x ∈ xs, P x) (encodeList bytes) := by
  intro xs ys r s hx hy heq
  rw [encodeList, encodeList, List.append_assoc, List.append_assoc] at heq
  obtain ⟨hlen, hitems⟩ := prefixFree_number _ _ _ _ hx.1 hy.1 heq
  exact h.flatMap hlen hx.2 hy.2 hitems

theorem PrefixFree.listSpells {Spells : α → β → Prop}
    (h : PrefixFree (fun w => ∃ x, Spells w x) bytes) :
    PrefixFree (fun ws => ∃ xs, ListSpells Spells ws xs) (encodeList bytes) := by
  refine h.list.mono ?_
  rintro ws ⟨xs, hlt, hitems⟩
  refine ⟨hlt, ?_⟩
  clear hlt
  induction hitems with
  | nil => simp
  | cons hw _ ih => exact List.forall_mem_cons.2 ⟨⟨_, hw⟩, ih⟩

end

theorem prefixFree_index : PrefixFree (fun _ => True) encodeIndex :=
  decodes_index.prefixFree fun i _ => indexBytes_encode i

theorem prefixFree_tag : PrefixFree (· < 2) encodeTag :=
  (decodes_tag 2).prefixFree fun _ hn => tagBytes_encode hn (by decide)

theorem prefixFree_chars :
    PrefixFree (fun cs => (Utf8.encode cs).length < countLimit) encodeChars :=
  decodes_chars.prefixFree fun _ h => charsBytes_encode h

theorem prefixFree_blackBox : PrefixFree (fun c => ∀ p ∈ c.parts, p.Fits) encodeBlackBox :=
  decodes_blackBox.prefixFree fun _ h => blackBoxBytes_encode h

theorem prefixFree_message :
    PrefixFree (fun m => (Utf8.encode m.2.toList).length < countLimit) encodeMessage :=
  decodes_message.prefixFree fun _ h => messageBytes_encode h

end CircuitFixtures.Payload
