import CircuitFixtures.Proofs.Archive.Lossless
import CircuitFixtures.Proofs.Index.Repeats

/-!
# What an archive holds as an assignment

Bytes that nobody has checked are read as an assignment where a count and that many entries stand
at their front (`Assignment.Packs`), in any order, with repeats, and with anything behind them.
There is one such list of entries at most (`Packs.unique`), and the assignment is made of them one
after the other (`Assignment.ofPayload_eq_ok_iff`); so the last entry of an index counts and,
without repeats, the order does not (`Assignment.ofPayload_of_perm`). `Assignment.ofArchive_exactly`
says the same of the compressed bytes, with the kind of fault where there is no assignment.
-/

namespace CircuitFixtures.Assignment

open IndexMap Payload

variable {payload payload' : List UInt8} {m : Assignment} {ps qs : List (Index × Field)}

/-! ## Payloads -/

/-- The bytes start with the count of some entries and their bytes. -/
def Packs (payload : List UInt8) (ps : List (Index × Field)) : Prop :=
  ∃ q rest, payload = q ++ rest ∧ ListBytes EntryBytes q ps

theorem packs_iff : Packs payload ps ↔ ∃ rest, list entry payload = .ok (ps, rest) := by
  simp only [(decodes_list decodes_entry) payload ps]
  constructor
  · rintro ⟨q, rest, hpayload, hq⟩
    exact ⟨rest, q, hpayload, hq⟩
  · rintro ⟨rest, q, hpayload, hq⟩
    exact ⟨q, rest, hpayload, hq⟩

/-- Bytes start with the entries of one list at most. -/
theorem Packs.unique (h : Packs payload ps) (h' : Packs payload qs) : ps = qs := by
  obtain ⟨rest, hread⟩ := packs_iff.1 h
  obtain ⟨rest', hread'⟩ := packs_iff.1 h'
  rw [hread] at hread'
  exact (Prod.mk.inj (Except.ok.inj hread')).1

theorem packs_encode (hlen : ps.length < countLimit) (rest : List UInt8) :
    Packs (encodeList encodeEntry ps ++ rest) ps :=
  ⟨_, rest, rfl, listBytes_encode hlen fun p _ => entryBytes_encode p⟩

theorem ofPayload_eq_ok_iff :
    ofPayload payload = .ok m ↔ ∃ ps, Packs payload ps ∧ m = ofList ps := by
  simp only [packs_iff, ofPayload]
  cases list entry payload with
  | error e => simp [Except.map]
  | ok r =>
    obtain ⟨ps, rest⟩ := r
    simp [Except.map, eq_comm]

theorem ofPayload_isError_iff :
    (∃ e, ofPayload payload = .error e) ↔ ¬ ∃ ps, Packs payload ps := by
  cases hread : ofPayload payload with
  | error e =>
    refine iff_of_true ⟨e, rfl⟩ ?_
    rintro ⟨ps, hps⟩
    rw [ofPayload_eq_ok_iff.2 ⟨ps, hps, rfl⟩] at hread
    cases hread
  | ok m =>
    obtain ⟨ps, hps, -⟩ := ofPayload_eq_ok_iff.1 hread
    simpa using ⟨ps, hps⟩

theorem ofPayload_of_perm (h : Packs payload ps) (h' : Packs payload' qs) (hps : Distinct ps)
    (hperm : ps.Perm qs) : ofPayload payload' = ofPayload payload := by
  rw [ofPayload_eq_ok_iff.2 ⟨ps, h, rfl⟩, ofPayload_eq_ok_iff.2 ⟨qs, h', rfl⟩,
    ofList_of_perm hps hperm]

/-! ## Archives -/

/-- Compressed bytes are read as an assignment exactly where what they decompress to starts with a
count and that many entries, and it is made of these in their order: the last one of an index
counts, and entries without repeats make the same assignment in any order. Elsewhere the fault is
one of the payload, or of the compression where the bytes do not decompress. -/
theorem ofArchive_exactly (z : List UInt8) :
    (∀ payload, Gzip.decompress z = .ok payload →
      (∀ m, ofArchive z = .ok m ↔ ∃ ps, Packs payload ps ∧ m = ofList ps) ∧
      ((∃ e, ofArchive z = .error (.payload e)) ↔ ¬ ∃ ps, Packs payload ps) ∧
      ∀ ps, Packs payload ps →
        (∀ i, (ofList ps).get? i = last? i ps) ∧
        ∀ z' payload' qs, Gzip.decompress z' = .ok payload' → Packs payload' qs →
          Distinct ps → ps.Perm qs → ofArchive z' = ofArchive z) ∧
    ∀ e, Gzip.decompress z = .error e → ofArchive z = .error (.gzip e) := by
  refine ⟨fun payload hz => ⟨fun m => ?_, ?_, fun ps hps => ⟨get?_ofList ps, ?_⟩⟩,
    fun e hz => openArchive_of_gzip hz⟩
  · rw [ofArchive, openArchive_eq_ok_iff hz, ofPayload_eq_ok_iff]
  · simp only [ofArchive, openArchive_eq_payload_iff hz, ofPayload_isError_iff]
  · intro z' payload' qs hz' hqs hdistinct hperm
    rw [ofArchive, ofArchive, openArchive_of_decompress hz, openArchive_of_decompress hz',
      ofPayload_of_perm hps hqs hdistinct hperm]

/-- Compressed entries with bytes behind them. -/
def archiveOf (ps : List (Index × Field)) (rest : List UInt8) : List UInt8 :=
  Gzip.compress (encodeList encodeEntry ps ++ rest)

theorem decompress_archiveOf (ps : List (Index × Field)) (rest : List UInt8) :
    Gzip.decompress (archiveOf ps rest) = .ok (encodeList encodeEntry ps ++ rest) :=
  Gzip.decompress_compress _

/-- An index that comes twice, entries in two orders, and no archive. -/
theorem sample_unpacked :
    ofArchive (archiveOf [(7, Field.one), (7, Field.zero), (2, Field.one)] [255]) =
        .ok (ofList [(2, Field.one), (7, Field.zero)]) ∧
      ofArchive (archiveOf [(7, Field.one), (2, Field.zero)] [255]) =
        ofArchive (archiveOf [(2, Field.zero), (7, Field.one)] []) ∧
      ofArchive [] = .error (.gzip .truncated) := by
  refine ⟨?_, ?_, (ofArchive_exactly []).2 _ rfl⟩
  · obtain ⟨hread, -, -⟩ := (ofArchive_exactly _).1 _ (decompress_archiveOf _ _)
    exact (hread _).2 ⟨_, packs_encode (by decide) [255], by decide⟩
  · obtain ⟨-, -, hpacks⟩ := (ofArchive_exactly _).1 _ (decompress_archiveOf _ [])
    obtain ⟨-, horder⟩ := hpacks [(2, Field.zero), (7, Field.one)] (packs_encode (by decide) [])
    exact horder _ _ _ (decompress_archiveOf _ [255]) (packs_encode (by decide) [255]) (by decide)
      (.swap _ _ _)

end CircuitFixtures.Assignment
