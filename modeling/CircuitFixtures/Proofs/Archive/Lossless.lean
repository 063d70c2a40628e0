import CircuitFixtures.Archive
import CircuitFixtures.Proofs.Gzip.RoundTrip
import CircuitFixtures.Proofs.Payload.UniqueDecoding

/-!
# Nothing is lost in an archive

Circuits and assignments come back from their compressed form, and where the compressed form
is cut short, nothing does.
-/

namespace CircuitFixtures

section

variable {α : Type} {decode : List UInt8 → Except Payload.Fault α} {xs payload : List UInt8}

theorem openArchive_of_decompress (h : Gzip.decompress xs = .ok payload) :
    openArchive decode xs = (decode payload).mapError .payload := by
  rw [openArchive, h]

theorem openArchive_eq_ok_iff {x : α} (h : Gzip.decompress xs = .ok payload) :
    openArchive decode xs = .ok x ↔ decode payload = .ok x := by
  rw [openArchive_of_decompress h]
  cases decode payload with
  | error e => exact ⟨nofun, nofun⟩
  | ok y =>
    constructor
    · rintro ⟨⟩
      rfl
    · rintro ⟨⟩
      rfl

theorem openArchive_eq_payload_iff {e : Payload.Fault} (h : Gzip.decompress xs = .ok payload) :
    openArchive decode xs = .error (.payload e) ↔ decode payload = .error e := by
  rw [openArchive_of_decompress h]
  cases decode payload with
  | error e' =>
    constructor
    · rintro ⟨⟩
      rfl
    · rintro ⟨⟩
      rfl
  | ok y => exact ⟨nofun, nofun⟩

theorem openArchive_of_gzip {e : Gzip.Fault} (h : Gzip.decompress xs = .error e) :
    openArchive decode xs = .error (.gzip e) := by
  rw [openArchive, h]

end

theorem openArchive_compress {α : Type} (decode : List UInt8 → Except Payload.Fault α)
    (payload : List UInt8) :
    openArchive decode (Gzip.compress payload) = (decode payload).mapError .payload :=
  openArchive_of_decompress (Gzip.decompress_compress payload)

theorem openArchive_initial {α : Type} (decode : List UInt8 → Except Payload.Fault α)
    {payload q : List UInt8} (hq : q <+: Gzip.compress payload)
    (hne : q ≠ Gzip.compress payload) : ∃ e, openArchive decode q = .error (.gzip e) := by
  obtain ⟨e, he⟩ := Gzip.decompress_initial hq hne
  exact ⟨e, openArchive_of_gzip he⟩

theorem Circuit.ofArchive_toArchive {c : Circuit} (h : c.Fits) :
    Circuit.ofArchive c.toArchive = .ok c := by
  rw [ofArchive, toArchive, openArchive_compress, ofPayload_toPayload h]
  rfl

theorem Assignment.ofArchive_toArchive (m : Assignment) :
    Assignment.ofArchive m.toArchive = .ok m := by
  rw [ofArchive, toArchive, openArchive_compress, ofPayload_toPayload]
  rfl

/-- Data, circuits and assignments come back from their compressed forms, and no compressed
form that is cut short can be read. -/
theorem archives_lossless :
    (∀ data, Gzip.decompress (Gzip.compress data) = .ok data) ∧
      (∀ data q, q <+: Gzip.compress data → q ≠ Gzip.compress data →
        ∃ e, Gzip.decompress q = .error e) ∧
      (∀ c : Circuit, c.Fits → Circuit.ofArchive c.toArchive = .ok c) ∧
      (∀ (c : Circuit) q, q <+: c.toArchive → q ≠ c.toArchive →
        ∃ e, Circuit.ofArchive q = .error (.gzip e)) ∧
      (∀ m : Assignment, Assignment.ofArchive m.toArchive = .ok m) ∧
      ∀ (m : Assignment) q, q <+: m.toArchive → q ≠ m.toArchive →
        ∃ e, Assignment.ofArchive q = .error (.gzip e) :=
  ⟨Gzip.decompress_compress, fun _ _ => Gzip.decompress_initial,
    fun _ => Circuit.ofArchive_toArchive, fun _ _ => openArchive_initial Circuit.ofPayload,
    Assignment.ofArchive_toArchive, fun _ _ => openArchive_initial Assignment.ofPayload⟩

/-- The sample circuit, an assignment, and both archives without their last byte. -/
theorem sample_archives :
    Circuit.sample.Fits ∧ Circuit.ofArchive Circuit.sample.toArchive = .ok Circuit.sample ∧
      (∃ e, Circuit.ofArchive Circuit.sample.toArchive.dropLast = .error (.gzip e)) ∧
      ∃ e, Assignment.ofArchive (Assignment.toArchive (.ofList [(7, Field.one)])).dropLast =
        .error (.gzip e) := by
  have hne (payload : List UInt8) :
      (Gzip.compress payload).dropLast ≠ Gzip.compress payload := by
    intro h
    have hlength := congrArg List.length h
    have hpos : 0 < (Gzip.compress payload).length :=
      List.length_pos_iff.2 (List.cons_ne_nil _ _)
    rw [List.length_dropLast] at hlength
    omega
  have h := archives_lossless
  exact ⟨Circuit.fits_sample, h.2.2.1 _ Circuit.fits_sample,
    h.2.2.2.1 _ _ (List.dropLast_prefix _) (hne _),
    h.2.2.2.2.2 _ _ (List.dropLast_prefix _) (hne _)⟩

end CircuitFixtures
