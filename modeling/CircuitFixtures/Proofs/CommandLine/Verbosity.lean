import CircuitFixtures.Proofs.CommandLine.Switches

/-!
# How much is logged

The switches for more messages and for silence may stand on either side of the command.
`verbosity_by_side` says what each side decides: on one side the two exclude each other and all
switches count, but a count behind the command takes the place of one in front of it, and silence on
one side does not exclude more messages on the other.
-/

namespace CircuitFixtures

/-- The level for so many switches for more messages. -/
def LogLevel.ofCount : Nat → LogLevel
  | 0 => .warn
  | 1 => .info
  | 2 => .debug
  | _ => .trace

theorem LogLevel.ofCount_of_three_le {n : Nat} (h : 3 ≤ n) : ofCount n = .trace := by
  obtain ⟨m, rfl⟩ := Nat.exists_eq_add_of_le' h
  rfl

theorem LogLevel.ofCount_min (n : Nat) :
    ofCount (min CommandLine.Given.countLimit n) = ofCount n := by
  by_cases h : 3 ≤ n
  · have hlimit : 3 ≤ min CommandLine.Given.countLimit n := by
      rw [CommandLine.Given.countLimit]
      omega
    rw [ofCount_of_three_le h, ofCount_of_three_le hlimit]
  · rw [Nat.min_eq_right (by rw [CommandLine.Given.countLimit]; omega)]

/-- More of them in front of some change nothing from three on, and else they do. -/
theorem LogLevel.ofCount_add_eq_iff {m n : Nat} (hm : 0 < m) (hn : 0 < n) :
    ofCount n = ofCount (m + n) ↔ 3 ≤ n := by
  constructor
  · intro h
    match n, hn with
    | 1, _ =>
      match m, hm with
      | 1, _ => cases h
      | m + 2, _ =>
        rw [ofCount_of_three_le (by omega : 3 ≤ m + 2 + 1)] at h
        cases h
    | 2, _ =>
      rw [ofCount_of_three_le (by omega : 3 ≤ m + 2)] at h
      cases h
    | n + 3, _ => omega
  · intro h
    rw [ofCount_of_three_le h, ofCount_of_three_le (by omega : 3 ≤ m + n)]

theorem Invocation.logLevel_eq (i : Invocation) :
    i.logLevel = if i.quiet then .error else .ofCount i.verbose := by
  rw [logLevel]
  rfl

namespace CommandLine

/-- All switches count alike: one for silence excludes those for more messages, and without it their
number decides. -/
def Uniform (ss : List Switch) (level : LogLevel) : Prop :=
  ¬ (Switch.quiet ∈ ss ∧ Switch.verbose ∈ ss) ∧
    level = if Switch.quiet ∈ ss then .error else .ofCount (ss.count .verbose)

instance (ss : List Switch) (level : LogLevel) : Decidable (Uniform ss level) :=
  inferInstanceAs (Decidable (_ ∧ _))

namespace Given

variable {g : Given} {ss : List Switch}

theorem Tallies.verbose_pos_iff (h : g.Tallies ss) : 0 < g.verbose ↔ Switch.verbose ∈ ss := by
  rw [h.verbose, ← List.count_pos_iff, countLimit]
  omega

theorem Tallies.ofCount_verbose (h : g.Tallies ss) :
    LogLevel.ofCount g.verbose = .ofCount (ss.count .verbose) := by
  rw [h.verbose, LogLevel.ofCount_min]

/-- The two exclude each other among what is given on one side. -/
theorem Tallies.excludes (h : g.Tallies ss) (hconflict : g.hasConflict = false) :
    ¬ (Switch.quiet ∈ ss ∧ Switch.verbose ∈ ss) := by
  rintro ⟨hquiet, hverbose⟩
  rw [← h.quiet] at hquiet
  rw [← h.verbose_pos_iff] at hverbose
  simp [hasConflict, hquiet, hverbose] at hconflict

end Given

/-- The level of the switches on the two sides, where they exclude each other on each. -/
def levelOf (front behind : List Switch) : LogLevel :=
  if Switch.quiet ∈ front ∨ Switch.quiet ∈ behind then .error
  else .ofCount (if Switch.verbose ∈ behind then behind.count .verbose else front.count .verbose)

theorem logLevel_invocation {parts : Parts} {front behind : List Switch}
    (hfront : parts.front.Tallies front) (hbehind : parts.behind.Tallies behind) :
    parts.invocation.logLevel = levelOf front behind := by
  rw [Invocation.logLevel_eq, levelOf]
  simp only [Parts.invocation, Bool.or_eq_true, List.contains_iff_mem, hfront.quiet, hbehind.quiet,
    hbehind.verbose_pos_iff]
  by_cases hquiet : Switch.quiet ∈ front ∨ Switch.quiet ∈ behind
  · rw [if_pos hquiet, if_pos hquiet.symm]
  · rw [if_neg hquiet, if_neg fun h => hquiet h.symm]
    split
    · exact hbehind.ofCount_verbose
    · exact hfront.ofCount_verbose

/-- All switches count alike unless the sides are mixed, or a count behind the command hides one in
front of it. -/
theorem uniform_levelOf_iff {front behind : List Switch}
    (hfront : ¬ (Switch.quiet ∈ front ∧ Switch.verbose ∈ front))
    (hbehind : ¬ (Switch.quiet ∈ behind ∧ Switch.verbose ∈ behind)) :
    Uniform (front ++ behind) (levelOf front behind) ↔
      ¬ (Switch.quiet ∈ front ∧ Switch.verbose ∈ behind) ∧
      ¬ (Switch.verbose ∈ front ∧ Switch.quiet ∈ behind) ∧
      (Switch.verbose ∈ front → Switch.verbose ∈ behind → 3 ≤ behind.count .verbose) := by
  rw [Uniform, levelOf, List.count_append]
  simp only [List.mem_append]
  by_cases hquiet : Switch.quiet ∈ front ∨ Switch.quiet ∈ behind
  · simp only [if_pos hquiet, and_true]
    grind
  · rw [if_neg hquiet, if_neg hquiet]
    rw [not_or] at hquiet
    by_cases hb : Switch.verbose ∈ behind
    · by_cases hf : Switch.verbose ∈ front
      · have hadd := LogLevel.ofCount_add_eq_iff (List.count_pos_iff.2 hf) (List.count_pos_iff.2 hb)
        simp [hquiet, hb, hf, hadd]
      · simp [hquiet, hb, hf, List.count_eq_zero.2 hf]
    · simp [hquiet, hb, List.count_eq_zero.2 hb]

/-- For every command line that is accepted: silence is asked for at most once on each side and not
together with more messages there; silence on either side decides, else the count behind the
command if there is one, else that in front of it. So all switches count alike exactly when silence
and more messages do not stand on different sides and no count of one or two hides another. -/
theorem verbosity_by_side (as : List Argument) (i : Invocation) (h : parse as = .ok i) :
    ((frontSwitches as).count .quiet ≤ 1 ∧ (behindSwitches as).count .quiet ≤ 1) ∧
    ¬ (Switch.quiet ∈ frontSwitches as ∧ Switch.verbose ∈ frontSwitches as) ∧
    ¬ (Switch.quiet ∈ behindSwitches as ∧ Switch.verbose ∈ behindSwitches as) ∧
    i.logLevel =
      (if Switch.quiet ∈ frontSwitches as ∨ Switch.quiet ∈ behindSwitches as then .error
        else .ofCount (if Switch.verbose ∈ behindSwitches as then (behindSwitches as).count .verbose
          else (frontSwitches as).count .verbose)) ∧
    (Uniform (frontSwitches as ++ behindSwitches as) i.logLevel ↔
      ¬ (Switch.quiet ∈ frontSwitches as ∧ Switch.verbose ∈ behindSwitches as) ∧
      ¬ (Switch.verbose ∈ frontSwitches as ∧ Switch.quiet ∈ behindSwitches as) ∧
      (Switch.verbose ∈ frontSwitches as → Switch.verbose ∈ behindSwitches as →
        3 ≤ (behindSwitches as).count .verbose)) := by
  obtain ⟨parts, hread, rfl⟩ := exists_of_map h
  obtain ⟨hfront, hbehind, hcf, hcb⟩ := tallies_readFront Given.tallies_none hread
  have hlevel : parts.invocation.logLevel = levelOf (frontSwitches as) (behindSwitches as) :=
    logLevel_invocation hfront hbehind
  have hexf := hfront.excludes hcf
  have hexb := hbehind.excludes hcb
  refine ⟨⟨hfront.once, hbehind.once⟩, hexf, hexb, hlevel, ?_⟩
  rw [hlevel]
  exact uniform_levelOf_iff hexf hexb

/-- Arguments as they are typed. -/
def typed (words : List String) : List Argument :=
  words.map String.toList

theorem verbosity_in_front :
    ∃ i, parse (typed ["-v", "--verbose", "check", "-c", "local.yaml"]) = .ok i ∧
      i.logLevel = .debug ∧
      Uniform (frontSwitches (typed ["-v", "--verbose", "check", "-c", "local.yaml"]) ++
        behindSwitches (typed ["-v", "--verbose", "check", "-c", "local.yaml"])) i.logLevel := by
  refine ⟨_, rfl, rfl, ?_⟩
  obtain ⟨-, -, -, -, huniform⟩ :=
    verbosity_by_side (typed ["-v", "--verbose", "check", "-c", "local.yaml"]) _ rfl
  exact huniform.2 (by decide)

/-- A switch for more messages on either side makes one, not two, and silence on one side goes with
more messages on the other. -/
theorem verbosity_of_two_sides :
    (∃ i, parse (typed ["-v", "list", "-v"]) = .ok i ∧
      ¬ Uniform (frontSwitches (typed ["-v", "list", "-v"]) ++
        behindSwitches (typed ["-v", "list", "-v"])) i.logLevel) ∧
    ∃ i, parse (typed ["-q", "list", "-v"]) = .ok i ∧
      ¬ Uniform (frontSwitches (typed ["-q", "list", "-v"]) ++
        behindSwitches (typed ["-q", "list", "-v"])) i.logLevel :=
  ⟨⟨_, rfl, by decide⟩, ⟨_, rfl, by decide⟩⟩

end CommandLine

end CircuitFixtures
