import CircuitFixtures.CommandLine.Arguments

/-!
# Switches among the arguments

Which switches an argument stands for does not depend on the arguments around it (`switchesIn`), but
for the texts of switches, which are words. So the switches of a command line can be listed: those in
front of the command and those behind it (`frontSwitches`, `behindSwitches`). What is given on each
side counts the switches of that side: `Given.Tallies` holds at the start, every argument keeps it,
and reading all arguments does (`tallies_readCommand`, `tallies_readFront`).
-/

namespace CircuitFixtures.CommandLine

namespace Switch

def all : List Switch :=
  everywhere ++ [.file, .expected, .json, .out]

def ofLong? (name : List Char) : Option Switch :=
  all.find? (fun s => s.long.toList == name)

def ofShort? (c : Char) : Option Switch :=
  all.find? (fun s => s.short? == some c)

theorem ofLong?_of_find? {known : List Switch} {name : List Char} {s : Switch}
    (h : known.find? (fun s => s.long.toList == name) = some s) : ofLong? name = some s := by
  have hname := List.find?_some h
  rw [beq_iff_eq] at hname
  subst hname
  cases s <;> decide

theorem ofShort?_of_find? {known : List Switch} {c : Char} {s : Switch}
    (h : known.find? (fun s => s.short? == some c) = some s) : ofShort? c = some s := by
  have hshort := List.find?_some h
  rw [beq_iff_eq] at hshort
  cases s <;> cases hshort <;> decide

end Switch

/-! ## The switches of an argument -/

/-- Short switches behind their dash, up to the first that takes a text. -/
def shortSwitches : List Char → List Switch
  | [] => []
  | c :: cs =>
    match Switch.ofShort? c with
    | none => []
    | some s => s :: if s.takesText then [] else shortSwitches cs

/-- The last of short switches takes a text, and nothing stands behind it. -/
def shortsWait : List Char → Bool
  | [] => false
  | c :: cs =>
    match Switch.ofShort? c with
    | none => false
    | some s => if s.takesText then cs.isEmpty else shortsWait cs

/-- The long switch behind two dashes. -/
def longSwitch? (cs : List Char) : Option Switch :=
  Switch.ofLong? (cs.takeWhile (· != '='))

/-- A long switch takes a text, and none is attached to it. -/
def longWaits (cs : List Char) : Bool :=
  (longSwitch? cs).any Switch.takesText && (cs.dropWhile (· != '=')).isEmpty

def switchesIn (a : Argument) : List Switch :=
  match Form.of a with
  | .long cs => (longSwitch? cs).toList
  | .shorts cs => shortSwitches cs
  | _ => []

/-- The text of the last switch of an argument is the argument behind it. -/
def waits (a : Argument) : Bool :=
  match Form.of a with
  | .long cs => longWaits cs
  | .shorts cs => shortsWait cs
  | _ => false

/-! ## The switches of a command line -/

/-- The arguments in front of the command, and those from the command on. The command is the first
word that is not the text of the switch in front of it. -/
def cut (waiting : Bool) : List Argument → List Argument × List Argument
  | [] => ([], [])
  | a :: as =>
    if Form.of a = .word ∧ waiting = false then ([], a :: as)
    else (a :: (cut (waits a) as).1, (cut (waits a) as).2)

/-- The switches up to the word that ends all switches. -/
def switchesUpToEnd : List Argument → List Switch
  | [] => []
  | a :: as => if Form.of a = .endOfSwitches then [] else switchesIn a ++ switchesUpToEnd as

def frontSwitches (as : List Argument) : List Switch :=
  (cut false as).1.flatMap switchesIn

def behindSwitches (as : List Argument) : List Switch :=
  switchesUpToEnd (cut false as).2.tail

/-! ## Tallies -/

/-- What is given counts the switches of a list: those for more messages up to the limit, the one
for silence at most once. -/
structure Given.Tallies (g : Given) (ss : List Switch) : Prop where
  verbose : g.verbose = min Given.countLimit (ss.count .verbose)
  quiet : Switch.quiet ∈ g.flags ↔ Switch.quiet ∈ ss
  once : ss.count .quiet ≤ 1

namespace Given

variable {g g' : Given} {s : Switch} {ss : List Switch} {a : Argument}

theorem tallies_none : none.Tallies [] :=
  ⟨rfl, Iff.rfl, Nat.zero_le _⟩

/-- A switch for something else does not count. -/
theorem Tallies.other (h : g.Tallies ss) (hverbose : s ≠ .verbose) (hquiet : s ≠ .quiet) :
    g.Tallies (ss ++ [s]) := by
  obtain ⟨h1, h2, h3⟩ := h
  constructor <;> simp_all [List.count_append, Ne.symm hquiet]

theorem Tallies.addText (h : g.Tallies ss) (hadd : g.addText s a = .ok g') : g'.Tallies ss := by
  rw [Given.addText] at hadd
  split at hadd
  · cases hadd
  · split at hadd
    · cases hadd
    · cases hadd
      exact ⟨h.verbose, h.quiet, h.once⟩

theorem Tallies.addFlag (h : g.Tallies ss) (hadd : g.addFlag s = .ok g') :
    g'.Tallies (ss ++ [s]) := by
  unfold Given.addFlag at hadd
  split at hadd
  · cases hadd
  · cases hadd
    obtain ⟨h1, h2, h3⟩ := h
    refine ⟨?_, ?_, ?_⟩
    · rw [List.count_append, List.count_singleton_self]
      simp only [h1]
      omega
    · simpa using h2
    · simpa [List.count_append] using h3
  · rename_i hhelp hverbose
    split at hadd
    · cases hadd
    · rename_i hnew
      cases hadd
      by_cases hquiet : s = .quiet
      · subst hquiet
        have hnone : ss.count .quiet = 0 := by
          rw [List.count_eq_zero, ← h.quiet]
          simpa using hnew
        refine ⟨?_, by simp, ?_⟩
        · simpa [List.count_append] using h.verbose
        · simp [List.count_append, hnone]
      · obtain ⟨h1, h2, h3⟩ := h.other hverbose hquiet
        exact ⟨h1, by simpa [Ne.symm hquiet] using h.quiet, h3⟩

end Given

namespace Progress

variable {p p' : Progress} {g : Given} {s : Switch} {ss : List Switch} {attached : Option Argument}

theorem tallies_settle (h : p.given.Tallies ss) (hsettle : p.settle = .ok g) : g.Tallies ss := by
  rw [settle] at hsettle
  split at hsettle
  · cases hsettle
    exact h
  · cases hsettle
  · exact h.addText hsettle

theorem tallies_addSwitch (h : p.given.Tallies ss) (hadd : p.addSwitch s attached = .ok p') :
    p'.given.Tallies (ss ++ [s]) ∧
      p'.waiting?.isSome = (s.takesText && attached.isNone) := by
  rw [addSwitch] at hadd
  split at hadd
  · cases hadd
  · rename_i g hsettle
    have hg := tallies_settle h hsettle
    split at hadd
    · rename_i htakes
      have hverbose : s ≠ .verbose := by
        rintro rfl
        cases htakes
      have hquiet : s ≠ .quiet := by
        rintro rfl
        cases htakes
      split at hadd
      · cases hadd
        exact ⟨hg.other hverbose hquiet, by simp [waiting?, htakes]⟩
      · rename_i a
        cases htext : g.addText s a with
        | error e =>
          rw [htext] at hadd
          cases hadd
        | ok g' =>
          rw [htext] at hadd
          cases hadd
          exact ⟨(hg.addText htext).other hverbose hquiet, by simp [waiting?]⟩
    · rename_i htakes
      cases hflag : g.addFlag s with
      | error e =>
        rw [hflag] at hadd
        cases hadd
      | ok g' =>
        rw [hflag] at hadd
        cases hadd
        exact ⟨hg.addFlag hflag, by simp [waiting?, htakes]⟩

end Progress

/-! ## One argument -/

section Argument

variable {known : List Switch} {p p' : Progress} {ss : List Switch}

/-- A long switch is added with the text that is attached to it behind a sign. -/
theorem exists_of_addLong {cs : List Char} (h : addLong known p cs = .ok p') :
    ∃ s attached, longSwitch? cs = some s ∧
      attached.isNone = (cs.dropWhile (· != '=')).isEmpty ∧ p.addSwitch s attached = .ok p' := by
  unfold addLong at h
  dsimp only at h
  split at h
  · cases h
  · rename_i s hfind
    have hswitch : longSwitch? cs = some s := Switch.ofLong?_of_find? hfind
    split at h
    · rename_i text hrest
      split at h
      · cases h
      · exact ⟨s, some text, hswitch, by rw [hrest]; rfl, h⟩
    · rename_i hsign
      have hrest : cs.dropWhile (· != '=') = [] := by
        cases hcase : cs.dropWhile (· != '=') with
        | nil => rfl
        | cons c text =>
          have hhead := List.head?_dropWhile_not (· != '=') cs
          rw [hcase] at hhead
          simp only [List.head?_cons, bne_eq_false_iff_eq] at hhead
          exact absurd (hhead ▸ hcase) (hsign text)
      split at h
      · cases h
      · exact ⟨s, none, hswitch, by rw [hrest]; rfl, h⟩

/-- A short switch is added with what stands behind it as its text, or without text and in front of
others. -/
theorem exists_of_addShorts {c : Char} {cs : List Char} (h : addShorts known p (c :: cs) = .ok p') :
    ∃ s, Switch.ofShort? c = some s ∧
      ((s.takesText = true ∧ ∃ attached, attached.isNone = cs.isEmpty ∧
          p.addSwitch s attached = .ok p') ∨
        s.takesText = false ∧ ∃ p1, p.addSwitch s none = .ok p1 ∧ addShorts known p1 cs = .ok p') := by
  unfold addShorts at h
  split at h
  · cases h
  · rename_i s hfind
    refine ⟨s, Switch.ofShort?_of_find? hfind, ?_⟩
    split at h
    · rename_i htakes
      refine .inl ⟨htakes, _, ?_, h⟩
      split <;> simp_all
    · rename_i htakes
      split at h
      · cases h
      · rename_i p1 hswitch
        exact .inr ⟨by simpa using htakes, p1, hswitch, h⟩

theorem tallies_addLong {cs : List Char} (h : p.given.Tallies ss)
    (hadd : addLong known p cs = .ok p') :
    p'.given.Tallies (ss ++ (longSwitch? cs).toList) ∧ p'.waiting?.isSome = longWaits cs := by
  obtain ⟨s, attached, hswitch, hattached, hadd⟩ := exists_of_addLong hadd
  rw [hswitch, longWaits, hswitch, ← hattached]
  exact Progress.tallies_addSwitch h hadd

theorem tallies_addShorts {c : Char} {cs : List Char} (h : p.given.Tallies ss)
    (hadd : addShorts known p (c :: cs) = .ok p') :
    p'.given.Tallies (ss ++ shortSwitches (c :: cs)) ∧
      p'.waiting?.isSome = shortsWait (c :: cs) := by
  induction cs generalizing c p ss with
  | nil =>
    obtain ⟨s, hswitch, ⟨htakes, attached, hattached, hadd⟩ | ⟨htakes, p1, hadd, hmore⟩⟩ :=
      exists_of_addShorts hadd
    · simpa [shortSwitches, shortsWait, hswitch, htakes, hattached] using
        Progress.tallies_addSwitch h hadd
    · cases hmore
      simpa [shortSwitches, shortsWait, hswitch, htakes] using Progress.tallies_addSwitch h hadd
  | cons d cs ih =>
    obtain ⟨s, hswitch, ⟨htakes, attached, hattached, hadd⟩ | ⟨htakes, p1, hadd, hmore⟩⟩ :=
      exists_of_addShorts hadd
    · simpa [shortSwitches, shortsWait, hswitch, htakes, hattached] using
        Progress.tallies_addSwitch h hadd
    · have hrest := ih (Progress.tallies_addSwitch h hadd).1 hmore
      rw [shortSwitches, shortsWait, hswitch]
      simpa [htakes] using hrest

theorem shorts_ne_nil {a : Argument} {cs : List Char} (h : Form.of a = .shorts cs) : cs ≠ [] := by
  rintro rfl
  unfold Form.of at h
  grind

/-- An argument with switches adds them, and waits for a text or does not. -/
theorem tallies_argument {a : Argument} (h : p.given.Tallies ss)
    (hadd : (∃ cs, Form.of a = .long cs ∧ addLong known p cs = .ok p') ∨
      ∃ cs, Form.of a = .shorts cs ∧ addShorts known p cs = .ok p') :
    p'.given.Tallies (ss ++ switchesIn a) ∧ p'.waiting?.isSome = waits a := by
  rcases hadd with ⟨cs, hform, hadd⟩ | ⟨cs, hform, hadd⟩
  · rw [switchesIn, waits, hform]
    exact tallies_addLong h hadd
  · rw [switchesIn, waits, hform]
    cases cs with
    | nil => exact absurd rfl (shorts_ne_nil hform)
    | cons c cs => exact tallies_addShorts h hadd

end Argument

/-! ## All arguments -/

section Arguments

variable {c : Command} {onlyWords : Bool} {p : Progress} {g : Given} {parts : Parts}
variable {ss : List Switch} {a : Argument} {as : List Argument}

theorem exists_of_map {ε α β : Type} {x : Except ε α} {f : α → β} {y : β}
    (h : x.map f = .ok y) : ∃ a, x = .ok a ∧ f a = y := by
  cases x with
  | error e => cases h
  | ok a =>
    cases h
    exact ⟨a, rfl, rfl⟩

/-- One argument behind the command. A word counts for nothing, and neither does anything behind
the word that ends all switches. -/
theorem tallies_readCommand_step (h : p.given.Tallies ss)
    (hread : readCommand c onlyWords p (a :: as) = .ok g) :
    ∃ p', p'.given.Tallies (ss ++ if onlyWords then [] else switchesIn a) ∧
      readCommand c (onlyWords || Form.of a == .endOfSwitches) p' as = .ok g := by
  have word {p' : Progress}
      (hr : (if c.takesName && p.given.name.isNone then
        p.settle.map (fun g => (⟨{ g with name := some a }, none⟩ : Progress))
          else .error .unknownArgument) = .ok p') : p'.given.Tallies ss := by
    split at hr
    · obtain ⟨g', hsettle, rfl⟩ := exists_of_map hr
      have hg := Progress.tallies_settle h hsettle
      exact ⟨hg.verbose, hg.quiet, hg.once⟩
    · cases hr
  unfold readCommand at hread
  dsimp only at hread
  split at hread
  · cases hread
  · rename_i onlyWords' p' hstep
    refine ⟨p', ?_⟩
    split at hstep
    · rename_i honly
      obtain ⟨p1, hp1, heq⟩ := exists_of_map hstep
      cases heq
      simpa [honly] using ⟨word hp1, hread⟩
    · rename_i honly
      rw [Bool.not_eq_true] at honly
      subst honly
      split at hstep
      · rename_i hform
        cases hstep
        simpa [switchesIn, hform] using ⟨h, hread⟩
      · rename_i cs hform
        obtain ⟨p1, hp1, heq⟩ := exists_of_map hstep
        cases heq
        have hadd := (tallies_argument h (.inl ⟨cs, hform, hp1⟩)).1
        simpa [hform] using ⟨hadd, hread⟩
      · rename_i cs hform
        obtain ⟨p1, hp1, heq⟩ := exists_of_map hstep
        cases heq
        have hadd := (tallies_argument h (.inr ⟨cs, hform, hp1⟩)).1
        simpa [hform] using ⟨hadd, hread⟩
      · rename_i hform
        split at hstep
        · cases hstep
          simpa [switchesIn, hform] using ⟨h, hread⟩
        · obtain ⟨p1, hp1, heq⟩ := exists_of_map hstep
          cases heq
          simpa [switchesIn, hform] using ⟨word hp1, hread⟩

theorem tallies_readCommand (h : p.given.Tallies ss)
    (hread : readCommand c onlyWords p as = .ok g) :
    g.Tallies (ss ++ if onlyWords then [] else switchesUpToEnd as) := by
  induction as generalizing onlyWords p ss with
  | nil =>
    have hg := Progress.tallies_settle h hread
    simpa [switchesUpToEnd] using hg
  | cons a as ih =>
    obtain ⟨p', hp', hread'⟩ := tallies_readCommand_step h hread
    have hrest := ih hp' hread'
    cases onlyWords with
    | true => simpa using hrest
    | false =>
      rw [if_neg Bool.false_ne_true, switchesUpToEnd]
      by_cases hform : Form.of a = .endOfSwitches
      · simpa [hform, switchesIn] using hrest
      · simpa [hform] using hrest

/-- Behind the word that ends all switches there is no command. -/
theorem readFront_true_ne_ok : readFront true p as ≠ .ok parts := by
  intro h
  cases as with
  | nil =>
    rw [readFront] at h
    split at h <;> cases h
  | cons a as =>
    rw [readFront, if_pos rfl] at h
    cases h

theorem of_validate {g' : Given} (h : validate c g = .ok g') : g' = g ∧ g.hasConflict = false := by
  rw [validate] at h
  split at h
  · cases h
  · rename_i hconflict
    split at h
    · cases h
    · cases h
      exact ⟨rfl, by simpa using hconflict⟩

/-- The command, with what is read behind it and what is given in front of it. -/
theorem of_readFront_word (hform : Form.of a = .word) (hwaiting : p.waiting? = none)
    (h : readFront false p (a :: as) = .ok parts) :
    Command.ofArgument? a = some parts.command ∧
      readCommand parts.command false .start as = .ok parts.behind ∧
      p.settle = .ok parts.front ∧ parts.front.hasConflict = false ∧
      parts.behind.hasConflict = false := by
  rw [readFront, if_neg Bool.false_ne_true, hform, hwaiting] at h
  dsimp only at h
  split at h
  · cases h
  rename_i c hcommand
  split at h
  · cases h
  rename_i g hread
  split at h
  · cases h
  rename_i behind hvalid
  split at h
  · cases h
  rename_i front hsettle
  split at h
  · cases h
  rename_i hfront
  cases h
  obtain ⟨rfl, hbehind⟩ := of_validate hvalid
  exact ⟨hcommand, hread, hsettle, by simpa using hfront, hbehind⟩

/-- What is read of a command line, from an argument in front of the command on. -/
theorem tallies_readFront (h : p.given.Tallies ss) (hread : readFront false p as = .ok parts) :
    parts.front.Tallies (ss ++ (cut p.waiting?.isSome as).1.flatMap switchesIn) ∧
      parts.behind.Tallies (switchesUpToEnd (cut p.waiting?.isSome as).2.tail) ∧
      parts.front.hasConflict = false ∧ parts.behind.hasConflict = false := by
  induction as generalizing p ss with
  | nil =>
    rw [readFront] at hread
    split at hread <;> cases hread
  | cons a as ih =>
    by_cases hcommand : Form.of a = .word ∧ p.waiting? = none
    · obtain ⟨hform, hwaiting⟩ := hcommand
      obtain ⟨-, hbehind, hfront, hconflicts⟩ := of_readFront_word hform hwaiting hread
      have hcut : cut p.waiting?.isSome (a :: as) = ([], a :: as) := by simp [cut, hform, hwaiting]
      rw [hcut]
      refine ⟨?_, tallies_readCommand Given.tallies_none hbehind, hconflicts⟩
      simpa using Progress.tallies_settle h hfront
    · -- One argument in front of the command, and then the rest.
      have hcut : cut p.waiting?.isSome (a :: as) =
          (a :: (cut (waits a) as).1, (cut (waits a) as).2) := by
        rw [cut, if_neg]
        simpa using hcommand
      rw [hcut, List.flatMap_cons, ← List.append_assoc]
      unfold readFront at hread
      rw [if_neg Bool.false_ne_true] at hread
      split at hread
      · exact absurd hread readFront_true_ne_ok
      · rename_i cs hform
        split at hread
        · cases hread
        · rename_i p1 hadd
          obtain ⟨hp1, hwaiting⟩ := tallies_argument h (.inl ⟨cs, hform, hadd⟩)
          rw [← hwaiting]
          exact ih hp1 hread
      · rename_i cs hform
        split at hread
        · cases hread
        · rename_i p1 hadd
          obtain ⟨hp1, hwaiting⟩ := tallies_argument h (.inr ⟨cs, hform, hadd⟩)
          rw [← hwaiting]
          exact ih hp1 hread
      · rename_i s hs hform
        have hwaits : waits a = false := by rw [waits, hform]
        have hnone : switchesIn a = [] := by rw [switchesIn, hform]
        rw [hwaits, hnone, List.append_nil]
        exact ih (p := ⟨p.given, some (s, some a)⟩) h hread
      · rename_i hs hform
        exact absurd ⟨hform, hs⟩ hcommand

end Arguments

end CircuitFixtures.CommandLine
