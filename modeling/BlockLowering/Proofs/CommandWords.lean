import BlockLowering.CommandLine.Arguments
import Mathlib.Logic.Basic

/-! Flags among the words of a command line. Words are read one after another, and how the words
after a flag are read does not depend on it, unless the same flag comes again. So a flag may be put
in wherever an option may stand, and changes what it is for and nothing else. A word that asks for
help there ends the reading. -/

namespace BlockLowering.CommandLine

variable {command : Command}

theorem readWords_value {word : String} (ho : isOption word = false) (setting : Setting)
    (c : Choices) (rest : List String) : readWords command (some setting) c (word :: rest) =
      (c.set word setting).bind fun c => readWords command none c rest := by
  rw [readWords, if_neg (by rw [ho]; decide)]
  rfl

theorem readWords_placed (c : Choices) (rest : List String) :
    readWords command none c ("--" :: rest) = c.placeAll rest := by
  rw [readWords, if_pos rfl]

theorem readWords_option {word : String} (hw : word ≠ "--") (ho : isOption word = true)
    (c : Choices) (rest : List String) : readWords command none c (word :: rest) =
      (readOption command c word).bind fun step => readWords command step.2 step.1 rest := by
  rw [readWords, if_neg hw, if_pos ho]
  rfl

theorem readWords_word {word : String} (hw : word ≠ "--") (ho : isOption word = false)
    (c : Choices) (rest : List String) : readWords command none c (word :: rest) =
      (c.place word).bind fun c => readWords command none c rest := by
  rw [readWords, if_neg hw, if_neg (by rw [ho]; decide)]
  rfl

/-- How words that are read begin. -/
inductive Begins (command : Command) (c e : Choices) : Option Setting → List String → Prop
  | finished : c = e → Begins command c e none []
  | value {setting word rest d} : isOption word = false → c.set word setting = some d →
      readWords command none d rest = some e → Begins command c e (some setting) (word :: rest)
  | placed {rest} : c.placeAll rest = some e → Begins command c e none ("--" :: rest)
  | option {word rest d pending} : word ≠ "--" → isOption word = true →
      readOption command c word = some (d, pending) →
      readWords command pending d rest = some e → Begins command c e none (word :: rest)
  | word {word rest d} : word ≠ "--" → isOption word = false → c.place word = some d →
      readWords command none d rest = some e → Begins command c e none (word :: rest)

theorem begins_of_readWords {pending : Option Setting} {words : List String} {c e : Choices}
    (h : readWords command pending c words = some e) : Begins command c e pending words := by
  cases words with
  | nil =>
    cases pending with
    | none => exact .finished (Option.some.inj h)
    | some setting => cases h
  | cons word rest =>
    cases pending with
    | some setting =>
      by_cases ho : isOption word = true
      · rw [readWords, if_pos ho] at h
        cases h
      · rw [Bool.not_eq_true] at ho
        rw [readWords_value ho] at h
        obtain ⟨d, hd, hrest⟩ := Option.bind_eq_some_iff.mp h
        exact .value ho hd hrest
    | none =>
      by_cases hw : word = "--"
      · subst hw
        rw [readWords_placed] at h
        exact .placed h
      by_cases ho : isOption word = true
      · rw [readWords_option hw ho] at h
        obtain ⟨⟨d, pending⟩, hd, hrest⟩ := Option.bind_eq_some_iff.mp h
        exact .option hw ho hd hrest
      · rw [Bool.not_eq_true] at ho
        rw [readWords_word hw ho] at h
        obtain ⟨d, hd, hrest⟩ := Option.bind_eq_some_iff.mp h
        exact .word hw ho hd hrest

/-- Words that are read up to their end may be followed by more of them. -/
theorem readWords_append {front : List String} {pending : Option Setting} {c d : Choices}
    (h : readWords command pending c front = some d) (hf : "--" ∉ front) (back : List String) :
    readWords command pending c (front ++ back) = readWords command none d back := by
  induction front generalizing pending c with
  | nil =>
    cases begins_of_readWords h with
    | finished hc => rw [hc, List.nil_append]
  | cons first front ih =>
    have hrest : "--" ∉ front := fun hmem => hf (List.mem_cons_of_mem _ hmem)
    rw [List.cons_append]
    cases begins_of_readWords h with
    | value ho hd hr => rw [readWords_value ho, hd, Option.bind_some, ih hr hrest]
    | placed _ => exact absurd List.mem_cons_self hf
    | option hw ho hd hr =>
      rw [readWords_option hw ho, hd, Option.bind_some, ih hr hrest]
    | word hw ho hd hr => rw [readWords_word hw ho, hd, Option.bind_some, ih hr hrest]

/-- Whatever is read after a change of the choices is read as it would be without it, and the change
is still there at the end. Only runs to an end with `P` are looked at. -/
structure Carried (change : Choices → Choices) (P : Choices → Prop) : Prop where
  switch {c e : Choices} {s : Switch} :
    c.switch s = some e → P e → P c ∧ (change c).switch s = some (change e)
  set {c e : Choices} {value : String} {setting : Setting} :
    c.set value setting = some e → P e → P c ∧ (change c).set value setting = some (change e)
  place {c e : Choices} {word : String} :
    c.place word = some e → P e → P c ∧ (change c).place word = some (change e)

namespace Carried

variable {change : Choices → Choices} {P : Choices → Prop} (h : Carried change P)
include h

theorem placeAll {words : List String} {c e : Choices} (hr : c.placeAll words = some e)
    (he : P e) : P c ∧ (change c).placeAll words = some (change e) := by
  induction words generalizing c with
  | nil =>
    obtain rfl : c = e := Option.some.inj hr
    exact ⟨he, rfl⟩
  | cons word rest ih =>
    obtain ⟨d, hd, hr⟩ := Option.bind_eq_some_iff.mp hr
    obtain ⟨hpd, hrest⟩ := ih hr
    obtain ⟨hpc, hplace⟩ := h.place hd hpd
    refine ⟨hpc, ?_⟩
    rw [Choices.placeAll, hplace]
    exact hrest

theorem attached {value : String} {setting : Setting} {c e : Choices} {pending : Option Setting}
    (hr : (do let c ← c.set value setting; pure (c, none) : Option Step) = some (e, pending))
    (he : P e) : P c ∧ (do let c ← (change c).set value setting; pure (c, none) : Option Step) =
      some (change e, pending) := by
  obtain ⟨d, hd, hr⟩ := Option.bind_eq_some_iff.mp hr
  obtain ⟨rfl, rfl⟩ := Prod.mk.inj (Option.some.inj hr)
  obtain ⟨hpc, hset⟩ := h.set hd he
  exact ⟨hpc, by rw [hset]; rfl⟩

theorem shortOptions {letters : List Char} {c e : Choices} {pending : Option Setting}
    (hr : shortOptions command c letters = some (e, pending)) (he : P e) :
    P c ∧ CommandLine.shortOptions command (change c) letters = some (change e, pending) := by
  induction letters generalizing c with
  | nil =>
    obtain ⟨rfl, rfl⟩ := Prod.mk.inj (Option.some.inj hr)
    exact ⟨he, rfl⟩
  | cons letter rest ih =>
    rw [CommandLine.shortOptions] at hr ⊢
    cases hs : command.shortSwitch? letter with
    | some s =>
      simp only [hs] at hr ⊢
      obtain ⟨d, hd, hr⟩ := Option.bind_eq_some_iff.mp hr
      obtain ⟨hpd, hrest⟩ := ih hr
      obtain ⟨hpc, hswitch⟩ := h.switch hd hpd
      exact ⟨hpc, by rw [hswitch]; exact hrest⟩
    | none =>
      simp only [hs] at hr ⊢
      obtain ⟨setting, hsetting, hr⟩ := Option.bind_eq_some_iff.mp hr
      simp only [hsetting, Option.bind_eq_bind, Option.bind_some]
      split at hr
      · obtain ⟨rfl, rfl⟩ := Prod.mk.inj (Option.some.inj hr)
        exact ⟨he, rfl⟩
      · exact h.attached hr he
      · exact h.attached hr he

theorem longOption {word : List Char} {c e : Choices} {pending : Option Setting}
    (hr : longOption command c word = some (e, pending)) (he : P e) :
    P c ∧ CommandLine.longOption command (change c) word = some (change e, pending) := by
  unfold CommandLine.longOption at hr ⊢
  generalize String.ofList (word.takeWhile (· != '=')) = name at hr ⊢
  generalize word.dropWhile (· != '=') = tail at hr ⊢
  cases hs : command.longSwitch? name with
  | some s =>
    cases tail with
    | nil =>
      simp only [hs] at hr ⊢
      obtain ⟨d, hd, hr⟩ := Option.bind_eq_some_iff.mp hr
      obtain ⟨rfl, rfl⟩ := Prod.mk.inj (Option.some.inj hr)
      obtain ⟨hpc, hswitch⟩ := h.switch hd he
      exact ⟨hpc, by rw [hswitch]; rfl⟩
    | cons _ value => simp [hs] at hr
  | none =>
    cases tail with
    | nil =>
      simp only [hs] at hr ⊢
      obtain ⟨setting, hsetting, hr⟩ := Option.bind_eq_some_iff.mp hr
      obtain ⟨rfl, rfl⟩ := Prod.mk.inj (Option.some.inj hr)
      exact ⟨he, by rw [hsetting]; rfl⟩
    | cons _ value =>
      simp only [hs] at hr ⊢
      obtain ⟨setting, hsetting, hr⟩ := Option.bind_eq_some_iff.mp hr
      obtain ⟨hpc, hset⟩ := h.attached hr he
      exact ⟨hpc, by rw [hsetting]; exact hset⟩

theorem readOption {word : String} {c e : Choices} {pending : Option Setting}
    (hr : readOption command c word = some (e, pending)) (he : P e) :
    P c ∧ CommandLine.readOption command (change c) word = some (change e, pending) := by
  unfold CommandLine.readOption at hr ⊢
  split at hr
  · exact h.longOption hr he
  · exact h.shortOptions hr he

theorem readWords {words : List String} {pending : Option Setting} {c e : Choices}
    (hr : readWords command pending c words = some e) (he : P e) :
    P c ∧ CommandLine.readWords command pending (change c) words = some (change e) := by
  induction words generalizing pending c with
  | nil =>
    cases begins_of_readWords hr with
    | finished hc => exact ⟨hc ▸ he, hc ▸ rfl⟩
  | cons first rest ih =>
    cases begins_of_readWords hr with
    | value ho hd hrest =>
      obtain ⟨hpd, hrest⟩ := ih hrest
      obtain ⟨hpc, hset⟩ := h.set hd hpd
      exact ⟨hpc, by rw [readWords_value ho, hset, Option.bind_some, hrest]⟩
    | placed hd =>
      rw [readWords_placed]
      exact h.placeAll hd he
    | option hw ho hd hrest =>
      obtain ⟨hpd, hrest⟩ := ih hrest
      obtain ⟨hpc, hoption⟩ := h.readOption hd hpd
      exact ⟨hpc, by rw [readWords_option hw ho, hoption, Option.bind_some, hrest]⟩
    | word hw ho hd hrest =>
      obtain ⟨hpd, hrest⟩ := ih hrest
      obtain ⟨hpc, hplace⟩ := h.place hd hpd
      exact ⟨hpc, by rw [readWords_word hw ho, hplace, Option.bind_some, hrest]⟩

end Carried

theorem Choices.switch_validate {c e : Choices} :
    c.switch .validate = some e ↔ c.validate = false ∧ { c with validate := true } = e := by
  simp [Choices.switch]

theorem Choices.set_config {c e : Choices} {value : String} : c.set value .config = some e ↔
    (c.config = none ∧ value ≠ "") ∧ { c with config := some value } = e := by
  simp [Choices.set]

theorem Choices.set_format {c e : Choices} {value : String} : c.set value .format = some e ↔
    ∃ f, Format.ofName? value = some f ∧ c.format = none ∧ { c with format := some f } = e := by
  simp [Choices.set, Option.bind_eq_some_iff]

theorem Choices.set_output {c e : Choices} {value : String} : c.set value .output = some e ↔
    (c.output = none ∧ value ≠ "") ∧ { c with output := some value } = e := by
  simp [Choices.set]

theorem Choices.place_eq_some {c e : Choices} {word : String} : c.place word = some e ↔
    (c.file = none ∧ word ≠ "") ∧ { c with file := some word } = e := by
  simp [Choices.place]

/-- The choices after flags: more log lines, and maybe the check. -/
def Choices.flagged (n : Nat) (checked : Bool) (c : Choices) : Choices :=
  { c with verbosity := c.verbosity + n, validate := c.validate || checked }

theorem Choices.flagged_zero (c : Choices) : c.flagged 0 false = c := by
  simp [Choices.flagged]

theorem Choices.flagged_flagged (n k : Nat) (c : Choices) :
    (c.flagged n false).flagged k false = c.flagged (n + k) false := by
  simp [Choices.flagged, Nat.add_assoc]

theorem Choices.switch_verbose (c : Choices) :
    c.switch .verbose = some (c.flagged 1 false) := by
  simp [Choices.switch, Choices.flagged]

/-- Reading goes along with flags, if the check is not asked for twice. -/
theorem carried_flagged (n : Nat) (checked : Bool) :
    Carried (Choices.flagged n checked) fun e => checked = true → e.validate = false where
  switch {c e s} h he := by
    cases s with
    | verbose =>
      obtain rfl := Option.some.inj h
      exact ⟨he, by simp [Choices.switch, Choices.flagged, Nat.add_right_comm]⟩
    | validate =>
      obtain ⟨hc, rfl⟩ := Choices.switch_validate.mp h
      obtain rfl : checked = false := by simpa using he
      refine ⟨fun _ => hc, Choices.switch_validate.mpr ⟨?_, rfl⟩⟩
      simp [Choices.flagged, hc]
  set {c e value setting} h he := by
    cases setting with
    | config =>
      obtain ⟨hc, rfl⟩ := Choices.set_config.mp h
      exact ⟨he, Choices.set_config.mpr ⟨hc, rfl⟩⟩
    | format =>
      obtain ⟨f, hf, hc, rfl⟩ := Choices.set_format.mp h
      exact ⟨he, Choices.set_format.mpr ⟨f, hf, hc, rfl⟩⟩
    | output =>
      obtain ⟨hc, rfl⟩ := Choices.set_output.mp h
      exact ⟨he, Choices.set_output.mpr ⟨hc, rfl⟩⟩
  place {c e word} h he := by
    obtain ⟨hc, rfl⟩ := Choices.place_eq_some.mp h
    exact ⟨he, Choices.place_eq_some.mpr ⟨hc, rfl⟩⟩

/-- Flags between words that have been read up to their end and further ones. -/
theorem readWords_inserted {front more back : List String} {b c d : Choices} {n : Nat}
    {checked : Bool} (hf : "--" ∉ front) (hd : readWords command none b front = some d)
    (hr : readWords command none b (front ++ back) = some c)
    (hc : checked = true → c.validate = false)
    (hm : (checked = true → d.validate = false) →
      readWords command none d (more ++ back) = readWords command none (d.flagged n checked) back) :
    readWords command none b (front ++ (more ++ back)) = some (c.flagged n checked) := by
  rw [readWords_append hd hf] at hr ⊢
  obtain ⟨hdc, hback⟩ := (carried_flagged n checked).readWords hr hc
  rw [hm hdc, hback]

/-- A word that asks for more log lines and nothing else. -/
def IsVerbose (word : String) : Prop :=
  word = "--verbose" ∨ ∃ n, word = String.ofList ('-' :: 'v' :: List.replicate n 'v')

theorem isOption_ofList (c : Char) (cs : List Char) :
    isOption (String.ofList ('-' :: c :: cs)) = true := by
  simp [isOption, String.startsWith_string_iff]

theorem ofList_ne {s : String} {cs : List Char} (h : cs ≠ s.toList) : String.ofList cs ≠ s := by
  rintro rfl
  exact h String.toList_ofList.symm

theorem shortOptions_verbose (n : Nat) (c : Choices) :
    shortOptions command c (List.replicate n 'v') = some (c.flagged n false, none) := by
  induction n generalizing c with
  | zero => rw [Choices.flagged_zero, List.replicate_zero, shortOptions]
  | succ n ih =>
    have hv : command.shortSwitch? 'v' = some .verbose := by cases command <;> rfl
    rw [List.replicate_succ, shortOptions, hv]
    simp only [Choices.switch_verbose, Option.bind_eq_bind, Option.bind_some, ih,
      Choices.flagged_flagged, Nat.add_comm 1 n]

theorem readOption_verbose {word : String} (h : IsVerbose word) :
    word ≠ "--" ∧ isOption word = true ∧
      ∃ n, ∀ command c, readOption command c word = some (c.flagged n false, none) := by
  rcases h with rfl | ⟨n, rfl⟩
  · refine ⟨by decide, isOption_ofList '-' "verbose".toList, 1, fun command c => ?_⟩
    have hr : readOption command c "--verbose" =
        (c.switch .verbose).bind fun c => some (c, none) := by cases command <;> rfl
    rw [hr, Choices.switch_verbose, Option.bind_some]
  · refine ⟨ofList_ne (by simp), isOption_ofList 'v' _, n + 1, fun command c => ?_⟩
    rw [readOption, String.toList_ofList]
    exact shortOptions_verbose (n + 1) c

theorem readWords_verbose {more : List String} (h : ∀ word ∈ more, IsVerbose word) :
    ∃ n, ∀ command c back, readWords command none c (more ++ back) =
      readWords command none (c.flagged n false) back := by
  induction more with
  | nil =>
    refine ⟨0, fun command c back => ?_⟩
    rw [Choices.flagged_zero, List.nil_append]
  | cons word more ih =>
    rw [List.forall_mem_cons] at h
    obtain ⟨hw, ho, n, hword⟩ := readOption_verbose h.1
    obtain ⟨k, hmore⟩ := ih h.2
    refine ⟨n + k, fun command c back => ?_⟩
    rw [List.cons_append, readWords_option hw ho, hword, Option.bind_some, hmore,
      Choices.flagged_flagged]

theorem readWords_validate {c : Choices} (h : c.validate = false) (rest : List String) :
    readWords .lower none c (["--validate"] ++ rest) =
      readWords .lower none (c.flagged 0 true) rest := by
  have ho : isOption "--validate" = true := isOption_ofList '-' "validate".toList
  have hr : readOption .lower c "--validate" =
      (c.switch .validate).bind fun c => some (c, none) := rfl
  rw [List.singleton_append, readWords_option (by decide) ho, hr,
    Choices.switch_validate.mpr ⟨h, rfl⟩]
  simp [Choices.flagged]

theorem shortGlobals_verbose (n verbosity : Nat) :
    shortGlobals verbosity (List.replicate n 'v') = some (.inl (verbosity + n)) := by
  induction n generalizing verbosity with
  | zero => rfl
  | succ n ih =>
    rw [List.replicate_succ, shortGlobals, ih, Nat.add_assoc, Nat.add_comm 1 n]

theorem ofName?_ofList (cs : List Char) : Command.ofName? (String.ofList ('-' :: cs)) = none := by
  have hlower : String.ofList ('-' :: cs) ≠ "lower" := ofList_ne (by simp)
  have hlayout : String.ofList ('-' :: cs) ≠ "layout" := ofList_ne (by simp)
  unfold Command.ofName?
  split
  · exact absurd ‹_› hlower
  · exact absurd ‹_› hlayout
  · rfl

theorem parse_verbose {word : String} (h : IsVerbose word) :
    ∃ n, ∀ verbosity rest, parse verbosity (word :: rest) = parse (verbosity + n) rest := by
  rcases h with rfl | ⟨n, rfl⟩
  · exact ⟨1, fun verbosity rest => rfl⟩
  · refine ⟨n + 1, fun verbosity rest => ?_⟩
    have hverbose : String.ofList ('-' :: 'v' :: List.replicate n 'v') ≠ "--verbose" :=
      ofList_ne (by simp)
    have hversion : String.ofList ('-' :: 'v' :: List.replicate n 'v') ≠ "--version" :=
      ofList_ne (by simp)
    have hhelp : String.ofList ('-' :: 'v' :: List.replicate n 'v') ≠ "--help" :=
      ofList_ne (by simp)
    have hpage : String.ofList ('-' :: 'v' :: List.replicate n 'v') ≠ "help" :=
      ofList_ne (by simp)
    have hletters := shortGlobals_verbose (n + 1) verbosity
    rw [List.replicate_succ] at hletters
    rw [parse, ofName?_ofList]
    simp only [hverbose, hversion, hhelp, hpage, isOption_ofList, String.toList_ofList,
      List.tail_cons, hletters, if_true, if_false]
    rfl

theorem parse_early {early : List String} (h : ∀ word ∈ early, IsVerbose word) :
    ∃ n, ∀ verbosity rest, parse verbosity (early ++ rest) = parse (verbosity + n) rest := by
  induction early with
  | nil => exact ⟨0, fun verbosity rest => rfl⟩
  | cons word early ih =>
    rw [List.forall_mem_cons] at h
    obtain ⟨n, hword⟩ := parse_verbose h.1
    obtain ⟨k, hearly⟩ := ih h.2
    refine ⟨n + k, fun verbosity rest => ?_⟩
    rw [List.cons_append, hword, hearly, Nat.add_assoc]

theorem shortGlobals_cases {letters : List Char} {verbosity : Nat} {result : Nat ⊕ Invocation}
    (h : shortGlobals verbosity letters = some result) :
    letters = List.replicate letters.length 'v' ∨
      ∃ invocation, result = .inr invocation ∧ ∀ v job, invocation ≠ .run v job := by
  induction letters generalizing verbosity with
  | nil => exact .inl rfl
  | cons letter rest ih =>
    unfold shortGlobals at h
    split at h
    · contradiction
    · next hcons =>
      obtain ⟨rfl, rfl⟩ := List.cons.inj hcons
      exact (ih h).imp_left fun hrest => congrArg ('v' :: ·) hrest
    · exact .inr ⟨.version, (Option.some.inj h).symm, fun v job hrun => by cases hrun⟩
    · exact .inr ⟨.help .program .short, (Option.some.inj h).symm, fun v job hrun => by cases hrun⟩
    · cases h

theorem isVerbose_of_letters {word : String} (ho : isOption word = true)
    (hletters : word.toList.tail = List.replicate word.toList.tail.length 'v') :
    IsVerbose word := by
  rw [isOption, Bool.and_eq_true, String.startsWith_string_iff, bne_iff_ne] at ho
  obtain ⟨tail, htail⟩ := ho.1
  rw [← htail] at hletters
  cases tail with
  | nil => exact absurd (String.toList_inj.mp htail.symm) ho.2
  | cons letter rest =>
    refine .inr ⟨rest.length, ?_⟩
    rw [← String.toList_inj, String.toList_ofList, ← htail]
    exact congrArg ('-' :: ·) hletters

theorem shortOptions_help {letters : List Char} (h : shortHelp command letters = true)
    (c : Choices) : shortOptions command c letters = none := by
  induction letters generalizing c with
  | nil => cases h
  | cons letter rest ih =>
    rw [shortOptions]
    by_cases hl : letter = 'h'
    · subst hl
      cases command <;> rfl
    · have hboth : (command.shortSwitch? letter).isSome = true ∧ shortHelp command rest = true := by
        rw [← Bool.and_eq_true, ← h, shortHelp]
        simpa using hl
      obtain ⟨s, hs⟩ := Option.isSome_iff_exists.mp hboth.1
      simp only [hs, ih hboth.2]
      cases c.switch s <;> rfl

/-- A word that asks for help is an option, but none of those that are read. -/
theorem readOption_help {word : String} {form : HelpForm}
    (h : helpWord? command word = some form) (c : Choices) :
    word ≠ "--" ∧ isOption word = true ∧ readOption command c word = none := by
  unfold helpWord? at h
  split at h
  · next hw =>
    subst hw
    refine ⟨by decide, isOption_ofList '-' "help".toList, ?_⟩
    cases command <;> rfl
  · split at h
    · next hw =>
      obtain ⟨ho, hletters⟩ := hw
      have hdash : ∀ rest, word.toList ≠ '-' :: '-' :: rest := by
        intro rest heq
        rw [heq] at hletters
        cases command <;> cases hletters
      refine ⟨?_, ho, ?_⟩
      · rintro rfl
        exact hdash [] rfl
      · unfold readOption
        split
        · exact absurd ‹_› (hdash _)
        · exact shortOptions_help hletters c
    · cases h

theorem readWords_help {front back : List String} {word : String} {form : HelpForm}
    (hf : "--" ∉ front) (hr : (readWords command none {} front).isSome = true)
    (hw : helpWord? command word = some form) :
    readWords command none {} (front ++ word :: back) = none := by
  obtain ⟨d, hd⟩ := Option.isSome_iff_exists.mp hr
  obtain ⟨hdashes, ho, hoption⟩ := readOption_help hw d
  rw [readWords_append hd hf, readWords_option hdashes ho, hoption, Option.bind_none]

theorem not_help_of_readWords {front back : List String} {word : String} {c : Choices}
    (h : readWords command none {} (front ++ word :: back) = some c) :
    (if "--" ∉ front ∧ (readWords command none {} front).isSome = true then helpWord? command word
      else none) = none := by
  split
  · next hready =>
    cases hw : helpWord? command word with
    | none => rfl
    | some form =>
      rw [readWords_help hready.1 hready.2 hw] at h
      cases h
  · rfl

/-- Words that are read to their end do not ask for help. -/
theorem helpAfter?_of_readWords {front words : List String} {c : Choices}
    (h : readWords command none {} (front ++ words) = some c) :
    helpAfter? command front words = none := by
  induction words generalizing front with
  | nil => rfl
  | cons word rest ih =>
    rw [helpAfter?]
    simp only [not_help_of_readWords h]
    exact ih (by rwa [List.append_assoc])

/-- Words that are read to their end may be followed by one that asks for help. -/
theorem helpAfter?_eq_some {front between back : List String} {word : String} {form : HelpForm}
    {c : Choices} (hf : "--" ∉ front ++ between)
    (hr : readWords command none {} (front ++ between) = some c)
    (hw : helpWord? command word = some form) :
    helpAfter? command front (between ++ word :: back) = some form := by
  induction between generalizing front with
  | nil =>
    rw [List.append_nil] at hf hr
    have hready : "--" ∉ front ∧ (readWords command none {} front).isSome = true :=
      ⟨hf, by rw [hr]; rfl⟩
    rw [List.nil_append, helpAfter?]
    simp only [if_pos hready, hw]
  | cons first between ih =>
    rw [List.cons_append, helpAfter?]
    simp only [not_help_of_readWords hr]
    exact ih (by rwa [List.append_assoc]) (by rwa [List.append_assoc])

/-- The options of `lower` among the choices. -/
def Choices.options? (c : Choices) : Option LowerOptions :=
  c.file.map fun file => ⟨file, c.config, c.format.getD .listing, c.output, c.validate⟩

theorem Choices.options?_flagged {c : Choices} {o : LowerOptions} (h : c.options? = some o)
    (n : Nat) (checked : Bool) :
    (c.flagged n checked).options? = some { o with validate := o.validate || checked } := by
  obtain ⟨file, hf, rfl⟩ := Option.map_eq_some_iff.mp h
  simp [Choices.options?, Choices.flagged, hf]

theorem parse_command {name : String} (hn : Command.ofName? name = some command) (verbosity : Nat)
    (rest : List String) : parse verbosity (name :: rest) =
      match helpAfter? command [] rest with
      | some form => some (.help (.command command) form)
      | none => (readWords command none {} rest).bind fun c => c.invocation verbosity command := by
  rw [parse, hn]
  rfl

theorem Choices.invocation_lower (c : Choices) (verbosity : Nat) : c.invocation verbosity .lower =
    c.options?.map fun o =>
      .run (if c.verbosity = 0 then verbosity else c.verbosity) (.lower o) := by
  simp only [Choices.invocation, Choices.options?]
  cases c.file <;> rfl

theorem parse_lower_iff {early rest : List String} {o : LowerOptions}
    (he : ∀ word ∈ early, IsVerbose word) (verbosity : Nat) :
    (∃ v, parse verbosity (early ++ "lower" :: rest) = some (.run v (.lower o))) ↔
      ∃ c, readWords .lower none {} rest = some c ∧ c.options? = some o := by
  obtain ⟨n, hearly⟩ := parse_early he
  have hcommand : Command.ofName? "lower" = some .lower := rfl
  simp only [hearly, parse_command hcommand]
  constructor
  · rintro ⟨v, hv⟩
    split at hv
    · cases hv
    · obtain ⟨c, hr, hv⟩ := Option.bind_eq_some_iff.mp hv
      rw [Choices.invocation_lower] at hv
      obtain ⟨o', ho, hv⟩ := Option.map_eq_some_iff.mp hv
      cases hv
      exact ⟨c, hr, ho⟩
  · rintro ⟨c, hr, ho⟩
    simp only [@helpAfter?_of_readWords .lower [] rest c hr, hr, Option.bind_some,
      Choices.invocation_lower, ho]
    exact ⟨_, rfl⟩

/-- After words that are read to their end, a word that asks for help gets it, whatever follows. -/
theorem parse_help {early front back : List String} {name word : String} {form : HelpForm}
    {c : Choices} (he : ∀ word ∈ early, IsVerbose word) (hn : Command.ofName? name = some command)
    (hf : "--" ∉ front) (hr : readWords command none {} front = some c)
    (hw : helpWord? command word = some form) :
    parse 0 (early ++ name :: (front ++ word :: back)) = some (.help (.command command) form) := by
  obtain ⟨n, hearly⟩ := parse_early he
  rw [hearly, parse_command hn, @helpAfter?_eq_some command [] front back word form c hf hr hw]

/-- An invocation of `lower`: words that ask for log lines, the command, and its own words. -/
theorem exists_of_parse_lower {verbosity v : Nat} {args : List String} {o : LowerOptions}
    (h : parse verbosity args = some (.run v (.lower o))) :
    ∃ early rest, args = early ++ "lower" :: rest ∧ ∀ word ∈ early, IsVerbose word := by
  induction args generalizing verbosity with
  | nil => cases h
  | cons word rest ih =>
    have hmore (hw : IsVerbose word) : ∃ early rest',
        word :: rest = early ++ "lower" :: rest' ∧ ∀ word ∈ early, IsVerbose word := by
      obtain ⟨n, hparse⟩ := parse_verbose hw
      rw [hparse] at h
      obtain ⟨early, rest', rfl, he⟩ := ih h
      exact ⟨word :: early, rest', rfl, List.forall_mem_cons.mpr ⟨hw, he⟩⟩
    rw [parse] at h
    cases hc : Command.ofName? word with
    | some command =>
      simp only [hc] at h
      split at h
      · cases h
      obtain ⟨c, hr, h⟩ := Option.bind_eq_some_iff.mp h
      obtain ⟨file, hf, h⟩ := Option.bind_eq_some_iff.mp h
      cases command with
      | layout => cases h
      | lower =>
        refine ⟨[], rest, ?_, List.forall_mem_nil _⟩
        unfold Command.ofName? at hc
        split at hc
        · rfl
        · cases hc
        · cases hc
    | none =>
      simp only [hc] at h
      split at h
      · next hw => exact hmore (.inl hw)
      split at h
      · cases h
      split at h
      · cases h
      split at h
      · obtain ⟨topic, -, htopic⟩ := Option.map_eq_some_iff.mp h
        cases htopic
      split at h
      · next ho =>
        obtain ⟨result, hg, h⟩ := Option.bind_eq_some_iff.mp h
        rcases shortGlobals_cases hg with hletters | ⟨invocation, rfl, hrun⟩
        · exact hmore (isVerbose_of_letters ho hletters)
        · exact absurd (Option.some.inj h) (hrun v (.lower o))
      · cases h

/-- Flags are put into an invocation of `lower`: words that ask for more log lines, before the
command or after it, or the word that asks for the check, if nothing has asked for it. After the
command they stand where an option may stand: the words before them have been read up to their end
and contain no two dashes. -/
inductive FlagsAdded : List String → List String → Prop
  | early {early more rest : List String} : (∀ word ∈ early, IsVerbose word) →
      (∀ word ∈ more, IsVerbose word) → FlagsAdded (early ++ rest) (early ++ (more ++ rest))
  | verbose {early front more back : List String} : (∀ word ∈ early, IsVerbose word) →
      "--" ∉ front → (readWords .lower none {} front).isSome → (∀ word ∈ more, IsVerbose word) →
      FlagsAdded (early ++ "lower" :: (front ++ back))
        (early ++ "lower" :: (front ++ (more ++ back)))
  | validate {early front back : List String} : (∀ word ∈ early, IsVerbose word) →
      "--" ∉ front → (readWords .lower none {} front).isSome →
      (∀ c ∈ readWords .lower none {} (front ++ back), c.validate = false) →
      FlagsAdded (early ++ "lower" :: (front ++ back))
        (early ++ "lower" :: (front ++ (["--validate"] ++ back)))

/-- With more flags an invocation has the same options, but for the check. -/
theorem FlagsAdded.parse {args args' : List String} (h : FlagsAdded args args') {v : Nat}
    {o : LowerOptions} (hp : parse 0 args = some (.run v (.lower o))) :
    ∃ v' checked, parse 0 args' = some (.run v' (.lower { o with validate := checked })) := by
  cases h with
  | @early early more rest he hm =>
    obtain ⟨n, hearly⟩ := parse_early he
    rw [hearly] at hp
    obtain ⟨early', rest', rfl, he'⟩ := exists_of_parse_lower hp
    have hc := (parse_lower_iff he' _).mp ⟨v, hp⟩
    have hall : ∀ word ∈ early ++ (more ++ early'), IsVerbose word := by
      simp only [List.forall_mem_append]
      exact ⟨he, hm, he'⟩
    obtain ⟨v', hv'⟩ := (parse_lower_iff hall 0).mpr hc
    rw [List.append_assoc, List.append_assoc] at hv'
    exact ⟨v', o.validate, hv'⟩
  | @verbose early front more back he hf hs hm =>
    obtain ⟨c, hr, ho⟩ := (parse_lower_iff he 0).mp ⟨v, hp⟩
    obtain ⟨d, hd⟩ := Option.isSome_iff_exists.mp hs
    obtain ⟨n, hmore⟩ := readWords_verbose hm
    have hr' := readWords_inserted hf hd hr (by simp) fun _ => hmore .lower d back
    obtain ⟨v', hv'⟩ := (parse_lower_iff he 0).mpr ⟨_, hr', Choices.options?_flagged ho n false⟩
    exact ⟨v', _, hv'⟩
  | @validate early front back he hf hs hv =>
    obtain ⟨c, hr, ho⟩ := (parse_lower_iff he 0).mp ⟨v, hp⟩
    obtain ⟨d, hd⟩ := Option.isSome_iff_exists.mp hs
    have hr' := readWords_inserted hf hd hr (fun _ => hv c hr) fun hdv =>
      readWords_validate (hdv rfl) back
    obtain ⟨v', hv'⟩ := (parse_lower_iff he 0).mpr ⟨_, hr', Choices.options?_flagged ho 0 true⟩
    exact ⟨v', _, hv'⟩

end BlockLowering.CommandLine
