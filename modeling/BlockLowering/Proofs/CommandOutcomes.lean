import BlockLowering.CommandLine.Run
import BlockLowering.Proofs.CommandWords
import BlockLowering.Proofs.FileLaws
import BlockLowering.Proofs.ProgramValidity
import BlockLowering.Proofs.SettingsTexts
import Mathlib.Logic.Relation

/-! What an invocation leaves behind. All that can fail comes before the one write, and the text
that is written depends neither on the log, nor on the check, nor on where it goes. -/

namespace BlockLowering

theorem lower_unchecked (settings : Settings) (checked : Bool) (p : Source.Program) :
    lower { settings with validate := checked } p =
      lower { settings with validate := false } p := by
  simp only [lower]
  rw [flattenProgram_unchecked]
  rfl

theorem ok_of_toOption {ε α : Type} {result : Except ε α} {a : α}
    (h : result.toOption = some a) : result = .ok a := by
  cases result with
  | error e => cases h
  | ok b => exact congrArg _ (Option.some.inj h)

/-- From `s` to `t` and from `s'` to `t'` nothing was written, or the same text to the same path. -/
def Files.SameWrites {σ : Type} (files : Files (StateM σ)) (s t s' t' : σ) : Prop :=
  t = s ∧ t' = s' ∨
    ∃ path text, files.write path text s = (.ok (), t) ∧ files.write path text s' = (.ok (), t')

namespace CommandLine

/-- Two ends that differ in nothing but what was logged and reported. -/
def Exit.Agrees (e e' : Exit) : Prop := e'.code = e.code ∧ e'.output = e.output

namespace Done

variable {d d' : Done}

theorem exit_of_none (h : d.result.toOption = none) (v : Nat) :
    (d.exit v).code = 1 ∧ (d.exit v).output = "" := by
  obtain ⟨log, result⟩ := d
  cases result with
  | error r => exact ⟨rfl, rfl⟩
  | ok text => cases h

theorem exit_of_text {text : String} (h : d.result.toOption = some text) (v : Nat) :
    (d.exit v).code = 0 ∧ (d.exit v).output = text := by
  obtain ⟨log, result⟩ := d
  cases result with
  | error r => cases h
  | ok text' => exact ⟨rfl, Option.some.inj h⟩

theorem exit_agrees (h : d'.result.toOption = d.result.toOption) (v v' : Nat) :
    (d.exit v).Agrees (d'.exit v') := by
  cases ht : d.result.toOption with
  | none =>
    obtain ⟨hcode, hout⟩ := exit_of_none ht v
    obtain ⟨hcode', hout'⟩ := exit_of_none (h.trans ht) v'
    exact ⟨hcode'.trans hcode.symm, hout'.trans hout.symm⟩
  | some text =>
    obtain ⟨hcode, hout⟩ := exit_of_text ht v
    obtain ⟨hcode', hout'⟩ := exit_of_text (h.trans ht) v'
    exact ⟨hcode'.trans hcode.symm, hout'.trans hout.symm⟩

theorem exit_failed {v : Nat} (h : (d.exit v).code ≠ 0) :
    (d.exit v).output = "" ∧ d.result.toOption = none := by
  cases ht : d.result.toOption with
  | none => exact ⟨(exit_of_none ht v).2, rfl⟩
  | some text => exact absurd (exit_of_text ht v).1 h

end Done

variable {σ : Type} {files : Files (StateM σ)}

theorem bind_apply {α β : Type} (m : StateM σ α) (next : α → StateM σ β) (s : σ) :
    (m >>= next) s = next (m s).1 (m s).2 := rfl

theorem loadSettings_keeps (h : files.Lawful) (config : Option String) (s : σ) :
    (loadSettings files config s).2 = s := by
  cases config with
  | none => rfl
  | some path =>
    rw [loadSettings, bind_apply, Settings.load, bind_apply, h.read_eq]
    cases files.look s path <;> rfl

theorem loadProgram_keeps (h : files.Lawful) (path : String) (s : σ) :
    (loadProgram files path s).2 = s := by
  rw [loadProgram, bind_apply, h.read_eq]
  cases files.look s path <;> rfl

theorem loadSettings_of_look (h : files.Lawful) {s : σ} {path text : String}
    (hl : files.look s path = .ok text) :
    (loadSettings files (some path) s).1.toOption = (Settings.decode text).toOption := by
  rw [loadSettings, bind_apply, Settings.load, bind_apply, h.read_eq, hl]
  dsimp only
  cases Settings.decode text <;> rfl

theorem loadProgram_congr (h : files.Lawful) {s s' : σ} {path : String}
    (hl : files.look s' path = files.look s path) :
    (loadProgram files path s').1 = (loadProgram files path s).1 := by
  rw [loadProgram, bind_apply, bind_apply, h.read_eq, h.read_eq, hl]
  cases files.look s path <;> rfl

theorem loadProgram_of_look (h : files.Lawful) {s : σ} {path text : String}
    (hl : files.look s path = .ok text) :
    (loadProgram files path s).1.toOption =
      (Source.Program.decode.run (Json.read text)).toOption := by
  rw [loadProgram, bind_apply, h.read_eq, hl]
  dsimp only
  cases Source.Program.decode.run (Json.read text) <;> rfl

/-- Settings are not a program. -/
theorem loadProgram_of_settings (h : files.Lawful) {s : σ} {path text : String}
    {settings : Settings} (hl : files.look s path = .ok text)
    (hd : Settings.decode text = .ok settings) : (loadProgram files path s).1.toOption = none := by
  rw [loadProgram_of_look h hl]
  cases hr : Source.Program.decode.run (Json.read text) with
  | error f => rfl
  | ok p => exact absurd hr (Settings.not_program_of_decode hd p)

theorem deliver_some (path text : String) (s : σ) :
    deliver files (some path) text s =
      match files.write path text s with
      | (.ok (), t) => (.ok "", t)
      | (.error f, t) => (.error ⟨"Failed to write " ++ path, [f.message]⟩, t) := by
  rw [deliver, bind_apply]
  rcases files.write path text s with ⟨_ | _, t⟩ <;> rfl

theorem deliver_failed (h : files.Lawful) {output : Option String} {text : String} {s : σ}
    (hr : (deliver files output text s).1.toOption = none) :
    (deliver files output text s).2 = s := by
  cases output with
  | none => rfl
  | some path =>
    rw [deliver_some] at hr ⊢
    rcases hw : files.write path text s with ⟨f | _, t⟩
    · exact h.failed_write_keeps hw
    · rw [hw] at hr
      cases hr

theorem deliver_exchanged (h : files.Lawful) {text text' : String} {s s' : σ}
    (hx : files.Exchanged text text' s s') (output : Option String) (content : String) :
    (deliver files output content s').1.toOption = (deliver files output content s).1.toOption ∧
      files.SameWrites s (deliver files output content s).2 s'
        (deliver files output content s').2 := by
  cases output with
  | none => exact ⟨rfl, .inl ⟨rfl, rfl⟩⟩
  | some path =>
    have hw := hx.write path content
    rw [deliver_some, deliver_some]
    rcases hs : files.write path content s with ⟨f | _, t⟩ <;>
      rcases hs' : files.write path content s' with ⟨f' | _, t'⟩ <;> rw [hs, hs'] at hw
    · exact ⟨rfl, .inl ⟨h.failed_write_keeps hs, h.failed_write_keeps hs'⟩⟩
    · cases hw
    · cases hw
    · exact ⟨rfl, .inr ⟨path, content, hs, hs'⟩⟩

/-- The end of a run that prints its output. -/
def printed (files : Files (StateM σ)) (o : LowerOptions) (s : σ) : Done :=
  (runLower files { o with output := none } s).1

theorem runLower_eq (h : files.Lawful) (o : LowerOptions) (s : σ) :
    runLower files o s =
      match (printed files o s).result with
      | .error _ => (printed files o s, s)
      | .ok text => (⟨(printed files o s).log, (deliver files o.output text s).1⟩,
          (deliver files o.output text s).2) := by
  rw [printed, runLower, runLower, bind_apply, bind_apply, loadSettings_keeps h]
  cases (loadSettings files o.config s).1 with
  | error r => rfl
  | ok settings =>
    dsimp only
    rw [bind_apply, bind_apply, loadProgram_keeps h]
    cases (loadProgram files o.file s).1 with
    | error r => rfl
    | ok p =>
      dsimp only
      cases (lower { settings with validate := settings.validate || o.validate } p).result <;> rfl

theorem runLower_unchecked (o : LowerOptions) (checked : Bool) :
    runLower files { o with validate := checked } = runLower files o := by
  simp only [runLower, lower_unchecked _ (_ || _)]

theorem runLower_of_none (h : files.Lawful) {o : LowerOptions} {s : σ}
    (hp : (printed files o s).result.toOption = none) :
    (runLower files o s).1.result.toOption = none ∧ (runLower files o s).2 = s := by
  rw [runLower_eq h]
  cases hr : (printed files o s).result with
  | error r => exact ⟨hp, rfl⟩
  | ok text =>
    rw [hr] at hp
    cases hp

theorem runLower_of_text (h : files.Lawful) {o : LowerOptions} {s : σ} {text : String}
    (hp : (printed files o s).result.toOption = some text) :
    (runLower files o s).1.result = (deliver files o.output text s).1 ∧
      (runLower files o s).2 = (deliver files o.output text s).2 := by
  rw [runLower_eq h, ok_of_toOption hp]
  exact ⟨rfl, rfl⟩

theorem runLower_failed (h : files.Lawful) {o : LowerOptions} {s : σ}
    (hr : (runLower files o s).1.result.toOption = none) : (runLower files o s).2 = s := by
  cases hp : (printed files o s).result.toOption with
  | none => exact (runLower_of_none h hp).2
  | some text =>
    obtain ⟨hresult, hstate⟩ := runLower_of_text h hp
    rw [hresult] at hr
    rw [hstate, deliver_failed h hr]

theorem printed_keeps (h : files.Lawful) (o : LowerOptions) (s : σ) :
    (runLower files { o with output := none } s).2 = s := by
  rw [runLower_eq h]
  cases (printed files { o with output := none } s).result <;> rfl

/-- The text that is printed, from what is read. -/
theorem printed_text (h : files.Lawful) (o : LowerOptions) (s : σ) :
    (printed files o s).result.toOption =
      (loadSettings files o.config s).1.toOption.bind fun settings =>
        (loadProgram files o.file s).1.toOption.bind fun p =>
          (lower { settings with validate := false } p).result.toOption.map o.format.render := by
  rw [printed, runLower, bind_apply, loadSettings_keeps h]
  cases (loadSettings files o.config s).1 with
  | error r => rfl
  | ok settings =>
    dsimp only
    rw [bind_apply, loadProgram_keeps h]
    cases (loadProgram files o.file s).1 with
    | error r => rfl
    | ok p =>
      dsimp only
      rw [lower_unchecked]
      change _ = (lower { settings with validate := false } p).result.toOption.map _
      cases (lower { settings with validate := false } p).result <;> rfl

section

variable {s s' : σ} {text text' path : String} {o : LowerOptions} (h : files.Lawful)
  (hx : files.Exchanged text text' s s')
  (hd : (Settings.decode text').toOption =
    (Settings.decode text).toOption.map ({ · with validate := true }))
  (hc : o.config = some path) (hl : files.look s path = .ok text)
  (hl' : files.look s' path = .ok text')
include h hx hd hc hl hl'

theorem printed_exchanged :
    (printed files o s').result.toOption = (printed files o s).result.toOption := by
  rw [printed_text h, printed_text h, hc, loadSettings_of_look h hl, loadSettings_of_look h hl', hd]
  cases hs : Settings.decode text with
  | error f => rfl
  | ok settings =>
    rcases hx.look o.file with hp | ⟨hp, hp'⟩
    · rw [loadProgram_congr h hp]
      rfl
    · have hs' : Settings.decode text' = .ok { settings with validate := true } :=
        ok_of_toOption (by rw [hd, hs]; rfl)
      rw [loadProgram_of_settings h hp hs, loadProgram_of_settings h hp' hs']
      rfl

theorem runLower_exchanged :
    (runLower files o s').1.result.toOption = (runLower files o s).1.result.toOption ∧
      files.SameWrites s (runLower files o s).2 s' (runLower files o s').2 := by
  have hp' := printed_exchanged h hx hd hc hl hl'
  cases hp : (printed files o s).result.toOption with
  | none =>
    obtain ⟨hr, hs⟩ := runLower_of_none h hp
    obtain ⟨hr', hs'⟩ := runLower_of_none h (hp'.trans hp)
    exact ⟨hr'.trans hr.symm, .inl ⟨hs, hs'⟩⟩
  | some content =>
    obtain ⟨hr, hs⟩ := runLower_of_text h hp
    obtain ⟨hr', hs'⟩ := runLower_of_text h (hp'.trans hp)
    rw [hr, hr', hs, hs']
    exact deliver_exchanged h hx o.output content

end

/-- The end of an invocation, and the files after it. -/
def outcome (files : Files (StateM σ)) (args : List String) (s : σ) : Exit × σ := run files args s

section

variable {args args' : List String} {v v' : Nat} {o : LowerOptions} {s s' : σ}

theorem outcome_lower (hp : parse 0 args = some (.run v (.lower o))) (s : σ) :
    outcome files args s = ((runLower files o s).1.exit v, (runLower files o s).2) := by
  simp only [outcome, run, hp]
  rfl

/-- Help is printed, and no file is touched for it. -/
theorem outcome_help {topic : Topic} {form : HelpForm} (hp : parse 0 args = some (.help topic form))
    (s : σ) : outcome files args s = (⟨0, topic.page.text form, ""⟩, s) := by
  simp only [outcome, run, hp]
  rfl

/-- Help on a command is printed wherever it is asked for among words that can be read, whatever
follows, and no file is touched for it. -/
theorem outcome_command_help {command : Command} {early front back : List String}
    {name word : String} {form : HelpForm} {c : Choices} (he : ∀ word ∈ early, IsVerbose word)
    (hn : Command.ofName? name = some command) (hf : "--" ∉ front)
    (hr : readWords command none {} front = some c) (hw : helpWord? command word = some form)
    (s : σ) : outcome files (early ++ name :: (front ++ word :: back)) s =
      (⟨0, (Topic.command command).page.text form, ""⟩, s) :=
  outcome_help (parse_help he hn hf hr hw) s

theorem outcome_failed (h : files.Lawful) (hcode : (outcome files args s).1.code ≠ 0) :
    (outcome files args s).1.output = "" ∧ (outcome files args s).2 = s := by
  cases hp : parse 0 args with
  | none =>
    simp only [outcome, run, hp]
    exact ⟨rfl, rfl⟩
  | some invocation =>
    cases invocation with
    | version =>
      simp only [outcome, run, hp] at hcode
      exact absurd rfl hcode
    | help topic form =>
      rw [outcome_help hp] at hcode
      exact absurd rfl hcode
    | run v job =>
      cases job with
      | lower o =>
        rw [outcome_lower hp] at hcode ⊢
        obtain ⟨hout, hr⟩ := Done.exit_failed hcode
        exact ⟨hout, runLower_failed h hr⟩
      | layout path =>
        simp only [outcome, run, hp] at hcode ⊢
        exact ⟨(Done.exit_failed hcode).1, loadProgram_keeps h path s⟩

theorem outcome_delivered (h : files.Lawful) {path : String}
    (hp : parse 0 args = some (.run v (.lower { o with output := some path })))
    (hp' : parse 0 args' = some (.run v' (.lower { o with output := none }))) (s : σ) :
    (outcome files args s).1.output = "" ∧ (outcome files args' s).2 = s ∧
      ((outcome files args s).1.code = 0 ↔ (outcome files args' s).1.code = 0 ∧
        (files.write path (outcome files args' s).1.output s).1 = .ok ()) ∧
      ((outcome files args s).1.code = 0 →
        (outcome files args s).2 = (files.write path (outcome files args' s).1.output s).2) := by
  rw [outcome_lower hp, outcome_lower hp', printed_keeps h]
  cases ht : (runLower files { o with output := none } s).1.result.toOption with
  | none =>
    obtain ⟨hr, -⟩ := @runLower_of_none _ _ h { o with output := some path } s ht
    obtain ⟨hcode, hout⟩ := Done.exit_of_none hr v
    obtain ⟨hcode', -⟩ := Done.exit_of_none ht v'
    simp [hcode, hcode', hout]
  | some text =>
    obtain ⟨hr, hs⟩ := @runLower_of_text _ _ h { o with output := some path } s text ht
    obtain ⟨hcode', hout'⟩ := Done.exit_of_text ht v'
    rw [hcode', hout', hs]
    rw [deliver_some] at hr ⊢
    rcases hw : files.write path text s with ⟨f | _, t⟩
    · rw [hw] at hr
      obtain ⟨hcode, hout⟩ := Done.exit_of_none (congrArg Except.toOption hr) v
      simp [hcode, hout]
    · rw [hw] at hr
      obtain ⟨hcode, hout⟩ := Done.exit_of_text (congrArg Except.toOption hr) v
      simp [hcode, hout]

/-- Neither the check nor the amount of logging shows in the end. -/
theorem outcome_unchecked {checked : Bool} (hp : parse 0 args = some (.run v (.lower o)))
    (hp' : parse 0 args' = some (.run v' (.lower { o with validate := checked }))) (s : σ) :
    (outcome files args s).1.Agrees (outcome files args' s).1 ∧
      (outcome files args' s).2 = (outcome files args s).2 := by
  rw [outcome_lower hp, outcome_lower hp', runLower_unchecked o checked]
  exact ⟨Done.exit_agrees rfl v v', rfl⟩

theorem parse_of_flagsAdded (hp : parse 0 args = some (.run v (.lower o)))
    (hadd : Relation.ReflTransGen FlagsAdded args args') :
    ∃ v' checked, parse 0 args' = some (.run v' (.lower { o with validate := checked })) := by
  induction hadd with
  | refl => exact ⟨v, o.validate, hp⟩
  | tail _ hstep ih =>
    obtain ⟨_, _, hmid⟩ := ih
    obtain ⟨v', checked, hp'⟩ := hstep.parse hmid
    exact ⟨v', checked, hp'⟩

theorem outcome_exchanged (h : files.Lawful) {path text text' : String}
    (hp : parse 0 args = some (.run v (.lower o))) (hc : o.config = some path)
    (hl : files.look s path = .ok text) (hl' : files.look s' path = .ok text')
    (hx : files.Exchanged text text' s s')
    (hd : (Settings.decode text').toOption =
      (Settings.decode text).toOption.map ({ · with validate := true })) :
    (outcome files args s).1.Agrees (outcome files args s').1 ∧
      files.SameWrites s (outcome files args s).2 s' (outcome files args s').2 := by
  obtain ⟨hresult, hwrites⟩ := runLower_exchanged h hx hd hc hl hl'
  rw [outcome_lower hp, outcome_lower hp]
  exact ⟨Done.exit_agrees hresult v v, hwrites⟩

end

/-- An invocation that fails prints nothing and leaves the files alone. One of `lower` that succeeds
with an output file prints nothing and writes what it would print without one to this file alone.
More log lines and the check, asked for by flags or by the settings, show in neither. -/
theorem command_line_all_or_nothing {σ : Type} {files : Files (StateM σ)} (h : files.Lawful) :
    (∀ args s, (outcome files args s).1.code ≠ 0 →
      (outcome files args s).1.output = "" ∧ (outcome files args s).2 = s) ∧
    (∀ args args' s v v' (o : LowerOptions) path,
      parse 0 args = some (.run v (.lower { o with output := some path })) →
      parse 0 args' = some (.run v' (.lower { o with output := none })) →
      (outcome files args s).1.output = "" ∧ (outcome files args' s).2 = s ∧
        ((outcome files args s).1.code = 0 ↔ (outcome files args' s).1.code = 0 ∧
          (files.write path (outcome files args' s).1.output s).1 = .ok ()) ∧
        ((outcome files args s).1.code = 0 →
          (outcome files args s).2 = (files.write path (outcome files args' s).1.output s).2)) ∧
    (∀ args args' s v (o : LowerOptions), parse 0 args = some (.run v (.lower o)) →
      (Relation.ReflTransGen FlagsAdded args args' ∨
        ∃ v' checked, parse 0 args' = some (.run v' (.lower { o with validate := checked }))) →
      (outcome files args s).1.Agrees (outcome files args' s).1 ∧
        (outcome files args' s).2 = (outcome files args s).2) ∧
    ∀ args s s' v (o : LowerOptions) path text text', parse 0 args = some (.run v (.lower o)) →
      o.config = some path → files.look s path = .ok text → files.look s' path = .ok text' →
      files.Exchanged text text' s s' →
      (Settings.decode text').toOption =
        (Settings.decode text).toOption.map ({ · with validate := true }) →
      (outcome files args s).1.Agrees (outcome files args s').1 ∧
        files.SameWrites s (outcome files args s).2 s' (outcome files args s').2 := by
  refine ⟨fun args s => outcome_failed h,
    fun args args' s v v' o path hp hp' => outcome_delivered h hp hp' s, ?_,
    fun args s s' v o path text text' => outcome_exchanged h⟩
  rintro args args' s v o hp (hadd | ⟨v', checked, hp'⟩)
  · obtain ⟨v', checked, hp'⟩ := parse_of_flagsAdded hp hadd
    exact outcome_unchecked hp hp' s
  · exact outcome_unchecked hp hp' s

/-- A disk with a program and settings for it. -/
def smallDisk : Disk := ⟨⟨[("p", "{}"), ("c", "init_method = \"new\"")]⟩⟩

/-- The same disk, with settings that ask for the check. -/
def checkedDisk : Disk := smallDisk.edited "c" "validate = true\ninit_method = \"new\""

theorem command_line_all_or_nothing_smallDisk :
    ((outcome Disk.access ["lower"] smallDisk).1.code ≠ 0 ∧
      (outcome Disk.access ["lower"] smallDisk).2 = smallDisk) ∧
    ((outcome Disk.access ["lower", "-cc", "-oo", "p"] smallDisk).1.code = 0 ∧
      (outcome Disk.access ["lower", "-cc", "-oo", "p"] smallDisk).1.output = "") ∧
    (outcome Disk.access ["lower", "-cc", "--validate", "-oo", "p"] smallDisk).2 =
      (outcome Disk.access ["lower", "-cc", "-oo", "p"] smallDisk).2 ∧
    (outcome Disk.access ["lower", "-cc", "-oo", "p"] smallDisk).1.Agrees
      (outcome Disk.access ["lower", "-cc", "-oo", "p"] checkedDisk).1 := by
  have hlaw := Disk.access_lawful
  obtain ⟨hfailed, hdelivered, hflags, hsettings⟩ := command_line_all_or_nothing hlaw
  have hp : parse 0 ["lower", "-cc", "-oo", "p"] =
      some (.run 0 (.lower ⟨"p", some "c", .listing, some "o", false⟩)) := by decide +kernel
  have hp' : parse 0 ["lower", "-cc", "p"] =
      some (.run 0 (.lower ⟨"p", some "c", .listing, none, false⟩)) := by decide +kernel
  have hlook : Disk.access.look smallDisk "p" = .ok "{}" := by decide +kernel
  have hconfig : Disk.access.look smallDisk "c" = .ok "init_method = \"new\"" := by decide +kernel
  have hchecked : Disk.access.look checkedDisk "c" =
      .ok "validate = true\ninit_method = \"new\"" := by decide +kernel
  refine ⟨?_, ?_, ?_, ?_⟩
  · have hcode : (outcome Disk.access ["lower"] smallDisk).1.code ≠ 0 := by decide +kernel
    exact ⟨hcode, (hfailed ["lower"] smallDisk hcode).2⟩
  · obtain ⟨hout, -, hiff, -⟩ := hdelivered _ _ smallDisk 0 0
      ⟨"p", some "c", .listing, none, false⟩ "o" hp hp'
    have htext : (printed Disk.access ⟨"p", some "c", .listing, none, false⟩
        smallDisk).result.toOption = some "; top level\n$startProg1:\n" := by
      rw [printed_text hlaw, loadSettings_of_look hlaw hconfig, loadProgram_of_look hlaw hlook]
      decide +kernel
    have hwrite : (Disk.access.write "o" "; top level\n$startProg1:\n" smallDisk).1 = .ok () := by
      decide +kernel
    obtain ⟨hcode, htext⟩ := Done.exit_of_text htext 0
    refine ⟨hiff.mpr ?_, hout⟩
    rw [outcome_lower hp']
    exact ⟨hcode, htext ▸ hwrite⟩
  · have hadd : FlagsAdded ["lower", "-cc", "-oo", "p"]
        ["lower", "-cc", "--validate", "-oo", "p"] :=
      @FlagsAdded.validate [] ["-cc"] ["-oo", "p"] (by simp) (by decide) (by decide +kernel)
        (by decide +kernel)
    exact (hflags _ _ smallDisk _ _ hp (.inl (.single hadd))).2
  · have hdecode : (Settings.decode "validate = true\ninit_method = \"new\"").toOption =
        (Settings.decode "init_method = \"new\"").toOption.map ({ · with validate := true }) := by
      decide +kernel
    have hx := Disk.exchanged_edited (show smallDisk.files.get? "c" = some _ from rfl)
      "validate = true\ninit_method = \"new\""
    exact (hsettings _ smallDisk checkedDisk 0 _ "c" _ _ hp rfl hconfig hchecked hx hdecode).1

end CommandLine

end BlockLowering
