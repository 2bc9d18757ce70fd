import PioSyntax.Proofs.CommandLine.Report
import PioSyntax.Proofs.FileTree

namespace PioSyntax.CommandLine

open Text

structure SameSources (a b : Arguments) : Prop where
  input_eq : b.input = a.input
  config_eq : b.config = a.config
  styles_eq : b.styles = a.styles

def Report.Delivers (r : Report) (t : FileTree) : Prop :=
  ∀ path text, r.output = some (path, text) → ∃ t', t.write path (Utf8.encode text) = .ok t'

/-- A report with its output sent to a file. What went wrong is reported as it was. -/
def Report.redirect (path : Path) (r : Report) : Report :=
  if r.ending = .exit 0 then ⟨r.ending, [], r.stderr, some (path, r.stdout)⟩ else r

structure Report.Dumps (dump : Text) (r r' : Report) : Prop where
  ending_eq : r'.ending = r.ending
  stdout_eq : r'.stdout = r.stdout
  output_eq : r'.output = r.output
  stderr_eq (h : r.ending = .exit 0) : r'.stderr = r.stderr ++ dump

/-- What comes of a run of accepted arguments, and of runs that differ from it in one switch. -/
structure Clean (t : FileTree) (a : Arguments) (o : Outcome) : Prop where
  /-- A run that fails prints nothing and writes nothing. -/
  failed (h : o.ending = .exit 1 ∨ o.ending = .exit 2) : o.stdout = [] ∧ o.tree = t
  /-- Without an output file nothing is written. -/
  printed (h : o.ending = .exit 0) (ha : a.output? = none) : o.tree = t
  /-- With an output file nothing is printed, and nothing else is written. -/
  written {path : Path} (h : o.ending = .exit 0) (ha : a.output? = some path) :
    o.stdout = [] ∧ t.AgreeExcept path o.tree
  /-- An output file gets what would be printed, and that is all it changes. -/
  redirected {words : List Text} {file : Text} (ha : a.output = none) (hf : file ≠ [])
    (hw : Arguments.ofWords words = .ok { a with output := some file })
    (hd : (run t.read words).Delivers t) :
    (runIn t words).ending = o.ending ∧ (runIn t words).stderr = o.stderr ∧
      (o.ending = .exit 0 →
        (runIn t words).tree.read (Path.ofText file) = .ok (Utf8.encode o.stdout))
  /-- A blank output file is none. -/
  blank {words : List Text} (ha : a.output = none)
    (hw : Arguments.ofWords words = .ok { a with output := some [] }) : runIn t words = o
  /-- Debugging adds to the messages what the format of tokens prints, and changes nothing else. -/
  debugged {words : List Text} (ha : a.debug = false)
    (hw : Arguments.ofWords words = .ok { a with debug := true }) :
    (runIn t words).ending = o.ending ∧ (runIn t words).stdout = o.stdout ∧
      (runIn t words).tree = o.tree ∧
      ∀ words', Arguments.ofWords words' =
          .ok { a with output := none, format := some (some .tokens) } →
        o.ending = .exit 0 → (runIn t words).stderr = o.stderr ++ (runIn t words').stdout

variable {files : Files} {a : Arguments} {o : Settings} {path : Path} {t t' : FileTree}
variable {r r' : Report} {file dump : Text} {words : List Text}

theorem highlight_redirect (files : Files) (o : Settings) (path : Path) :
    highlight files { o with output := some path } =
      (highlight files { o with output := none }).redirect path := by
  have hrender (output : Option Path) (c : Classification) :
      render { o with output := output } c = render o c := rfl
  simp only [highlight, hrender]
  cases readSource files o.input with
  | error f => cases hf : isReadingFault f <;> simp [Report.redirect, hf]
  | ok source => cases hr : render o (classify source) <;> simp [Report.redirect, hr]

theorem Report.dumps_self (h : r.ending ≠ .exit 0) : Report.Dumps dump r r :=
  ⟨rfl, rfl, rfl, fun he => absurd he h⟩

theorem highlight_dumps (files : Files) (o : Settings) :
    Report.Dumps (highlight files { o with output := none, format := some .tokens }).stdout
      (highlight files { o with debug := false }) (highlight files { o with debug := true }) := by
  have hrender (debug : Bool) (c : Classification) :
      render { o with debug := debug } c = render o c := rfl
  simp only [highlight, hrender]
  cases readSource files o.input with
  | error f =>
      refine Report.dumps_self ?_
      dsimp only
      split <;> nofun
  | ok source =>
      dsimp only
      cases render o (classify source) with
      | error f => exact ⟨rfl, rfl, rfl, nofun⟩
      | ok text => cases o.output <;> exact ⟨rfl, rfl, rfl, fun _ => by simp [render]⟩

/-- Runs of arguments that name the same files and styles refuse the same settings, or come to their
settings from the same sources. -/
theorem runWith_sources (files : Files) (a : Arguments) :
    (∃ e, ∀ b, SameSources a b → runWith files b = settingsReport e) ∨
      ∃ s, ∀ b, SameSources a b → runWith files b = highlight files (Settings.ofSources b s) := by
  have hsame (b : Arguments) (h : SameSources a b) : Settings.ofArguments files b =
      Settings.ofSources b <$> Settings.sources files (Settings.configOf a) a.styles := by
    rw [Settings.ofArguments_eq, Settings.configOf, Settings.configOf, h.input_eq, h.config_eq,
      h.styles_eq]
  cases hs : Settings.sources files (Settings.configOf a) a.styles with
  | error e =>
      refine .inl ⟨e, fun b h => ?_⟩
      rw [runWith, hsame b h, hs]
      rfl
  | ok s =>
      refine .inr ⟨s, fun b h => ?_⟩
      rw [runWith, hsame b h, hs]
      rfl

theorem ending_settingsReport (e : SettingsError) : (settingsReport e).ending ≠ .exit 0 := by
  cases e <;> nofun

theorem runWith_redirect (files : Files) (ha : a.output = none) (hf : file ≠ []) :
    runWith files { a with output := some file } =
      (runWith files a).redirect (Path.ofText file) := by
  rcases runWith_sources files a with ⟨e, he⟩ | ⟨s, hs⟩
  · rw [he { a with output := some file } ⟨rfl, rfl, rfl⟩, he a ⟨rfl, rfl, rfl⟩]
    exact (if_neg (ending_settingsReport e)).symm
  · have hfile : Settings.ofSources { a with output := some file } s =
        { Settings.ofSources a s with output := some (Path.ofText file) } := by
      simp [Settings.ofSources, Option.filter, hf]
    have hnone : { Settings.ofSources a s with output := none } = Settings.ofSources a s := by
      simp [Settings.ofSources, ha]
    rw [hs { a with output := some file } ⟨rfl, rfl, rfl⟩, hs a ⟨rfl, rfl, rfl⟩, hfile,
      highlight_redirect, hnone]

theorem runWith_blank (files : Files) (ha : a.output = none) :
    runWith files { a with output := some [] } = runWith files a := by
  rcases runWith_sources files a with ⟨e, he⟩ | ⟨s, hs⟩
  · rw [he { a with output := some [] } ⟨rfl, rfl, rfl⟩, he a ⟨rfl, rfl, rfl⟩]
  · have hblank : Settings.ofSources { a with output := some [] } s = Settings.ofSources a s := by
      simp [Settings.ofSources, Option.filter, ha]
    rw [hs { a with output := some [] } ⟨rfl, rfl, rfl⟩, hs a ⟨rfl, rfl, rfl⟩, hblank]

theorem runWith_dumps (files : Files) (ha : a.debug = false) :
    Report.Dumps (runWith files { a with output := none, format := some (some .tokens) }).stdout
      (runWith files a) (runWith files { a with debug := true }) := by
  rcases runWith_sources files a with ⟨e, he⟩ | ⟨s, hs⟩
  · rw [he a ⟨rfl, rfl, rfl⟩, he { a with debug := true } ⟨rfl, rfl, rfl⟩]
    exact Report.dumps_self (ending_settingsReport e)
  · have hdebug : { Settings.ofSources a s with debug := false } = Settings.ofSources a s := by
      simp [Settings.ofSources, ha]
    have h := highlight_dumps files (Settings.ofSources a s)
    rw [hdebug] at h
    rw [hs a ⟨rfl, rfl, rfl⟩, hs { a with debug := true } ⟨rfl, rfl, rfl⟩,
      hs { a with output := none, format := some (some .tokens) } ⟨rfl, rfl, rfl⟩]
    exact h

theorem runIn_eq (h : Arguments.ofWords words = .ok a) :
    runIn t words = (runWith t.read a).deliver t := by
  rw [runIn, run, h]

theorem run_eq (h : Arguments.ofWords words = .ok a) : run files words = runWith files a := by
  rw [run, h]

theorem Reports.deliver_failed (h : Reports files a r)
    (he : (r.deliver t).ending = .exit 1 ∨ (r.deliver t).ending = .exit 2) :
    (r.deliver t).stdout = [] ∧ (r.deliver t).tree = t := by
  cases h with
  | unsettled | settingFault | unreadable | readingFault | renderingFault => exact ⟨rfl, rfl⟩
  | printed => exact he.elim nofun nofun
  | @written _ _ _ text path =>
      simp only [Report.deliver] at he
      cases hw : t.write path (Utf8.encode text) with
      | error e => simp [hw] at he
      | ok t' => simp [hw] at he

theorem Reports.output_eq_none (h : Reports files a r) (ha : a.output? = none) :
    r.output = none := by
  cases h with
  | unsettled | settingFault | unreadable | readingFault | renderingFault | printed => rfl
  | written _ _ _ ho => rw [ha] at ho; cases ho

theorem deliver_of_none (h : r.output = none) :
    r.deliver t = ⟨r.ending, r.stdout, r.stderr, t⟩ := by
  rw [Report.deliver, h]

theorem Reports.deliver_written (h : Reports t.read a r) (he : (r.deliver t).ending = .exit 0)
    (ha : a.output? = some path) :
    (r.deliver t).stdout = [] ∧ t.AgreeExcept path (r.deliver t).tree := by
  cases h with
  | unsettled | settingFault | unreadable | readingFault | renderingFault => cases he
  | printed _ _ _ ho => rw [ha] at ho; cases ho
  | @written _ _ _ text path' _ _ _ ho =>
      obtain rfl := Option.some.inj (ha.symm.trans ho)
      simp only [Report.deliver] at he ⊢
      cases hw : t.write path (Utf8.encode text) with
      | error e => simp [hw] at he
      | ok t' => exact ⟨rfl, FileTree.agreeExcept_write hw⟩

theorem deliver_redirect (hr : r.output = none) (hd : (r.redirect path).Delivers t) :
    ((r.redirect path).deliver t).ending = r.ending ∧
      ((r.redirect path).deliver t).stderr = r.stderr ∧
      (r.ending = .exit 0 →
        ((r.redirect path).deliver t).tree.read path = .ok (Utf8.encode r.stdout)) := by
  by_cases he : r.ending = .exit 0
  · have hredirect : r.redirect path = ⟨r.ending, [], r.stderr, some (path, r.stdout)⟩ := if_pos he
    rw [hredirect] at hd ⊢
    obtain ⟨t', hw⟩ := hd path r.stdout rfl
    simp only [Report.deliver, hw]
    exact ⟨trivial, trivial, fun _ => FileTree.read_write hw⟩
  · have hredirect : r.redirect path = r := if_neg he
    rw [hredirect, deliver_of_none hr]
    exact ⟨rfl, rfl, fun h => absurd h he⟩

theorem Report.Dumps.deliver (h : Report.Dumps dump r r') :
    (r'.deliver t).ending = (r.deliver t).ending ∧ (r'.deliver t).stdout = (r.deliver t).stdout ∧
      (r'.deliver t).tree = (r.deliver t).tree ∧
      ((r.deliver t).ending = .exit 0 → (r'.deliver t).stderr = (r.deliver t).stderr ++ dump) := by
  simp only [Report.deliver, h.output_eq]
  cases ho : r.output with
  | none => exact ⟨h.ending_eq, h.stdout_eq, rfl, h.stderr_eq⟩
  | some output =>
      dsimp only
      cases t.write output.1 (Utf8.encode output.2) with
      | error e => exact ⟨rfl, h.stdout_eq, rfl, nofun⟩
      | ok t' => exact ⟨h.ending_eq, h.stdout_eq, rfl, h.stderr_eq⟩

/-- Where the output goes and what is said about it make no difference to the output. -/
theorem runIn_clean (h : Arguments.ofWords words = .ok a) : Clean t a (runIn t words) := by
  have hreports := reports_runWith t.read a
  rw [runIn_eq h]
  refine ⟨hreports.deliver_failed, fun _ ha => ?_, hreports.deliver_written, ?_, ?_, ?_⟩
  · rw [deliver_of_none (hreports.output_eq_none ha)]
  · intro words' file ha hf hw hd
    have hnone : a.output? = none := by rw [Arguments.output?, ha]; rfl
    rw [run_eq hw, runWith_redirect t.read ha hf] at hd
    rw [runIn_eq hw, runWith_redirect t.read ha hf]
    have ho := hreports.output_eq_none hnone
    rw [deliver_of_none ho]
    exact deliver_redirect ho hd
  · intro words' ha hw
    rw [runIn_eq hw, runWith_blank t.read ha]
  · intro words' ha hw
    obtain ⟨hending, hstdout, htree, hstderr⟩ := (runWith_dumps t.read ha).deliver (t := t)
    rw [runIn_eq hw]
    refine ⟨hending, hstdout, htree, fun tokens ht he => ?_⟩
    have htokens := reports_runWith t.read { a with output := none, format := some (some .tokens) }
    rw [hstderr he, runIn_eq ht, deliver_of_none (htokens.output_eq_none rfl)]

theorem runIn_clean_nop :
    (runIn (.ofEntries [("a.pio", Utf8.encode "nop")] [])
        ["a.pio", "-f", "tokens", "-o", "b"]).tree.read (Path.ofText "b") =
      .ok (Utf8.encode (runIn (.ofEntries [("a.pio", Utf8.encode "nop")] [])
        ["a.pio", "-f", "tokens"]).stdout) := by
  have hparse : Arguments.ofWords ["a.pio", "-f", "tokens"] =
      .ok ⟨"a.pio", none, some (some .tokens), false, none, [], false⟩ := rfl
  have hparse' : Arguments.ofWords ["a.pio", "-f", "tokens", "-o", "b"] =
      .ok ⟨"a.pio", some "b", some (some .tokens), false, none, [], false⟩ := rfl
  have houtput : (run (FileTree.ofEntries [("a.pio", Utf8.encode "nop")] []).read
      ["a.pio", "-f", "tokens", "-o", "b"]).output =
        some (Path.ofText "b", "1:1-1:4 INSTRUCTION 'nop'\n".toList) := by decide +kernel
  refine ((runIn_clean hparse).redirected rfl (by decide) hparse' ?_).2.2 (by decide +kernel)
  intro path text h
  obtain ⟨rfl, rfl⟩ := Prod.mk.inj (Option.some.inj (houtput.symm.trans h))
  exact ⟨_, FileTree.write_eq_ok_iff.mpr ⟨["work", "b"], by decide, rfl⟩⟩

theorem empty_output_printed :
    Arguments.ofWords ["a.pio", "-f", "tokens", "-o", ""] =
        .ok ⟨"a.pio", some [], some (some .tokens), false, none, [], false⟩ ∧
      (runIn (.ofEntries [("a.pio", Utf8.encode "nop")] [])
        ["a.pio", "-f", "tokens", "-o", ""]).ending = .exit 0 ∧
      (runIn (.ofEntries [("a.pio", Utf8.encode "nop")] [])
        ["a.pio", "-f", "tokens", "-o", ""]).stdout = "1:1-1:4 INSTRUCTION 'nop'\n".toList := by
  refine ⟨rfl, ?_, ?_⟩
  · decide +kernel
  · decide +kernel

end PioSyntax.CommandLine
