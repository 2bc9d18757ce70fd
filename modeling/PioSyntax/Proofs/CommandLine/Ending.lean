import PioSyntax.Proofs.CommandLine.Arguments
import PioSyntax.Proofs.CommandLine.Fault
import PioSyntax.Proofs.CommandLine.Output

namespace PioSyntax.CommandLine

open Text Settings

inductive Ends (t : FileTree) (a : Arguments) (outcome : Outcome) : Prop
  | printed {o : Settings} {source text : Text} (hs : ofArguments t.read a = .ok o)
      (hr : readSource t.read o.input = .ok source) (ht : render o (classify source) = .ok text)
      (ha : a.output? = none) (he : outcome.ending = .exit 0) (ho : outcome.stdout = text)
  | written {o : Settings} {source text : Text} {path : Path} (hs : ofArguments t.read a = .ok o)
      (hr : readSource t.read o.input = .ok source) (ht : render o (classify source) = .ok text)
      (ha : a.output? = some path) (he : outcome.ending = .exit 0)
      (ho : outcome.tree.read path = .ok (Utf8.encode text))
  | unreadable (hr : ∀ bytes, t.read (Path.ofText a.input) = .ok bytes →
        ∃ e, Utf8.decode bytes = .error e)
      (he : outcome.ending = .exit 1) (hm : outcome.stderr ≠ [])
  | misconfigured {e : SettingsError} (hs : ofArguments t.read a = .error e)
      (he : outcome.ending = .exit 2) (hm : outcome.stderr ≠ [])
  | escaped {f : Fault} (hf : ConfigFault t.read (configOf a) f) (he : outcome.ending = .fault f)

variable {files : Files} {a : Arguments} {o : Settings} {p : Path} {t : FileTree} {f : Fault}
variable {words : List Text} {source : Text}

theorem input_ofArguments (h : ofArguments files a = .ok o) : o.input = Path.ofText a.input := by
  obtain ⟨s, -, rfl⟩ := exists_sources h
  rfl

theorem exists_render (h : ofArguments files a = .ok o) (c : Classification) :
    ∃ text, render o c = .ok text := by
  rw [render]
  cases o.format.getD .html with
  | html => exact ⟨_, rfl⟩
  | tokens => exact ⟨_, rfl⟩
  | ansi =>
      choose selected hansi _ _ using fun c => Style.exists_ansi (isWritten_styles h c)
      exact ⟨_, by simp only [Terminal.render_eq hansi]; rfl⟩

theorem isReadingFault_of_readSource (h : readSource t.read p = .error f)
    (hn : '\x00' ∉ p.toText) : isReadingFault f = true := by
  rw [readSource] at h
  split at h
  · next e he =>
      cases h
      have hne : e.problem ≠ .nullByte := fun hp => hn (FileTree.mem_of_read_eq_nullByte he hp)
      simpa [isReadingFault] using hne
  · split at h
    · cases h
      rfl
    · cases h

theorem decode_of_readSource (h : readSource files p = .error f) (bytes : Bytes)
    (hb : files p = .ok bytes) : ∃ e, Utf8.decode bytes = .error e := by
  rw [readSource, hb] at h
  dsimp only at h
  split at h
  · next e he => exact ⟨e, he⟩
  · cases h

theorem ends_deliver (hn : '\x00' ∉ (Path.ofText a.input).toText) {r : Report}
    (h : Reports t.read a r) (hd : r.Delivers t) : Ends t a (r.deliver t) := by
  cases h with
  | unsettled hs _ hm => exact .misconfigured hs rfl hm
  | settingFault hs => exact .escaped (ofArguments_eq_fault_iff.mp hs) rfl
  | unreadable hs hr _ hm =>
      rw [input_ofArguments hs] at hr
      exact .unreadable (decode_of_readSource hr) rfl hm
  | readingFault hs hr hf =>
      rw [input_ofArguments hs] at hr
      rw [isReadingFault_of_readSource hr hn] at hf
      cases hf
  | @renderingFault _ source _ _ hs _ ht =>
      obtain ⟨text, he⟩ := exists_render hs (classify source)
      rw [he] at ht
      cases ht
  | printed hs hr ht ho => exact .printed hs hr ht ho rfl rfl
  | @written _ _ _ text path hs hr ht ho =>
      obtain ⟨t', hw⟩ := hd path text rfl
      simp only [Report.deliver, hw]
      exact .written hs hr ht ho rfl (FileTree.read_write hw)

/-- A run ends with an exit code and what belongs to it, unless something is wrong with the
configuration file that is not reported as an error in it. -/
theorem runIn_ends (h : Arguments.ofWords words = .ok a) (hn : ∀ word ∈ words, '\x00' ∉ word)
    (hd : (run t.read words).Delivers t) :
    Ends t a (runIn t words) ∧
      ∀ f, (runIn t words).ending = .fault f ↔ ConfigFault t.read (configOf a) f := by
  have hinput : '\x00' ∉ (Path.ofText a.input).toText := fun hm =>
    hn a.input (input_mem_words h) (Path.mem_of_mem_toText hm (by decide) (by decide))
  rw [run_eq h] at hd
  rw [runIn_eq h]
  have hends := ends_deliver hinput (reports_runWith t.read a) hd
  refine ⟨hends, fun f => ⟨fun he => ?_, fun hf => ?_⟩⟩
  · cases hends with
    | printed _ _ _ _ he' | written _ _ _ _ he' | unreadable _ he' | misconfigured _ he' =>
        rw [he] at he'
        cases he'
    | escaped hf he' =>
        rw [he] at he'
        cases he'
        exact hf
  · rw [runWith, ofArguments_eq_fault_iff.mpr hf]
    rfl

theorem runIn_ends_nop :
    Ends (.ofEntries [("a.pio", Utf8.encode "nop")] [])
      ⟨"a.pio", none, some (some .tokens), false, none, [], false⟩
      (runIn (.ofEntries [("a.pio", Utf8.encode "nop")] []) ["a.pio", "-f", "tokens"]) := by
  have hparse : Arguments.ofWords ["a.pio", "-f", "tokens"] =
      .ok ⟨"a.pio", none, some (some .tokens), false, none, [], false⟩ := rfl
  have houtput : (run (FileTree.ofEntries [("a.pio", Utf8.encode "nop")] []).read
      ["a.pio", "-f", "tokens"]).output = none := by decide +kernel
  refine (runIn_ends hparse (by decide) fun path text h => ?_).1
  rw [houtput] at h
  cases h

theorem undecodable_config_escapes :
    Arguments.ofWords ["a.pio"] = .ok ⟨"a.pio", none, none, false, none, [], false⟩ ∧
      (runIn (.ofEntries [("a.pio", Utf8.encode "nop"), ("piolex.toml", [0xff])] [])
        ["a.pio"]).ending = .fault (.undecodable ⟨.startByte, 0xff, 0, 1⟩) ∧
      (runIn (.ofEntries [("a.pio", Utf8.encode "nop"), ("piolex.toml", [0xff])] [])
        ["a.pio"]).stderr = [] := by
  refine ⟨rfl, ?_, ?_⟩
  · decide +kernel
  · decide +kernel

end PioSyntax.CommandLine
