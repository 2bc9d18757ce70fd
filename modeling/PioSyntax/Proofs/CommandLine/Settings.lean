import PioSyntax.CommandLine.Settings
import PioSyntax.Proofs.Style.Written

namespace PioSyntax

theorem OutputFormat.ofName?_eq_some_iff {name : Text} {f : OutputFormat} :
    ofName? name = some f ↔ name = f.name := by
  constructor
  · intro h
    have hname := List.find?_some h
    exact (of_decide_eq_true hname).symm
  · rintro rfl
    cases f <;> rfl

namespace Settings

open CommandLine

structure Sources where
  format : OutputFormat
  standalone : Bool
  styles : StyleTable

def mergeStyles (path : Path) (config : Toml.Table) (styles : List (Option Text)) :
    Except SettingsError StyleTable := do
  let overrides ← configStyles path config
  let table ← (StyleTable.resolve overrides (some path)).mapError SettingsError.config
  styles.foldlM addStyle table

def sources (files : Files) (path : Path) (styles : List (Option Text)) :
    Except SettingsError Sources := do
  let config ← loadConfig files path
  let format ← configFormat path config
  let table ← mergeStyles path config styles
  return ⟨format, configStandalone config, table⟩

def ofSources (a : Arguments) (s : Sources) : Settings where
  input := Path.ofText a.input
  output := (a.output.filter (· ≠ [])).map Path.ofText
  format := a.format.getD (some s.format)
  standalone := a.standalone || s.standalone
  styles := s.styles
  debug := a.debug

inductive FormatFrom (config : Toml.Table) : OutputFormat → Prop
  | given {f : OutputFormat} (h : config.get? "format" = some (.text f.name)) : FormatFrom config f
  | default (h : config.get? "format" = none) : FormatFrom config .html

def FormatFits (config : Toml.Table) : Prop :=
  ∀ v, config.get? "format" = some v → ∃ f : OutputFormat, v = .text f.name

def formatError (path : Path) (v : Toml.Value) : SettingsError :=
  if v.isLong then .fault (.manyDigits none)
  else .config ⟨.unknownFormat v.toText, some path, some "format"⟩

variable {files : Files} {path : Path} {config : Toml.Table} {a : Arguments} {s : Sources}
variable {o : Settings} {f : OutputFormat} {err : SettingsError} {styles : List (Option Text)}
variable {t : StyleTable}

theorem ofArguments_eq (files : Files) (a : Arguments) :
    ofArguments files a = ofSources a <$> sources files (configOf a) a.styles := by
  simp only [ofArguments, merge, sources, mergeStyles, map_bind, map_pure, bind_assoc]
  rfl

theorem exists_sources (h : ofArguments files a = .ok o) :
    ∃ s, sources files (configOf a) a.styles = .ok s ∧ o = ofSources a s := by
  rw [ofArguments_eq] at h
  cases hs : sources files (configOf a) a.styles with
  | error e =>
      rw [hs] at h
      cases h
  | ok s =>
      rw [hs] at h
      exact ⟨s, rfl, (Except.ok.inj h).symm⟩

theorem ofArguments_eq_error_iff :
    ofArguments files a = .error err ↔ sources files (configOf a) a.styles = .error err := by
  rw [ofArguments_eq]
  cases sources files (configOf a) a.styles with
  | ok s => exact iff_of_false nofun nofun
  | error e => exact ⟨fun he => Except.error.inj he ▸ rfl, fun he => Except.error.inj he ▸ rfl⟩

theorem FormatFrom.fits (h : FormatFrom config f) : FormatFits config := by
  intro v hv
  cases h with
  | given h => exact ⟨_, Option.some.inj (hv.symm.trans h)⟩
  | default h => cases hv.symm.trans h

theorem configFormat_cases (path : Path) (config : Toml.Table) :
    (∃ f, FormatFrom config f ∧ configFormat path config = .ok f) ∨
      ∃ v, config.get? "format" = some v ∧ (∀ f : OutputFormat, v ≠ .text f.name) ∧
        configFormat path config = .error (formatError path v) := by
  rw [configFormat]
  cases hv : config.get? "format" with
  | none => exact .inl ⟨.html, .default hv, rfl⟩
  | some v =>
      have hunknown : (if v.isLong then .error (.fault (.manyDigits none))
            else .error (.config ⟨.unknownFormat v.toText, some path, some "format"⟩) :
              Except SettingsError OutputFormat) = .error (formatError path v) :=
        (apply_ite Except.error _ _ _).symm
      cases v with
      | text name =>
          cases hn : OutputFormat.ofName? name with
          | none =>
              refine .inr ⟨_, rfl, fun f hf => ?_, ?_⟩
              · rw [OutputFormat.ofName?_eq_some_iff.mpr (Toml.Value.text.inj hf)] at hn
                cases hn
              · simp only [hn]
                exact hunknown
          | some f =>
              obtain rfl := OutputFormat.ofName?_eq_some_iff.mp hn
              refine .inl ⟨f, .given hv, ?_⟩
              simp only [hn]
              rfl
      | _ => exact .inr ⟨_, rfl, nofun, hunknown⟩

theorem configFormat_eq_ok (h : configFormat path config = .ok f) : FormatFrom config f := by
  rcases configFormat_cases path config with ⟨g, hg, he⟩ | ⟨v, -, -, he⟩
  · rw [he] at h
    exact Except.ok.inj h ▸ hg
  · rw [he] at h
    cases h

theorem configFormat_eq_error_iff : configFormat path config = .error err ↔
    ∃ v, config.get? "format" = some v ∧ (∀ f : OutputFormat, v ≠ .text f.name) ∧
      err = formatError path v := by
  rcases configFormat_cases path config with ⟨f, hf, he⟩ | ⟨v, hv, hn, he⟩
  · rw [he]
    refine iff_of_false nofun ?_
    rintro ⟨v, hv, hn, -⟩
    obtain ⟨g, rfl⟩ := hf.fits v hv
    exact hn g rfl
  · rw [he]
    constructor
    · exact fun h => ⟨v, hv, hn, (Except.error.inj h).symm⟩
    · rintro ⟨w, hw, -, rfl⟩
      rw [Option.some.inj (hv.symm.trans hw)]

end Settings

end PioSyntax
