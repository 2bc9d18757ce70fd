import PioSyntax.Proofs.CommandLine.Precedence
import PioSyntax.Proofs.Terminal.Screen

namespace PioSyntax.Settings

/-- What can be wrong with a configuration file without being reported as an error in it: it cannot
be told whether there is one, it is not UTF-8, or an integer in it is too long to be read, or to be
shown. -/
inductive ConfigFault (files : Files) (path : Path) : Fault → Prop
  | inaccessible {e : FileError} (h : files path = .error e) (he : e.problem.isAbsence = false) :
      ConfigFault files path (.file e)
  | undecodable {bytes : Bytes} {e : Utf8.Error} (h : files path = .ok bytes)
      (hd : Utf8.decode bytes = .error e) : ConfigFault files path (.undecodable e)
  | longInteger {bytes : Bytes} {text : Text} {n : Nat} (h : files path = .ok bytes)
      (hd : Utf8.decode bytes = .ok text) (hr : Toml.read text = .error (.manyDigits n)) :
      ConfigFault files path (.manyDigits (some n))
  | longFormat {bytes : Bytes} {text : Text} {config : Toml.Table} {v : Toml.Value}
      (h : files path = .ok bytes) (hd : Utf8.decode bytes = .ok text)
      (hr : Toml.read text = .ok config) (hv : config.get? "format" = some v)
      (hl : v.isLong = true) : ConfigFault files path (.manyDigits none)

variable {files : Files} {path : Path} {config : Toml.Table} {a : CommandLine.Arguments}
variable {o : Settings} {f : Fault} {styles : List (Option Text)} {entries : List StyleEntry}
variable {c : Category} {style : Style}

theorem StyleFrom.isWritten (h : StyleFrom entries c style) : style.IsWritten := by
  cases h with
  | last _ _ _ hs => exact Style.isWritten_ofSpec hs
  | default => exact StyleTable.isWritten_default c

theorem isWritten_styles (h : ofArguments files a = .ok o) : ∀ c, (o.styles c).IsWritten := by
  obtain ⟨s, hs, rfl⟩ := exists_sources h
  obtain ⟨config, hc, -⟩ := bind_eq_ok_iff.mp hs
  obtain ⟨-, -, -, hstyles⟩ := sources_eq_ok hc hs
  exact fun c => (styleFrom_foldlM hstyles c).isWritten

theorem configFormat_eq_fault_iff : configFormat path config = .error (.fault f) ↔
    f = .manyDigits none ∧ ∃ v, config.get? "format" = some v ∧ v.isLong = true := by
  constructor
  · intro h
    obtain ⟨v, hv, -, he⟩ := configFormat_eq_error_iff.mp h
    rw [formatError] at he
    split at he
    · next hl =>
        cases he
        exact ⟨rfl, v, hv, hl⟩
    · cases he
  · rintro ⟨rfl, v, hv, hl⟩
    refine configFormat_eq_error_iff.mpr ⟨v, hv, ?_, by rw [formatError, if_pos hl]⟩
    rintro g rfl
    cases hl

/-- Of all that can be wrong with what was loaded, only a format is a fault. -/
theorem fails_fault_iff : Fails path config styles (.fault f) ↔
    configFormat path config = .error (.fault f) := by
  constructor
  · intro h
    generalize he : SettingsError.fault f = err at h
    cases h with
    | format hv hn => exact configFormat_eq_error_iff.mpr ⟨_, hv, hn, rfl⟩
    | styles => cases he
    | entry _ _ _ _ h => exact absurd he.symm (h.ne_fault f)
  · intro h
    obtain ⟨v, hv, hn, he⟩ := configFormat_eq_error_iff.mp h
    exact he ▸ .format hv hn

theorem loadConfig_eq_ok (h : loadConfig files path = .ok config) : config = [] ∨
    ∃ bytes text, files path = .ok bytes ∧ Utf8.decode bytes = .ok text ∧
      Toml.read text = .ok config := by
  rw [loadConfig] at h
  split at h
  · split at h
    · exact .inl (Except.ok.inj h).symm
    · cases h
  · next bytes hb =>
      split at h
      · cases h
      · next text hd =>
          split at h
          · next table hr =>
              obtain rfl := Except.ok.inj h
              exact .inr ⟨bytes, text, hb, hd, hr⟩
          · cases h
          · cases h

theorem configFault_iff : ConfigFault files path f ↔
    loadConfig files path = .error (.fault f) ∨ ∃ config,
      loadConfig files path = .ok config ∧ configFormat path config = .error (.fault f) := by
  constructor
  · intro h
    cases h with
    | inaccessible h he => exact .inl (by rw [loadConfig, h]; simp [he])
    | undecodable h hd => exact .inl (by simp only [loadConfig, h, hd])
    | longInteger h hd hr => exact .inl (by simp only [loadConfig, h, hd, hr])
    | longFormat h hd hr hv hl =>
        exact .inr ⟨_, by simp only [loadConfig, h, hd, hr],
          configFormat_eq_fault_iff.mpr ⟨rfl, _, hv, hl⟩⟩
  · rintro (h | ⟨config, h, hf⟩)
    · rw [loadConfig] at h
      cases hb : files path with
      | error e =>
          simp only [hb] at h
          split at h
          · cases h
          · next he =>
              cases h
              exact .inaccessible hb (Bool.eq_false_iff.mpr he)
      | ok bytes =>
          simp only [hb] at h
          cases hd : Utf8.decode bytes with
          | error e =>
              simp only [hd] at h
              cases h
              exact .undecodable hb hd
          | ok text =>
              simp only [hd] at h
              cases hr : Toml.read text with
              | ok table => simp [hr] at h
              | error e =>
                  cases e with
                  | malformed => simp [hr] at h
                  | manyDigits n =>
                      simp only [hr] at h
                      cases h
                      exact .longInteger hb hd hr
    · obtain ⟨rfl, v, hv, hl⟩ := configFormat_eq_fault_iff.mp hf
      rcases loadConfig_eq_ok h with rfl | ⟨bytes, text, hb, hd, hr⟩
      · cases hv
      · exact .longFormat hb hd hr hv hl

theorem ofArguments_eq_fault_iff : ofArguments files a = .error (.fault f) ↔
    ConfigFault files (configOf a) f := by
  rw [ofArguments_eq_error_iff, configFault_iff]
  constructor
  · intro h
    rcases bind_eq_error_iff.mp h with hl | ⟨config, hc, -⟩
    · exact .inl hl
    · exact .inr ⟨config, hc, fails_fault_iff.mp ((sources_eq_error_iff hc).mp h)⟩
  · rintro (hl | ⟨config, hc, hf⟩)
    · exact bind_eq_error_iff.mpr (.inl hl)
    · exact (sources_eq_error_iff hc).mpr (fails_fault_iff.mpr hf)

end PioSyntax.Settings
