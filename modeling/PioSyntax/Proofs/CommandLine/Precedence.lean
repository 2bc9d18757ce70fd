import PioSyntax.Proofs.CommandLine.Settings
import PioSyntax.Proofs.Style.Entry
import PioSyntax.Proofs.Text.Marks

namespace PioSyntax

open Text

inductive StyleEntry where
  | ofConfig (name : Text) (v : Toml.Value)
  | ofArgument (argument : Option Text)

namespace StyleEntry

/-- The name and the specification of an entry. Those of an argument stand before and after its
first equals sign. -/
inductive Gives : StyleEntry → Text → Text → Prop
  | config (name spec : Text) : Gives (.ofConfig name (.text spec)) name spec
  | argument {name : Text} (h : '=' ∉ name) (spec : Text) :
      Gives (.ofArgument (some (name ++ '=' :: spec))) name spec

def Denotes (e : StyleEntry) (c : Category) : Prop :=
  ∃ name spec, e.Gives name spec ∧ Category.lookupKey name = c.name

def Fits (e : StyleEntry) : Prop :=
  ∃ name spec style, ∃ c : Category, e.Gives name spec ∧ Style.ofSpec spec = .ok style ∧
    Category.lookupKey name = c.name

def error (path : Path) (problem : ConfigProblem) : StyleEntry → SettingsError
  | .ofConfig name _ => .config ⟨problem, some path, some ("styles." ++ name)⟩
  | .ofArgument _ => .config ⟨problem, none, none⟩

/-- What is wrong with an entry, where the specification comes before the name. -/
inductive Fails (path : Path) : StyleEntry → SettingsError → Prop
  | notText {name : Text} {v : Toml.Value} (h : ∀ spec, v ≠ .text spec) :
      Fails path (.ofConfig name v) ((ofConfig name v).error path (.styleNotText name))
  | notEntry {argument : Option Text} (h : ∀ text ∈ argument, '=' ∉ text) :
      Fails path (.ofArgument argument) (.styleArgument argument)
  | spec {e : StyleEntry} {name spec : Text} {problem : ConfigProblem} (hg : e.Gives name spec)
      (hs : Style.ofSpec spec = .error problem) : Fails path e (e.error path problem)
  | name {e : StyleEntry} {name spec : Text} {style : Style} (hg : e.Gives name spec)
      (hs : Style.ofSpec spec = .ok style)
      (hn : ∀ c : Category, Category.lookupKey name ≠ c.name) :
      Fails path e (e.error path (.unknownCategory name))

def apply (path : Path) (t : StyleTable) : StyleEntry → Except SettingsError StyleTable
  | .ofConfig name v =>
    (StyleTable.override (some path) t (Settings.override (name, v))).mapError SettingsError.config
  | .ofArgument argument => Settings.addStyle t argument

variable {path : Path} {t t' : StyleTable} {e : StyleEntry} {name spec : Text} {err : SettingsError}
variable {argument : Option Text} {text : Text}

theorem Gives.apply_eq (h : e.Gives name spec) :
    e.apply path t = (t.addEntry name spec).mapError fun problem => e.error path problem := by
  cases h with
  | config =>
      change ((t.addEntry name spec).mapError _).mapError _ = _
      cases t.addEntry name spec <;> rfl
  | argument h =>
      have hcut : cut? '=' (name ++ '=' :: spec) = some (name, spec) := cut?_append h
      change Settings.styleArgument (name ++ '=' :: spec) >>= _ = _
      rw [Settings.styleArgument, hcut]
      rfl

theorem Fails.apply_eq (h : e.Fails path err) (t : StyleTable) : e.apply path t = .error err := by
  cases h with
  | @notText _ v h =>
      cases v with
      | text spec => exact absurd rfl (h spec)
      | _ => rfl
  | @notEntry argument h =>
      cases argument with
      | none => rfl
      | some text =>
          change Settings.styleArgument text >>= _ = _
          rw [Settings.styleArgument, cut?_eq_none_iff.mpr (h text rfl)]
          rfl
  | spec hg hs =>
      rw [hg.apply_eq, StyleTable.addEntry_eq_error_iff.mpr (.inl hs)]
      rfl
  | name hg hs hn =>
      rw [hg.apply_eq, StyleTable.addEntry_eq_error_iff.mpr (.inr ⟨_, hs, hn, rfl⟩)]
      rfl

theorem Fails.ne_fault (h : e.Fails path err) (f : Fault) : err ≠ .fault f := by
  cases h with
  | notText | notEntry => nofun
  | spec hg | name hg => cases hg <;> nofun

theorem gives_or_fails (path : Path) (e : StyleEntry) :
    (∃ name spec, e.Gives name spec) ∨ ∃ err, e.Fails path err := by
  cases e with
  | ofConfig name v =>
      cases v with
      | text spec => exact .inl ⟨name, spec, .config name spec⟩
      | _ => exact .inr ⟨_, .notText nofun⟩
  | ofArgument argument =>
      cases argument with
      | none => exact .inr ⟨_, .notEntry nofun⟩
      | some text =>
          by_cases h : '=' ∈ text
          · obtain ⟨name, spec, rfl, hn⟩ := List.eq_append_cons_of_mem h
            exact .inl ⟨name, spec, .argument hn spec⟩
          · refine .inr ⟨_, .notEntry ?_⟩
            rintro _ ⟨⟩
            exact h

theorem apply_eq_ok (h : e.apply path t = .ok t') : ∃ name spec style c, e.Gives name spec ∧
    Style.ofSpec spec = .ok style ∧ Category.lookupKey name = c.name ∧ t' = t.set c style := by
  rcases gives_or_fails path e with ⟨name, spec, hg⟩ | ⟨err, hf⟩
  · rw [hg.apply_eq, mapError_eq_ok_iff, StyleTable.addEntry_eq_ok_iff] at h
    obtain ⟨style, c, hs, hc, rfl⟩ := h
    exact ⟨name, spec, style, c, hg, hs, hc, rfl⟩
  · rw [hf.apply_eq] at h
    cases h

theorem apply_eq_error_iff : e.apply path t = .error err ↔ e.Fails path err := by
  refine ⟨fun h => ?_, fun h => h.apply_eq t⟩
  rcases gives_or_fails path e with ⟨name, spec, hg⟩ | ⟨err', hf⟩
  · rw [hg.apply_eq, mapError_eq_error_iff] at h
    obtain ⟨problem, h, rfl⟩ := h
    rcases StyleTable.addEntry_eq_error_iff.mp h with hs | ⟨style, hs, hn, rfl⟩
    · exact .spec hg hs
    · exact .name hg hs hn
  · rw [hf.apply_eq] at h
    exact Except.error.inj h ▸ hf

theorem fits_iff : e.Fits ↔ ∀ err, ¬ e.Fails path err := by
  constructor
  · rintro ⟨name, spec, style, c, hg, hs, hc⟩ err hf
    have hok : e.apply path .default = _ := hg.apply_eq
    rw [StyleTable.addEntry_eq_ok_iff.mpr ⟨style, c, hs, hc, rfl⟩, hf.apply_eq] at hok
    cases hok
  · intro h
    cases ht : e.apply path .default with
    | error err => exact absurd (apply_eq_error_iff.mp ht) (h err)
    | ok t =>
        obtain ⟨name, spec, style, c, hg, hs, hc, -⟩ := apply_eq_ok ht
        exact ⟨name, spec, style, c, hg, hs, hc⟩

theorem Gives.unique {name' spec' : Text} (h : e.Gives name spec) (h' : e.Gives name' spec') :
    name = name' ∧ spec = spec' := by
  cases h with
  | config =>
      cases h'
      exact ⟨rfl, rfl⟩
  | argument hn =>
      generalize hargument : ofArgument (some (name ++ '=' :: spec)) = e at h'
      cases h' with
      | config => cases hargument
      | argument hn' =>
          -- both names end where the argument has its first equals sign
          have hcut := cut?_append (t := spec) hn
          rw [Option.some.inj (ofArgument.inj hargument), cut?_append hn'] at hcut
          obtain ⟨hname, hspec⟩ := Prod.mk.inj (Option.some.inj hcut)
          exact ⟨hname.symm, hspec.symm⟩

end StyleEntry

namespace Settings

open StyleEntry

def configEntries (config : Toml.Table) : List StyleEntry :=
  match config.get? "styles" with
  | some (.table entries) => entries.map fun e => .ofConfig e.1 e.2
  | _ => []

def styleEntries (config : Toml.Table) (styles : List (Option Text)) : List StyleEntry :=
  configEntries config ++ styles.map .ofArgument

/-- The style of a category is that of the last entry for it, or the default one. -/
inductive StyleFrom (entries : List StyleEntry) (c : Category) : Style → Prop
  | last {before after : List StyleEntry} {e : StyleEntry} {name spec : Text} {style : Style}
      (he : entries = before ++ e :: after) (hg : e.Gives name spec)
      (hn : Category.lookupKey name = c.name) (hs : Style.ofSpec spec = .ok style)
      (hlast : ∀ e ∈ after, ¬ e.Denotes c) : StyleFrom entries c style
  | default (h : ∀ e ∈ entries, ¬ e.Denotes c) : StyleFrom entries c (StyleTable.default c)

def StylesFit (config : Toml.Table) : Prop :=
  ∀ v, config.get? "styles" = some v → ∃ entries, v = .table entries

/-- The first thing that is wrong: the format, the styles as a whole, or an entry. -/
inductive Fails (path : Path) (config : Toml.Table) (styles : List (Option Text)) :
    SettingsError → Prop
  | format {v : Toml.Value} (hv : config.get? "format" = some v)
      (h : ∀ f : OutputFormat, v ≠ .text f.name) : Fails path config styles (formatError path v)
  | styles {v : Toml.Value} (hf : FormatFits config) (hv : config.get? "styles" = some v)
      (h : ∀ entries, v ≠ .table entries) :
      Fails path config styles (.config ⟨.stylesNotTable, some path, some "styles"⟩)
  | entry {before after : List StyleEntry} {e : StyleEntry} {err : SettingsError}
      (hf : FormatFits config) (ht : StylesFit config)
      (he : styleEntries config styles = before ++ e :: after) (hbefore : ∀ e ∈ before, e.Fits)
      (h : e.Fails path err) : Fails path config styles err

variable {files : Files} {path : Path} {config : Toml.Table} {a : CommandLine.Arguments}
variable {styles : List (Option Text)} {t t' : StyleTable} {err : SettingsError}
variable {f : OutputFormat} {o : Settings} {entries : List StyleEntry} {e : StyleEntry}
variable {c : Category} {name spec : Text} {style : Style}

theorem mergeStyles_eq (h : StylesFit config) : mergeStyles path config styles =
    (styleEntries config styles).foldlM (StyleEntry.apply path) .default := by
  have hresolve (entries : Toml.Table) :
      (StyleTable.resolve (entries.map override) (some path)).mapError SettingsError.config =
        (entries.map fun e => .ofConfig e.1 e.2).foldlM (StyleEntry.apply path) .default := by
    rw [StyleTable.resolve, mapError_foldlM, List.foldlM_map, List.foldlM_map]
    rfl
  have hoverrides : ∃ entries : Toml.Table, configStyles path config = .ok (entries.map override) ∧
      configEntries config = entries.map fun e => .ofConfig e.1 e.2 := by
    rw [configStyles, configEntries]
    cases hv : config.get? "styles" with
    | none => exact ⟨[], rfl, rfl⟩
    | some v =>
        obtain ⟨entries, rfl⟩ := h v hv
        exact ⟨entries, rfl, rfl⟩
  obtain ⟨entries, hconfig, hentries⟩ := hoverrides
  rw [mergeStyles, hconfig, styleEntries, hentries, List.foldlM_append, ← hresolve]
  simp only [List.foldlM_map]
  rfl

theorem mergeStyles_not_table {v : Toml.Value} (hv : config.get? "styles" = some v)
    (h : ∀ entries, v ≠ .table entries) : mergeStyles path config styles =
      .error (.config ⟨.stylesNotTable, some path, some "styles"⟩) := by
  rw [mergeStyles, configStyles, hv]
  cases v with
  | table entries => exact absurd rfl (h entries)
  | _ => rfl

theorem StyleFrom.snoc_same (hg : e.Gives name spec) (hn : Category.lookupKey name = c.name)
    (hs : Style.ofSpec spec = .ok style) : StyleFrom (entries ++ [e]) c style :=
  .last rfl hg hn hs (by simp)

theorem StyleFrom.snoc_other (h : StyleFrom entries c style) (he : ¬ e.Denotes c) :
    StyleFrom (entries ++ [e]) c style := by
  cases h with
  | last hentries hg hn hs hlast =>
      subst hentries
      rw [List.append_assoc, List.cons_append]
      exact .last rfl hg hn hs
        (List.forall_mem_append.mpr ⟨hlast, List.forall_mem_singleton.mpr he⟩)
  | default h =>
      exact .default (List.forall_mem_append.mpr ⟨h, List.forall_mem_singleton.mpr he⟩)

/-- Entries are applied in their order, so that the last one for a category wins. -/
theorem styleFrom_foldlM (h : entries.foldlM (StyleEntry.apply path) .default = .ok t) :
    ∀ c, StyleFrom entries c (t c) := by
  refine foldlM_snoc_induction (P := fun entries t => ∀ c, StyleFrom entries c (t c))
    (fun c => .default (by simp)) (fun entries e t t' ht he c => ?_) h
  obtain ⟨name, spec, style, d, hg, hs, hn, rfl⟩ := apply_eq_ok he
  rw [StyleTable.set]
  split
  · next hc => exact .snoc_same hg (hc ▸ hn) hs
  · next hc =>
      -- the entry has one name only, which is that of another category
      refine (ht c).snoc_other ?_
      rintro ⟨name', spec', hg', hn'⟩
      obtain ⟨rfl, -⟩ := hg.unique hg'
      exact hc (Category.name_injective (hn'.symm.trans hn))

theorem foldlM_apply_eq_error_iff :
    entries.foldlM (StyleEntry.apply path) .default = .error err ↔
      ∃ before e after, entries = before ++ e :: after ∧ (∀ e ∈ before, e.Fits) ∧
        e.Fails path err := by
  have hstep (t e err) : StyleEntry.apply path t e = .error err ↔ StyleEntry.Fails path e err :=
    apply_eq_error_iff
  simp only [foldlM_eq_error_iff hstep, ← fits_iff]

theorem fits_of_foldlM (h : entries.foldlM (StyleEntry.apply path) .default = .ok t) :
    ∀ e ∈ entries, e.Fits := by
  refine foldlM_snoc_induction (P := fun entries _ => ∀ e ∈ entries, StyleEntry.Fits e) (by simp)
    (fun entries e t t' ht he => ?_) h
  obtain ⟨name, spec, style, c, hg, hs, hn, -⟩ := apply_eq_ok he
  rw [List.forall_mem_append, List.forall_mem_singleton]
  exact ⟨ht, name, spec, style, c, hg, hs, hn⟩

theorem sources_eq (h : loadConfig files path = .ok config) : sources files path styles =
    configFormat path config >>= fun f => mergeStyles path config styles >>= fun t =>
      .ok ⟨f, configStandalone config, t⟩ := by
  rw [sources, h]
  rfl

theorem exists_not_table (h : ¬ StylesFit config) :
    ∃ v, config.get? "styles" = some v ∧ ∀ entries, v ≠ .table entries := by
  simpa [StylesFit] using h

theorem exists_not_name (h : ¬ FormatFits config) :
    ∃ v, config.get? "format" = some v ∧ ∀ f : OutputFormat, v ≠ .text f.name := by
  simpa [FormatFits] using h

theorem sources_eq_ok (h : loadConfig files path = .ok config) {s : Sources}
    (hs : sources files path styles = .ok s) : FormatFrom config s.format ∧
      s.standalone = configStandalone config ∧ StylesFit config ∧
      (styleEntries config styles).foldlM (StyleEntry.apply path) .default = .ok s.styles := by
  rw [sources_eq h] at hs
  obtain ⟨f, hf, hs⟩ := bind_eq_ok_iff.mp hs
  obtain ⟨t, ht, hs⟩ := bind_eq_ok_iff.mp hs
  obtain rfl := Except.ok.inj hs
  have hfit : StylesFit config := fun v hv => by
    by_cases htable : ∃ entries, v = .table entries
    · exact htable
    · rw [mergeStyles_not_table hv (not_exists.mp htable)] at ht
      cases ht
  rw [mergeStyles_eq hfit] at ht
  exact ⟨configFormat_eq_ok hf, rfl, hfit, ht⟩

theorem configFormat_of_fits (path : Path) (hf : FormatFits config) :
    ∃ f, configFormat path config = .ok f := by
  cases he : configFormat path config with
  | ok f => exact ⟨f, rfl⟩
  | error err =>
      obtain ⟨v, hv, hn, -⟩ := configFormat_eq_error_iff.mp he
      obtain ⟨f, rfl⟩ := hf v hv
      exact absurd rfl (hn f)

theorem Fails.sources_eq (h : loadConfig files path = .ok config)
    (hf : Fails path config styles err) : sources files path styles = .error err := by
  rw [Settings.sources_eq h]
  cases hf with
  | format hv hn =>
      rw [configFormat_eq_error_iff.mpr ⟨_, hv, hn, rfl⟩]
      rfl
  | styles hf hv hn =>
      obtain ⟨f, he⟩ := configFormat_of_fits path hf
      rw [he, mergeStyles_not_table hv hn]
      rfl
  | entry hf ht hentries hbefore he =>
      obtain ⟨f, hformat⟩ := configFormat_of_fits path hf
      rw [hformat, mergeStyles_eq ht,
        foldlM_apply_eq_error_iff.mpr ⟨_, _, _, hentries, hbefore, he⟩]
      rfl

theorem sources_eq_error_iff (h : loadConfig files path = .ok config) :
    sources files path styles = .error err ↔ Fails path config styles err := by
  refine ⟨fun hs => ?_, fun hf => hf.sources_eq h⟩
  rw [sources_eq h] at hs
  rcases bind_eq_error_iff.mp hs with hs | ⟨f, hf, hs⟩
  · obtain ⟨v, hv, hn, rfl⟩ := configFormat_eq_error_iff.mp hs
    exact .format hv hn
  · have hfits : FormatFits config := (configFormat_eq_ok hf).fits
    rcases bind_eq_error_iff.mp hs with hs | ⟨t, -, ⟨⟩⟩
    by_cases ht : StylesFit config
    · rw [mergeStyles_eq ht] at hs
      obtain ⟨before, e, after, hentries, hbefore, he⟩ := foldlM_apply_eq_error_iff.mp hs
      exact .entry hfits ht hentries hbefore he
    · obtain ⟨v, hv, hn⟩ := exists_not_table ht
      rw [mergeStyles_not_table hv hn] at hs
      exact Except.error.inj hs ▸ .styles hfits hv hn

/-- Something is wrong in the order of the sources as soon as anything is wrong in them, even in an
entry that a later one would replace. -/
theorem exists_fails_iff : (∃ err, Fails path config styles err) ↔ ¬ FormatFits config ∨
    ¬ StylesFit config ∨ ∃ e ∈ styleEntries config styles, ¬ e.Fits := by
  constructor
  · rintro ⟨err, hf⟩
    cases hf with
    | format hv hn =>
        refine .inl fun hf => ?_
        obtain ⟨f, rfl⟩ := hf _ hv
        exact hn f rfl
    | styles _ hv hn =>
        refine .inr (.inl fun ht => ?_)
        obtain ⟨entries, rfl⟩ := ht _ hv
        exact hn entries rfl
    | @entry before after e _ _ _ hentries _ he =>
        refine .inr (.inr ⟨e, ?_, fun hfit => fits_iff.mp hfit err he⟩)
        rw [hentries]
        exact List.mem_append_right before List.mem_cons_self
  · intro h
    by_cases hf : FormatFits config
    · by_cases ht : StylesFit config
      · obtain ⟨e, he, hfit⟩ := (h.resolve_left (not_not_intro hf)).resolve_left (not_not_intro ht)
        cases hfold : (styleEntries config styles).foldlM (StyleEntry.apply path) .default with
        | ok t => exact absurd (fits_of_foldlM hfold e he) hfit
        | error err =>
            obtain ⟨before, d, after, hentries, hbefore, hd⟩ := foldlM_apply_eq_error_iff.mp hfold
            exact ⟨err, .entry hf ht hentries hbefore hd⟩
      · obtain ⟨v, hv, hn⟩ := exists_not_table ht
        exact ⟨_, .styles hf hv hn⟩
    · obtain ⟨v, hv, hn⟩ := exists_not_name hf
      exact ⟨_, .format hv hn⟩

theorem configStandalone_eq_true_iff : configStandalone config = true ↔
    config.get? "standalone" = some (.boolean true) := by
  rw [configStandalone]
  cases config.get? "standalone" with
  | none => exact iff_of_false nofun nofun
  | some v =>
      cases v with
      | boolean b => simp
      | _ => exact iff_of_false nofun nofun

/-- The arguments win over the configuration, and the configuration over the defaults: for the
format, for whether a document is made, and for the style of each category. What is wrong with a
configuration is an error even where the arguments win over it. -/
theorem ofArguments_merged (h : loadConfig files (configOf a) = .ok config) :
    (∀ o, ofArguments files a = .ok o →
      (∃ f, FormatFrom config f ∧ o.format = a.format.getD (some f)) ∧
      (o.standalone = true ↔
        a.standalone = true ∨ config.get? "standalone" = some (.boolean true)) ∧
      ∀ c, StyleFrom (styleEntries config a.styles) c (o.styles c)) ∧
    (∀ err, ofArguments files a = .error err ↔ Fails (configOf a) config a.styles err) ∧
    ((∃ err, ofArguments files a = .error err) ↔ ¬ FormatFits config ∨ ¬ StylesFit config ∨
      ∃ e ∈ styleEntries config a.styles, ¬ e.Fits) := by
  have herror (err) : ofArguments files a = .error err ↔ Fails (configOf a) config a.styles err :=
    ofArguments_eq_error_iff.trans (sources_eq_error_iff h)
  refine ⟨fun o ho => ?_, herror, ?_⟩
  · obtain ⟨s, hs, rfl⟩ := exists_sources ho
    obtain ⟨hformat, hstandalone, -, hstyles⟩ := sources_eq_ok h hs
    refine ⟨⟨s.format, hformat, rfl⟩, ?_, styleFrom_foldlM hstyles⟩
    change (a.standalone || s.standalone) = true ↔ _
    rw [Bool.or_eq_true, hstandalone, configStandalone_eq_true_iff]
  · simp only [herror]
    exact exists_fails_iff

theorem ofArguments_merged_format :
    ofArguments (FileTree.ofEntries [("piolex.toml", Utf8.encode "format = 'pdf'")] []).read
        ⟨"a.pio", none, some (some .html), false, none, [], false⟩ =
      .error (.config ⟨.unknownFormat "pdf", some (Path.ofText "piolex.toml"), some "format"⟩) := by
  let files := (FileTree.ofEntries [("piolex.toml", Utf8.encode "format = 'pdf'")] []).read
  let a : CommandLine.Arguments := ⟨"a.pio", none, some (some .html), false, none, [], false⟩
  have hread : ((loadConfig files (configOf a)).toOption.bind (·.get? "format")).map
      (formatError (configOf a)) = some (.config
        ⟨.unknownFormat "pdf", some (Path.ofText "piolex.toml"), some "format"⟩) := by
    decide +kernel
  obtain ⟨v, hv, herror⟩ := Option.map_eq_some_iff.mp hread
  obtain ⟨config, hconfig, hv⟩ := Option.bind_eq_some_iff.mp hv
  have h : loadConfig files (configOf a) = .ok config := toOption_eq_some_iff.mp hconfig
  have hname (f : OutputFormat) : v ≠ .text f.name := by
    rintro rfl
    cases f <;> exact absurd herror (by decide)
  exact herror ▸ ((ofArguments_merged h).2.1 _).mpr (.format hv hname)

end Settings

end PioSyntax
