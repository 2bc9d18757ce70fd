import PioSyntax.CommandLine.Run
import PioSyntax.Proofs.CommandLine.Settings

namespace PioSyntax.CommandLine

open Text

def Arguments.output? (a : Arguments) : Option Path := (a.output.filter (· ≠ [])).map Path.ofText

inductive Reports (files : Files) (a : Arguments) : Report → Prop
  | unsettled {e : SettingsError} {message : Text} (h : Settings.ofArguments files a = .error e)
      (he : ∀ f, e ≠ .fault f) (hm : message ≠ []) : Reports files a ⟨.exit 2, [], message, none⟩
  | settingFault {f : Fault} (h : Settings.ofArguments files a = .error (.fault f)) :
      Reports files a ⟨.fault f, [], [], none⟩
  | unreadable {o : Settings} {f : Fault} {message : Text}
      (h : Settings.ofArguments files a = .ok o) (hr : readSource files o.input = .error f)
      (hf : isReadingFault f = true) (hm : message ≠ []) :
      Reports files a ⟨.exit 1, [], message, none⟩
  | readingFault {o : Settings} {f : Fault} {stderr : Text}
      (h : Settings.ofArguments files a = .ok o) (hr : readSource files o.input = .error f)
      (hf : isReadingFault f = false) : Reports files a ⟨.fault f, [], stderr, none⟩
  | renderingFault {o : Settings} {source stderr : Text} {f : Fault}
      (h : Settings.ofArguments files a = .ok o) (hr : readSource files o.input = .ok source)
      (ht : render o (classify source) = .error f) : Reports files a ⟨.fault f, [], stderr, none⟩
  | printed {o : Settings} {source stderr text : Text} (h : Settings.ofArguments files a = .ok o)
      (hr : readSource files o.input = .ok source) (ht : render o (classify source) = .ok text)
      (ho : a.output? = none) : Reports files a ⟨.exit 0, text, stderr, none⟩
  | written {o : Settings} {source stderr text : Text} {path : Path}
      (h : Settings.ofArguments files a = .ok o) (hr : readSource files o.input = .ok source)
      (ht : render o (classify source) = .ok text) (ho : a.output? = some path) :
      Reports files a ⟨.exit 0, [], stderr, some (path, text)⟩

variable {files : Files} {a : Arguments} {o : Settings} {r : Report}

theorem output_ofArguments (h : Settings.ofArguments files a = .ok o) : o.output = a.output? := by
  obtain ⟨s, -, rfl⟩ := Settings.exists_sources h
  rfl

theorem reports_runWith (files : Files) (a : Arguments) : Reports files a (runWith files a) := by
  rw [runWith]
  cases h : Settings.ofArguments files a with
  | error e =>
      cases e with
      | config e =>
          exact .unsettled h nofun (List.append_ne_nil_of_right_ne_nil _ (List.cons_ne_nil _ _))
      | styleArgument argument =>
          exact .unsettled h nofun (List.append_ne_nil_of_right_ne_nil _ (List.cons_ne_nil _ _))
      | fault f => exact .settingFault h
  | ok o =>
      dsimp only [highlight]
      cases hr : readSource files o.input with
      | error f =>
          dsimp only
          split
          · next hf =>
              exact .unreadable h hr hf
                (List.append_ne_nil_of_right_ne_nil _ (List.cons_ne_nil _ _))
          · next hf => exact .readingFault h hr (Bool.eq_false_iff.mpr hf)
      | ok source =>
          have ho := output_ofArguments h
          dsimp only
          cases ht : render o (classify source) with
          | error f => exact .renderingFault h hr ht
          | ok text =>
              cases hp : o.output with
              | none => exact .printed h hr ht (ho ▸ hp)
              | some path => exact .written h hr ht (ho ▸ hp)

end PioSyntax.CommandLine
