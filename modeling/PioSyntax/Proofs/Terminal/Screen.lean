import PioSyntax.Proofs.Classification.Tiling
import PioSyntax.Proofs.Terminal.Parameters
import PioSyntax.Proofs.Text.Runs
import PioSyntax.Terminal

namespace PioSyntax.Terminal

open Text

/-- What a terminal has printed, each character in its style, and the style that is set at the end.
A style is given by its parameters; without any, it is that of a terminal that was reset. -/
structure Screen where
  printed : List (Char × Text)
  style : Text
deriving DecidableEq

def Screen.after (printed : List (Char × Text)) (s : Screen) : Screen :=
  { s with printed := printed ++ s.printed }

def selection? : Text → Option Text
  | '[' :: cs =>
    let parameters := cs.takeWhile isParameter
    if (cs.drop parameters.length).head? = some 'm' then some parameters else none
  | _ => none

/-- Plays a text on a terminal on which `style` is set. A sequence with the parameter zero resets,
any other sets its parameters; every other character is printed. Of a sequence, `skip` characters
are left. -/
def play (style : Text) (skip : Nat) : Text → Screen
  | [] => ⟨[], style⟩
  | c :: cs =>
    match skip with
    | skip + 1 => play style skip cs
    | 0 =>
      match if c = '\x1b' then selection? cs else none with
      | some parameters =>
        play (if parameters = ("0" : Text) then [] else parameters) (parameters.length + 2) cs
      | none => (play style 0 cs).after [(c, style)]

variable {style parameters s t line : Text} {c : Char} {screen : Screen}
variable {styles : StyleTable} {selected : Category → Text} {source : Text}

@[simp] theorem Screen.after_after (first second : List (Char × Text)) :
    (screen.after second).after first = screen.after (first ++ second) := by
  simp only [after, List.append_assoc]

theorem play_skip : play style s.length (s ++ t) = play style 0 t := by
  induction s with
  | nil => rfl
  | cons c s ih => exact ih

theorem play_cons (h : c ≠ '\x1b') : play style 0 (c :: s) = (play style 0 s).after [(c, style)] := by
  rw [play, if_neg h]

theorem play_append (h : '\x1b' ∉ s) :
    play style 0 (s ++ t) = (play style 0 t).after (s.map (·, style)) := by
  induction s with
  | nil => rfl
  | cons c s ih =>
      rw [List.mem_cons, not_or] at h
      rw [List.cons_append, play_cons (Ne.symm h.1), ih h.2, Screen.after_after]
      rfl

theorem play_selection (h : ∀ c ∈ parameters, isParameter c = true) :
    play style 0 ("\x1b[" ++ parameters ++ "m" ++ t) =
      play (if parameters = ("0" : Text) then [] else parameters) 0 t := by
  have hstop : Stops isParameter ('m' :: t) := stops_cons.mpr rfl
  have hselection : selection? ('[' :: (parameters ++ 'm' :: t)) = some parameters := by
    rw [selection?, takeWhile_run h hstop, List.drop_left]
    rfl
  have htext : ("\x1b[" ++ parameters ++ "m" ++ t : Text) =
      '\x1b' :: '[' :: (parameters ++ 'm' :: t) := by simp
  have hrest : '[' :: (parameters ++ 'm' :: t) = ('[' :: (parameters ++ ['m'])) ++ t := by simp
  have hlen : parameters.length + 2 = ('[' :: (parameters ++ ['m'])).length := by simp
  rw [htext, play, if_pos rfl, hselection]
  dsimp only
  rw [hrest, hlen, play_skip]

def shown (parameters : Text) (c : Char) : Char × Text := (c, if c = '\n' then [] else parameters)

theorem map_shown (h : '\n' ∉ line) : line.map (shown parameters) = line.map (·, parameters) := by
  apply List.map_congr_left
  intro c hc
  rw [shown, if_neg]
  rintro rfl
  exact h hc

theorem play_styledLine (h : ∀ c ∈ parameters, isParameter c = true)
    (hzero : parameters ≠ "0".toList) (hl : '\n' ∉ line) (hs : '\x1b' ∉ line) :
    play [] 0 (styledLine parameters line ++ t) =
      (play [] 0 t).after (line.map (shown parameters)) := by
  rw [styledLine]
  split
  · next he =>
      subst he
      rfl
  · have hdigit : ∀ c ∈ "0".toList, isParameter c = true := List.all_eq_true.mp rfl
    have hreset : play parameters 0 ("\x1b[0m" ++ t) = play [] 0 t := play_selection hdigit
    rw [List.append_assoc, List.append_assoc, play_selection h, if_neg hzero, play_append hs,
      hreset, map_shown hl]

theorem join_append (separator line : Text) {lines : List Text} (h : lines ≠ []) :
    join separator (line :: lines) = line ++ (separator ++ join separator lines) := by
  rw [join, List.intercalate_cons_of_ne_nil h, List.append_assoc, join]

theorem lines_ne_nil (text : Text) : lines text ≠ [] := by
  rw [lines, splitOn_eq]
  exact List.splitOn_ne_nil _ _

theorem play_styledLines (h : ∀ c ∈ parameters, isParameter c = true)
    (hzero : parameters ≠ "0".toList) (hs : '\x1b' ∉ s) :
    play [] 0 (join "\n" (s.lines.map (styledLine parameters)) ++ t) =
      (play [] 0 t).after (s.map (shown parameters)) := by
  induction s using line_induction with
  | last line hl =>
      have hjoin : join "\n" [styledLine parameters line] = styledLine parameters line := by
        simp [join]
      rw [lines_eq_singleton hl, List.map_singleton, hjoin, play_styledLine h hzero hl hs]
  | cons line s hl ih =>
      simp only [List.mem_append, List.mem_cons, not_or] at hs
      obtain ⟨hline, -, hs⟩ := hs
      have hne : s.lines.map (styledLine parameters) ≠ [] := by simpa using lines_ne_nil s
      have hbreak : play [] 0 ("\n" ++ (join "\n" (s.lines.map (styledLine parameters)) ++ t)) =
          (play [] 0 t).after (shown parameters '\n' :: s.map (shown parameters)) := by
        rw [play_append (by decide), ih hs, Screen.after_after]
        rfl
      rw [lines_append, lines_eq_singleton hl, List.singleton_append, List.map_cons,
        join_append _ _ hne, List.append_assoc, List.append_assoc,
        play_styledLine h hzero hl hline, hbreak, Screen.after_after, List.map_append,
        List.map_cons]

def styled (selected : Category → Text) (t : Token) : Text :=
  if selected t.category = [] then t.text
  else join "\n" (t.text.lines.map (styledLine (selected t.category)))

theorem token_eq (h : ∀ c, (styles c).ansi = .ok (selected c)) (t : Token) :
    token styles t = .ok (styled selected t) := by
  rw [token, h, styled]
  change (if selected t.category = [] then _ else _) = _
  split <;> rfl

theorem render_eq (h : ∀ c, (styles c).ansi = .ok (selected c)) (c : Classification) :
    render c styles = .ok (c.withPlain.flatMap (styled selected)) := by
  have htoken : token styles = fun t => pure (styled selected t) := funext fun t => token_eq h t
  rw [render, htoken, List.mapM_pure, List.flatMap]
  rfl

theorem play_styled {t : Token} (h : ∀ c ∈ selected t.category, isParameter c = true)
    (hzero : selected t.category ≠ "0".toList) (ht : '\x1b' ∉ t.text) (rest : Text) :
    play [] 0 (styled selected t ++ rest) =
      (play [] 0 rest).after (t.text.map (shown (selected t.category))) := by
  rw [styled]
  split
  · next he =>
      have hshown : shown (selected t.category) = (·, []) := by
        funext c
        rw [shown, he, ite_self]
      rw [play_append ht, hshown]
  · exact play_styledLines h hzero ht

theorem play_tokens {tokens : List Token} (h : ∀ c, ∀ ch ∈ selected c, isParameter ch = true)
    (hzero : ∀ c, selected c ≠ "0".toList) (ht : ∀ t ∈ tokens, '\x1b' ∉ t.text) :
    play [] 0 (tokens.flatMap (styled selected)) =
      ⟨tokens.flatMap fun t => t.text.map (shown (selected t.category)), []⟩ := by
  induction tokens with
  | nil => rfl
  | cons t tokens ih =>
      rw [List.forall_mem_cons] at ht
      rw [List.flatMap_cons, play_styled (h _) (hzero _) ht.1, ih ht.2]
      rfl

/-- A terminal that plays a rendered source prints the source, each character in the style of its
category and line feeds in none, and is reset at the end. -/
theorem play_render {overrides : List StyleTable.Override} {path : Option Path}
    (hs : StyleTable.resolve overrides path = .ok styles) (h : '\x1b' ∉ source) :
    ∃ (selected : Category → Text) (output : Text),
      (∀ c, (styles c).ansi = .ok (selected c)) ∧ render (classify source) styles = .ok output ∧
      play [] 0 output = ⟨source.zipIdx.map fun (c, i) =>
        (c, if c = '\n' then [] else selected ((classify source).categoryAt i)), []⟩ := by
  choose selected hansi hp hzero using fun c => Style.exists_ansi (StyleTable.isWritten_resolve hs c)
  have htiled := Classification.tiled_classify source
  have hesc : ∀ t ∈ (classify source).withPlain, '\x1b' ∉ t.text := by
    intro t ht hm
    rw [htiled.text t ht] at hm
    exact h (List.mem_of_mem_drop (List.mem_of_mem_take hm))
  refine ⟨selected, _, hansi, render_eq hansi _, ?_⟩
  rw [play_tokens hp hzero hesc, htiled.flatMap_map fun c => shown (selected c)]
  rfl

theorem play_render_comment :
    ∃ (selected : Category → Text) (output : Text),
      (∀ c, (StyleTable.default.set .plain ⟨some "#ff0000", true, false⟩ c).ansi =
        .ok (selected c)) ∧
      render (classify "/*\n*/ a") (StyleTable.default.set .plain ⟨some "#ff0000", true, false⟩) =
        .ok output ∧
      play [] 0 output = ⟨("/*\n*/ a".toList.zipIdx.map fun (c, i) =>
        (c, if c = '\n' then [] else selected ((classify "/*\n*/ a").categoryAt i))), []⟩ := by
  have hs : StyleTable.resolve [⟨"plain", some "bold #FF0000"⟩] none =
      .ok (StyleTable.default.set .plain ⟨some "#ff0000", true, false⟩) := rfl
  exact play_render hs (by decide)

end PioSyntax.Terminal
