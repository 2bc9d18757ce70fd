import PioSyntax.Proofs.Terminal.Parameters
import PioSyntax.Proofs.Text.Marks
import PioSyntax.Proofs.Text.Spaced

namespace PioSyntax

open Text

structure Rgb where
  red : Fin 256
  green : Fin 256
  blue : Fin 256

/-- What is seen of a style. -/
structure Look where
  color : Option Rgb
  bold : Bool
  italic : Bool

namespace Rgb

def byte? (n : Nat) : Option (Fin 256) := if h : n < 256 then some ⟨n, h⟩ else none

def ofBytes? (red green blue : Nat) : Option Rgb := do
  return ⟨← byte? red, ← byte? green, ← byte? blue⟩

def ofText? : Text → Option Rgb
  | ['#', a, b, c, d, e, f] => do
    ofBytes? (← Style.hexDigits? [a, b]) (← Style.hexDigits? [c, d]) (← Style.hexDigits? [e, f])
  | _ => none

def toText (c : Rgb) : Text := '#' :: (ofHex 2 c.red ++ ofHex 2 c.green ++ ofHex 2 c.blue)

end Rgb

namespace Look

def plain : Look := ⟨none, false, false⟩

def style (l : Look) : Style := ⟨l.color.map Rgb.toText, l.bold, l.italic⟩

def declaration? (piece : Text) : Option (Text × Text) :=
  (cut? ':' (piece.dropWhile isBlank)).map fun d => (d.1, d.2.dropWhile isBlank)

def declarations (css : Text) : List (Text × Text) := (splitOn ';' css).filterMap declaration?

def ofDeclarations (declared : List (Text × Text)) : Look where
  color := (declared.lookup "color".toList).bind Rgb.ofText?
  bold := declared.lookup "font-weight".toList = some "bold".toList
  italic := declared.lookup "font-style".toList = some "italic".toList

def ofCss (css : Text) : Look := ofDeclarations (declarations css)

def select (l : Look) : List Nat → Look
  | 38 :: 2 :: red :: green :: blue :: codes =>
    select { l with color := Rgb.ofBytes? red green blue } codes
  | 1 :: codes => select { l with bold := true } codes
  | 3 :: codes => select { l with italic := true } codes
  | _ :: codes => select l codes
  | [] => l

def ofParameters (parameters : Text) : Look :=
  plain.select ((splitOn ';' parameters).filterMap number?)

def declared (l : Look) : List (Text × Text) :=
  (l.color.map fun c => (("color" : Text), c.toText)).toList ++
    (if l.bold then [(("font-weight" : Text), ("bold" : Text))] else []) ++
    if l.italic then [(("font-style" : Text), ("italic" : Text))] else []

def codes (l : Look) : List Nat :=
  (if l.bold then [1] else []) ++ (if l.italic then [3] else []) ++
    l.color.elim [] fun c => [38, 2, c.red.val, c.green.val, c.blue.val]

def written (d : Text × Text) : Text := d.1 ++ ':' :: ' ' :: d.2

def isMark (c : Char) : Bool := isBlank c || c == ':' || c == ';'

end Look

variable {c : Rgb} {l : Look} {s : Style} {a b : Char} {w spec : Text}

namespace Rgb

theorem byte?_val (b : Fin 256) : byte? b = some b := dif_pos b.isLt

theorem ofBytes?_val (c : Rgb) : ofBytes? c.red c.green c.blue = some c := by
  rw [ofBytes?, byte?_val, byte?_val, byte?_val]
  rfl

theorem exists_pair (n : Fin 256) : ∃ a b, ofHex 2 n = [a, b] ∧ isHexDigit a = true ∧
    isHexDigit b = true ∧ Style.hexDigits? [a, b] = some n.val := by
  have hlen : (ofHex 2 n).length = 2 := length_ofHex (by decide) n.isLt
  match hn : ofHex 2 n, hlen with
  | [a, b], _ =>
      have hd : ∀ d ∈ [a, b], isHexDigit d = true := fun d hm => isHexDigit_of_mem_ofHex (hn ▸ hm)
      simp only [List.forall_mem_cons] at hd
      exact ⟨a, b, rfl, hd.1, hd.2.1, hn ▸ hexDigits?_ofHex 2 n⟩

theorem ofText?_toText (c : Rgb) : ofText? c.toText = some c := by
  obtain ⟨a, b, hr, -, -, hred⟩ := exists_pair c.red
  obtain ⟨a', b', hg, -, -, hgreen⟩ := exists_pair c.green
  obtain ⟨a'', b'', hb, -, -, hblue⟩ := exists_pair c.blue
  rw [toText, hr, hg, hb]
  simp only [List.cons_append, List.nil_append, ofText?, hred, hgreen, hblue, Option.bind_eq_bind,
    Option.bind_some, ofBytes?_val]

theorem colorParameter_toText (c : Rgb) : Style.colorParameter c.toText =
    .ok ("38;2;" ++ join ";" [ofNat c.red, ofNat c.green, ofNat c.blue]) := by
  obtain ⟨a, b, hr, ha, hb, hred⟩ := exists_pair c.red
  obtain ⟨a', b', hg, ha', hb', hgreen⟩ := exists_pair c.green
  obtain ⟨a'', b'', hb, ha'', hb'', hblue⟩ := exists_pair c.blue
  rw [toText, hr, hg, hb]
  exact Style.colorParameter_pairs (Style.channel_pair ha ‹_› hred)
    (Style.channel_pair ha' hb' hgreen) (Style.channel_pair ha'' hb'' hblue)

theorem digitChar_pair : ∀ m < 16, ∀ n < 16,
    ofHex 2 (16 * m + n) = [Nat.digitChar m, Nat.digitChar n] := by decide

theorem exists_digitChar_lower (h : isHexDigit a = true) : ∃ n < 16, a.toLower = Nat.digitChar n :=
  forall_isHexDigit (P := fun d => ∃ n < 16, d.toLower = Nat.digitChar n) (by decide) h

theorem exists_byte (ha : isHexDigit a = true) (hb : isHexDigit b = true) :
    ∃ n : Fin 256, [a.toLower, b.toLower] = ofHex 2 n := by
  obtain ⟨m, hm, ha⟩ := exists_digitChar_lower ha
  obtain ⟨n, hn, hb⟩ := exists_digitChar_lower hb
  exact ⟨⟨16 * m + n, by omega⟩, by rw [ha, hb, digitChar_pair m hm n hn]⟩

/-- A word for a color is a color, up to the case of its letters. -/
theorem exists_toText (h : Style.IsColorWord w) : ∃ c : Rgb, w.map Char.toLower = c.toText := by
  obtain ⟨digits, rfl, hlen, hd⟩ := h
  match digits, hlen with
  | [a, b, c, d, e, f], _ =>
      simp only [List.forall_mem_cons] at hd
      obtain ⟨red, hr⟩ := exists_byte hd.1 hd.2.1
      obtain ⟨green, hg⟩ := exists_byte hd.2.2.1 hd.2.2.2.1
      obtain ⟨blue, hb⟩ := exists_byte hd.2.2.2.2.1 hd.2.2.2.2.2.1
      refine ⟨⟨red, green, blue⟩, ?_⟩
      rw [toText, ← hr, ← hg, ← hb]
      rfl

end Rgb

namespace Look

theorem exists_style (h : Style.ofSpec w = .ok s) : ∃ l : Look, l.style = s := by
  obtain ⟨color, bold, italic⟩ := s
  have hcolor : Style.LeavesColor (words w) color := (Style.describes_ofSpec h).color
  cases hcolor with
  | absent | cleared => exact ⟨⟨none, bold, italic⟩, rfl⟩
  | kept _ hv =>
      obtain ⟨c, hc⟩ := Rgb.exists_toText hv
      exact ⟨⟨some c, bold, italic⟩, by rw [hc]; rfl⟩

theorem ansi_style (l : Look) : l.style.ansi = .ok (join ";" (l.codes.map ofNat)) := by
  obtain ⟨color, bold, italic⟩ := l
  cases color with
  | none => cases bold <;> cases italic <;> rfl
  | some c =>
      have hcolor : (Look.style ⟨some c, bold, italic⟩).color? = some c.toText := rfl
      have hnumbers : ("38;2;" ++ join ";" [ofNat c.red, ofNat c.green, ofNat c.blue] : Text) =
          join ";" ([38, 2, c.red.val, c.green.val, c.blue.val].map ofNat) := rfl
      have hflags : Style.onlyIf bold "1" ++ Style.onlyIf italic "3" =
          ((if bold then [1] else []) ++ (if italic then [3] else [])).map ofNat := by
        cases bold <;> cases italic <;> rfl
      have hansi := Style.ansi_of_color hcolor c.colorParameter_toText
      rw [hnumbers, join_append_join (by simp)] at hansi
      rw [hansi, codes, List.map_append, ← hflags]
      rfl

theorem select_codes (l : Look) : plain.select l.codes = l := by
  obtain ⟨color, bold, italic⟩ := l
  cases color with
  | none => cases bold <;> cases italic <;> rfl
  | some c => cases bold <;> cases italic <;> simp [codes, select, Rgb.ofBytes?_val, plain]

theorem ofParameters_codes (l : Look) : ofParameters (join ";" (l.codes.map ofNat)) = l := by
  have hnumber : number? ∘ ofNat = some := funext number?_ofNat
  have hsplit : (splitOn ';' (join ";" (l.codes.map ofNat))).filterMap number? = l.codes := by
    by_cases hl : l.codes = []
    · rw [hl]
      rfl
    · have hsemicolon : ∀ piece ∈ l.codes.map ofNat, ';' ∉ piece := by
        rw [List.forall_mem_map]
        exact fun n _ => not_mem_ofNat rfl
      have hne : l.codes.map ofNat ≠ [] := by simpa using hl
      have hjoin : splitOn ';' (join ";" (l.codes.map ofNat)) = _ := splitOn_join hne hsemicolon
      rw [hjoin, List.filterMap_map, hnumber, List.filterMap_some]
  rw [ofParameters, hsplit, select_codes]

theorem css_style (l : Look) : l.style.css = join "; " (l.declared.map written) := by
  obtain ⟨color, bold, italic⟩ := l
  cases color <;> cases bold <;> cases italic <;> rfl

theorem isMark_eq_false (h : isMark a = false) : isBlank a = false ∧ a ≠ ':' ∧ a ≠ ';' := by
  simpa [isMark, and_assoc] using h

theorem not_isMark_toText (h : a ∈ c.toText) : isMark a = false := by
  rcases List.mem_cons.mp h with rfl | h
  · rfl
  · have hd : isHexDigit a = true := by
      simp only [List.mem_append] at h
      rcases h with (h | h) | h <;> exact isHexDigit_of_mem_ofHex h
    exact forall_isHexDigit (P := fun a => isMark a = false) (by decide) hd

theorem not_isMark_declared : ∀ d ∈ l.declared, ∀ a ∈ d.1 ++ d.2, isMark a = false := by
  have hliteral {t : Text} (h : t.all (!isMark ·) = true) : ∀ a ∈ t, isMark a = false := by
    simpa using h
  intro d hd a ha
  simp only [declared, List.mem_append, Option.mem_toList, Option.map_eq_some_iff] at hd
  rcases hd with (⟨c, -, rfl⟩ | hd) | hd
  · rcases List.mem_append.mp ha with ha | ha
    · exact hliteral rfl a ha
    · exact not_isMark_toText ha
  · obtain rfl : d = ("font-weight".toList, "bold".toList) := by
      split at hd
      · exact List.mem_singleton.mp hd
      · cases hd
    exact hliteral rfl a ha
  · obtain rfl : d = ("font-style".toList, "italic".toList) := by
      split at hd
      · exact List.mem_singleton.mp hd
      · cases hd
    exact hliteral rfl a ha

theorem stops_of_not_isMark (h : ∀ a ∈ w, isMark a = false) : Stops isBlank w := by
  cases w with
  | nil => exact stops_nil
  | cons a w => exact stops_cons.mpr (isMark_eq_false (h a List.mem_cons_self)).1

theorem declaration?_written {d : Text × Text} {gap : Text} (hg : IsBlanks gap)
    (hd : ∀ a ∈ d.1 ++ d.2, isMark a = false) : declaration? (gap ++ written d) = some d := by
  have hproperty : ∀ a ∈ d.1, isMark a = false := fun a ha => hd a (List.mem_append_left _ ha)
  have hvalue : ∀ a ∈ d.2, isMark a = false := fun a ha => hd a (List.mem_append_right _ ha)
  have hcolon : ':' ∉ d.1 := fun h => (isMark_eq_false (hproperty _ h)).2.1 rfl
  have hspace : IsBlanks [' '] := by simp [IsBlanks, isBlank]
  have hstart : Stops isBlank (written d) :=
    (stops_append_cons rfl).mpr (stops_of_not_isMark hproperty)
  have hrest := dropWhile_run hspace (stops_of_not_isMark hvalue)
  rw [declaration?, dropWhile_run hg hstart, written, cut?_append hcolon, Option.map_some]
  exact congrArg (fun value => some (d.1, value)) hrest

theorem semicolon_not_mem_written {d : Text × Text} (hd : ∀ a ∈ d.1 ++ d.2, isMark a = false) :
    ';' ∉ written d := by
  have hmark : ';' ∉ d.1 ++ d.2 := fun h => (isMark_eq_false (hd _ h)).2.2 rfl
  simpa [written] using hmark

theorem filterMap_declaration? {ds : List (Text × Text)}
    (h : ∀ d ∈ ds, ∀ a ∈ d.1 ++ d.2, isMark a = false) :
    (ds.map fun d => ' ' :: written d).filterMap declaration? = ds := by
  have hspace : IsBlanks [' '] := by simp [IsBlanks, isBlank]
  induction ds with
  | nil => rfl
  | cons d ds ih =>
      rw [List.forall_mem_cons] at h
      have hfirst : declaration? (' ' :: written d) = some d := declaration?_written hspace h.1
      rw [List.map_cons, List.filterMap_cons_some hfirst, ih h.2]

theorem declarations_join {ds : List (Text × Text)}
    (h : ∀ d ∈ ds, ∀ a ∈ d.1 ++ d.2, isMark a = false) :
    declarations (join "; " (ds.map written)) = ds := by
  cases ds with
  | nil => rfl
  | cons d ds =>
      rw [List.forall_mem_cons] at h
      have hsemicolon : ∀ piece ∈ written d :: ds.map (fun d => ' ' :: written d), ';' ∉ piece := by
        rw [List.forall_mem_cons, List.forall_mem_map]
        refine ⟨semicolon_not_mem_written h.1, fun e he => ?_⟩
        simpa using semicolon_not_mem_written (h.2 e he)
      have hfirst : declaration? (written d) = some d :=
        (declaration?_written nofun h.1 : declaration? ([] ++ written d) = some d)
      have hsplit : splitOn ';' (join ";" (written d :: ds.map fun d => ' ' :: written d)) = _ :=
        splitOn_join (List.cons_ne_nil _ _) hsemicolon
      have hjoin : join "; " ((d :: ds).map written) =
          join ";" (written d :: ds.map fun d => ' ' :: written d) := by
        have hgap := join_gap ";" " " (written d) (ds.map written)
        rw [List.map_map] at hgap
        exact hgap
      rw [declarations, hjoin, hsplit, List.filterMap_cons_some hfirst, filterMap_declaration? h.2]

theorem declarations_css (l : Look) : declarations l.style.css = l.declared := by
  rw [css_style, declarations_join not_isMark_declared]

theorem ofDeclarations_declared (l : Look) : ofDeclarations l.declared = l := by
  obtain ⟨color, bold, italic⟩ := l
  cases color with
  | none => cases bold <;> cases italic <;> rfl
  | some c =>
      have hcolor : (some c.toText).bind Rgb.ofText? = some c := Rgb.ofText?_toText c
      cases bold <;> cases italic <;> exact congrArg (Look.mk · _ _) hcolor

theorem ofCss_css (l : Look) : ofCss l.style.css = l := by
  rw [ofCss, declarations_css, ofDeclarations_declared]

theorem css_eq_nil_iff : l.style.css = [] ↔ l = plain := by
  constructor
  · intro h
    rw [← ofCss_css l, h]
    rfl
  · rintro rfl
    rfl

theorem ansi_eq_nil_iff : l.style.ansi = .ok [] ↔ l = plain := by
  constructor
  · intro h
    rw [ansi_style] at h
    rw [← ofParameters_codes l, Except.ok.inj h]
    rfl
  · rintro rfl
    rfl

end Look

namespace Style

theorem exists_ofSpec (h : ∀ w ∈ words spec, IsStyleWord w) : ∃ s, ofSpec spec = .ok s := by
  cases hs : ofSpec spec with
  | ok s => exact ⟨s, rfl⟩
  | error problem =>
      obtain ⟨before, word, after, hws, -, hword, -⟩ := ofSpec_eq_error_iff.mp hs
      exact absurd (h word (hws ▸ List.mem_append_right before List.mem_cons_self)) hword

/-- A specification is refused for its first word that is none of the words there are, and otherwise
gives the style that its words describe. What is written of the style for a browser and for a
terminal shows one look, that of the style, and so is written of no other style. -/
theorem ofSpec_exact (spec : Text) : ∃ ws, Spaced ws spec ∧
    (∀ problem, ofSpec spec = .error problem ↔ ∃ before word after, ws = before ++ word :: after ∧
      (∀ w ∈ before, IsStyleWord w) ∧ ¬ IsStyleWord word ∧ problem = .unknownStyleWord word spec) ∧
    ((∀ w ∈ ws, IsStyleWord w) → ∃ s, ofSpec spec = .ok s) ∧
    ∀ s, ofSpec spec = .ok s → Describes ws s ∧ ∃ (l : Look) (parameters : Text),
      l.style = s ∧ s.ansi = .ok parameters ∧ Look.ofCss s.css = l ∧
      Look.ofParameters parameters = l ∧ (s.css = [] ↔ parameters = []) ∧
      ∀ spec' s', ofSpec spec' = .ok s' →
        (s'.css = s.css → s' = s) ∧ (s'.ansi = s.ansi → s' = s) := by
  refine ⟨words spec, spaced_iff.mpr rfl, fun problem => ofSpec_eq_error_iff, exists_ofSpec,
    fun s hs => ⟨describes_ofSpec hs, ?_⟩⟩
  obtain ⟨l, rfl⟩ := Look.exists_style hs
  refine ⟨l, join ";" (l.codes.map ofNat), rfl, l.ansi_style, l.ofCss_css, l.ofParameters_codes, ?_,
    fun spec' s' hs' => ?_⟩
  · rw [Look.css_eq_nil_iff, ← Look.ansi_eq_nil_iff, l.ansi_style, Except.ok.injEq]
  · obtain ⟨l', rfl⟩ := Look.exists_style hs'
    refine ⟨fun h => ?_, fun h => ?_⟩
    · rw [← l'.ofCss_css, h, l.ofCss_css]
    · rw [l.ansi_style, l'.ansi_style] at h
      rw [← l'.ofParameters_codes, Except.ok.inj h, l.ofParameters_codes]

example : ofSpec "#FF0000 none BOLD #00aAff" = .ok ⟨some "#00aaff", true, false⟩ := rfl

end Style

end PioSyntax
