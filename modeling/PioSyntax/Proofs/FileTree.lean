import PioSyntax.FileTree
import PioSyntax.Proofs.Text.Runs

namespace PioSyntax

/-- A path is written with the characters of the text it was read from. -/
theorem Path.mem_of_mem_toText {text : Text} {c : Char} (h : c ∈ (ofText text).toText)
    (hslash : c ≠ '/') (hpoint : c ≠ '.') : c ∈ text := by
  rw [toText] at h
  split at h
  · exact absurd (List.mem_singleton.mp h) hpoint
  · rcases List.mem_append.mp h with h | h
    · exact absurd (List.eq_of_mem_replicate h) hslash
    · rcases Text.mem_join h with h | ⟨part, hp, hc⟩
      · exact absurd (List.mem_singleton.mp h) hslash
      · exact Text.mem_of_mem_splitOn (List.mem_filter.mp hp).1 hc

namespace FileTree

def Target.location? : Target → Option Location
  | .file location _ => some location
  | .folder => none
  | .free location => some location

/-- The place of the file that a path names, whether it is there or not. -/
def locate? (t : FileTree) (p : Path) : Option Location :=
  (t.target p).toOption.bind Target.location?

structure AgreeExcept (p : Path) (t t' : FileTree) : Prop where
  folders_eq : t'.folders = t.folders
  working_eq : t'.working = t.working
  content_eq (location : Location) (h : t.locate? p ≠ some location) :
    t'.content? location = t.content? location

def IsName (name : Text) : Prop :=
  name ≠ ['.', '.'] ∧ (Utf8.encode name).length ≤ greatestName

inductive Leads (t : FileTree) : Location → List Text → Target → Prop
  | here {place : Location} : Leads t place [] .folder
  | up {place : Location} {names : List Text} {target : Target}
      (h : Leads t place.dropLast names target) : Leads t place (['.', '.'] :: names) target
  | into {place : Location} {name : Text} {names : List Text} {target : Target} (hn : IsName name)
      (hc : t.content? (place ++ [name]) = none) (hf : t.isFolder (place ++ [name]) = true)
      (h : Leads t (place ++ [name]) names target) : Leads t place (name :: names) target
  | file {place : Location} {name : Text} {content : Bytes} (hn : IsName name)
      (hc : t.content? (place ++ [name]) = some content) :
      Leads t place [name] (.file (place ++ [name]) content)
  | free {place : Location} {name : Text} (hn : IsName name)
      (hc : t.content? (place ++ [name]) = none) (hf : t.isFolder (place ++ [name]) = false) :
      Leads t place [name] (.free (place ++ [name]))

variable {t t' : FileTree} {p : Path} {place location l : Location} {names : List Text}
variable {content : Bytes} {target : Target}

theorem find?_put (files : List (Location × Bytes)) :
    (put location content files).find? (·.1 = l) =
      if location = l then some (location, content) else files.find? (·.1 = l) := by
  induction files with
  | nil => by_cases hl : location = l <;> simp [put, hl]
  | cons f files ih =>
      by_cases hf : f.1 = location
      · rw [put, if_pos hf]
        by_cases hl : location = l <;> simp [hf, hl]
      · rw [put, if_neg hf]
        by_cases hl : f.1 = l
        · simp [hl, show location ≠ l from fun he => hf (hl.trans he.symm)]
        · simp [hl, ih]

theorem content?_withFile (t : FileTree) (location l : Location) (content : Bytes) :
    (t.withFile location content).content? l =
      if location = l then some content else t.content? l := by
  rw [content?, withFile, find?_put]
  by_cases hl : location = l
  · rw [if_pos hl, if_pos hl, Option.map_some]
  · rw [if_neg hl, if_neg hl, content?]

theorem any_put (q : Location → Bool) {files : List (Location × Bytes)}
    (h : files.any (q ·.1) = true) : (put location content files).any (q ·.1) = true := by
  induction files with
  | nil => cases h
  | cons f files ih =>
      rw [List.any_cons, Bool.or_eq_true] at h
      rw [put]
      split
      · next hf => rw [List.any_cons, Bool.or_eq_true]; exact h.imp_left (hf ▸ ·)
      · rw [List.any_cons, Bool.or_eq_true]; exact h.imp_right ih

theorem isFolder_withFile (h : t.isFolder l = true) :
    (t.withFile location content).isFolder l = true := by
  simp only [isFolder, withFile, Bool.or_eq_true] at h ⊢
  exact h.imp_right (any_put fun file => l.isPrefixOf file && l != file)

theorem leads_of_follow (h : t.follow place names = .ok target) : Leads t place names target := by
  induction names generalizing place with
  | nil => cases h; exact .here
  | cons name names ih =>
      rw [follow] at h
      split at h
      · next hup => exact hup ▸ .up (ih h)
      · next hup =>
          split at h
          · cases h
          · next hlong =>
              have hn : IsName name := ⟨hup, Nat.le_of_not_lt hlong⟩
              dsimp only at h
              split at h
              · next hc =>
                  split at h
                  · next he =>
                      obtain rfl := List.isEmpty_iff.mp he
                      cases h
                      exact .file hn hc
                  · cases h
              · next hc =>
                  split at h
                  · next hf => exact .into hn hc hf (ih h)
                  · next hf =>
                      split at h
                      · next he =>
                          obtain rfl := List.isEmpty_iff.mp he
                          cases h
                          exact .free hn hc (Bool.eq_false_iff.mpr hf)
                      · cases h

theorem Leads.follow_eq (h : Leads t place names target) : t.follow place names = .ok target := by
  induction h with
  | here => rfl
  | up _ ih => rw [follow, if_pos rfl, ih]
  | into hn hc hf _ ih =>
      rw [follow, if_neg hn.1, if_neg (Nat.not_lt.mpr hn.2)]
      simp only [hc, hf, ↓reduceIte, ih]
  | file hn hc =>
      rw [follow, if_neg hn.1, if_neg (Nat.not_lt.mpr hn.2)]
      simp only [hc, List.isEmpty_nil, ↓reduceIte]
  | free hn hc hf =>
      rw [follow, if_neg hn.1, if_neg (Nat.not_lt.mpr hn.2)]
      simp only [hc, hf, Bool.false_eq_true, List.isEmpty_nil, ↓reduceIte]

/-- No way leads to a file or to a free name where a folder is. -/
theorem Leads.isFolder_eq_false (h : Leads t place names target)
    (hl : target.location? = some location) (hc : t.content? location = none) :
    t.isFolder location = false := by
  induction h with
  | here => cases hl
  | up _ ih => exact ih hl
  | into _ _ _ _ ih => exact ih hl
  | file _ hfile =>
      cases hl
      rw [hfile] at hc
      cases hc
  | free _ _ hf =>
      cases hl
      exact hf

/-- Once a file is there, the way that led to its place leads to it. -/
theorem Leads.withFile (h : Leads t place names target) (hl : target.location? = some location)
    (content : Bytes) :
    Leads (t.withFile location content) place names (.file location content) := by
  induction h with
  | here => cases hl
  | up _ ih => exact .up (ih hl)
  | @into place name names target hn hc hf h ih =>
      -- The folders on the way stay folders: none of them is the place of the file.
      have hne : location ≠ place ++ [name] := by
        rintro rfl
        rw [h.isFolder_eq_false hl hc] at hf
        cases hf
      refine .into hn ?_ (isFolder_withFile hf) (ih hl)
      rw [content?_withFile, if_neg hne, hc]
  | file hn _ =>
      cases hl
      exact .file hn (by rw [content?_withFile, if_pos rfl])
  | free hn _ _ =>
      cases hl
      exact .file hn (by rw [content?_withFile, if_pos rfl])

theorem locate?_eq_some_iff : t.locate? p = some location ↔
    ∃ target, t.target p = .ok target ∧ target.location? = some location := by
  rw [locate?]
  cases t.target p with
  | error problem => simp [Except.toOption]
  | ok target => simp [Except.toOption]

theorem target_withFile (h : t.locate? p = some location) (content : Bytes) :
    (t.withFile location content).target p = .ok (.file location content) := by
  obtain ⟨target, ht, hl⟩ := locate?_eq_some_iff.mp h
  rw [FileTree.target] at ht ⊢
  split at ht
  · cases ht
  · next hnull =>
      rw [if_neg hnull]
      split at ht
      · cases ht
      · next hlong =>
          rw [if_neg hlong]
          exact ((leads_of_follow ht).withFile hl content).follow_eq

theorem write_eq_ok_iff : t.write p content = .ok t' ↔
    ∃ location, t.locate? p = some location ∧ t' = t.withFile location content := by
  simp only [write, locate?_eq_some_iff]
  cases ht : t.target p with
  | error problem => simp
  | ok target => cases target <;> simp [Target.location?, eq_comm]

theorem read_write (h : t.write p content = .ok t') : t'.read p = .ok content := by
  obtain ⟨location, hl, rfl⟩ := write_eq_ok_iff.mp h
  rw [read, target_withFile hl]

theorem agreeExcept_write (h : t.write p content = .ok t') : AgreeExcept p t t' := by
  obtain ⟨location, hl, rfl⟩ := write_eq_ok_iff.mp h
  refine ⟨rfl, rfl, fun l hne => ?_⟩
  have hlocation : location ≠ l := fun he => hne (he ▸ hl)
  rw [content?_withFile, if_neg hlocation]

theorem follow_ne_nullByte (t : FileTree) (place : Location) (names : List Text) :
    t.follow place names ≠ .error .nullByte := by
  induction names generalizing place with
  | nil => nofun
  | cons name names ih =>
      rw [follow]
      split
      · exact ih _
      · split
        · nofun
        · dsimp only
          split
          · split <;> nofun
          · split
            · exact ih _
            · split <;> nofun

theorem mem_of_read_eq_nullByte {e : FileError} (h : t.read p = .error e)
    (he : e.problem = .nullByte) : '\x00' ∈ p.toText := by
  rw [read] at h
  split at h
  · cases h
  · cases h; cases he
  · cases h; cases he
  · next problem ht =>
      cases h
      cases he
      rw [FileTree.target] at ht
      split at ht
      · next hnull => exact List.contains_iff_mem.mp hnull
      · split at ht
        · cases ht
        · exact absurd ht (follow_ne_nullByte t _ _)

end FileTree

end PioSyntax
