import PioSyntax.Proofs.Classification.BlockComment
import PioSyntax.Proofs.Classification.Priority
import PioSyntax.Proofs.ForeignBlock.Scanned

namespace PioSyntax

namespace Text

def FitsAt (source : Text) (stop start : Nat) (text : Text) : Prop :=
  IsAt source start text ∧ start + text.length ≤ stop

def EndsLine (source : Text) (offset : Nat) : Prop :=
  source[offset]? = some '\n' ∨ source[offset]? = some '\r'

end Text

open Text

namespace Pattern

def openings : List Text := [[';'], ['/', '/'], ['/', '*']]

/-- The span is a comment in a stretch of the source that ends at `stop`: it goes on to the end of its
line, through its first closing, or to the end of the stretch. -/
inductive IsComment (source : Text) (stop : Nat) : Span → Prop
  | line {start n : Nat} {opening : Text} (ho : opening = [';'] ∨ opening = ['/', '/'])
      (hb : FitsAt source stop start opening) (hs : start ≤ n)
      (hl : ∀ i, start ≤ i → i < n → ¬ EndsLine source i)
      (hn : n = stop ∨ n < stop ∧ EndsLine source n) : IsComment source stop ⟨start, n⟩
  | closed {start n : Nat} (hb : FitsAt source stop start ['/', '*']) (hs : start + 2 ≤ n)
      (hn : FitsAt source stop n ['*', '/'])
      (hf : ∀ i, start + 2 ≤ i → i < n → ¬ IsAt source i ['*', '/']) :
      IsComment source stop ⟨start, n + 2⟩
  | unclosed {start : Nat} (hb : FitsAt source stop start ['/', '*'])
      (hn : ∀ i, start + 2 ≤ i → ¬ FitsAt source stop i ['*', '/']) :
      IsComment source stop ⟨start, stop⟩

variable {source pre opening taken rest : Text} {before : Option Char} {part : Option Span}
variable {n stop : Nat}

theorem onLine_eq_false {c : Char} : onLine c = false ↔ c = '\n' ∨ c = '\r' := by
  simp only [onLine, Bool.and_eq_false_iff, bne_eq_false_iff_eq]

theorem endsLine_iff : EndsLine source n ↔ ∃ c, source[n]? = some c ∧ onLine c = false := by
  simp only [EndsLine, onLine_eq_false]
  constructor
  · rintro (h | h)
    · exact ⟨'\n', h, .inl rfl⟩
    · exact ⟨'\r', h, .inr rfl⟩
  · rintro ⟨c, h, rfl | rfl⟩
    · exact .inl h
    · exact .inr h

theorem not_endsLine (h : IsAt source n taken) (ht : ∀ c ∈ taken, onLine c = true) {i : Nat}
    (hlow : n ≤ i) (hhigh : i < n + taken.length) : ¬ EndsLine source i := by
  intro hi
  obtain ⟨c, hc, hend⟩ := endsLine_iff.mp hi
  exact absurd (ht c (h.mem hlow hhigh hc)) (by simp [hend])

theorem fitsAt_append (h : IsAt source n (taken ++ rest)) :
    FitsAt source (n + (taken ++ rest).length) n taken :=
  ⟨h.left, by rw [List.length_append]; omega⟩

/-- What the pattern takes is a comment of the stretch that it sees. -/
theorem Takes.isComment (ht : Takes .comment before taken rest part)
    (h : IsAt source n (taken ++ rest)) :
    IsComment source (n + (taken ++ rest).length) ⟨n, n + taken.length⟩ := by
  cases ht with
  | @lineComment _ opening body _ ho hb hr =>
      have hopening : ∀ c ∈ opening, onLine c = true := by
        rcases ho with rfl | rfl
        · exact List.all_eq_true.mp rfl
        · exact List.all_eq_true.mp rfl
      have hline : ∀ c ∈ opening ++ body, onLine c = true := by
        intro c hc
        exact (List.mem_append.mp hc).elim (hopening c) (hb c)
      refine .line ho ?_ (Nat.le_add_right _ _) (fun i => not_endsLine h.left hline) ?_
      · have hopen := fitsAt_append (List.append_assoc opening body rest ▸ h)
        rwa [← List.append_assoc] at hopen
      · cases rest with
        | nil => exact .inl (by rw [List.append_nil])
        | cons c rest =>
            have hc : onLine c = false := by simpa using hr
            refine .inr ⟨?_, endsLine_iff.mpr ⟨c, h.right.getElem?_eq, hc⟩⟩
            simp only [List.length_append, List.length_cons]
            omega
  | @blockComment _ body _ hb =>
      have hbody : IsAt source (n + 2) (body ++ ['*', '/']) := h.left.right (s := ['/', '*'])
      have hopen : IsAt source (n + 2) (body ++ ['*']) := by
        rw [show body ++ ['*', '/'] = body ++ ['*'] ++ ['/'] by simp] at hbody
        exact hbody.left
      have hlen : n + ('/' :: '*' :: (body ++ ['*', '/'])).length = n + 2 + body.length + 2 := by
        simp only [List.length_append, List.length_cons, List.length_nil]
        omega
      rw [List.length_append, ← Nat.add_assoc, hlen]
      refine .closed ⟨h.left.left (s := ['/', '*']), ?_⟩ (Nat.le_add_right _ _)
        ⟨hbody.right, Nat.le_add_right _ _⟩ fun i hlow hhigh hi => ?_
      · simp only [List.length_cons, List.length_nil]
        omega
      · refine hb (hopen.infix_iff.mpr ⟨i, hlow, ?_, hi⟩)
        simp only [List.length_append, List.length_cons, List.length_nil]
        omega
  | @openComment _ body hb =>
      rw [List.append_nil] at h ⊢
      have hbody : IsAt source (n + 2) body := h.right (s := ['/', '*'])
      refine .unclosed ⟨h.left (s := ['/', '*']), ?_⟩ fun i hlow hi => ?_
      · simp only [List.length_cons, List.length_nil]
        omega
      · have hstop := hi.2
        refine hb (hbody.infix_iff.mpr ⟨i, hlow, ?_, hi.1⟩)
        simp only [List.length_cons] at hstop ⊢
        omega

/-- No word begins with what begins a comment. -/
theorem IsComment.first {s : Span} (h : IsComment source stop s) :
    ∃ c, source[s.start]? = some c ∧ isWord c = false := by
  cases h with
  | line ho hb =>
      rcases ho with rfl | rfl
      · exact ⟨';', hb.1.getElem?_eq, rfl⟩
      · exact ⟨'/', hb.1.getElem?_eq, rfl⟩
  | closed hb | unclosed hb => exact ⟨'/', hb.1.getElem?_eq, rfl⟩

theorem comment_of_opening (before : Option Char) (rest : Text) (ho : opening ∈ openings) :
    ∃ hit, recognise .comment before (opening ++ rest) = some hit := by
  simp only [openings, List.mem_cons, List.not_mem_nil, or_false] at ho
  rcases ho with rfl | rfl | rfl
  · exact ⟨_, rfl⟩
  · exact ⟨_, rfl⟩
  · exact ⟨_, rfl⟩

end Pattern

namespace Rule

open Pattern

variable {r : Rule} {s : Segment} {t : Token} {pre rest opening : Text}

/-- A rule for comments reports all that its pattern takes. -/
theorem mem_candidates_comment (hp : r.pattern = .comment) (hg : r.group = 0)
    (ht : t ∈ r.candidates s) : ∃ pre taken rest before part, s.text = pre ++ (taken ++ rest) ∧
      Takes .comment before taken rest part ∧
      t.span = ⟨s.start + pre.length, s.start + pre.length + taken.length⟩ := by
  obtain ⟨f, hf, ht⟩ := List.mem_filterMap.mp ht
  obtain ⟨part, hpart, -, rfl⟩ := token?_eq_some.mp ht
  obtain ⟨pre, htext, hstart, hr⟩ := mem_find hf
  rw [hp] at hr
  obtain ⟨taken, rest, marked, he, hhit, htakes⟩ := recognise_iff.mp hr
  rw [groupOf, if_pos hg, hhit, Option.some.injEq] at hpart
  refine ⟨pre, taken, rest, _, marked, by rw [htext, he], htakes, ?_⟩
  rw [← hpart, hstart]
  rfl

/-- Where a comment could begin, one does or is open. -/
theorem exists_candidate_comment (hp : r.pattern = .comment) (hg : r.group = 0)
    (htext : s.text = pre ++ (opening ++ rest)) (ho : opening ∈ openings) :
    ∃ t ∈ r.candidates s, t.span.start ≤ s.start + pre.length ∧
      s.start + pre.length < t.span.stop := by
  obtain ⟨hit, hr⟩ := comment_of_opening (charBefore s.before pre) rest ho
  obtain ⟨f, hf, hlow, hhigh⟩ := exists_mem_findFrom s.start (Nat.zero_le pre.length) hr
  obtain ⟨before, -, -, -, hf'⟩ := mem_findFrom hf
  have hsize : 0 < f.hit.size := by
    obtain ⟨taken, rest, part, -, hhit, htakes⟩ := recognise_iff.mp hf'
    rw [hhit]
    exact List.length_pos_of_ne_nil (htakes.ne_nil (show comment.Separates '\n' by decide))
  have htoken : r.token? f = some ⟨r.category, Span.shift ⟨0, f.hit.size⟩ f.start,
      Span.slice ⟨0, f.hit.size⟩ f.text⟩ :=
    token?_eq_some.mpr ⟨⟨0, f.hit.size⟩, if_pos hg, hsize, rfl⟩
  refine ⟨_, List.mem_filterMap.mpr ⟨f, ?_, htoken⟩, hlow, ?_⟩
  · rwa [find, hp, htext]
  · simp only [Span.shift]
    omega

end Rule

namespace Classification

open Pattern ForeignBlock

variable {source : Text} {t : Token}

theorem mem_produced_comment :
    t ∈ produced defaultRules source 0 ↔ t ∈ proposals source commentRule :=
  (mem_produced (by decide : 0 < defaultRules.length)).trans
    (and_iff_left fun j hj => absurd hj (Nat.not_lt_zero j))

theorem mem_comments : t ∈ (classify source).tokens ∧ t.category = .comment ↔
    t ∈ proposals source commentRule :=
  (mem_produced_default (by decide : 0 < defaultRules.length)).symm.trans mem_produced_comment

theorem exists_isComment (ht : t ∈ proposals source commentRule) :
    ∃ s, IsScanned source s ∧ s.start ≤ t.span.start ∧ t.span.stop ≤ s.stop ∧
      IsComment source s.stop t.span := by
  rw [proposals_eq, List.mem_flatMap] at ht
  obtain ⟨segment, hs, ht⟩ := ht
  obtain ⟨-, hlow, hne, hhigh, -⟩ := Rule.mem_candidates ht
  refine ⟨⟨segment.start, segment.stop⟩, isScanned_iff.mpr ⟨?_, segment, hs, rfl, rfl⟩, hlow, hhigh, ?_⟩
  · dsimp only [Segment.stop]
    omega
  · obtain ⟨pre, taken, rest, before, part, htext, htakes, hspan⟩ :=
      Rule.mem_candidates_comment rfl rfl ht
    have hat := (placed_find source).segment_isAt (Nat.zero_le _) hs
    rw [htext] at hat
    have hstop : segment.stop = segment.start + pre.length + (taken ++ rest).length := by
      rw [Segment.stop, htext, List.length_append, Nat.add_assoc]
    rw [hspan]
    dsimp only
    rw [hstop]
    exact htakes.isComment hat.right

/-- Comments are exact: each of them lies in one scanned stretch and ends where its opening says, and
nothing that would open a comment is outside of them. -/
theorem comments_exact (source : Text) :
    (∀ t ∈ (classify source).tokens, t.category = .comment → ∃ s, IsScanned source s ∧
      s.start ≤ t.span.start ∧ t.span.stop ≤ s.stop ∧ IsComment source s.stop t.span ∧
      ∀ s', IsScanned source s' → s'.Overlaps t.span → s' = s) ∧
    ∀ s, IsScanned source s → ∀ offset, s.start ≤ offset → ∀ opening ∈ openings,
      FitsAt source s.stop offset opening → ∃ t ∈ (classify source).tokens,
        t.category = .comment ∧ t.span.start ≤ offset ∧ offset < t.span.stop := by
  constructor
  · intro t ht hc
    obtain ⟨s, hs, hlow, hhigh, hcomment⟩ := exists_isComment (mem_comments.mp ⟨ht, hc⟩)
    refine ⟨s, hs, hlow, hhigh, hcomment, fun s' hs' ho => hs'.eq_of_overlaps hs ?_⟩
    rw [Span.overlaps_iff] at ho ⊢
    omega
  · intro s hs offset hlow opening ho hfits
    obtain ⟨-, segment, hm, hstart, hstop⟩ := isScanned_iff.mp hs
    have hat := (placed_find source).segment_isAt (Nat.zero_le _) hm
    obtain ⟨n, rfl⟩ := Nat.exists_eq_add_of_le (hstart ▸ hlow)
    have hin : IsAt segment.text n opening := by
      refine (hat.isAt_iff ?_).mp hfits.1
      have hend := hfits.2
      rw [← hstop, Segment.stop] at hend
      omega
    obtain ⟨pre, rest, htext, rfl⟩ := hin
    obtain ⟨t, ht, hbounds⟩ := Rule.exists_candidate_comment (r := commentRule) rfl rfl htext ho
    obtain ⟨ht, hc⟩ := mem_comments.mpr (proposals_eq ▸ List.mem_flatMap.mpr ⟨segment, hm, ht⟩)
    exact ⟨t, ht, hc, hbounds⟩

theorem comments_exact_unclosed :
    IsScanned "x /*/ ;" ⟨0, 7⟩ ∧ IsComment "x /*/ ;" 7 ⟨2, 7⟩ ∧
      ∃ t ∈ (classify "x /*/ ;").tokens, t.category = .comment ∧ t.span.start ≤ 6 := by
  have hs : IsScanned "x /*/ ;" ⟨0, 7⟩ :=
    ⟨by decide, by decide, by decide, .inl rfl, .inl rfl⟩
  obtain ⟨hcomments, hopen⟩ := comments_exact "x /*/ ;"
  obtain ⟨s, -, -, -, hc, hunique⟩ :=
    hcomments ⟨.comment, ⟨2, 7⟩, "/*/ ;"⟩ (by decide) rfl
  rw [← hunique ⟨0, 7⟩ hs (by decide)] at hc
  have hfits : FitsAt "x /*/ ;" 7 6 [';'] := ⟨⟨"x /*/ ", [], rfl, rfl⟩, by decide⟩
  obtain ⟨t, ht, hcategory, hlow, -⟩ := hopen ⟨0, 7⟩ hs 6 (by decide) [';'] (by decide) hfits
  exact ⟨hs, hc, t, ht, hcategory, hlow⟩

end Classification

end PioSyntax
