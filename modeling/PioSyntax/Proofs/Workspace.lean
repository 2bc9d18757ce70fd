import Mathlib.Data.List.Induction
import PioSyntax.Workspace

namespace PioSyntax.Workspace

namespace Request

def uri : Request → Text
  | .opened uri _ => uri
  | .changed uri _ => uri
  | .tokens uri => uri
  | .closed uri => uri

def Stays : Request → Prop
  | .changed _ _ => True
  | .tokens _ => True
  | _ => False

def texts : Request → List Text
  | .changed _ texts => texts
  | _ => []

def leaves : Request → Option Text → Option Text
  | .opened _ text, _ => some text
  | .changed _ texts, held => held.map texts.getLastD
  | .tokens _, held => held
  | .closed _, _ => none

end Request

def after (e : Encoding) (w : Workspace) (requests : List Request) : Workspace :=
  requests.foldl (fun w r => (w.answer e r).1) w

def given (uri : Text) (requests : List Request) : List Text :=
  (requests.filter (·.uri = uri)).flatMap (·.texts)

/-- A document is open and has this text: the last one given for it since it was last opened. -/
def Holds (requests : List Request) (uri text : Text) : Prop :=
  ∃ before since first, requests = before ++ .opened uri first :: since ∧
    (∀ r ∈ since, r.uri = uri → r.Stays) ∧ (given uri since).getLastD first = text

def IsOpen (requests : List Request) (uri : Text) : Prop := ∃ text, Holds requests uri text

def answersTo (p : Request → Bool) (requests : List Request) (answers : List Answer) :
    List Answer :=
  ((requests.zip answers).filter (p ·.1)).map (·.2)

structure Separate (e : Encoding) (w : Workspace) (requests : List Request) : Prop where
  length_eq : (w.answers e requests).length = requests.length
  /-- The requests with one URI have the answers that they have without all others. -/
  of_uri (uri : Text) : answersTo (·.uri = uri) requests (w.answers e requests) =
    w.answers e (requests.filter (·.uri = uri))
  tokens {before later : List Request} {uri text : Text}
    (hr : requests = before ++ .tokens uri :: later) (h : Holds before uri text) :
    (w.answers e requests)[before.length]? =
      some (.tokens (SemanticToken.encode e (classify text)))
  opened {before later : List Request} {uri text : Text}
    (hr : requests = before ++ .opened uri text :: later) :
    Holds (before ++ [.opened uri text]) uri text ∧
      (w.answers e requests)[before.length]? =
        some (.diagnostics uri (Diagnostic.ofClassification e (classify text)))
  changed {before later : List Request} {uri : Text} {texts : List Text}
    (hr : requests = before ++ .changed uri texts :: later) (h : IsOpen before uri) :
    ∃ text, Holds (before ++ [.changed uri texts]) uri text ∧
      (w.answers e requests)[before.length]? =
        some (.diagnostics uri (Diagnostic.ofClassification e (classify text)))
  failed {before later : List Request} {r : Request} (hr : requests = before ++ r :: later)
    (hs : r.Stays) (h : ¬ IsOpen before r.uri) :
    ∃ f, (w.answers e requests)[before.length]? = some (.failed f)
  /-- A request that fails leaves all other answers as they are without it. -/
  without_failed {before later : List Request} {r : Request} {f : Failure}
    (hr : requests = before ++ r :: later)
    (h : (w.answers e requests)[before.length]? = some (.failed f)) :
    (w.answers e requests).eraseIdx before.length = w.answers e (before ++ later)

variable {e : Encoding} {w w' : Workspace} {r : Request} {requests before later : List Request}
variable {name : Text → Text} {uri text held document : Text} {f : Failure}

@[simp] theorem document_set (w : Workspace) (uri : Text) (held : Option Text) :
    (w.set uri held).document = w.document := rfl

@[simp] theorem text?_set_self (w : Workspace) (uri : Text) (held : Option Text) :
    (w.set uri held).text? uri = held := if_pos rfl

@[simp] theorem document_answer (e : Encoding) (w : Workspace) (r : Request) :
    (w.answer e r).1.document = w.document := by
  cases r with
  | opened | closed => rfl
  | changed uri texts =>
      cases ht : texts.getLast? <;> cases hw : w.text? uri <;> simp [answer, ht, hw]
  | tokens uri => cases hw : w.text? uri <;> simp [answer, hw]

theorem texts_answer (e : Encoding) (w : Workspace) (r : Request) (document : Text) :
    (w.answer e r).1.texts document =
      if w.document r.uri = document then r.leaves (w.texts document) else w.texts document := by
  by_cases hd : w.document r.uri = document
  · subst hd
    rw [if_pos rfl]
    cases r with
    | opened uri text => simp [answer, set, Request.uri, Request.leaves]
    | changed uri texts =>
        cases ht : texts.getLast? <;> cases hw : w.texts (w.document uri) <;>
          simp [answer, set, text?, Request.uri, Request.leaves, ht, hw, List.getLastD_eq_getLast?]
    | tokens uri =>
        cases hw : w.texts (w.document uri) <;>
          simp [answer, text?, Request.uri, Request.leaves, hw]
    | closed uri => simp [answer, set, Request.uri, Request.leaves]
  · rw [if_neg hd]
    have hne : document ≠ w.document r.uri := Ne.symm hd
    cases r with
    | opened uri text => exact if_neg hne
    | changed uri texts =>
        cases ht : texts.getLast? <;> cases hw : w.text? uri <;> simp only [answer, ht, hw]
        exact if_neg hne
    | tokens uri => cases hw : w.text? uri <;> simp only [answer, hw]
    | closed uri => exact if_neg hne

/-- Where URIs name different documents, a request is about its own URI only. -/
theorem text?_answer (hw : Function.Injective w.document) (e : Encoding) (r : Request)
    (uri : Text) : (w.answer e r).1.text? uri =
      if r.uri = uri then r.leaves (w.text? uri) else w.text? uri := by
  simp only [text?, document_answer, texts_answer, hw.eq_iff]

/-- An answer depends on nothing but the text of the document it is about. -/
theorem answer_snd_congr (h : w.text? r.uri = w'.text? r.uri) :
    (w.answer e r).2 = (w'.answer e r).2 := by
  cases r with
  | opened uri text => simp [answer, publish]
  | changed uri texts =>
      have h : w.text? uri = w'.text? uri := h
      simp only [answer, publish, h]
      cases texts.getLast? <;> cases w'.text? uri <;> simp
  | tokens uri =>
      have h : w.text? uri = w'.text? uri := h
      simp only [answer, h]
      cases w'.text? uri <;> rfl
  | closed uri => rfl

theorem fst_of_failed (h : (w.answer e r).2 = .failed f) : (w.answer e r).1 = w := by
  cases r with
  | opened uri text => simp [answer, publish] at h
  | changed uri texts =>
      simp only [answer, publish] at h ⊢
      cases ht : texts.getLast? <;> cases hw : w.text? uri <;> simp [ht, hw] at h ⊢
  | tokens uri => cases hw : w.text? uri <;> simp [answer, hw]
  | closed uri => cases h

theorem exists_failed (hs : r.Stays) (h : w.text? r.uri = none) :
    ∃ f, (w.answer e r).2 = .failed f := by
  cases r with
  | opened uri text => exact hs.elim
  | changed uri texts =>
      have h : w.text? uri = none := h
      cases ht : texts.getLast? with
      | none => exact ⟨.noSuchFile, by simp [answer, publish, ht, h]⟩
      | some text => exact ⟨.notOpen, by simp [answer, ht, h]⟩
  | tokens uri =>
      have h : w.text? uri = none := h
      exact ⟨.noSuchFile, by simp [answer, h]⟩
  | closed uri => exact hs.elim

theorem answer_opened (w : Workspace) (e : Encoding) (uri text : Text) :
    (w.answer e (.opened uri text)).2 =
      .diagnostics uri (Diagnostic.ofClassification e (classify text)) := by
  simp only [answer, publish, text?_set_self]

theorem answer_tokens (h : w.text? uri = some text) :
    (w.answer e (.tokens uri)).2 = .tokens (SemanticToken.encode e (classify text)) := by
  simp [answer, h]

theorem answer_changed {texts : List Text} (h : w.text? uri = some held) :
    (w.answer e (.changed uri texts)).2 =
      .diagnostics uri (Diagnostic.ofClassification e (classify (texts.getLastD held))) := by
  rw [List.getLastD_eq_getLast?]
  cases ht : texts.getLast? <;> simp [answer, publish, ht, h]

theorem after_append (e : Encoding) (w : Workspace) (before later : List Request) :
    w.after e (before ++ later) = (w.after e before).after e later :=
  List.foldl_append

theorem after_singleton (e : Encoding) (w : Workspace) (r : Request) :
    w.after e [r] = (w.answer e r).1 := rfl

theorem answers_append (e : Encoding) (w : Workspace) (before later : List Request) :
    w.answers e (before ++ later) = w.answers e before ++ (w.after e before).answers e later := by
  induction before generalizing w with
  | nil => rfl
  | cons r before ih => exact congrArg ((w.answer e r).2 :: ·) (ih _)

theorem length_answers (e : Encoding) (w : Workspace) (requests : List Request) :
    (w.answers e requests).length = requests.length := by
  induction requests generalizing w with
  | nil => rfl
  | cons r requests ih => exact congrArg (· + 1) (ih _)

theorem getElem?_answers (e : Encoding) (w : Workspace) (before : List Request) (r : Request)
    (later : List Request) :
    (w.answers e (before ++ r :: later))[before.length]? =
      some ((w.after e before).answer e r).2 := by
  rw [answers_append, List.getElem?_append_right (Nat.le_of_eq (length_answers ..)),
    length_answers, Nat.sub_self]
  rfl

theorem document_after (e : Encoding) (w : Workspace) (requests : List Request) :
    (w.after e requests).document = w.document := by
  induction requests generalizing w with
  | nil => rfl
  | cons r requests ih => exact (ih _).trans (document_answer e w r)

/-- Two workspaces with the same text of a document answer what is asked about it alike, whatever
else only the first of them is asked. -/
theorem answersTo_document (name : Text → Text) (hw : w.document = name)
    (hw' : w'.document = name) (h : w.texts document = w'.texts document)
    (requests : List Request) :
    answersTo (fun r => name r.uri = document) requests (w.answers e requests) =
      w'.answers e (requests.filter fun r => name r.uri = document) := by
  induction requests generalizing w w' with
  | nil => rfl
  | cons r requests ih =>
      have hstep := texts_answer e w r document
      have hname := (document_answer e w r).trans hw
      rw [hw] at hstep
      by_cases hd : name r.uri = document
      · have hstep' := texts_answer e w' r document
        rw [hw', if_pos hd] at hstep'
        rw [if_pos hd, h] at hstep
        have ih := ih hname ((document_answer e w' r).trans hw') (hstep.trans hstep'.symm)
        have hanswer : (w.answer e r).2 = (w'.answer e r).2 :=
          answer_snd_congr (by rw [text?, text?, hw, hw', hd, h])
        rw [List.filter_cons_of_pos (by simpa using hd)]
        simp only [answersTo, answers, List.zip_cons_cons] at ih ⊢
        rw [List.filter_cons_of_pos (by simpa using hd), List.map_cons, ih, hanswer]
      · -- only the first workspace takes this step; the document's text is what they agree on
        rw [if_neg hd, h] at hstep
        have ih := ih hname hw' hstep
        rw [List.filter_cons_of_neg (by simpa using hd)]
        simp only [answersTo, answers, List.zip_cons_cons] at ih ⊢
        rw [List.filter_cons_of_neg (by simpa using hd), ih]

/-- However documents are named, the requests about one of them have the answers that they have
without all others. -/
theorem answersTo_named (e : Encoding) (name : Text → Text) (document : Text)
    (requests : List Request) :
    answersTo (fun r => name r.uri = document) requests ((named name).answers e requests) =
      (named name).answers e (requests.filter fun r => name r.uri = document) :=
  answersTo_document name rfl rfl rfl requests

theorem snoc_eq_iff {o : Request} {since : List Request} :
    requests ++ [r] = before ++ o :: since ↔
      (since = [] ∧ r = o ∧ requests = before) ∨
        ∃ since', since = since' ++ [r] ∧ requests = before ++ o :: since' := by
  constructor
  · intro h
    rcases List.eq_nil_or_concat since with rfl | ⟨since, s, rfl⟩
    · obtain ⟨hb, hr⟩ := List.append_inj' h rfl
      exact .inl ⟨rfl, (List.cons.inj hr).1, hb⟩
    · rw [List.concat_eq_append, ← List.cons_append, ← List.append_assoc] at h
      obtain ⟨hb, hr⟩ := List.append_inj' h rfl
      obtain ⟨rfl, -⟩ := List.cons.inj hr
      exact .inr ⟨since, List.concat_eq_append, hb⟩
  · rintro (⟨rfl, rfl, rfl⟩ | ⟨since, rfl, rfl⟩)
    · rfl
    · simp

theorem not_holds_nil : ¬ Holds [] uri text := by
  rintro ⟨before, since, first, h, -⟩
  exact absurd h.symm (List.append_ne_nil_of_right_ne_nil _ (List.cons_ne_nil _ _))

theorem holds_opened {first : Text} :
    Holds (requests ++ [.opened uri first]) uri text ↔ first = text := by
  constructor
  · rintro ⟨before, since, first', h, hs, ht⟩
    rcases snoc_eq_iff.mp h with ⟨rfl, ho, -⟩ | ⟨since, rfl, -⟩
    · cases ho
      exact ht
    · exact (hs (.opened uri first) (by simp) rfl).elim
  · rintro rfl
    exact ⟨requests, [], first, rfl, by simp, rfl⟩

theorem not_holds_closed : ¬ Holds (requests ++ [.closed uri]) uri text := by
  rintro ⟨before, since, first, h, hs, -⟩
  rcases snoc_eq_iff.mp h with ⟨-, ho, -⟩ | ⟨since, rfl, -⟩
  · cases ho
  · exact hs (.closed uri) (by simp) rfl

theorem given_snoc (uri : Text) (since : List Request) (r : Request) :
    given uri (since ++ [r]) = given uri since ++ if r.uri = uri then r.texts else [] := by
  rw [given, List.filter_append, List.flatMap_append, ← given]
  by_cases hd : r.uri = uri <;> simp [hd]

theorem getLastD_append (s t : List Text) (first : Text) :
    (s ++ t).getLastD first = t.getLastD (s.getLastD first) := by
  simp only [List.getLastD_eq_getLast?, List.getLast?_append, Option.getD_or]

theorem holds_stays (hr : r.uri = uri → r.Stays) :
    Holds (requests ++ [r]) uri text ↔
      ∃ held, Holds requests uri held ∧
        (if r.uri = uri then r.texts else []).getLastD held = text := by
  constructor
  · rintro ⟨before, since, first, h, hs, ht⟩
    rcases snoc_eq_iff.mp h with ⟨-, rfl, -⟩ | ⟨since, rfl, rfl⟩
    · exact (hr rfl).elim
    · rw [given_snoc, getLastD_append] at ht
      exact ⟨_, ⟨before, since, first, rfl,
        fun r hm => hs r (List.mem_append_left _ hm), rfl⟩, ht⟩
  · rintro ⟨held, ⟨before, since, first, rfl, hs, rfl⟩, ht⟩
    refine ⟨before, since ++ [r], first, by simp, ?_, ?_⟩
    · intro r' hm hd
      rcases List.mem_append.mp hm with hm | hm
      · exact hs r' hm hd
      · obtain rfl := List.mem_singleton.mp hm
        exact hr hd
    · rw [given_snoc, getLastD_append]
      exact ht

theorem holds_changed {texts : List Text} :
    Holds (requests ++ [.changed uri texts]) uri text ↔
      ∃ held, Holds requests uri held ∧ texts.getLastD held = text := by
  have hu : (Request.changed uri texts).uri = uri := rfl
  have hs : (Request.changed uri texts).Stays := trivial
  rw [holds_stays fun _ => hs, if_pos hu]
  rfl

theorem holds_tokens : Holds (requests ++ [.tokens uri]) uri text ↔ Holds requests uri text := by
  have hu : (Request.tokens uri).uri = uri := rfl
  have hs : (Request.tokens uri).Stays := trivial
  rw [holds_stays fun _ => hs, if_pos hu]
  simp [Request.texts]

/-- The text of a document after a run, by what the run says about it. -/
theorem after_eq_some_iff (hname : Function.Injective name) :
    ((named name).after e requests).text? uri = some text ↔ Holds requests uri text := by
  induction requests using List.reverseRecOn generalizing text with
  | nil => exact iff_of_false nofun not_holds_nil
  | append_singleton requests r ih =>
      have hinjective : Function.Injective ((named name).after e requests).document :=
        document_after e (named name) requests ▸ hname
      rw [after_append, after_singleton, text?_answer hinjective]
      by_cases hu : r.uri = uri
      · subst hu
        rw [if_pos rfl]
        cases r with
        | opened uri first => exact Option.some_inj.trans holds_opened.symm
        | closed uri => exact iff_of_false nofun not_holds_closed
        | changed uri texts =>
            rw [Request.leaves, Option.map_eq_some_iff]
            exact (exists_congr fun held => and_congr_left' ih).trans holds_changed.symm
        | tokens uri => exact ih.trans holds_tokens.symm
      · rw [if_neg hu, ih, holds_stays fun h => absurd h hu, if_neg hu]
        simp

theorem after_eq_none (hname : Function.Injective name) (h : ¬ IsOpen requests uri) :
    ((named name).after e requests).text? uri = none := by
  cases ha : ((named name).after e requests).text? uri with
  | none => rfl
  | some text => exact absurd ⟨text, (after_eq_some_iff hname).mp ha⟩ h

theorem eraseIdx_answers (h : ((w.after e before).answer e r).2 = .failed f) :
    (w.answers e (before ++ r :: later)).eraseIdx before.length =
      w.answers e (before ++ later) := by
  have hl : before.length = (w.answers e before).length := (length_answers e w before).symm
  rw [answers_append, hl, List.eraseIdx_append_of_length_le (Nat.le_refl _), Nat.sub_self, answers,
    List.eraseIdx_cons_zero, fst_of_failed h, answers_append]

/-- Documents do not interfere, if each URI names its own. -/
theorem separate_answers (e : Encoding) (hname : Function.Injective name)
    (requests : List Request) : Separate e (named name) requests where
  length_eq := length_answers e (named name) requests
  of_uri uri := by
    have h := answersTo_named e name (name uri) requests
    simpa only [hname.eq_iff] using h
  tokens := by
    rintro before later uri text rfl h
    rw [getElem?_answers, answer_tokens ((after_eq_some_iff hname).mpr h)]
  opened := by
    rintro before later uri text rfl
    refine ⟨holds_opened.mpr rfl, ?_⟩
    rw [getElem?_answers, answer_opened]
  changed := by
    rintro before later uri texts rfl ⟨held, h⟩
    refine ⟨texts.getLastD held, holds_changed.mpr ⟨held, h, rfl⟩, ?_⟩
    rw [getElem?_answers, answer_changed ((after_eq_some_iff hname).mpr h)]
  failed := by
    rintro before later r rfl hs h
    obtain ⟨f, hf⟩ := exists_failed (e := e) hs (after_eq_none (e := e) hname h)
    exact ⟨f, by rw [getElem?_answers, hf]⟩
  without_failed := by
    rintro before later r f rfl h
    rw [getElem?_answers] at h
    exact eraseIdx_answers (Option.some.inj h)

theorem separate_answers_two :
    answersTo (·.uri = "b") [.opened "a" "nop", .opened "b" "jmp x", .tokens "a", .changed "b" []]
        ((named id).answers .utf16
          [.opened "a" "nop", .opened "b" "jmp x", .tokens "a", .changed "b" []]) =
      (named id).answers .utf16 [.opened "b" "jmp x", .changed "b" []] := by
  have h := (separate_answers .utf16 Function.injective_id
    [.opened "a" "nop", .opened "b" "jmp x", .tokens "a", .changed "b" []]).of_uri "b"
  exact h

end PioSyntax.Workspace
