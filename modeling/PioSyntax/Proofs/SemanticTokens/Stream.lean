import PioSyntax.Proofs.Classification.Tiling
import PioSyntax.Proofs.SemanticTokens.Pieces

namespace PioSyntax

open Text

/-- The five numbers that report a stretch. Its place is relative to the stretch before it. -/
structure Delta where
  line : Int
  start : Int
  length : Int
  type : Int
  modifiers : Int
deriving DecidableEq

structure Stretch where
  line : Int
  column : Int
  length : Int
  type : Int
  modifiers : Int
deriving DecidableEq

namespace Delta

def toList (d : Delta) : List Int := [d.line, d.start, d.length, d.type, d.modifiers]

def read? : List Int → Option (List Delta)
  | [] => some []
  | line :: start :: length :: type :: modifiers :: data =>
    (read? data).map (⟨line, start, length, type, modifiers⟩ :: ·)
  | _ => none

/-- The stretches that a client sees after one at the given line and column. A start counts from
the column before it on the same line, and from the start of any other line. -/
def resolve (line column : Int) : List Delta → List Stretch
  | [] => []
  | d :: deltas =>
    let line' := line + d.line
    let column' := if d.line = 0 then column + d.start else d.start
    ⟨line', column', d.length, d.type, d.modifiers⟩ :: resolve line' column' deltas

variable {d : Delta} {deltas : List Delta} {n : Int}

theorem read?_flatMap (deltas : List Delta) : read? (deltas.flatMap toList) = some deltas := by
  induction deltas with
  | nil => rfl
  | cons d deltas ih =>
      rw [List.flatMap_cons]
      change (read? (deltas.flatMap toList)).map (d :: ·) = _
      rw [ih]
      rfl

theorem length_flatMap (deltas : List Delta) : (deltas.flatMap toList).length = 5 * deltas.length := by
  induction deltas with
  | nil => rfl
  | cons d deltas ih =>
      rw [List.flatMap_cons, List.length_append, ih, List.length_cons]
      change 5 + 5 * deltas.length = _
      omega

end Delta

def Token.stretches (e : Encoding) (source : Text) (t : Token) : List Stretch :=
  match t.category.semanticType? with
  | none => []
  | some type => t.pieces.map fun (offset, text) =>
    { line := (source.take offset).count '\n'
      column := e.units (lastLine (source.take offset))
      length := e.units text
      type := SemanticToken.legend.idxOf type
      modifiers := 0 }

namespace SemanticToken

variable {e : Encoding} {source : Text} {c : Classification} {a b : SemanticToken}
variable {tokens : List SemanticToken} {type line column : Nat} {p q : Nat × Text} {u : Token}

def toStretch (t : SemanticToken) : Stretch := ⟨t.line, t.column, t.length, t.type, 0⟩

def relative (line column : Nat) (t : SemanticToken) : Delta :=
  ⟨(t.line : Int) - line, if t.line = line then (t.column : Int) - column else t.column, t.length,
    t.type, 0⟩

def deltas (line column : Nat) : List SemanticToken → List Delta
  | [] => []
  | t :: tokens => t.relative line column :: deltas t.line t.column tokens

theorem encodeFrom_eq (line column : Nat) (tokens : List SemanticToken) :
    encodeFrom line column tokens = (deltas line column tokens).flatMap Delta.toList := by
  induction tokens generalizing line column with
  | nil => rfl
  | cons t tokens ih =>
      rw [encodeFrom, deltas, List.flatMap_cons, ← ih]
      rfl

theorem resolve_deltas (line column : Nat) (tokens : List SemanticToken) :
    Delta.resolve line column (deltas line column tokens) = tokens.map toStretch := by
  induction tokens generalizing line column with
  | nil => rfl
  | cons t tokens ih =>
      have hline : (line : Int) + ((t.line : Int) - line) = t.line := by omega
      have hcolumn : (if (t.line : Int) - line = 0 then
          (column : Int) + (if t.line = line then (t.column : Int) - column else t.column)
          else (if t.line = line then (t.column : Int) - column else t.column)) = t.column := by
        by_cases h : t.line = line
        · rw [if_pos (by omega), if_pos h]
          omega
        · rw [if_neg (by omega), if_neg h]
      rw [deltas, relative, Delta.resolve, List.map_cons]
      dsimp only
      rw [hline, hcolumn, ih]
      rfl

theorem ofClassification_eq (h : ∀ t ∈ c.tokens, t.IsPart c.source) :
    (ofClassification e c).map toStretch = c.tokens.flatMap (Token.stretches e c.source) := by
  rw [ofClassification, List.map_flatMap]
  apply List.flatMap_congr
  intro t ht
  rw [ofToken_eq (h t ht), Token.stretches]
  cases t.category.semanticType? with
  | none => rfl
  | some type =>
      rw [List.map_map]
      rfl

def Precedes (a b : SemanticToken) : Prop :=
  a.line < b.line ∨ a.line = b.line ∧ a.column + a.length ≤ b.column

theorem take_stop (h : InSource source p) :
    source.take (p.1 + p.2.length) = source.take p.1 ++ p.2 := by
  rw [List.take_add]
  have hpiece := h.2.1
  rw [between, Nat.add_sub_cancel_left] at hpiece
  rw [hpiece]

theorem ofPiece_precedes {type' : Nat} (h : InSource source p) (hpq : p.1 + p.2.length ≤ q.1) :
    Precedes (ofPiece e source type p) (ofPiece e source type' q) := by
  obtain ⟨n, hn⟩ := Nat.exists_eq_add_of_le hpq
  have hq : source.take q.1 = source.take p.1 ++ (p.2 ++ (source.drop (p.1 + p.2.length)).take n) := by
    rw [hn, List.take_add, take_stop h, List.append_assoc]
  have hcount := List.count_eq_zero_of_not_mem h.2.2
  simp only [Precedes, ofPiece, hq, List.count_append, hcount]
  by_cases hm : '\n' ∈ (source.drop (p.1 + p.2.length)).take n
  · have := List.count_pos_iff.mpr hm
    exact .inl (by omega)
  · have := List.count_eq_zero_of_not_mem hm
    refine .inr ⟨by omega, ?_⟩
    rw [lastLine_append (by simp [h.2.2, hm]), Encoding.units_append, Encoding.units_append]
    omega

theorem ofPiece_within (type : Nat) (h : InSource source p) :
    ∃ line, (lines source)[(ofPiece e source type p).line]? = some line ∧
      (ofPiece e source type p).column + (ofPiece e source type p).length ≤ e.units line := by
  have hsplit : source.take p.1 ++ (p.2 ++ source.drop (p.1 + p.2.length)) = source := by
    rw [← List.append_assoc, ← take_stop h, List.take_append_drop]
  have hline := getElem?_lines (source.take p.1) (p.2 ++ source.drop (p.1 + p.2.length))
  have hp : ∀ c ∈ p.2, (c != '\n') = true := by
    intro c hc
    simpa using fun he : c = '\n' => h.2.2 (he ▸ hc)
  rw [hsplit, List.takeWhile_append_of_pos hp] at hline
  refine ⟨_, hline, ?_⟩
  rw [Encoding.units_append, Encoding.units_append]
  exact Nat.add_le_add_left (Nat.le_add_right _ _) _

theorem idxOf_lt_length {category : Category} {name : Text}
    (h : category.semanticType? = some name) : legend.idxOf name < legend.length := by
  apply List.idxOf_lt_length_iff.mpr
  cases category <;> cases h <;> decide

theorem mem_ofToken (h : u.IsPart source) (ha : a ∈ ofToken e source (.ofText source) u) :
    ∃ type p, type < legend.length ∧ p ∈ u.pieces ∧ a = ofPiece e source type p := by
  rw [ofToken_eq h] at ha
  cases hc : u.category.semanticType? with
  | none => simp [hc] at ha
  | some name =>
      rw [hc] at ha
      obtain ⟨p, hp, rfl⟩ := List.mem_map.mp ha
      exact ⟨_, p, idxOf_lt_length hc, hp, rfl⟩

theorem ofToken_pairwise (h : u.IsPart source) :
    (ofToken e source (.ofText source) u).Pairwise Precedes := by
  rw [ofToken_eq h]
  cases u.category.semanticType? with
  | none => exact .nil
  | some name =>
      have hpieces : u.pieces.Pairwise fun p q => p.1 + p.2.length ≤ q.1 :=
        (linePieces_pairwise _ _).sublist List.filter_sublist
      refine List.pairwise_map.mpr (hpieces.imp_of_mem fun hp _ hpq => ?_)
      exact ofPiece_precedes (mem_pieces h hp).2.2.2 hpq

theorem ofClassification_pairwise (hc : Token.InOrder c.tokens)
    (h : ∀ t ∈ c.tokens, t.IsPart c.source) : (ofClassification e c).Pairwise Precedes := by
  refine List.pairwise_flatMap.mpr ⟨fun t ht => ofToken_pairwise (h t ht), ?_⟩
  refine hc.2.imp_of_mem fun {t u} ht hu htu a ha b hb => ?_
  obtain ⟨type, p, -, hp, rfl⟩ := mem_ofToken (h t ht) ha
  obtain ⟨type', q, -, hq, rfl⟩ := mem_ofToken (h u hu) hb
  obtain ⟨-, -, hstop, hin⟩ := mem_pieces (h t ht) hp
  have hstart := (mem_pieces (h u hu) hq).2.1
  exact ofPiece_precedes hin (by omega)

theorem Precedes.relative (h : Precedes a b) :
    0 ≤ (b.relative a.line a.column).line ∧ 0 ≤ (b.relative a.line a.column).start ∧
      ((b.relative a.line a.column).line = 0 →
        (a.length : Int) ≤ (b.relative a.line a.column).start) := by
  simp only [SemanticToken.relative]
  rcases h with h | ⟨h, hcolumn⟩
  · rw [if_neg (by omega)]
    omega
  · rw [if_pos h.symm]
    omega

theorem deltas_nonneg (h : (a :: tokens).IsChain Precedes) :
    ∀ d ∈ deltas a.line a.column tokens, ∀ n ∈ d.toList, 0 ≤ n := by
  induction tokens generalizing a with
  | nil => simp [deltas]
  | cons b tokens ih =>
      obtain ⟨hab, h⟩ := List.isChain_cons_cons.mp h
      obtain ⟨hline, hstart, -⟩ := hab.relative
      refine List.forall_mem_cons.mpr ⟨?_, ih h⟩
      simp only [Delta.toList, List.forall_mem_cons]
      exact ⟨hline, hstart, Int.natCast_nonneg _, Int.natCast_nonneg _, Int.le_refl _, by simp⟩

theorem deltas_isChain (h : (a :: tokens).IsChain Precedes) :
    (∀ d ∈ (deltas a.line a.column tokens).head?, d.line = 0 → (a.length : Int) ≤ d.start) ∧
      (deltas a.line a.column tokens).IsChain fun d d' => d'.line = 0 → d.length ≤ d'.start := by
  induction tokens generalizing a with
  | nil => exact ⟨by simp [deltas], List.isChain_nil⟩
  | cons b tokens ih =>
      obtain ⟨hab, h⟩ := List.isChain_cons_cons.mp h
      refine ⟨?_, List.isChain_cons.mpr (ih h)⟩
      intro d hd
      obtain rfl := Option.some.inj hd
      exact hab.relative.2.2

theorem mem_deltas {d : Delta} (h : d ∈ deltas line column tokens) :
    ∃ t ∈ tokens, d.length = t.length ∧ d.type = t.type := by
  induction tokens generalizing line column with
  | nil => cases h
  | cons t tokens ih =>
      rcases List.mem_cons.mp h with rfl | h
      · exact ⟨t, List.mem_cons_self, rfl, rfl⟩
      · obtain ⟨t', ht, hd⟩ := ih h
        exact ⟨t', List.mem_cons_of_mem t ht, hd⟩

/-- A client that reads the numbers of a document sees every reported token, line by line, where
it stands in the source. -/
theorem resolve_encode_classify (e : Encoding) (source : Text) :
    (Delta.read? (encode e (classify source))).map (Delta.resolve 0 0) =
      some ((classify source).tokens.flatMap (Token.stretches e source)) ∧
    ∀ t ∈ (classify source).tokens, ∀ p ∈ t.pieces, p.2 ≠ [] ∧ InSource source p := by
  have hpart : ∀ t ∈ (classify source).tokens, t.IsPart source :=
    fun t ht => Classification.isPart_of_mem ht
  refine ⟨?_, fun t ht p hp => ?_⟩
  · rw [encode, encodeFrom_eq, Delta.read?_flatMap, Option.map_some]
    exact congrArg some ((resolve_deltas 0 0 _).trans (ofClassification_eq hpart))
  · obtain ⟨hne, -, -, hin⟩ := mem_pieces (hpart t ht) hp
    exact ⟨hne, hin⟩

/-- The numbers of a document are as the protocol demands. -/
theorem encode_classify_wellFormed (e : Encoding) (source : Text) :
    ∃ deltas, Delta.read? (encode e (classify source)) = some deltas ∧
      5 ∣ (encode e (classify source)).length ∧
      (∀ n ∈ encode e (classify source), 0 ≤ n) ∧
      (∀ d ∈ deltas, 1 ≤ d.length ∧ d.type < legend.length) ∧
      (deltas.IsChain fun d d' => d'.line = 0 → d.length ≤ d'.start) ∧
      ∀ s ∈ Delta.resolve 0 0 deltas, ∃ (n : Nat) (line : Text), s.line = n ∧
        (lines source)[n]? = some line ∧ s.column + s.length ≤ e.units line := by
  have hpart : ∀ t ∈ (classify source).tokens, t.IsPart source :=
    fun t ht => Classification.isPart_of_mem ht
  have hmem : ∀ t ∈ ofClassification e (classify source), ∃ type p, type < legend.length ∧
      p.2 ≠ [] ∧ InSource source p ∧ t = ofPiece e source type p := by
    intro t ht
    obtain ⟨u, hu, ht⟩ := List.mem_flatMap.mp ht
    obtain ⟨type, p, htype, hp, rfl⟩ := mem_ofToken (hpart u hu) ht
    obtain ⟨hne, -, -, hin⟩ := mem_pieces (hpart u hu) hp
    exact ⟨type, p, htype, hne, hin, rfl⟩
  -- the first token is relative to the start of the document, as to an empty token there
  have hchain : (⟨0, 0, 0, 0⟩ :: ofClassification e (classify source)).IsChain Precedes := by
    have hpairs := ofClassification_pairwise (Classification.tokens_inOrder defaultRules source)
      (e := e) hpart
    refine (List.pairwise_cons.mpr ⟨fun t _ => ?_, hpairs⟩).isChain
    simp only [Precedes]
    omega
  refine ⟨deltas 0 0 (ofClassification e (classify source)), ?_, ?_, ?_, ?_,
    (deltas_isChain hchain).2, ?_⟩
  · rw [encode, encodeFrom_eq, Delta.read?_flatMap]
  · rw [encode, encodeFrom_eq, Delta.length_flatMap]
    exact Nat.dvd_mul_right _ _
  · intro n hn
    rw [encode, encodeFrom_eq] at hn
    obtain ⟨d, hd, hn⟩ := List.mem_flatMap.mp hn
    exact deltas_nonneg hchain d hd n hn
  · intro d hd
    obtain ⟨t, ht, hlength, htype⟩ := mem_deltas hd
    obtain ⟨type, p, hlt, hne, -, rfl⟩ := hmem t ht
    have hpos : e.units p.2 ≠ 0 := fun h => hne (Encoding.units_eq_zero.mp h)
    simp only [ofPiece] at hlength htype
    omega
  · intro s hs
    rw [show (0 : Int) = (0 : Nat) from rfl, resolve_deltas] at hs
    obtain ⟨t, ht, rfl⟩ := List.mem_map.mp hs
    obtain ⟨type, p, -, -, hin, rfl⟩ := hmem t ht
    obtain ⟨line, hline, hle⟩ := ofPiece_within (e := e) type hin
    exact ⟨_, line, rfl, hline, Int.ofNat_le.mpr hle⟩

end SemanticToken

end PioSyntax
