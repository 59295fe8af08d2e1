import Mathlib.Data.List.Forall2
import IntegerBasic.Proofs.Grammar.StatementTraces

/-!
# Aligned texts

Two texts are aligned by a run of leaves if the one is made of these leaves and from the other
leaves of the same kinds can be read, where at each leaf both look alike to a rule that has to
choose. A relation on the characters of leaves says how far they may differ. Rules that read the
first text then read the second in the same way, and the nodes they leave are similar.
-/

namespace IntegerBasic

def Token.isSpelled (t : Token) : Bool := t.isPlain || t == .himem || t == .lomem

theorem exists_mem_of_forall₂ {α β : Type} {R : α → β → Prop} {xs : List α} {ys : List β}
    (h : List.Forall₂ R xs ys) : ∀ y ∈ ys, ∃ x ∈ xs, R x y := by
  induction h with
  | nil => simp
  | cons hxy _ ih =>
    refine List.forall_mem_cons.2 ⟨⟨_, List.mem_cons_self, hxy⟩, fun y hy => ?_⟩
    obtain ⟨x, hx, hR⟩ := ih y hy
    exact ⟨x, List.mem_cons_of_mem _ hx, hR⟩

namespace Grammar

/-- The text from the first character that is no gap. -/
def front (s : List Char) : List Char := s.dropWhile Text.isGap

theorem rest_skip (i : Input) : i.skip.rest = front i.rest := rfl

@[simp] theorem front_nil : front [] = [] := rfl

theorem front_of_head {s : List Char} (h : ∀ c ∈ s.head?, Text.isGap c = false) : front s = s := by
  cases s with
  | nil => rfl
  | cons c s =>
    have hc : Text.isGap c = false := h c rfl
    simp [front, hc]

@[simp] theorem front_front (s : List Char) : front (front s) = front s := by
  apply front_of_head
  intro c hc
  have := List.head?_dropWhile_not Text.isGap s
  rw [show s.dropWhile Text.isGap = front s from rfl, hc] at this
  exact this

theorem length_front_le (s : List Char) : (front s).length ≤ s.length :=
  (List.dropWhile_suffix Text.isGap).length_le

theorem isGap_of_isSpace {c : Char} (h : Lexeme.isSpace c = true) : Text.isGap c = true := by
  rw [show c = ' ' by simpa [Lexeme.isSpace] using h]
  rfl

@[simp] theorem front_dropWhile_isSpace (s : List Char) :
    front (s.dropWhile Lexeme.isSpace) = front s := by
  induction s with
  | nil => rfl
  | cons c s ih =>
    by_cases hc : Lexeme.isSpace c = true
    · rw [List.dropWhile_cons_of_pos hc, ih, front, front,
        List.dropWhile_cons_of_pos (isGap_of_isSpace hc)]
    · rw [List.dropWhile_cons_of_neg hc]

inductive Takes : LeafKind → List Char → List Char → List Char → Prop
  | reads {kind : LeafKind} {s text rest : List Char} (h : Reads kind s text rest) :
      Takes kind s text rest
  | pointer {t : Token} {s text rest : List Char} (ht : t = .himem ∨ t = .lomem)
      (h : Lexeme.word t.spelling.toList s = some (text, rest)) : Takes (.token t) s text rest
  | colon {rest : List Char} : Takes (.token .colon) (':' :: rest) [':'] rest

theorem Takes.append {kind : LeafKind} {s text rest : List Char} (h : Takes kind s text rest) :
    text ++ rest = s := by
  cases h with
  | reads h => exact h.append
  | pointer _ h => exact Lexeme.append_of_word h
  | colon => rfl

theorem Takes.ne_nil {kind : LeafKind} {s text rest : List Char} (h : Takes kind s text rest) :
    text ≠ [] := by
  cases h with
  | reads h => exact h.ne_nil
  | pointer _ h => exact ne_nil_of_word (spelling_ne_nil _) h
  | colon => exact List.cons_ne_nil _ _

theorem not_isSpelled_operatorAfter (lhs : DataType) {s : List Char} {t : Token}
    (h : firstWord? binaryOperators s = some t) :
    (operatorAfter lhs t).isSpelled = false := by
  have key : ∀ t ∈ binaryOperators, ∀ lhs ∈ [DataType.integer, DataType.string],
      (operatorAfter lhs t).isSpelled = false := by decide
  exact key t (List.mem_of_find?_eq_some h) lhs (by cases lhs <;> simp)

/-- A token that is read by its spelling has been read by it. -/
theorem Takes.word {t : Token} {s text rest : List Char} (h : Takes (.token t) s text rest)
    (ht : t.isSpelled = true) : Lexeme.word t.spelling.toList s = some (text, rest) := by
  generalize hkind : LeafKind.token t = kind at h
  cases h with
  | reads h =>
    cases h with
    | word plain h =>
      cases hkind
      exact h
    | operator lhs first h =>
      cases hkind
      rw [not_isSpelled_operatorAfter lhs first] at ht
      cases ht
    | negation h =>
      cases hkind
      cases ht
    | integer | lineArgument | name | string => cases hkind
  | pointer _ h =>
    cases hkind
    exact h
  | colon =>
    cases hkind
    cases ht

theorem Takes.integer {kind : LeafKind} {s text rest : List Char} (h : Takes kind s text rest)
    (hkind : kind = .integer ∨ kind = .lineArgument) :
    Lexeme.integer s = some (text, rest) := by
  cases h with
  | reads h => cases h <;> simp_all
  | pointer | colon => simp at hkind

theorem Takes.name {type : DataType} {s text rest : List Char}
    (h : Takes (.name type) s text rest) :
    Lexeme.name s = some (text, rest) ∧ Lexeme.nameType text = type := by
  cases h with
  | reads h =>
    cases h with
    | name h => exact ⟨h, rfl⟩

theorem Takes.string {s text rest : List Char} (h : Takes .string s text rest) :
    Lexeme.string s = some (text, rest) := by
  cases h with
  | reads h =>
    cases h with
    | string h => exact h

theorem Takes.negation {s text rest : List Char} (h : Takes (.token .negation) s text rest) :
    Grammar.negation s = some (text, rest) := by
  cases h with
  | reads h =>
    generalize hkind : LeafKind.token .negation = kind at h
    cases h with
    | word plain => cases hkind; cases plain
    | @operator t _ _ _ lhs first h =>
      have key : ∀ t ∈ binaryOperators, ∀ lhs ∈ [DataType.integer, DataType.string],
          LeafKind.token .negation ≠ .token (operatorAfter lhs t) := by decide
      exact absurd hkind (key t (List.mem_of_find?_eq_some first) lhs (by cases lhs <;> simp))
    | negation h => exact h
    | integer | lineArgument | name | string => cases hkind
  | pointer ht => simp at ht

/-- An operator is read as the same operator behind any operand for which it is stored alike. -/
theorem Takes.operator {lhs : DataType} {u : Token} (hu : u ∈ binaryOperators)
    {s text rest : List Char} (h : Takes (.token (operatorAfter lhs u)) s text rest) :
    ∃ t, firstWord? binaryOperators s = some t ∧
      Lexeme.word t.spelling.toList s = some (text, rest) ∧
      operatorAfter lhs t = operatorAfter lhs u := by
  have hall : ∀ type : DataType, type ∈ [DataType.integer, DataType.string] := by
    intro type
    cases type <;> simp
  have hspelled : ∀ t ∈ binaryOperators, ∀ lhs ∈ [DataType.integer, DataType.string],
      operatorAfter lhs t ≠ .himem ∧ operatorAfter lhs t ≠ .lomem ∧
        operatorAfter lhs t ≠ .colon ∧ operatorAfter lhs t ≠ .negation ∧
        (operatorAfter lhs t).isPlain = false := by decide
  have hsame : ∀ u ∈ binaryOperators, ∀ t ∈ binaryOperators,
      ∀ lhs ∈ [DataType.integer, DataType.string], ∀ lhs' ∈ [DataType.integer, DataType.string],
        operatorAfter lhs u = operatorAfter lhs' t →
          operatorAfter lhs t = operatorAfter lhs u := by decide
  obtain ⟨hhimem, hlomem, hcolon, hnegation, hplain⟩ := hspelled u hu lhs (hall lhs)
  generalize hkind : LeafKind.token (operatorAfter lhs u) = kind at h
  cases h with
  | reads h =>
    cases h with
    | word plain h =>
      cases hkind
      rw [hplain] at plain
      cases plain
    | @operator t _ _ _ lhs' first h =>
      have heq : operatorAfter lhs u = operatorAfter lhs' t := by simpa using hkind
      exact ⟨t, first, h, hsame u hu t (List.mem_of_find?_eq_some first) lhs (hall lhs) lhs'
        (hall lhs') heq⟩
    | negation => exact absurd (by simpa using hkind) hnegation
    | integer | lineArgument | name | string => cases hkind
  | @pointer t _ _ _ ht _ =>
    have heq : operatorAfter lhs u = t := by simpa using hkind
    rcases ht with rfl | rfl
    · exact absurd heq hhimem
    · exact absurd heq hlomem
  | colon => exact absurd (by simpa using hkind) hcolon

/-- The marks by which rules choose. -/
def marks : List Char := [':', ',', ';', '"', '(']

/-- The words that may come next or not. -/
def optionalWords : List String := ["-", "+", ",", "STEP"]

structure Alike (s t : List Char) : Prop where
  empty : s = [] ↔ t = []
  digit : (Lexeme.integer s).isSome = (Lexeme.integer t).isSome
  mark : ∀ c ∈ marks, s.head? = some c ↔ t.head? = some c
  word : ∀ w ∈ optionalWords,
    (Lexeme.word w.toList s).isSome = (Lexeme.word w.toList t).isSome
  function : function? s = function? t
  operator : firstWord? binaryOperators s = none → firstWord? binaryOperators t = none
  form : Form.ofText? s = Form.ofText? t

theorem Alike.rfl {s : List Char} : Alike s s :=
  ⟨Iff.rfl, Eq.refl _, fun _ _ => Iff.rfl, fun _ _ => Eq.refl _, Eq.refl _, id, Eq.refl _⟩

/-- What may stand in the place of a leaf: a relation between leaves and characters. -/
abbrev Match := Leaf → List Char → Prop

def tabNext (s : List Char) : Bool := (s.dropWhile Lexeme.isSpace).head? == some '\t'

/-- The word `NOT` does not come next in a text where it does not come next in the other. -/
def SameNegation (x y : List Char) : Prop :=
  Grammar.negation (front x) = none → Grammar.negation (front y) = none

/-- Two texts with leaves of the same kinds, up to the end of a line. A remark takes all that is
left. Only where the word `NOTRACE` stands it makes no difference whether `NOT` comes next: there
no operand may stand. -/
inductive Aligned (M : Match) : List Leaf → List Char → List Char → Prop
  | nil {x y : List Char} (hx : front x = []) (hy : front y = []) : Aligned M [] x y
  | leaf {l : Leaf} {L : List Leaf} {x x' y y' text : List Char} (ne : l.text ≠ [])
      (hx : front x = l.text ++ x') (hy : Takes l.kind (front y) text y')
      (alike : Alike (front x) (front y)) (same : M l text)
      (hrem : l.kind ≠ .token .rem) (tab : ∀ type, l.kind = .name type → tabNext x' = tabNext y')
      (negation : l.kind ≠ .token .notrace → SameNegation x y) (h : Aligned M L x' y') :
      Aligned M (l :: L) x y
  | bareRemark {l : Leaf} {x y text : List Char} (kind : l.kind = .token .rem)
      (ne : l.text ≠ []) (hx : front x = l.text)
      (hy : Lexeme.word Token.rem.spelling.toList (front y) = some (text, []))
      (alike : Alike (front x) (front y)) (same : M l text) : Aligned M [l] x y
  | remark {l c : Leaf} {x y y' text : List Char} (kind : l.kind = .token .rem)
      (ne : l.text ≠ []) (hx : front x = l.text ++ c.text)
      (hy : Lexeme.word Token.rem.spelling.toList (front y) = some (text, y'))
      (alike : Alike (front x) (front y)) (same : M l text)
      (comment : c.kind = .comment) (hc : c.text ≠ []) (hy' : y' ≠ [])
      (sameComment : M c y') : Aligned M [l, c] x y

inductive Similar (M : Match) : List Node → List Node → Prop
  | nil : Similar M [] []
  | leaf {l l' : Leaf} {xs ys : List Node} (kind : l.kind = l'.kind)
      (same : M l l'.text) (h : Similar M xs ys) :
      Similar M (.leaf l :: xs) (.leaf l' :: ys)
  | inner {label label' : Label} {xs ys xs' ys' : List Node} (kind : label.kind = label'.kind)
      (within : Similar M xs xs') (h : Similar M ys ys') :
      Similar M (.inner label xs :: ys) (.inner label' xs' :: ys')

variable {M : Match}

theorem Similar.append {xs xs' ys ys' : List Node} (hx : Similar M xs xs')
    (hy : Similar M ys ys') : Similar M (xs ++ ys) (xs' ++ ys') := by
  induction hx with
  | nil => exact hy
  | leaf kind same _ ih => exact .leaf kind same ih
  | inner kind within _ _ ih => exact .inner kind within ih

/-- The leaves of similar trees correspond one to one. -/
theorem Similar.leaves {xs ys : List Node} (h : Similar M xs ys) :
    List.Forall₂ (fun l l' => l.kind = l'.kind ∧ M l l'.text) (Node.leavesOf xs)
      (Node.leavesOf ys) := by
  induction h with
  | nil => exact .nil
  | leaf kind same _ ih =>
    rw [Node.leavesOf_cons, Node.leavesOf_cons, Node.leaves_leaf, Node.leaves_leaf]
    exact .cons ⟨kind, same⟩ ih
  | inner _ _ _ ih₁ ih₂ =>
    rw [Node.leavesOf_cons, Node.leavesOf_cons, Node.leaves_inner, Node.leaves_inner]
    exact List.rel_append ih₁ ih₂

/-- Leaves of the same kinds are all sound, or some of both are not. -/
theorem hasError_congr {R : Leaf → List Char → Prop} {L L' : List Leaf}
    (h : List.Forall₂ (fun l l' => l.kind = l'.kind ∧ R l l'.text) L L') :
    L.any (·.kind.isError) = L'.any (·.kind.isError) := by
  induction h with
  | nil => rfl
  | cons hl _ ih => rw [List.any_cons, List.any_cons, hl.1, ih]

theorem sameNegation_front {x y : List Char} :
    SameNegation (front x) (front y) ↔ SameNegation x y := by
  rw [SameNegation, SameNegation, front_front, front_front]

/-- What is read as a remark is not read as `NOT`. -/
theorem negation_of_remark {s : List Char} {read : List Char × List Char}
    (h : Lexeme.word Token.rem.spelling.toList s = some read) : Grammar.negation s = none := by
  have hfirst : ∀ {letter c : Char} {letters rest : List Char} {read : List Char × List Char},
      Lexeme.word (letter :: letters) (c :: rest) = some read →
        Text.caseFold letter = Text.caseFold c := by
    intro letter c letters rest read hread
    obtain ⟨d, more, tail, heq, hsame, -, -⟩ := Lexeme.word_cons_some hread
    cases heq
    exact beq_iff_eq.1 hsame
  cases hnegation : Grammar.negation s with
  | none => rfl
  | some pair =>
    cases s with
    | nil => cases h
    | cons c rest =>
      have hword : Lexeme.word Token.negation.spelling.toList (c :: rest) = some pair :=
        word_of_negation hnegation
      have hletter : Text.caseFold 'R' = Text.caseFold 'N' := (hfirst h).trans (hfirst hword).symm
      exact absurd hletter (by decide)

namespace Aligned

variable {L : List Leaf} {x y : List Char}

theorem alike (h : Aligned M L x y) : Alike (front x) (front y) := by
  cases h with
  | nil hx hy => rw [hx, hy]; exact .rfl
  | leaf _ _ _ alike => exact alike
  | bareRemark _ _ _ _ alike => exact alike
  | remark _ _ _ _ alike => exact alike

theorem sameNegation (h : Aligned M L x y) (hL : ∀ l ∈ L.head?, l.kind ≠ .token .notrace) :
    SameNegation x y := by
  cases h with
  | nil hx hy =>
    intro _
    rw [hy]
    rfl
  | leaf _ _ _ _ _ _ _ negation => exact negation (hL _ rfl)
  | bareRemark _ _ _ hy => exact fun _ => negation_of_remark hy
  | remark _ _ _ hy => exact fun _ => negation_of_remark hy

theorem mono {M' : Match} (h : Aligned M L x y) (hM : ∀ l ∈ L, ∀ text, M l text → M' l text) :
    Aligned M' L x y := by
  induction h with
  | nil hx hy => exact .nil hx hy
  | leaf ne hx hy alike same hrem tab negation _ ih =>
    obtain ⟨hl, hmore⟩ := List.forall_mem_cons.1 hM
    exact .leaf ne hx hy alike (hl _ same) hrem tab negation (ih hmore)
  | bareRemark kind ne hx hy alike same =>
    exact .bareRemark kind ne hx hy alike (hM _ (by simp) _ same)
  | remark kind ne hx hy alike same comment hc hy' sameComment =>
    exact .remark kind ne hx hy alike (hM _ (by simp) _ same) comment hc hy'
      (hM _ (by simp) _ sameComment)

/-- Gaps make no difference. -/
theorem front_iff : Aligned M L (front x) (front y) ↔ Aligned M L x y := by
  constructor
  · intro h
    cases h with
    | nil hx hy => exact .nil (by simpa using hx) (by simpa using hy)
    | leaf ne hx hy alike same hrem tab negation h =>
      rw [front_front] at hx hy alike
      rw [front_front] at alike
      exact .leaf ne hx hy alike same hrem tab (fun hl => sameNegation_front.1 (negation hl)) h
    | bareRemark kind ne hx hy alike same =>
      rw [front_front] at hx hy alike
      rw [front_front] at alike
      exact .bareRemark kind ne hx hy alike same
    | remark kind ne hx hy alike same comment hc hy' sameComment =>
      rw [front_front] at hx hy alike
      rw [front_front] at alike
      exact .remark kind ne hx hy alike same comment hc hy' sameComment
  · intro h
    cases h with
    | nil hx hy => exact .nil (by simpa using hx) (by simpa using hy)
    | leaf ne hx hy alike same hrem tab negation h =>
      rw [← front_front] at hx hy alike
      rw [← front_front y] at alike
      exact .leaf ne hx hy alike same hrem tab (fun hl => sameNegation_front.2 (negation hl)) h
    | bareRemark kind ne hx hy alike same =>
      rw [← front_front] at hx hy alike
      rw [← front_front y] at alike
      exact .bareRemark kind ne hx hy alike same
    | remark kind ne hx hy alike same comment hc hy' sameComment =>
      rw [← front_front] at hx hy alike
      rw [← front_front y] at alike
      exact .remark kind ne hx hy alike same comment hc hy' sameComment

/-- Spaces at the front make no difference. -/
theorem dropSpaces (h : Aligned M L x y) : Aligned M L x (y.dropWhile Lexeme.isSpace) := by
  rwa [← front_iff, front_dropWhile_isSpace, front_iff]

/-- There are no more leaves than characters. -/
theorem length_le (h : Aligned M L x y) : L.length ≤ x.length ∧ L.length ≤ y.length := by
  induction h with
  | nil => simp
  | @leaf l L x x' y y' text ne hx hy _ _ _ _ _ _ ih =>
    have hxlen := length_front_le x
    have hylen := length_front_le y
    have hl := List.length_pos_iff.2 ne
    have ht := List.length_pos_iff.2 hy.ne_nil
    rw [hx, List.length_append] at hxlen
    rw [← hy.append, List.length_append] at hylen
    rw [List.length_cons]
    omega
  | @bareRemark l x y text _ ne hx hy _ _ =>
    have hxlen := length_front_le x
    have hylen := length_front_le y
    have hl := List.length_pos_iff.2 ne
    have ht := List.length_pos_iff.2 (ne_nil_of_word (spelling_ne_nil _) hy)
    rw [hx] at hxlen
    rw [← Lexeme.append_of_word hy, List.append_nil] at hylen
    rw [List.length_singleton]
    omega
  | @remark l c x y y' text _ ne hx hy _ _ _ hc hy' _ =>
    have hxlen := length_front_le x
    have hylen := length_front_le y
    have hl := List.length_pos_iff.2 ne
    have hcl := List.length_pos_iff.2 hc
    have ht := List.length_pos_iff.2 (ne_nil_of_word (spelling_ne_nil _) hy)
    have hyl := List.length_pos_iff.2 hy'
    rw [hx, List.length_append] at hxlen
    rw [← Lexeme.append_of_word hy, List.length_append] at hylen
    simp only [List.length_cons, List.length_nil]
    omega

/-- What is read where the first leaf stands. -/
theorem of_cons {l : Leaf} (h : Aligned M (l :: L) x y) (hrem : l.kind ≠ .token .rem)
    {x' : List Char} (hx : front x = l.text ++ x') :
    ∃ text y', Takes l.kind (front y) text y' ∧ M l text ∧ Aligned M L x' y' := by
  cases h with
  | leaf ne hx' hy alike same _ _ _ h =>
    rw [hx', List.append_cancel_left_eq] at hx
    subst hx
    exact ⟨_, _, hy, same, h⟩
  | bareRemark kind => exact absurd kind hrem
  | remark kind => exact absurd kind hrem

/-- A parenthesis comes next in both texts or in none. -/
theorem opensNext (h : Aligned M L x y) : Lexeme.opensNext x = Lexeme.opensNext y := by
  have hmark := h.alike.mark '(' (by decide)
  rw [Lexeme.opensNext, Lexeme.opensNext, Bool.eq_iff_iff, beq_iff_eq, beq_iff_eq]
  exact hmark

end Aligned

end Grammar

end IntegerBasic
