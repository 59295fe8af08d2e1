import IntegerBasic.Proofs.Grammar.Runs
import Mathlib.Data.List.Find

/-!
# Expressions in a run

What an expression makes of the rest of a run, where the name of an assignment has begun before:
it is stopped, it reads all of the assignment, or it stops in the run before some word. Which of
these it does is settled by the letters of the run and the shape of what follows.
-/

namespace IntegerBasic.Grammar

open Rule

variable {α β : Type}

/-- What becomes of a rule in a run: `before left` if it leaves that many characters of the run. -/
inductive Verdict where
  | stuck
  | finished
  | before (left : Nat)

def Verdict.Holds (r : Rule α) (v t : List Char) : Verdict → Prop
  | .stuck => Stuck r (v ++ t)
  | .finished => Finishes r (v ++ t)
  | .before left => left ≤ v.length ∧
      ∃ a s, Reach r (v ++ t) a s ∧ front s = front (v.drop (v.length - left) ++ t)

section Chain

variable {n : Nat} {alone : Bool} {shape : Shape} {s t v : List Char}

/-- An operand that an equals sign follows is the beginning of a comparison. -/
theorem finishes_of_primary {signed : Bool} {type : DataType} {k l : List Char}
    (hsigns : Reach (loop signStep false) s signed k)
    (hprimary : Reach (primary (expressionUpTo n)) k type l) (h : Valued (chain n false) l) :
    Finishes (chain n alone) s := by
  have hoperand : Reach (operand (expressionUpTo n)) s (if signed then .integer else type) l :=
    .bind hsigns (.bind hprimary (.pure _ _))
  exact .bind hoperand h.finishes

theorem stuck_of_primary {signed : Bool} {k : List Char}
    (hsigns : Reach (loop signStep false) s signed k)
    (hprimary : Stuck (primary (expressionUpTo n)) k) : Stuck (chain n alone) s :=
  .bind_left _ (.bind_right hsigns (.bind_left _ hprimary))

theorem Bracketed.of_front {e : Rule DataType} {s' : List Char} (h : Bracketed e s s') :
    Bracketed e (front s) s' := by
  obtain ⟨r, a, k, hr, hreach, hclose⟩ := h
  exact ⟨r, a, k, by rw [front_front, hr], hreach, hclose⟩

/-- Where the run is at its end only a parenthesis begins an operand. -/
theorem Tail.chain_cases {signed : Bool} (ht : Tail n shape t)
    (hsigns : Reach (loop signStep false) s signed (front t)) :
    if shape.near != '$' && shape.element then Finishes (chain n alone) s
    else Stuck (chain n alone) s := by
  by_cases h : (shape.near != '$' && shape.element) = true
  · rw [if_pos h]
    simp only [Bool.and_eq_true, bne_iff_ne] at h
    rcases ht.dollar_cases with ⟨hnear, -⟩ | ⟨-, -, hassigned⟩
    · exact absurd hnear h.1
    · obtain ⟨s', hbracketed, hvalued⟩ := hassigned.element h.2
      exact finishes_of_primary hsigns hbracketed.of_front.primary hvalued
  · rw [if_neg h]
    apply stuck_of_primary hsigns
    rcases ht.front_cases with ⟨-, r, hr⟩ | ⟨hnear, -, r, hr⟩
    · exact stuck_primary (by rw [front_front, hr]) (by decide) rfl (by decide) (by decide) _
    · have helement : shape.element = false := by simpa [hnear] using h
      have hmark : shape.mark = '=' := by rw [Shape.mark, helement]; rfl
      rw [hmark] at hr
      exact stuck_primary (by rw [front_front, hr]) (by decide) rfl (by decide) (by decide) _

theorem Tail.signs (ht : Tail n shape t) {signed : Bool} :
    Reach (loop signStep signed) t signed (front t) := by
  rcases ht.front_cases with ⟨-, r, hr⟩ | ⟨-, -, r, hr⟩
  · exact .signs_of_mark hr (by decide) (by decide) (by decide)
  · have hmark : shape.mark.toNat < 65 ∧ shape.mark ≠ '-' ∧ shape.mark ≠ '+' := by
      unfold Shape.mark
      split <;> decide
    exact .signs_of_mark hr hmark.1 hmark.2.1 hmark.2.2

/-- The word `NOT` at the end of the run. -/
theorem Tail.signs_negation (ht : Tail n shape t) (hv : Run v)
    (h : Lexeme.folded v = Lexeme.folded "NOT".toList) :
    Reach (loop signStep false) (v ++ t) true (front t) := by
  have hne : v ≠ [] := by
    rintro rfl
    exact absurd h (by decide)
  have hfront := front_append_of_ne_nil hv hne t
  have hnegation : negation (front (v ++ t)) = some (v, t) := by
    rw [hfront, negation_append hv ht, if_pos h]
  have hmarks : ∀ p : Char, p.toNat < 65 → p.isAlphanum = false →
      Lexeme.word [p] (front (v ++ t)) = none := by
    intro p hp hmark
    rw [hfront]
    cases v with
    | nil => exact absurd rfl hne
    | cons c v =>
      have hc := hv c List.mem_cons_self
      refine (Lexeme.word_mark hp c (v ++ t)).trans (if_neg ?_)
      rintro rfl
      rw [hmark] at hc
      cases hc
  have hminus : Reach (word? .unaryMinus) (v ++ t) false (front (v ++ t)) :=
    .token?_none _ (hmarks '-' (by decide) rfl)
  have hplus : Reach (word? .unaryPlus) (front (v ++ t)) false (front (front (v ++ t))) :=
    .token?_none _ (by rw [front_front]; exact hmarks '+' (by decide) rfl)
  have hnot : Reach (token? negation (.token .negation)) (front (front (v ++ t))) true t :=
    .token? _ (by rw [front_front, front_front]; exact hnegation)
  have hunary : Reach unaryOperator (v ++ t) true t := .bind hminus (.bind hplus hnot)
  exact .loop_some advancing_signStep (.bind hunary (.pure _ _)) ht.signs

/-- A name that is the rest of the run. -/
theorem Tail.finishes_name {c : Char} (ht : Tail n shape t) (hv : Run (c :: v))
    (hc : c.isAlpha = true) (hnegation : negation (c :: v ++ t) = none)
    (hfunction : function? (c :: v ++ t) = none) : Finishes (chain n alone) (c :: v ++ t) := by
  obtain ⟨d, k, hdollar, hassigned⟩ := ht.assigned
  have hfront := front_append_of_ne_nil hv (List.cons_ne_nil _ _) t
  have hname := name_append hv hc ht hdollar
  rw [← hfront] at hname hfunction
  have hsigns : Reach (loop signStep false) (c :: v ++ t) false (c :: v ++ t) :=
    .signs_append hv (List.cons_ne_nil _ _) hnegation
  have hprimary : ∀ {l}, Reach (reference (expressionUpTo n)) (c :: v ++ t)
      (Lexeme.nameType (c :: v ++ d)) l → Reach (primary (expressionUpTo n)) (c :: v ++ t)
        (Lexeme.nameType (c :: v ++ d)) l := by
    intro l h
    apply Reach.primary_named hc hfront
    rw [hfront]
    exact .functionOrVariable_reference hfunction (by rw [hname]; rfl) h
  cases helement : shape.element with
  | true =>
    obtain ⟨l, hbracketed, hvalued⟩ := hassigned.element helement
    refine finishes_of_primary hsigns (hprimary ?_) hvalued
    have hname' : Lexeme.name (front (front (c :: v ++ t))) = some (c :: v ++ d, k) := by
      rw [front_front, hname]
    show Reach (variableBy _ _) _ _ _
    exact .variableBy_subscripted hname hbracketed.opensNext (hbracketed.subscripted hname' rfl _ _)
      (hbracketed.subscripted hname' rfl _ _)
  | false =>
    have hvalued := hassigned.bare helement
    refine finishes_of_primary hsigns (hprimary ?_) hvalued
    show Reach (variableBy _ _) _ _ _
    exact .variableBy_bare hname hvalued.opensNext

end Chain

def letters (t : Token) : List Char := t.spelling.toList.filter Char.isUpper

def functionOf (shape : Shape) (w : List Char) : Option Token :=
  functions.find? fun f => Lexeme.folded (letters f) == w && shape.near != '$' && shape.element &&
    (!f.includesParen || shape.near == '(')

section Function

variable {n : Nat} {alone : Bool} {shape : Shape} {t v : List Char}

theorem spelling_function {f : Token} (hf : f ∈ functions) :
    f.spelling.toList = letters f ++ (if f.includesParen then ['('] else []) ∧
      letters f ≠ [] ∧ ∀ c ∈ letters f, c.isUpper = true := by
  have key : ∀ f ∈ functions, f.spelling.toList =
      letters f ++ (if f.includesParen then ['('] else []) ∧ letters f ≠ [] ∧
        ∀ c ∈ letters f, c.isUpper = true := by decide
  exact key f hf

theorem Tail.element_of_near (ht : Tail n shape t) (h : shape.near = '(') :
    shape.element = true := by
  rcases ht.front_cases with ⟨hnear, -⟩ | ⟨-, hnear | hnear, -⟩
  · rw [h] at hnear
    exact absurd hnear (by decide)
  · rw [h] at hnear
    exact absurd hnear (by decide)
  · rw [h, Shape.mark] at hnear
    by_contra helement
    rw [if_neg helement] at hnear
    exact absurd hnear (by decide)

theorem opensNext_append (ht : Tail n shape t) (hv : Run v) :
    Lexeme.opensNext (v ++ t) = (v.isEmpty && (shape.near != '$' && shape.element)) := by
  cases v with
  | nil => exact ht.opensNext
  | cons c v =>
    have hfront := front_append_of_ne_nil hv (List.cons_ne_nil c v) t
    have hc := hv c List.mem_cons_self
    rw [Lexeme.opensNext, show (c :: v ++ t).dropWhile Text.isGap = _ from hfront]
    have hne : c ≠ '(' := by
      rintro rfl
      revert hc
      decide
    simp [hne]

theorem folded_eq_iff {w : List Char} :
    Lexeme.folded w = Lexeme.folded v ↔
      (Lexeme.folded w).isPrefixOf (Lexeme.folded v) = true ∧ (v.drop w.length).isEmpty = true := by
  rw [List.isPrefixOf_iff_prefix, List.isEmpty_iff, List.drop_eq_nil_iff]
  constructor
  · intro h
    have hlength := congrArg List.length h
    rw [length_folded, length_folded] at hlength
    exact ⟨h ▸ List.prefix_refl _, by omega⟩
  · rintro ⟨hbegins, hle⟩
    apply hbegins.eq_of_length_le
    rwa [length_folded, length_folded]

/-- The function that comes next in a run is the whole rest of it. -/
theorem function?_append (ht : Tail n shape t) (hv : Run v) :
    function? (v ++ t) = functionOf shape (Lexeme.folded v) := by
  rw [function?, functionOf]
  apply List.find?_congr
  intro f hf
  obtain ⟨hspelling, hne, hupper⟩ := spelling_function hf
  cases hparen : f.includesParen with
  | false =>
    rw [hparen, if_neg (by simp), List.append_nil] at hspelling
    have hword := Lexeme.word_append hne hupper hv ht.noLetter
    rw [hspelling, hword, Bool.eq_iff_iff]
    have hiff := folded_eq_iff (v := v) (w := letters f)
    by_cases hbegins : (Lexeme.folded (letters f)).isPrefixOf (Lexeme.folded v) = true
    · rw [if_pos hbegins]
      dsimp only
      rw [opensNext_append ht fun c hc => hv c (List.mem_of_mem_drop hc)]
      simp [hiff, hbegins, and_assoc]
    · rw [if_neg hbegins]
      simp [hiff, hbegins]
  | true =>
    rw [hparen, if_pos rfl] at hspelling
    have hword := Lexeme.word_append_mark (p := '(') (by decide) (by decide) rfl hne hupper hv
      ht.noLetter
    rw [hspelling, hword, ht.near, Bool.eq_iff_iff]
    by_cases hsame : Lexeme.folded (letters f) = Lexeme.folded v ∧ some shape.near = some '('
    · rw [if_pos hsame]
      have hnear : shape.near = '(' := by simpa using hsame.2
      simp [hsame.1, hnear, ht.element_of_near hnear]
    · rw [if_neg hsame]
      simp only [Bool.false_eq_true, false_iff]
      intro h
      simp only [Bool.and_eq_true, beq_iff_eq, Bool.not_true, Bool.false_or] at h
      exact hsame ⟨h.1.1.1, congrArg some h.2⟩

theorem reach_call {e : Rule DataType} {f : Token} {type : DataType} {s s' k l r : List Char}
    (hexpect : Reach (expect f) s () k)
    (hopen : if f.includesParen then k = r else Reach (expect .openCall) k () r)
    (harg : Reach e r type l) (hclose : front l = ')' :: s') (hf : f ≠ .scrn) :
    Reach (call e f) s .integer s' := by
  have hbody : Reach (do
      let _ ← e
      if f == .scrn then
        expect .scrnComma
        let _ ← e
      expect .close
      return DataType.integer) r .integer s' := by
    refine .bind harg ?_
    rw [if_neg (by simpa using hf)]
    exact .bind (reach_close hclose) (.pure _ _)
  refine .bind hexpect ?_
  by_cases hparen : f.includesParen = true
  · rw [if_pos hparen] at hopen
    rw [hopen, if_pos hparen]
    exact hbody
  · rw [if_neg hparen] at hopen
    rw [if_neg hparen]
    exact .bind hopen hbody

/-- The screen function needs a pair of arguments. -/
theorem stuck_call_scrn {e : Rule DataType} {type : DataType} {s s' l r : List Char}
    (hexpect : Reach (expect .scrn) s () r) (harg : Reach e r type l)
    (hclose : front l = ')' :: s') : Stuck (call e .scrn) s := by
  have hcomma : Stuck (expect .scrnComma) l := by
    apply Stuck.expect
    rw [hclose]
    exact (Lexeme.word_mark (by decide) ')' s').trans (if_neg (by decide))
  exact .bind_right hexpect (.bind_right harg (.bind_left _ hcomma))

/-- A function is called with what would be the subscript of a name. -/
theorem Tail.call_cases (ht : Tail n shape t) {c : Char} (hv : Run (c :: v))
    (hc : c.isAlpha = true) (hnegation : negation (c :: v ++ t) = none) {f : Token}
    (hf : functionOf shape (Lexeme.folded (c :: v)) = some f) :
    if f = .scrn then Stuck (chain n alone) (c :: v ++ t)
    else Finishes (chain n alone) (c :: v ++ t) := by
  have hmem := List.mem_of_find?_eq_some hf
  have htest := List.find?_some hf
  simp only [Bool.and_eq_true, beq_iff_eq, bne_iff_ne] at htest
  obtain ⟨⟨⟨hsame, hnear⟩, helement⟩, hparen⟩ := htest
  obtain ⟨hspelling, hletters, hupper⟩ := spelling_function hmem
  have hfront := front_append_of_ne_nil hv (List.cons_ne_nil c v) t
  have hsigns : Reach (loop signStep false) (c :: v ++ t) false (c :: v ++ t) :=
    .signs_append hv (List.cons_ne_nil c v) hnegation
  have hfunction : function? (front (c :: v ++ t)) = some f := by
    rw [hfront, function?_append ht hv, hf]
  rcases ht.dollar_cases with ⟨hdollar, -⟩ | ⟨-, -, hassigned⟩
  · exact absurd hdollar hnear
  obtain ⟨s', ⟨r, type, l, hr, harg, hclose⟩, hvalued⟩ := hassigned.element helement
  have hstart : ∃ k, Reach (expect f) (c :: v ++ t) () k ∧
      if f.includesParen then k = r else Reach (expect .openCall) k () r := by
    cases hcase : f.includesParen with
    | false =>
      rw [hcase, if_neg (by simp), List.append_nil] at hspelling
      obtain ⟨hbegins, hdrop⟩ := folded_eq_iff.1 hsame
      have hword := Lexeme.word_append hletters hupper hv ht.noLetter
      rw [if_pos hbegins, List.isEmpty_iff.1 hdrop, List.nil_append] at hword
      refine ⟨t, Reach.expect (by rw [hfront, hspelling, hword]), ?_⟩
      rw [if_neg (by simp)]
      exact .expect_mark rfl (by decide) hr
    | true =>
      rw [hcase, if_pos rfl] at hspelling
      have hopen : shape.near = '(' := by simpa [hcase] using hparen
      have hword := Lexeme.word_append_mark (p := '(') (by decide) (by decide) rfl hletters hupper hv
        ht.noLetter
      rw [if_pos ⟨hsame, by rw [ht.near, hopen]⟩] at hword
      refine ⟨_, Reach.expect (by rw [hfront, hspelling, hword]), ?_⟩
      rw [if_pos rfl]
      obtain ⟨rest, hrest⟩ := List.head?_eq_some_iff.1 ht.near
      have htail := front_dropWhile_isSpace t
      rw [hrest, hopen, hr] at htail
      rw [hrest]
      exact (List.cons.inj htail).2
  obtain ⟨k, hexpect, hopen⟩ := hstart
  by_cases hscrn : f = .scrn
  · rw [if_pos hscrn]
    subst hscrn
    have hopen : k = r := hopen
    subst hopen
    apply stuck_of_primary hsigns
    apply Stuck.primary_named hc hfront
    rw [hfront]
    exact .functionOrVariable_call hfunction (stuck_call_scrn hexpect harg hclose)
  · rw [if_neg hscrn]
    have hprimary : Reach (primary (expressionUpTo n)) (c :: v ++ t) .integer s' := by
      apply Reach.primary_named hc hfront
      rw [hfront]
      exact .functionOrVariable_call hfunction (reach_call hexpect hopen harg hclose hscrn)
    exact finishes_of_primary hsigns hprimary hvalued

end Function

def wordOperators : List Token := [.conjunction, .disjunction, .modulo]

def operatorOf (w : List Char) : Option Token :=
  wordOperators.find? fun o => (Lexeme.folded o.spelling.toList).isPrefixOf w

section Digits

variable {n : Nat} {alone : Bool} {shape : Shape} {s t v : List Char}

theorem binaryOperators_eq : binaryOperators = [.unequal, .lessEqual, .greaterEqual, .less,
    .greater, .equal, .hash, .plus, .minus, .times, .divide, .power] ++ wordOperators := rfl

/-- The operators that are no words begin with marks, which no other character is. -/
theorem word_markOperator {o : Token} (h : o ∈ [Token.unequal, .lessEqual, .greaterEqual, .less,
    .greater, .equal, .hash, .plus, .minus, .times, .divide, .power]) {c : Char}
    (hc : c.isAlphanum = true ∨ c = '$' ∨ c = '(') (s : List Char) :
    Lexeme.word o.spelling.toList (c :: s) = none := by
  have hmark : ∃ p rest, o.spelling.toList = p :: rest ∧
      p ∈ ['<', '>', '=', '#', '+', '-', '*', '/', '^'] := by
    simp only [List.mem_cons, List.not_mem_nil, or_false] at h
    rcases h with rfl | rfl | rfl | rfl | rfl | rfl | rfl | rfl | rfl | rfl | rfl | rfl <;>
      exact ⟨_, _, rfl, by decide⟩
  obtain ⟨p, rest, hspelling, hp⟩ := hmark
  rw [hspelling]
  apply Lexeme.word_cons_of_ne
  have key : ∀ p ∈ ['<', '>', '=', '#', '+', '-', '*', '/', '^'],
      Lexeme.sameLetter p c = false := by
    rcases hc with hc | rfl | rfl
    · exact Text.alphanum_induction
        (P := fun c => ∀ p ∈ ['<', '>', '=', '#', '+', '-', '*', '/', '^'],
          Lexeme.sameLetter p c = false) (by decide +kernel) hc
    · decide
    · decide
  exact key p hp

/-- In a run only words are operators. -/
theorem firstWord?_append (ht : Tail n shape t) (hv : Run v) (hne : v ≠ []) :
    firstWord? binaryOperators (v ++ t) = operatorOf (Lexeme.folded v) := by
  have hnone : List.find? (fun o => (Lexeme.word o.spelling.toList (v ++ t)).isSome)
      [Token.unequal, .lessEqual, .greaterEqual, .less, .greater, .equal, .hash, .plus, .minus,
        .times, .divide, .power] = none := by
    rw [List.find?_eq_none]
    intro o ho
    obtain ⟨c, v, rfl⟩ := List.exists_cons_of_ne_nil hne
    rw [List.cons_append, word_markOperator ho (.inl (hv c List.mem_cons_self))]
    simp
  rw [firstWord?, binaryOperators_eq, List.find?_append, hnone, Option.none_or, operatorOf]
  apply List.find?_congr
  intro o ho
  have hspelling : ∀ o ∈ wordOperators, o.spelling.toList ≠ [] ∧
      ∀ c ∈ o.spelling.toList, c.isUpper = true := by decide
  obtain ⟨hnil, hupper⟩ := hspelling o ho
  rw [Lexeme.word_append hnil hupper hv ht.noLetter]
  cases (Lexeme.folded o.spelling.toList).isPrefixOf (Lexeme.folded v) <;> rfl

/-- A mark that is no operator. -/
theorem firstWord?_of_mark {c : Char} (hc : c = '$' ∨ c = '(') (s : List Char) :
    firstWord? binaryOperators (c :: s) = none := by
  rw [firstWord?, binaryOperators_eq, List.find?_append, Option.or_eq_none_iff]
  constructor
  · rw [List.find?_eq_none]
    intro o ho
    rw [word_markOperator ho (.inr hc)]
    simp
  · rw [List.find?_eq_none]
    intro o ho
    have hspelling : ∀ o ∈ wordOperators, ∃ p rest, o.spelling.toList = p :: rest ∧
        p.isUpper = true := by
      simp [wordOperators, Token.spelling]
    obtain ⟨p, rest, hp, hupper⟩ := hspelling o ho
    have hlt : c.toNat < 65 := by rcases hc with rfl | rfl <;> decide
    rw [hp, Lexeme.word_cons_of_ne _ _ (Lexeme.sameLetter_of_lt hupper hlt)]
    simp

theorem isDigit_caseFold {c : Char} (hc : c.isAlphanum = true) :
    (Text.caseFold c).isDigit = c.isDigit :=
  Text.alphanum_induction (P := fun c => (Text.caseFold c).isDigit = c.isDigit) (by decide) hc

theorem folded_dropWhile_isDigit (hv : Run v) :
    Lexeme.folded (v.dropWhile Char.isDigit) = (Lexeme.folded v).dropWhile Char.isDigit := by
  induction v with
  | nil => rfl
  | cons c v ih =>
    have hc := isDigit_caseFold (hv c List.mem_cons_self)
    have hmore := ih fun x hx => hv x (List.mem_cons_of_mem _ hx)
    by_cases hdigit : c.isDigit = true
    · rw [List.dropWhile_cons_of_pos hdigit, hmore, Lexeme.folded, Lexeme.folded, List.map_cons,
        List.dropWhile_cons_of_pos (by rw [hc, hdigit])]
    · rw [List.dropWhile_cons_of_neg hdigit, Lexeme.folded, List.map_cons,
        List.dropWhile_cons_of_neg (by rw [hc]; exact hdigit)]

theorem Tail.dropWhile_isDigitOrSpace (ht : Tail n shape t) :
    t.dropWhile Lexeme.isDigitOrSpace = t.dropWhile Lexeme.isSpace := by
  have hdigit : shape.near.isDigit = false ∧ shape.near ≠ ' ' := by
    have key : ∀ c ∈ ['$', '\t', '(', '='], c.isDigit = false ∧ c ≠ ' ' := by decide
    exact key _ ht.near_mem
  have hnear := ht.near
  clear ht
  induction t with
  | nil => rfl
  | cons x t ih =>
    by_cases hx : Lexeme.isSpace x = true
    · have hx' : Lexeme.isDigitOrSpace x = true := by
        rw [show x = ' ' by simpa [Lexeme.isSpace] using hx]
        rfl
      rw [List.dropWhile_cons_of_pos hx] at hnear ⊢
      rw [List.dropWhile_cons_of_pos hx']
      exact ih hnear
    · rw [List.dropWhile_cons_of_neg hx] at hnear ⊢
      cases hnear
      rw [List.dropWhile_cons_of_neg]
      simp [Lexeme.isDigitOrSpace, hdigit.1, hdigit.2]

theorem front_dropWhile_isDigitOrSpace (ht : Tail n shape t) (hv : Run v) :
    front ((v ++ t).dropWhile Lexeme.isDigitOrSpace) = front (v.dropWhile Char.isDigit ++ t) := by
  induction v with
  | nil =>
    rw [List.nil_append, ht.dropWhile_isDigitOrSpace, front_dropWhile_isSpace]
    rfl
  | cons x v ih =>
    have hx := hv x List.mem_cons_self
    by_cases hdigit : x.isDigit = true
    · rw [List.cons_append, List.dropWhile_cons_of_pos (by simp [Lexeme.isDigitOrSpace, hdigit]),
        List.dropWhile_cons_of_pos hdigit]
      exact ih fun y hy => hv y (List.mem_cons_of_mem _ hy)
    · have hspace : x ≠ ' ' := by
        rintro rfl
        revert hx
        decide
      rw [List.cons_append, List.dropWhile_cons_of_neg, List.dropWhile_cons_of_neg hdigit,
        List.cons_append]
      simp [Lexeme.isDigitOrSpace, hdigit, hspace]

/-- A number in a run takes its digits, and the spaces behind them if the run is over. -/
theorem exists_integer_append (ht : Tail n shape t) {c : Char} (hv : Run (c :: v))
    (hc : c.isDigit = true) :
    ∃ text s, Lexeme.integer (c :: v ++ t) = some (text, s) ∧
      front s = front ((c :: v).dropWhile Char.isDigit ++ t) := by
  refine ⟨_, _, if_pos hc, ?_⟩
  rw [List.dropWhile_cons_of_pos hc]
  exact front_dropWhile_isDigitOrSpace ht fun x hx => hv x (List.mem_cons_of_mem _ hx)

/-- A number is an operand. -/
theorem exists_operand_append (ht : Tail n shape t) {c : Char} (hv : Run (c :: v))
    (hc : c.isDigit = true) :
    ∃ type s, Reach (operand (expressionUpTo n)) (c :: v ++ t) type s ∧
      front s = front ((c :: v).dropWhile Char.isDigit ++ t) := by
  obtain ⟨text, s, hinteger, hs⟩ := exists_integer_append ht hv hc
  have hnegation : negation (c :: v ++ t) = none := by
    rw [negation_append hv ht, if_neg]
    intro h
    have hfold := isDigit_caseFold (hv c List.mem_cons_self)
    rw [hc, (List.cons.inj h).1] at hfold
    revert hfold
    decide
  have hsigns : Reach (loop signStep false) (c :: v ++ t) false (c :: v ++ t) :=
    .signs_append hv (List.cons_ne_nil c v) hnegation
  have htoken : Reach (token? Lexeme.integer .integer) (c :: v ++ t) true s :=
    .token? _ (by rw [front_append_of_ne_nil hv (List.cons_ne_nil c v), hinteger])
  have hprimary : Reach (primary (expressionUpTo n)) (c :: v ++ t) .integer s :=
    .bind htoken (.pure _ _)
  exact ⟨_, s, .bind hsigns (.bind hprimary (.pure _ _)), hs⟩

end Digits

/-- A rule that goes on in a run from its later part does so from the whole. -/
theorem Verdict.holds_of_suffix {r : Rule α} {r' : Rule β} {u v t : List Char} (hsuffix : u <:+ v)
    (hstuck : Stuck r (u ++ t) → Stuck r' (v ++ t))
    (hreach : ∀ {a s}, Reach r (u ++ t) a s → ∃ b, Reach r' (v ++ t) b s) {verdict : Verdict}
    (h : verdict.Holds r u t) : verdict.Holds r' v t := by
  cases verdict with
  | stuck => exact hstuck h
  | finished =>
    obtain ⟨a, s, hr, hend⟩ := h
    obtain ⟨b, hr⟩ := hreach hr
    exact ⟨b, s, hr, hend⟩
  | before left =>
    obtain ⟨hle, a, s, hr, hs⟩ := h
    obtain ⟨b, hr⟩ := hreach hr
    obtain ⟨p, rfl⟩ := hsuffix
    have hdrop : (p ++ u).drop ((p ++ u).length - left) = u.drop (u.length - left) := by
      rw [List.length_append, Nat.add_sub_assoc hle, List.drop_length_add_append]
    exact ⟨by rw [List.length_append]; omega, b, s, hr, by rw [hdrop]; exact hs⟩

section Cases

variable {n : Nat} {alone : Bool} {shape : Shape} {v t : List Char}

/-- The verdict where the run is at its end, perhaps behind a sign. -/
theorem Tail.holds_of_signs (ht : Tail n shape t) {signed : Bool}
    (hsigns : Reach (loop signStep false) (v ++ t) signed (front t)) :
    (if shape.near != '$' && shape.element then Verdict.finished else .stuck).Holds
      (chain n alone) v t := by
  have h : if shape.near != '$' && shape.element then Finishes (chain n alone) (v ++ t)
    else Stuck (chain n alone) (v ++ t) := ht.chain_cases hsigns
  by_cases hopens : (shape.near != '$' && shape.element) = true
  · rw [if_pos hopens] at h ⊢
    exact h
  · rw [if_neg hopens] at h ⊢
    exact h

/-- The verdict on a number that is the rest of the run. -/
theorem Tail.holds_of_number (ht : Tail n shape t) {type : DataType} {s : List Char}
    (hoperand : Reach (operand (expressionUpTo n)) (v ++ t) type s) (hs : front s = front t) :
    (if shape.near != '$' && !shape.element then Verdict.finished else .before 0).Holds
      (chain n alone) v t := by
  by_cases h : (shape.near != '$' && !shape.element) = true
  · rw [if_pos h]
    simp only [Bool.and_eq_true, bne_iff_ne, Bool.not_eq_true'] at h
    rcases ht.dollar_cases with ⟨hnear, -⟩ | ⟨-, -, hassigned⟩
    · exact absurd hnear h.1
    · obtain ⟨r, hr, hfinishes⟩ := hassigned.bare h.2
      have hvalued : Valued (chain n false) s := ⟨r, by rw [hs, hr], hfinishes⟩
      exact .bind hoperand hvalued.finishes
  · rw [if_neg h]
    have hnone : firstWord? binaryOperators (front s) = none := by
      rw [hs]
      rcases ht.front_cases with ⟨-, r, hr⟩ | ⟨hnear, -, r, hr⟩
      · rw [hr]
        exact firstWord?_of_mark (.inl rfl) r
      · have helement : shape.element = true := by simpa [hnear] using h
        rw [hr, Shape.mark, if_pos helement]
        exact firstWord?_of_mark (.inr rfl) r
    refine ⟨Nat.zero_le _, _, _, .bind hoperand (.loop_end hnone), ?_⟩
    rw [front_front, hs, Nat.sub_zero, List.drop_length, List.nil_append]

end Cases

/-- A verdict on all runs with the same letters before the same shape. -/
def Verdict.Settles (verdict : Verdict) (shape : Shape) (w : List Char) : Prop :=
  ∀ ⦃n : Nat⦄ ⦃alone : Bool⦄ ⦃v t : List Char⦄, Run v → Lexeme.folded v = w → Tail n shape t →
    verdict.Holds (chain n alone) v t

theorem exists_cons_of_folded {v w : List Char} {c : Char} (hv : Run v)
    (h : Lexeme.folded v = c :: w) :
    ∃ x u, v = x :: u ∧ x.isDigit = c.isDigit ∧ (x.isDigit = false → x.isAlpha = true) := by
  cases v with
  | nil => cases h
  | cons x u =>
    have hx := hv x List.mem_cons_self
    refine ⟨x, u, rfl, ?_, ?_⟩
    · rw [← isDigit_caseFold hx, (List.cons.inj h).1]
    · intro hdigit
      simpa [Char.isAlphanum, hdigit] using hx

/-- A number in a run and the word that follows it there. -/
theorem exists_operand_word {n : Nat} {shape : Shape} {v t w : List Char} {c : Char}
    (ht : Tail n shape t) (hv : Run v) (hw : Lexeme.folded v = c :: w) (hc : c.isDigit = true)
    (hne : (c :: w).dropWhile Char.isDigit ≠ []) :
    ∃ type s u, Reach (operand (expressionUpTo n)) (v ++ t) type s ∧ front s = u ++ t ∧ Run u ∧
      u ≠ [] ∧ Lexeme.folded u = (c :: w).dropWhile Char.isDigit ∧ u <:+ v := by
  obtain ⟨x, u, rfl, hx, -⟩ := exists_cons_of_folded hv hw
  rw [hc] at hx
  have hfold := folded_dropWhile_isDigit hv
  rw [hw] at hfold
  have hsuffix := List.dropWhile_suffix (l := x :: u) Char.isDigit
  have hrun : Run ((x :: u).dropWhile Char.isDigit) := fun c hc => hv c (hsuffix.subset hc)
  have hnil : (x :: u).dropWhile Char.isDigit ≠ [] := by
    intro h
    rw [h] at hfold
    exact hne hfold.symm
  obtain ⟨type, s, hoperand, hs⟩ := exists_operand_append ht hv hx
  rw [front_append_of_ne_nil hrun hnil] at hs
  exact ⟨type, s, _, hoperand, hs, hrun, hnil, hfold, hsuffix⟩

/-- A number in a run is the rest of it, or comes before an operator, or before some other word. -/
theorem exists_verdict_digit {shape : Shape} {w : List Char} {c : Char} (hc : c.isDigit = true)
    (ih : ∀ u : List Char, u.length < (c :: w).length →
      ∃ verdict : Verdict, verdict.Settles shape u) :
    ∃ verdict : Verdict, verdict.Settles shape (c :: w) := by
  have hshorter : ((c :: w).dropWhile Char.isDigit).length < (c :: w).length := by
    rw [List.dropWhile_cons_of_pos hc, List.length_cons]
    exact Nat.lt_succ_of_le (List.dropWhile_suffix _).length_le
  by_cases hnil : (c :: w).dropWhile Char.isDigit = []
  · refine ⟨if shape.near != '$' && !shape.element then .finished else .before 0, ?_⟩
    intro n alone v t hv hw ht
    obtain ⟨x, u, rfl, hx, -⟩ := exists_cons_of_folded hv hw
    rw [hc] at hx
    have hrest : (x :: u).dropWhile Char.isDigit = [] := by
      have := folded_dropWhile_isDigit hv
      rw [hw, hnil] at this
      exact List.map_eq_nil_iff.1 this
    obtain ⟨type, s, hoperand, hs⟩ := exists_operand_append ht hv hx
    rw [hrest] at hs
    exact ht.holds_of_number hoperand hs
  · cases hop : operatorOf ((c :: w).dropWhile Char.isDigit) with
    | none =>
      refine ⟨.before ((c :: w).dropWhile Char.isDigit).length, ?_⟩
      intro n alone v t hv hw ht
      obtain ⟨type, s, u, hoperand, hs, hu, hne, hfold, hsuffix⟩ :=
        exists_operand_word ht hv hw hc hnil
      have hnone : firstWord? binaryOperators (front s) = none := by
        rw [hs, firstWord?_append ht hu hne, hfold, hop]
      have hlength : ((c :: w).dropWhile Char.isDigit).length = u.length := by
        rw [← hfold, length_folded]
      obtain ⟨p, rfl⟩ := hsuffix
      refine ⟨by rw [hlength, List.length_append]; omega, _, _,
        .bind hoperand (.loop_end hnone), ?_⟩
      rw [hs, hlength, List.length_append, Nat.add_sub_cancel, List.drop_left]
    | some o =>
      obtain ⟨verdict, hverdict⟩ := ih (((c :: w).dropWhile Char.isDigit).drop
        o.spelling.toList.length) (by rw [List.length_drop]; omega)
      refine ⟨verdict, ?_⟩
      intro n alone v t hv hw ht
      obtain ⟨type, s, u, hoperand, hs, hu, hne, hfold, hsuffix⟩ :=
        exists_operand_word ht hv hw hc hnil
      have hoperator : ∀ lhs, Reach (binaryOperator lhs) s true
          (u.drop o.spelling.toList.length ++ t) := by
        intro lhs
        have hspelling : ∀ o ∈ wordOperators, o.spelling.toList ≠ [] ∧
            ∀ c ∈ o.spelling.toList, c.isUpper = true := by decide
        obtain ⟨hletters, hupper⟩ := hspelling o (List.mem_of_find?_eq_some hop)
        have hbegins := List.find?_some hop
        have hword := Lexeme.word_append hletters hupper hu ht.noLetter
        rw [hfold, if_pos hbegins] at hword
        exact .binaryOperator (by rw [hs, firstWord?_append ht hu hne, hfold, hop])
          (by rw [hs, hword])
      have hrest : Run (u.drop o.spelling.toList.length) :=
        fun c hc => hu c (List.mem_of_mem_drop hc)
      have hholds : verdict.Holds (chain n false) (u.drop o.spelling.toList.length) t :=
        hverdict hrest (by rw [← hfold, Lexeme.folded, List.map_drop]; rfl) ht
      refine Verdict.holds_of_suffix ((List.drop_suffix _ _).trans hsuffix) ?_ ?_ hholds
      · intro hstuck
        exact .bind_right hoperand (.loop_operator (hoperator _) hstuck)
      · intro a k hreach
        exact ⟨a, .bind hoperand ((hoperator _).loop_operator hreach)⟩

/-- A word in a run is a function or a name, unless it is `NOT`. -/
theorem exists_verdict_letter {shape : Shape} {w : List Char} {c : Char} (hc : c.isDigit = false) :
    ∃ verdict : Verdict, verdict.Settles shape (c :: w) := by
  by_cases hnot : c :: w = Lexeme.folded "NOT".toList
  · refine ⟨if shape.near != '$' && shape.element then .finished else .stuck, ?_⟩
    intro n alone v t hv hw ht
    exact ht.holds_of_signs (ht.signs_negation hv (hw.trans hnot))
  · have hnegation : ∀ {n v t}, Run v → Lexeme.folded v = c :: w → Tail n shape t →
        negation (v ++ t) = none := by
      intro n v t hv hw ht
      rw [negation_append hv ht, if_neg (by rw [hw]; exact hnot)]
    cases hf : functionOf shape (c :: w) with
    | none =>
      refine ⟨.finished, ?_⟩
      intro n alone v t hv hw ht
      have hneg := hnegation hv hw ht
      have hfunction := function?_append ht hv
      rw [hw, hf] at hfunction
      obtain ⟨x, u, rfl, hx, halpha⟩ := exists_cons_of_folded hv hw
      exact ht.finishes_name hv (halpha (by rw [hx, hc])) hneg hfunction
    | some f =>
      refine ⟨if f = .scrn then .stuck else .finished, ?_⟩
      intro n alone v t hv hw ht
      have hneg := hnegation hv hw ht
      obtain ⟨x, u, rfl, hx, halpha⟩ := exists_cons_of_folded hv hw
      rw [← hw] at hf
      have h : if f = .scrn then Stuck (chain n alone) (x :: u ++ t)
        else Finishes (chain n alone) (x :: u ++ t) :=
        ht.call_cases hv (halpha (by rw [hx, hc])) hneg hf
      by_cases hscrn : f = .scrn
      · rw [if_pos hscrn] at h ⊢
        exact h
      · rw [if_neg hscrn] at h ⊢
        exact h

/-- What an expression makes of the rest of a run is settled by the letters and the shape of what
follows. -/
theorem exists_verdict (shape : Shape) (w : List Char) :
    ∃ verdict : Verdict, verdict.Settles shape w := by
  induction hlength : w.length using Nat.strong_induction_on generalizing w with
  | _ length ih =>
    cases w with
    | nil =>
      refine ⟨if shape.near != '$' && shape.element then .finished else .stuck, ?_⟩
      intro n alone v t hv hw ht
      obtain rfl : v = [] := List.map_eq_nil_iff.1 hw
      exact ht.holds_of_signs ht.signs
    | cons c w =>
      by_cases hdigit : c.isDigit = true
      · exact exists_verdict_digit hdigit fun u hu => ih u.length (hlength ▸ hu) u rfl
      · exact exists_verdict_letter (by simpa using hdigit)

end IntegerBasic.Grammar
