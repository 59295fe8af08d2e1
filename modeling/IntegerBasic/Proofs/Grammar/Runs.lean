import IntegerBasic.Proofs.Grammar.Outcomes
import IntegerBasic.Proofs.Text.Letters

/-!
# Runs of letters and digits

An assignment begins with a run of letters and digits, the name of its variable. Words are not
reserved, so the same run may also be read as words, numbers and names one behind the other. What
an expression makes of the later part of such a run depends on its letters and on the mark behind
it alone, and not on case or on gaps.
-/

namespace IntegerBasic.Grammar

open Rule

variable {α β : Type}

def Finishes (r : Rule α) (s : List Char) : Prop :=
  ∃ a s', Reach r s a s' ∧ endsStatement (front s') = true

theorem Finishes.bind {r : Rule α} {f : α → Rule β} {s s' : List Char} {a : α}
    (hr : Reach r s a s') (hf : Finishes (f a) s') : Finishes (r >>= f) s := by
  obtain ⟨b, s'', hf, hend⟩ := hf
  exact ⟨b, s'', hr.bind hf, hend⟩

theorem Finishes.map {r : Rule α} {s : List Char} (h : Finishes r s) (f : α → β) :
    Finishes (r >>= fun a => Pure.pure (f a)) s := by
  obtain ⟨a, s', hr, hend⟩ := h
  exact ⟨f a, s', hr.bind (.pure _ _), hend⟩

def chain (n : Nat) (alone : Bool) : Rule (DataType × Bool) := do
  let first ← operand (expressionUpTo n)
  loop (operatorStep (expressionUpTo n)) (first, alone)

theorem operands_eq_chain (n : Nat) : operands (expressionUpTo n) =
    chain n true >>= fun state => Pure.pure (if state.2 then state.1 else .integer) := by
  rw [chain, bind_assoc]
  rfl

theorem advancing_operators (n : Nat) : Advancing (operatorStep (expressionUpTo n)) :=
  advancing_operatorStep (traced_expressionUpTo n)

theorem length_le_of_operand {n : Nat} {i j : Input} {nodes : List Node} {type : DataType}
    (h : operand (expressionUpTo n) i = ⟨nodes, .ok (type, j)⟩) :
    j.rest.length ≤ i.rest.length := by
  have := ((traced_operand (traced_expressionUpTo n)).ok h).length_le
  omega

theorem length_lt_of_binaryOperator {lhs : DataType} {i j : Input} {nodes : List Node}
    (h : binaryOperator lhs i = ⟨nodes, .ok (true, j)⟩) : j.rest.length < i.rest.length := by
  have hlength := ((traced_binaryOperator lhs).ok h).length_le
  have hpos := List.length_pos_iff.2 (leaf_of_binaryOperator h)
  omega

/-- Behind an operator the operands go on as at their beginning. -/
theorem loop_of_operator {n : Nat} {lhs : DataType} {alone : Bool} {i k : Input} {xs : List Node}
    (h : binaryOperator lhs i = ⟨xs, .ok (true, k)⟩) :
    loop (operatorStep (expressionUpTo n)) (lhs, alone) i =
      ⟨xs ++ (chain n false k).nodes, (chain n false k).outcome⟩ := by
  have hlt := length_lt_of_binaryOperator h
  rw [loop, rounds]
  show Rule.bind (Rule.bind (binaryOperator lhs) _) _ i = _
  rw [chain]
  show _ = Reading.mk (xs ++ (Rule.bind (operand (expressionUpTo n)) _ k).nodes)
    (Rule.bind (operand (expressionUpTo n)) _ k).outcome
  rcases ho : operand (expressionUpTo n) k with ⟨ys, e | ⟨rhs, j⟩⟩
  · have hstep : (operand (expressionUpTo n) >>= fun rhs =>
        (Pure.pure (some (rhs, false)) : Rule (Option (DataType × Bool)))) k = ⟨ys, .error e⟩ := by
      show Rule.bind _ _ k = _
      simp [Rule.bind, ho]
    simp [Rule.bind, h, hstep, ho]
  · have hle := length_le_of_operand ho
    have hstep : (operand (expressionUpTo n) >>= fun rhs =>
        (Pure.pure (some (rhs, false)) : Rule (Option (DataType × Bool)))) k =
          ⟨ys, .ok (some (rhs, false), j)⟩ := by
      rw [bind_of_ok ho rfl, List.append_nil]
    have hcongr : rounds (operatorStep (expressionUpTo n)) i.rest.length (rhs, false) j =
        loop (operatorStep (expressionUpTo n)) (rhs, false) j :=
      rounds_congr (advancing_operators n) (by omega) (Nat.lt_succ_self _)
    simp [Rule.bind, h, hstep, ho, hcongr]

/-- What stands behind the letters and digits of the name of an assignment, as far as it can be
seen from there: the first character that is no space, and whether a subscript follows. -/
structure Shape where
  near : Char
  element : Bool

def Shape.mark (shape : Shape) : Char := if shape.element then '(' else '='

def Valued (value : Rule α) (s : List Char) : Prop :=
  ∃ s', front s = '=' :: s' ∧ Finishes value s'

def Bracketed (e : Rule DataType) (s s' : List Char) : Prop :=
  ∃ r a k, front s = '(' :: r ∧ Reach e r a k ∧ front k = ')' :: s'

def Assigned (e : Rule DataType) (value : Rule α) (shape : Shape) (s : List Char) : Prop :=
  if shape.element then ∃ s', Bracketed e s s' ∧ Valued value s' else Valued value s

structure Assignment (e : Rule DataType) (value : Rule α) (shape : Shape) (t : List Char) :
    Prop where
  near : (t.dropWhile Lexeme.isSpace).head? = some shape.near
  assigned : ∃ d s, Lexeme.dollar t = some (d, s) ∧ Assigned e value shape s

/-- An assignment whose parentheses nest less than `n` deep. -/
abbrev Tail (n : Nat) (shape : Shape) (t : List Char) : Prop :=
  Assignment (expressionUpTo n) (chain n false) shape t

theorem Assigned.element {e : Rule DataType} {value : Rule α} {shape : Shape} {s : List Char}
    (h : Assigned e value shape s) (helement : shape.element = true) :
    ∃ s', Bracketed e s s' ∧ Valued value s' := by
  rwa [Assigned, if_pos helement] at h

theorem Assigned.bare {e : Rule DataType} {value : Rule α} {shape : Shape} {s : List Char}
    (h : Assigned e value shape s) (helement : shape.element = false) : Valued value s := by
  rwa [Assigned, if_neg (by simp [helement])] at h

theorem Assigned.front {e : Rule DataType} {value : Rule α} {shape : Shape} {s : List Char}
    (h : Assigned e value shape s) :
    ∃ r, front s = shape.mark :: r := by
  unfold Shape.mark
  cases helement : shape.element with
  | true =>
    obtain ⟨s', ⟨r, a, k, hr, -⟩, -⟩ := h.element helement
    exact ⟨r, hr⟩
  | false =>
    obtain ⟨r, hr, -⟩ := h.bare helement
    exact ⟨r, hr⟩

theorem Bracketed.opensNext {e : Rule DataType} {s s' : List Char} (h : Bracketed e s s') :
    Lexeme.opensNext s = true := by
  obtain ⟨r, a, k, hr, -⟩ := h
  rw [Lexeme.opensNext, show s.dropWhile Text.isGap = front s from rfl, hr]
  rfl

theorem Valued.opensNext {value : Rule α} {s : List Char} (h : Valued value s) :
    Lexeme.opensNext s = false := by
  obtain ⟨r, hr, -⟩ := h
  rw [Lexeme.opensNext, show s.dropWhile Text.isGap = front s from rfl, hr]
  rfl

namespace Assignment

variable {e : Rule DataType} {value : Rule α} {shape : Shape} {t : List Char}

/-- A dollar sign that belongs to the name comes first, or none does. -/
theorem dollar_cases (h : Assignment e value shape t) :
    (shape.near = '$' ∧ ∃ d s, Lexeme.dollar t = some (d, s) ∧ front t = '$' :: s ∧
      Assigned e value shape s) ∨
    (shape.near ≠ '$' ∧ Lexeme.dollar t = some ([], t) ∧
      Assigned e value shape t) := by
  obtain ⟨d, s, hdollar, hassigned⟩ := h.assigned
  have hnear := h.near
  have hfront := front_dropWhile_isSpace t
  rcases Lexeme.dollar_cases t with ⟨rest, hrest, hsign⟩ | ⟨hne, hnone⟩
  · rw [hrest] at hnear hfront
    cases hsign.symm.trans hdollar
    refine .inl ⟨by simpa using hnear.symm, _, _, hsign, ?_, hassigned⟩
    rw [← hfront]
    rfl
  · cases hnone.symm.trans hdollar
    refine .inr ⟨?_, hnone, hassigned⟩
    intro heq
    exact hne (hnear.trans (congrArg some heq))

/-- The first character that is no gap. -/
theorem front_cases (h : Assignment e value shape t) :
    (shape.near = '$' ∧ ∃ r, front t = '$' :: r) ∨
      shape.near ≠ '$' ∧ (shape.near = '\t' ∨ shape.near = shape.mark) ∧
        ∃ r, front t = shape.mark :: r := by
  rcases h.dollar_cases with ⟨hnear, d, s, -, hfront, -⟩ | ⟨hnear, -, hassigned⟩
  · exact .inl ⟨hnear, s, hfront⟩
  · obtain ⟨r, hr⟩ := hassigned.front
    refine .inr ⟨hnear, ?_, r, hr⟩
    obtain ⟨rest, hrest⟩ := List.head?_eq_some_iff.1 h.near
    have hfront := front_dropWhile_isSpace t
    rw [hrest, hr] at hfront
    have hspace : Lexeme.isSpace shape.near = false := by
      have := List.head?_dropWhile_not Lexeme.isSpace t
      rw [hrest] at this
      exact this
    by_cases hgap : Text.isGap shape.near = true
    · left
      simp only [Text.isGap, Bool.or_eq_true, beq_iff_eq] at hgap
      rcases hgap with hgap | hgap
      · rw [hgap] at hspace
        cases hspace
      · exact hgap
    · right
      rw [front, List.dropWhile_cons_of_neg hgap] at hfront
      exact (List.cons.inj hfront).1

theorem near_mem (h : Assignment e value shape t) : shape.near ∈ ['$', '\t', '(', '='] := by
  have hmark : shape.mark ∈ ['$', '\t', '(', '='] := by
    unfold Shape.mark
    split <;> simp
  rcases h.front_cases with ⟨hnear, -⟩ | ⟨-, hnear | hnear, -⟩
  · simp [hnear]
  · simp [hnear]
  · rw [hnear]
    exact hmark

/-- No letter can be read behind the run. -/
theorem noLetter (h : Assignment e value shape t) : Lexeme.NoLetter t := by
  intro c hc
  rw [h.near] at hc
  cases hc
  have key : ∀ c ∈ ['$', '\t', '(', '='], c.toNat < 65 := by decide
  exact key _ h.near_mem

theorem head_mem (h : Assignment e value shape t) :
    ∃ c ∈ [' ', '$', '\t', '(', '='], t.head? = some c := by
  have hnear := h.near
  cases t with
  | nil => cases hnear
  | cons c t =>
    refine ⟨c, ?_, rfl⟩
    by_cases hc : Lexeme.isSpace c = true
    · rw [show c = ' ' by simpa [Lexeme.isSpace] using hc]
      simp
    · rw [List.dropWhile_cons_of_neg hc] at hnear
      cases hnear
      exact List.mem_cons_of_mem _ h.near_mem

theorem isAlphanum_head (h : Assignment e value shape t) : ∀ c ∈ t.head?, c.isAlphanum = false := by
  intro c hc
  obtain ⟨c', hmem, hhead⟩ := h.head_mem
  rw [hhead] at hc
  cases hc
  have key : ∀ c ∈ [' ', '$', '\t', '(', '='], c.isAlphanum = false := by decide
  exact key _ hmem

/-- A parenthesis comes next. -/
theorem opensNext (h : Assignment e value shape t) :
    Lexeme.opensNext t = (shape.near != '$' && shape.element) := by
  have hopens : Lexeme.opensNext t = ((front t).head? == some '(') := rfl
  rw [hopens]
  rcases h.front_cases with ⟨hnear, r, hr⟩ | ⟨hnear, -, r, hr⟩
  · rw [hr, hnear]
    rfl
  · rw [hr, List.head?_cons, (bne_iff_ne).2 hnear, Bool.true_and]
    unfold Shape.mark
    cases shape.element <;> rfl

end Assignment

theorem Reach.binaryOperator {lhs : DataType} {s s' text : List Char} {t : Token}
    (hfirst : firstWord? binaryOperators (front s) = some t)
    (hword : Lexeme.word t.spelling.toList (front s) = some (text, s')) :
    Reach (binaryOperator lhs) s true s' := by
  intro i hi
  refine ⟨[i.skip.leaf (.token (operatorAfter lhs t)) text], i.skip.after text s', ?_, rfl⟩
  rw [Grammar.binaryOperator, rest_skip, hi, hfirst]
  dsimp only
  rw [Rule.token?, rest_skip, hi, hword]

theorem Reach.binaryOperator_none {lhs : DataType} {s : List Char}
    (hfirst : firstWord? binaryOperators (front s) = none) :
    Reach (Grammar.binaryOperator lhs) s false (front s) := by
  intro i hi
  refine ⟨[], i.skip, ?_, by rw [rest_skip, hi]⟩
  rw [Grammar.binaryOperator, rest_skip, hi, hfirst]

section Loop

variable {n : Nat} {lhs : DataType} {alone : Bool} {s s' : List Char}

theorem Reach.loop_operator (hop : Reach (Grammar.binaryOperator lhs) s true s')
    {state : DataType × Bool} {s'' : List Char} (h : Reach (chain n false) s' state s'') :
    Reach (loop (operatorStep (expressionUpTo n)) (lhs, alone)) s state s'' := by
  intro i hi
  obtain ⟨xs, k, hx, hk⟩ := hop hi
  obtain ⟨ys, j, hy, hj⟩ := h hk
  refine ⟨xs ++ ys, j, ?_, hj⟩
  rw [loop_of_operator hx, hy]

theorem Stuck.loop_operator (hop : Reach (Grammar.binaryOperator lhs) s true s')
    (h : Stuck (chain n false) s') :
    Stuck (Rule.loop (operatorStep (expressionUpTo n)) (lhs, alone)) s := by
  intro i hi
  obtain ⟨xs, k, hx, hk⟩ := hop hi
  obtain ⟨ys, e, hy⟩ := h hk
  refine ⟨xs ++ ys, e, ?_⟩
  rw [loop_of_operator hx, hy]

theorem Reach.loop_end (hfirst : firstWord? binaryOperators (front s) = none) :
    Reach (loop (operatorStep (expressionUpTo n)) (lhs, alone)) s (lhs, alone) (front s) :=
  .loop_none (.bind (.binaryOperator_none hfirst) (.pure _ _))

theorem firstWord?_equals (s : List Char) : firstWord? binaryOperators ('=' :: s) = some .equal := by
  simp [firstWord?, binaryOperators, Token.spelling, Lexeme.word, Lexeme.sameLetter_mark,
    Lexeme.wordTail]

/-- Behind an operand an equals sign is an operator like any other. -/
theorem Valued.finishes (h : Valued (chain n false) s) :
    Finishes (loop (operatorStep (expressionUpTo n)) (lhs, alone)) s := by
  obtain ⟨r, hr, state, s', hreach, hend⟩ := h
  have hop : Reach (Grammar.binaryOperator lhs) s true r := by
    have hword : Lexeme.word Token.equal.spelling.toList (front s) = some (['='], r) := by
      rw [hr]
      exact (Lexeme.word_mark (by decide) '=' r).trans (if_pos rfl)
    exact .binaryOperator (by rw [hr, firstWord?_equals]) hword
  exact ⟨state, s', hop.loop_operator hreach, hend⟩

end Loop

/-- No sign comes next. -/
theorem Reach.signs_none {s : List Char} {signed : Bool}
    (hminus : Lexeme.word Token.unaryMinus.spelling.toList (front s) = none)
    (hplus : Lexeme.word Token.unaryPlus.spelling.toList (front s) = none)
    (hnegation : negation (front s) = none) : Reach (loop signStep signed) s signed (front s) := by
  have hfront : ∀ {reader : Lexeme.Reader} (kind : LeafKind), reader (front s) = none →
      Reach (Rule.token? reader kind) (front s) false (front s) := by
    intro reader kind h
    rw [← front_front] at h
    simpa using Reach.token?_none kind h
  have hunary : Reach unaryOperator s false (front s) :=
    .bind (.token?_none _ hminus) (.bind (hfront _ hplus) (hfront _ hnegation))
  exact .loop_none (.bind hunary (.pure _ _))

theorem function?_of_mark {c : Char} (hc : c.toNat < 65) (s : List Char) :
    function? (c :: s) = none := by
  have key : ∀ f ∈ functions, ∃ letter letters, f.spelling.toList = letter :: letters ∧
      letter.isUpper = true := by
    simp [functions, Token.spelling]
  rw [function?, List.find?_eq_none]
  intro f hf
  obtain ⟨letter, letters, hspelling, hupper⟩ := key f hf
  rw [hspelling, Lexeme.word_cons_of_ne _ _ (Lexeme.sameLetter_of_lt hupper hc)]
  simp

theorem negation_of_mark {c : Char} (hc : c.toNat < 65) (s : List Char) :
    negation (c :: s) = none := by
  have hword : Lexeme.word Token.negation.spelling.toList (c :: s) = none :=
    Lexeme.word_cons_of_ne _ _ (Lexeme.sameLetter_of_lt (show 'N'.isUpper = true by decide) hc)
  rw [negation, hword]
  rfl

/-- No sign is the mark that comes next. -/
theorem Reach.signs_of_mark {s r : List Char} {c : Char} {signed : Bool} (hs : front s = c :: r)
    (hc : c.toNat < 65) (hminus : c ≠ '-') (hplus : c ≠ '+') :
    Reach (loop signStep signed) s signed (front s) := by
  apply Reach.signs_none
  · rw [hs]
    exact (Lexeme.word_mark (by decide) c r).trans (if_neg hminus)
  · rw [hs]
    exact (Lexeme.word_mark (by decide) c r).trans (if_neg hplus)
  · rw [hs]
    exact negation_of_mark hc r

section Primary

variable {n : Nat} {s s' r : List Char} {c : Char}

/-- A token that is spelled as one mark is read where the mark comes next. -/
theorem Reach.expect_mark {t : Token} {p : Char} (hspelling : t.spelling.toList = [p])
    (hp : p.toNat < 65) (h : front s = p :: s') : Reach (Rule.expect t) s () s' := by
  have hword : Lexeme.word t.spelling.toList (front s) = some ([p], s') := by
    rw [hspelling, h, Lexeme.word_mark hp, if_pos rfl]
  exact .expect hword

theorem reach_close (h : front s = ')' :: s') : Reach (expect .close) s () s' :=
  .expect_mark rfl (by decide) h

theorem integer_of_not_isDigit (hc : c.isDigit = false) : Lexeme.integer (c :: r) = none := by
  rw [Lexeme.integer, if_neg (by simp [hc])]

theorem Bracketed.primary (h : Bracketed (expressionUpTo n) s s') :
    Reach (primary (expressionUpTo n)) s .integer s' := by
  obtain ⟨r, a, k, hr, hreach, hclose⟩ := h
  have hinteger : Reach (token? Lexeme.integer .integer) s false (front s) :=
    .token?_none _ (by rw [hr]; exact integer_of_not_isDigit rfl)
  have hpeek : Reach peek (front s) (some '(') (front s) := by
    have := Reach.peek (front s)
    rw [front_front] at this
    rwa [hr] at this ⊢
  have hopen : Reach (expect .openParen) (front s) () r :=
    .expect_mark rfl (by decide) ((front_front s).trans hr)
  exact .bind hinteger (.bind hpeek (.bind hopen (.bind hreach (.bind (reach_close hclose)
    (.pure _ _)))))

def functionOrVariable (e : Rule DataType) : Rule DataType := fun i =>
  match function? i.skip.rest with
  | some f => call e f i
  | none => if (Lexeme.name i.skip.rest).isSome then reference e i else stop .expression i

theorem primary_eq (e : Rule DataType) : primary e = (do
    if ← token? Lexeme.integer .integer then return .integer
    let next ← peek
    if next == some '"' then
      stringLiteral
      return .string
    if next == some '(' then
      expect .openParen
      let _ ← e
      expect .close
      return .integer
    functionOrVariable e) := rfl

/-- A mark that opens nothing begins no operand. -/
theorem stuck_primary (hs : front s = c :: r) (hc : c.toNat < 65) (hdigit : c.isDigit = false)
    (hquote : c ≠ '"') (hparen : c ≠ '(') (e : Rule DataType) : Stuck (primary e) s := by
  rw [primary_eq]
  have hinteger : Reach (token? Lexeme.integer .integer) s false (front s) :=
    .token?_none _ (by rw [hs]; exact integer_of_not_isDigit hdigit)
  have hpeek : Reach peek (front s) (some c) (front s) := by
    have := Reach.peek (front s)
    rw [front_front] at this
    rwa [hs] at this ⊢
  refine .bind_right hinteger (.bind_right hpeek ?_)
  have hq : ¬((some c == some '"') = true) := by simpa using hquote
  have hp : ¬((some c == some '(') = true) := by simpa using hparen
  have hname : Lexeme.name (c :: r) = none := by
    have halpha : c.isAlpha = false := by
      have key : c.toNat < 65 → c.isAlpha = false :=
        Text.ascii_induction (P := fun c => c.toNat < 65 → c.isAlpha = false) (by decide) (by omega)
      exact key hc
    rw [Lexeme.name, if_neg (by simp [halpha])]
  rw [if_neg hq, if_neg hp]
  intro i hi
  have hrest : i.skip.rest = c :: r := by rw [rest_skip, hi, front_front, hs]
  refine ⟨[], .expression, ?_⟩
  rw [functionOrVariable, hrest, function?_of_mark hc, hname]
  rfl

theorem not_isDigit_of_isAlpha (hc : c.isAlpha = true) :
    c.isDigit = false ∧ c ≠ '"' ∧ c ≠ '(' := by
  have key : c.isAlpha = true → c.isDigit = false ∧ c ≠ '"' ∧ c ≠ '(' :=
    Text.alphanum_induction
      (P := fun c => c.isAlpha = true → c.isDigit = false ∧ c ≠ '"' ∧ c ≠ '(') (by decide)
      (by simp [Char.isAlphanum, hc])
  exact key hc

theorem bind_of_silent {r : Rule α} {f : α → Rule β} {i k : Input} {a : α}
    (h : r i = ⟨[], .ok (a, k)⟩) : (r >>= f) i = f a k := by
  show Rule.bind r f i = _
  simp [Rule.bind, h]

/-- Where a letter comes next, an operand is a function or a variable. -/
theorem primary_of_letter {e : Rule DataType} {i : Input} (hc : c.isAlpha = true)
    (hi : i.skip.rest = c :: r) : primary e i = functionOrVariable e i.skip := by
  obtain ⟨hdigit, hquote, hparen⟩ := not_isDigit_of_isAlpha hc
  have hinteger : token? Lexeme.integer .integer i = ⟨[], .ok (false, i.skip)⟩ := by
    rw [token?, hi, integer_of_not_isDigit hdigit]
  have hpeek : peek i.skip = ⟨[], .ok (some c, i.skip)⟩ := by
    rw [peek, skip_skip, hi]
    rfl
  have hq : ¬((some c == some '"') = true) := by simpa using hquote
  have hp : ¬((some c == some '(') = true) := by simpa using hparen
  rw [primary_eq]
  refine (bind_of_silent hinteger).trans ((bind_of_silent hpeek).trans ?_)
  exact congrFun ((if_neg hq).trans (if_neg hp)) i.skip

theorem Reach.primary_named {e : Rule DataType} {type : DataType} (hc : c.isAlpha = true)
    (hs : front s = c :: r) (h : Reach (functionOrVariable e) (front s) type s') :
    Reach (primary e) s type s' := by
  intro i hi
  rw [primary_of_letter hc (by rw [rest_skip, hi, hs])]
  exact h (by rw [rest_skip, hi])

theorem Stuck.primary_named {e : Rule DataType} (hc : c.isAlpha = true)
    (hs : front s = c :: r) (h : Stuck (functionOrVariable e) (front s)) : Stuck (primary e) s := by
  intro i hi
  rw [primary_of_letter hc (by rw [rest_skip, hi, hs])]
  exact h (by rw [rest_skip, hi])

theorem Reach.functionOrVariable_call {e : Rule DataType} {f : Token} {type : DataType}
    (hf : function? (front s) = some f) (h : Reach (call e f) s type s') :
    Reach (functionOrVariable e) s type s' := by
  intro i hi
  rw [functionOrVariable, rest_skip, hi, hf]
  exact h hi

theorem Stuck.functionOrVariable_call {e : Rule DataType} {f : Token}
    (hf : function? (front s) = some f) (h : Stuck (call e f) s) :
    Stuck (functionOrVariable e) s := by
  intro i hi
  rw [functionOrVariable, rest_skip, hi, hf]
  exact h hi

theorem Reach.functionOrVariable_reference {e : Rule DataType} {type : DataType}
    (hf : function? (front s) = none) (hname : (Lexeme.name (front s)).isSome = true)
    (h : Reach (reference e) s type s') : Reach (functionOrVariable e) s type s' := by
  intro i hi
  rw [functionOrVariable, rest_skip, hi, hf]
  dsimp only
  rw [if_pos hname]
  exact h hi

/-- A name and a subscript behind it. -/
theorem Bracketed.subscripted {e : Rule DataType} {text k : List Char}
    (hname : Lexeme.name (front s) = some (text, k)) (h : Bracketed e k s') {opener : Token}
    (hopener : opener.spelling = "(") (kind : InnerKind) (pair : Bool) :
    Reach (subscripted e opener kind pair) s (Lexeme.nameType text) s' := by
  obtain ⟨r, a, l, hr, hreach, hclose⟩ := h
  have hopen : Reach (expect opener) k () r :=
    .expect_mark (by rw [hopener]; rfl) (by decide) hr
  have hcomma : Reach (word? .sliceComma) l false (front l) := by
    apply Reach.token?_none
    rw [hclose]
    exact (Lexeme.word_mark (by decide) ')' s').trans (if_neg (by decide))
  refine .enclose (.bind (.variableName hname) (.bind hopen (.bind hreach ?_)))
  cases pair with
  | false => exact .bind (reach_close hclose) (.pure _ _)
  | true =>
    exact .bind hcomma (.bind (reach_close (by rw [front_front]; exact hclose)) (.pure _ _))

theorem isSubscripted_of_name {text k : List Char} (h : Lexeme.name s = some (text, k)) :
    isSubscripted s = Lexeme.opensNext k := by
  rw [isSubscripted, h]
  rfl

theorem Reach.variableBy_subscripted {rule rule' : Rule DataType} {type : DataType}
    {text k : List Char} (hname : Lexeme.name (front s) = some (text, k))
    (hopens : Lexeme.opensNext k = true) (hr : Reach rule (front s) type s')
    (hr' : Reach rule' (front s) type s') : Reach (variableBy rule rule') s type s' := by
  have hahead : Reach (Rule.ahead isSubscripted) s true (front s) := by
    have := Reach.ahead isSubscripted s
    rwa [isSubscripted_of_name hname, hopens] at this
  have htype := Reach.ahead (nextNameType · == .string) (front s)
  rw [front_front] at htype
  refine .bind hahead (.bind htype ?_)
  cases nextNameType (front s) with
  | integer => exact hr'
  | string => exact hr

theorem Reach.variableBy_bare {rule rule' : Rule DataType} {text k : List Char}
    (hname : Lexeme.name (front s) = some (text, k)) (hopens : Lexeme.opensNext k = false) :
    Reach (variableBy rule rule') s (Lexeme.nameType text) k := by
  have hahead : Reach (Rule.ahead isSubscripted) s false (front s) := by
    have := Reach.ahead isSubscripted s
    rwa [isSubscripted_of_name hname, hopens] at this
  exact .bind hahead (.variableName (by rw [front_front]; exact hname))

end Primary

def Run (v : List Char) : Prop := ∀ c ∈ v, c.isAlphanum = true

section Run

variable {n : Nat} {shape : Shape} {v t : List Char}

theorem isGap_of_isAlphanum {c : Char} (h : c.isAlphanum = true) : Text.isGap c = false := by
  rw [Text.isGap, Bool.or_eq_false_iff, beq_eq_false_iff_ne, beq_eq_false_iff_ne]
  constructor <;> rintro rfl <;> revert h <;> decide

/-- No gap comes before a run. -/
theorem front_append_of_ne_nil (hv : Run v) (hne : v ≠ []) (t : List Char) :
    front (v ++ t) = v ++ t := by
  cases v with
  | nil => exact absurd rfl hne
  | cons c v =>
    apply front_of_head
    rintro _ ⟨⟩
    exact isGap_of_isAlphanum (hv c List.mem_cons_self)

/-- A name takes the whole run. -/
theorem name_append {c : Char} (hv : Run (c :: v)) (hc : c.isAlpha = true) (ht : Tail n shape t)
    {d s : List Char} (hdollar : Lexeme.dollar t = some (d, s)) :
    Lexeme.name (c :: v ++ t) = some (c :: v ++ d, s) := by
  have hall : ∀ x ∈ v, x.isAlphanum = true := fun x hx => hv x (List.mem_cons_of_mem _ hx)
  have htake : t.takeWhile Char.isAlphanum = [] := by
    cases t with
    | nil => rfl
    | cons x t =>
      rw [List.takeWhile_cons_of_neg]
      simp [ht.isAlphanum_head x rfl]
  have hdrop : t.dropWhile Char.isAlphanum = t := by
    cases t with
    | nil => rfl
    | cons x t =>
      rw [List.dropWhile_cons_of_neg]
      simp [ht.isAlphanum_head x rfl]
  rw [List.cons_append, Lexeme.name, if_pos hc, List.dropWhile_append_of_pos hall, hdrop,
    List.takeWhile_append_of_pos hall, htake, hdollar]
  simp

theorem length_folded (v : List Char) : (Lexeme.folded v).length = v.length := List.length_map _

/-- The word `NOT` is read only where it is the whole run. -/
theorem negation_append (hv : Run v) (ht : Tail n shape t) :
    negation (v ++ t) =
      if Lexeme.folded v = Lexeme.folded "NOT".toList then some (v, t) else none := by
  have hword := Lexeme.word_append (w := "NOT".toList) (by decide) (by decide) hv ht.noLetter
  rw [negation, show Token.negation.spelling = "NOT" from rfl, hword]
  by_cases hbegins : (Lexeme.folded "NOT".toList).isPrefixOf (Lexeme.folded v) = true
  · rw [if_pos hbegins]
    have hlength := (List.isPrefixOf_iff_prefix.1 hbegins).length_le
    rw [length_folded, length_folded] at hlength
    cases hdrop : v.drop "NOT".toList.length with
    | nil =>
      have hv3 : v.length = 3 := by
        have := List.drop_eq_nil_iff.1 hdrop
        exact Nat.le_antisymm this hlength
      have hsame : Lexeme.folded v = Lexeme.folded "NOT".toList :=
        ((List.isPrefixOf_iff_prefix.1 hbegins).eq_of_length
          (by rw [length_folded, length_folded, hv3]; rfl)).symm
      obtain ⟨c, hmem, hhead⟩ := ht.head_mem
      have key : ∀ c ∈ [' ', '$', '\t', '(', '='], Text.isAlphanumeric c = false := by decide
      rw [if_pos hsame, List.nil_append, List.take_of_length_le (by rw [hv3]; decide)]
      simp [Option.filter, hhead, key c hmem]
    | cons c rest =>
      have hc : c.isAlphanum = true := hv c (List.mem_of_mem_drop (by rw [hdrop]; simp))
      have hne : Lexeme.folded v ≠ Lexeme.folded "NOT".toList := by
        intro heq
        have := congrArg List.length heq
        rw [length_folded, length_folded] at this
        rw [List.drop_of_length_le (by omega)] at hdrop
        cases hdrop
      rw [if_neg hne]
      simp [Option.filter, Text.isAlphanumeric_of_ascii (Text.toNat_lt_of_isAlphanum hc), hc]
  · rw [if_neg hbegins, if_neg]
    · rfl
    · rintro heq
      rw [heq] at hbegins
      exact hbegins (by decide)

/-- No sign is in a run. -/
theorem Reach.signs_append (hv : Run v) (hne : v ≠ []) (hnegation : negation (v ++ t) = none)
    {signed : Bool} : Reach (loop signStep signed) (v ++ t) signed (v ++ t) := by
  cases v with
  | nil => exact absurd rfl hne
  | cons c v =>
    have hfront := front_append_of_ne_nil hv hne t
    have hc : c ≠ '-' ∧ c ≠ '+' := by
      have := hv c List.mem_cons_self
      constructor <;> rintro rfl <;> revert this <;> decide
    have hsigns : Reach (loop signStep signed) (c :: v ++ t) signed (front (c :: v ++ t)) :=
      .signs_none
        (by rw [hfront]; exact (Lexeme.word_mark (by decide) c (v ++ t)).trans (if_neg hc.1))
        (by rw [hfront]; exact (Lexeme.word_mark (by decide) c (v ++ t)).trans (if_neg hc.2))
        (by rw [hfront]; exact hnegation)
    rwa [hfront] at hsigns

end Run

end IntegerBasic.Grammar
