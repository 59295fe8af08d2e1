import IntegerBasic.Proofs.Grammar.Trace

/-!
# The traces of the grammar

Every rule for expressions and statements leaves a trace. The proofs follow the rules one by one:
a sequence of rules is a sequence of traces, and what a loop does in each round it does in all.
-/

namespace IntegerBasic.Grammar

open Rule

/-- An expected word has been read. -/
theorem expect_ok {t : Token} {i j : Input} {nodes : List Node}
    (h : expect t i = ⟨nodes, .ok ((), j)⟩) :
    ∃ text rest, Lexeme.word t.spelling.toList i.skip.rest = some (text, rest) ∧
      nodes = [i.skip.leaf (.token t) text] ∧ j = i.skip.after text rest := by
  obtain ⟨xs, found, k, ys, hw, hf, rfl⟩ := bind_ok h
  rcases token?_ok hw with ⟨-, rfl, rfl, rfl⟩ | ⟨text, rest, hread, rfl, rfl, rfl⟩
  · cases hf
  · cases hf
    exact ⟨text, rest, hread, rfl, rfl⟩

/-- An expected word that is not there leaves nothing behind. -/
theorem expect_error {t : Token} {i : Input} {nodes : List Node} {e : Mismatch}
    (h : expect t i = ⟨nodes, .error e⟩) : nodes = [] := by
  rcases bind_error h with hw | ⟨xs, found, k, ys, hw, hf, rfl⟩
  · exact absurd hw token?_ne_error
  · rcases token?_ok hw with ⟨-, rfl, rfl, rfl⟩ | ⟨text, rest, -, rfl, rfl, rfl⟩ <;> cases hf
    rfl

/-- A string has been read. -/
theorem stringLiteral_ok {i j : Input} {nodes : List Node}
    (h : stringLiteral i = ⟨nodes, .ok ((), j)⟩) :
    ∃ text rest, Lexeme.string i.skip.rest = some (text, rest) ∧
      nodes = [i.skip.leaf .string text] ∧ j = i.skip.after text rest := by
  obtain ⟨xs, found, k, ys, hx, hy, rfl⟩ := bind_ok h
  rcases token?_ok hx with ⟨-, rfl, rfl, rfl⟩ | ⟨text, rest, hread, rfl, rfl, rfl⟩
  · cases hy
  · cases hy
    exact ⟨text, rest, hread, rfl, rfl⟩

/-- A name has been read. -/
theorem variableName_ok {i j : Input} {nodes : List Node} {type : DataType}
    (h : variableName i = ⟨nodes, .ok (type, j)⟩) :
    ∃ text rest, Lexeme.name i.skip.rest = some (text, rest) ∧ type = Lexeme.nameType text ∧
      nodes = [i.skip.leaf (.name type) text] ∧ j = i.skip.after text rest := by
  unfold variableName at h
  cases hread : Lexeme.name i.skip.rest with
  | none =>
    rw [hread] at h
    cases h
  | some read =>
    rw [hread] at h
    cases h
    exact ⟨read.1, read.2, rfl, rfl, rfl, rfl⟩

theorem variableName_error {i : Input} {nodes : List Node} {e : Mismatch}
    (h : variableName i = ⟨nodes, .error e⟩) : nodes = [] := by
  unfold variableName at h
  cases hread : Lexeme.name i.skip.rest <;> rw [hread] at h <;> cases h
  rfl

/-- An operator has been read, or there is none. -/
theorem binaryOperator_ok {lhs : DataType} {i j : Input} {nodes : List Node} {found : Bool}
    (h : binaryOperator lhs i = ⟨nodes, .ok (found, j)⟩) :
    (firstWord? binaryOperators i.skip.rest = none ∧ nodes = [] ∧ found = false ∧ j = i.skip) ∨
      ∃ t text rest, firstWord? binaryOperators i.skip.rest = some t ∧
        Lexeme.word t.spelling.toList i.skip.rest = some (text, rest) ∧
        nodes = [i.skip.leaf (.token (operatorAfter lhs t)) text] ∧ found = true ∧
        j = i.skip.after text rest := by
  unfold binaryOperator at h
  cases hfirst : firstWord? binaryOperators i.skip.rest with
  | none =>
    rw [hfirst] at h
    cases h
    exact .inl ⟨rfl, rfl, rfl, rfl⟩
  | some t =>
    rw [hfirst] at h
    rcases token?_ok h with ⟨hread, -⟩ | ⟨text, rest, hread, rfl, rfl, rfl⟩
    · have hsome := List.find?_some hfirst
      rw [hread] at hsome
      cases hsome
    · exact .inr ⟨t, text, rest, rfl, hread, rfl, rfl, rfl⟩

theorem binaryOperator_ne_error {lhs : DataType} {i : Input} {nodes : List Node} {e : Mismatch} :
    binaryOperator lhs i ≠ ⟨nodes, .error e⟩ := by
  intro h
  unfold binaryOperator at h
  cases hfirst : firstWord? binaryOperators i.skip.rest with
  | none =>
    rw [hfirst] at h
    cases h
  | some t =>
    rw [hfirst] at h
    exact absurd h token?_ne_error

theorem emits_expect (t : Token) : Emits (expect t) := by
  intro i nodes a j h
  obtain ⟨text, rest, -, rfl, -⟩ := expect_ok h
  exact List.cons_ne_nil _ _

theorem emits_variableName : Emits variableName := by
  intro i nodes a j h
  obtain ⟨text, rest, -, -, rfl, -⟩ := variableName_ok h
  exact List.cons_ne_nil _ _

theorem emits_enclose {α : Type} (kind : α → InnerKind) (r : Rule α) : Emits (enclose kind r) := by
  intro i nodes a j h
  obtain ⟨inside, -, rfl⟩ := enclose_ok h
  exact List.cons_ne_nil _ _

theorem emits_wordThen {α : Type} (t : Token) (settle : α → Token) (body : Rule α) :
    Emits (wordThen t settle body) := by
  intro i nodes a j h
  obtain ⟨text, rest, more, -, -, rfl⟩ := wordThen_ok h
  exact List.cons_ne_nil _ _

theorem emits_target (e : Rule DataType) : Emits (target e) := by
  apply Emits.bind_right
  intro indexed
  cases indexed with
  | false => exact emits_variableName
  | true =>
    apply Emits.bind_right
    intro isString
    cases isString <;> exact emits_enclose _ _

theorem traced_variableName : Traced inExpression true variableName (fun _ => false) := by
  constructor
  · intro i nodes a j h
    obtain ⟨text, rest, hr, rfl, rfl, rfl⟩ := variableName_ok h
    exact .skip (.leaf rfl (.name hr) (fun _ => rfl) (.done (by simp [LeafKind.isOperand])))
  · intro i nodes e h
    obtain rfl := variableName_error h
    exact ⟨true, i, .done id⟩

theorem traced_stringLiteral : Traced inExpression true stringLiteral (fun _ => false) := by
  apply Traced.bind (Traced.token? (fun h => .string h) (fun _ => rfl) rfl)
  intro found
  apply Traced.ite
  · intro _
    exact .pure _ (by simp)
  · intro _
    exact .stop _

section Expression

variable {e : Rule DataType} (he : Traced inExpression true e (fun _ => false))
include he

theorem traced_subscripted {opener : Token} (plain : opener.isPlain = true)
    (known : inExpression (.token opener) = true) (kind : InnerKind) (pair : Bool) :
    Traced inExpression true (subscripted e opener kind pair) (fun _ => false) := by
  apply Traced.enclose
  · apply Traced.bind traced_variableName
    intro type
    apply Traced.bind (.expect plain known)
    intro _
    apply Traced.bind he
    intro _
    have hclose : Traced inExpression false (do expect .close; return type) (fun _ => false) :=
      .bind (.expect rfl rfl) fun _ => .pure _ (by simp)
    apply Traced.ite
    · intro _
      apply Traced.bind (.word? rfl rfl)
      intro found
      apply Traced.ite
      · intro h
        rw [h]
        exact .bind he fun _ => hclose
      · intro h
        rw [Bool.eq_false_iff.2 h]
        exact hclose
    · intro _
      exact hclose
  · exact emits_variableName.bind_left

theorem traced_target : Traced inExpression true (target e) (fun _ => false) := by
  apply Traced.bind (.ahead _)
  intro indexed
  apply Traced.ite
  · intro _
    apply Traced.bind (.ahead _)
    intro isString
    apply Traced.ite
    · intro _
      exact traced_subscripted he rfl rfl _ _
    · intro _
      exact traced_subscripted he rfl rfl _ _
  · intro _
    exact traced_variableName

theorem traced_reference : Traced inExpression true (reference e) (fun _ => false) := by
  apply Traced.bind (.ahead _)
  intro indexed
  apply Traced.ite
  · intro _
    apply Traced.bind (.ahead _)
    intro isString
    apply Traced.ite
    · intro _
      exact traced_subscripted he rfl rfl _ _
    · intro _
      exact traced_subscripted he rfl rfl _ _
  · intro _
    exact traced_variableName

theorem traced_call {f : Token} (plain : f.isPlain = true)
    (known : inExpression (.token f) = true) :
    Traced inExpression true (call e f) (fun _ => false) := by
  apply Traced.bind (.expect plain known)
  intro _
  have hclose : Traced inExpression false (do expect .close; return DataType.integer)
      (fun _ => false) := .bind (.expect rfl rfl) fun _ => .pure _ (by simp)
  have hbody : Traced inExpression true (do
      let _ ← e
      if f == .scrn then
        expect .scrnComma
        let _ ← e
      expect .close
      return DataType.integer) (fun _ => false) := by
    apply Traced.bind he
    intro _
    apply Traced.ite
    · intro _
      exact .bind (.expect rfl rfl) fun _ => .bind he fun _ => hclose
    · intro _
      exact hclose
  apply Traced.ite
  · intro _
    exact hbody
  · intro _
    exact .bind (.expect rfl rfl) fun _ => hbody

omit he in
theorem isPlain_of_function? {s : List Char} {f : Token} (h : function? s = some f) :
    f.isPlain = true ∧ inExpression (.token f) = true := by
  have key : ∀ f ∈ functions, f.isPlain = true ∧ inExpression (.token f) = true := by decide
  exact key f (List.mem_of_find?_eq_some h)

/-- The rules for an expression in parentheses and for one behind a function need not be the
same. -/
theorem traced_primaryOf {near : Rule DataType}
    (hnear : Traced inExpression true near (fun _ => false)) :
    Traced inExpression true (primaryOf near e) (fun _ => false) := by
  apply Traced.bind (.token? (fun h => .integer h) (fun _ => rfl) rfl)
  intro found
  apply Traced.ite
  · intro _
    exact .pure _ (by simp)
  · intro hfound
    rw [Bool.eq_false_iff.2 hfound]
    apply Traced.bind .peek
    intro next
    apply Traced.ite
    · intro _
      exact .bind traced_stringLiteral fun _ => .pure _ (by simp)
    · intro _
      apply Traced.ite
      · intro _
        exact .bind (.expect rfl rfl) fun _ => .bind hnear fun _ => .bind (.expect rfl rfl) fun _ =>
          .pure _ (by simp)
      · intro _
        constructor
        · intro i nodes a j h
          cases hf : function? i.skip.rest with
          | some f =>
            rw [hf] at h
            obtain ⟨plain, known⟩ := isPlain_of_function? hf
            exact (traced_call he plain known).ok h
          | none =>
            simp only [hf] at h
            split at h
            · exact (traced_reference he).ok h
            · cases h
        · intro i nodes e h
          cases hf : function? i.skip.rest with
          | some f =>
            rw [hf] at h
            obtain ⟨plain, known⟩ := isPlain_of_function? hf
            exact (traced_call he plain known).error h
          | none =>
            simp only [hf] at h
            split at h
            · exact (traced_reference he).error h
            · cases h
              exact ⟨true, i, .done id⟩

omit he in
theorem traced_unaryOperator : Traced inExpression true unaryOperator (fun _ => true) := by
  apply Traced.bind (.word? rfl rfl)
  intro minus
  apply Traced.ite
  · intro h
    exact .pure _ (by simp)
  · intro h
    have hplus : Traced inExpression true (word? .unaryPlus) (fun _ => true) :=
      (Traced.word? rfl rfl).weaken (by simp)
    simp only [Bool.or_true]
    apply Traced.bind hplus
    intro plus
    apply Traced.ite
    · intro _
      exact .pure _ id
    · intro _
      exact (Traced.token? (fun h => .negation h) (by simp [LeafKind.isOperand]) rfl).weaken
        (by simp [LeafKind.isOperand])

omit he in
theorem traced_operandOf {primary : Rule DataType}
    (h : Traced inExpression true primary (fun _ => false)) :
    Traced inExpression true (operandOf primary) (fun _ => false) := by
  have hsigns : ∀ s : Bool, Traced inExpression true
      (do return if ← unaryOperator then some true else none : Rule (Option Bool))
      (fun _ => true) := fun _ => .bind traced_unaryOperator fun _ => .pure _ id
  exact .bind (.loop hsigns false) fun _ => .bind h fun _ => .pure _ (by simp)

omit he in
theorem known_operator (lhs : DataType) {s : List Char} {t : Token}
    (h : firstWord? binaryOperators s = some t) :
    inExpression (.token (operatorAfter lhs t)) = true := by
  have key : ∀ t ∈ binaryOperators, ∀ lhs ∈ [DataType.integer, DataType.string],
      inExpression (.token (operatorAfter lhs t)) = true := by decide
  exact key t (List.mem_of_find?_eq_some h) lhs (by cases lhs <;> simp)

omit he in
theorem traced_binaryOperator (lhs : DataType) :
    Traced inExpression false (binaryOperator lhs) (fun found => found) := by
  constructor
  · intro i nodes a j h
    rcases binaryOperator_ok h with ⟨-, rfl, rfl, rfl⟩ | ⟨t, text, rest, ht, hr, rfl, rfl, rfl⟩
    · exact .skip (.done id)
    · exact .skip (.leaf (known_operator lhs ht) (.operator lhs ht hr) (by simp [LeafKind.isOperand])
        (.done (by simp [LeafKind.isOperand])))
  · intro i nodes e h
    exact absurd h binaryOperator_ne_error

omit he in
theorem traced_operandsOf {operand : Rule DataType}
    (h : Traced inExpression true operand (fun _ => false)) :
    Traced inExpression true (operandsOf operand) (fun _ => false) := by
  apply Traced.bind h
  intro first
  apply Traced.bind (Traced.loop (q := false) ?_ _)
  · intro state
    exact .pure _ (by simp)
  · intro state
    apply Traced.bind (traced_binaryOperator _)
    intro found
    apply Traced.ite
    · intro hfound
      rw [hfound]
      exact .bind h fun _ => .pure _ id
    · intro _
      exact .pure _ (by simp)

theorem traced_operand : Traced inExpression true (operand e) (fun _ => false) :=
  traced_operandOf (traced_primaryOf he he)

theorem traced_operands : Traced inExpression true (operands e) (fun _ => false) :=
  traced_operandsOf (traced_operand he)

end Expression

theorem traced_expressionUpTo (n : Nat) :
    Traced inExpression true (expressionUpTo n) (fun _ => false) := by
  induction n with
  | zero => exact .stop _
  | succ n ih => exact traced_operands ih

/-- An expression is made of the leaves of expressions. -/
theorem traced_expression_only : Traced inExpression true expression (fun _ => false) :=
  ⟨fun h => (traced_expressionUpTo _).ok h, fun h => (traced_expressionUpTo _).error h⟩

theorem traced_expression : Traced anywhere true expression (fun _ => false) :=
  traced_expression_only.anywhere

theorem traced_assignmentOf {near far : Rule DataType}
    (hnear : Traced anywhere true near (fun _ => false))
    (hfar : Traced inExpression true far (fun _ => false)) (word : Option Token)
    (plain : ∀ t ∈ word, t.isPlain = true) :
    Traced anywhere true (assignmentOf near far word) (fun _ => false) := by
  have hbody : Traced anywhere true (do
      let type ← target far
      expect (.equals type)
      let _ ← near
      return type) (fun _ => false) :=
    .bind (traced_target hfar).anywhere fun _ => .bind (.expect rfl rfl) fun _ =>
      .bind hnear fun _ => .pure _ (by simp)
  apply Traced.enclose
  · cases word with
    | none => exact hbody
    | some t => exact .bind (.expect (plain t rfl) rfl) fun _ => hbody
  · cases word with
    | none => exact (emits_target _).bind_left
    | some t => exact (emits_expect t).bind_left

theorem traced_assignmentRule (word : Option Token) (plain : ∀ t ∈ word, t.isPlain = true) :
    Traced anywhere true (assignmentRule word) (fun _ => false) :=
  traced_assignmentOf traced_expression traced_expression_only word plain

theorem traced_integerName : Traced anywhere true integerName (fun _ => false) := by
  apply Traced.bind traced_variableName.anywhere
  intro type
  apply Traced.ite
  · intro _
    exact .stop _
  · intro _
    exact .pure _ (by simp)

theorem traced_extent (type : DataType) : Traced anywhere false (extent type) (fun _ => false) :=
  .bind (.expect rfl rfl) fun _ => .bind traced_expression fun _ =>
    (Traced.expect rfl rfl).weaken (by simp)

theorem traced_repeated {separator : Token} (plain : separator.isPlain = true) {item : Rule Unit}
    (h : Traced anywhere true item (fun _ => false)) :
    Traced anywhere false (repeated separator item) (fun _ => false) := by
  apply Traced.loop
  intro _
  apply Traced.bind (.word? plain rfl)
  intro found
  apply Traced.ite
  · intro hfound
    rw [hfound]
    exact .bind h fun _ => .pure _ id
  · intro _
    exact .pure _ (by simp)

theorem traced_printItem : Traced anywhere true printItem (fun _ => false) := by
  have hno : Traced anywhere true noItem (fun _ => true) := .bind .peek fun _ => .pure _ id
  apply Traced.bind hno
  intro none
  apply Traced.ite
  · intro _
    exact .pure _ (by simp)
  · intro _
    exact .bind traced_expression fun _ => .pure _ (by simp)

theorem traced_printTail : Traced anywhere false printTail (fun _ => false) := by
  apply Traced.bind .peek
  intro next
  apply Traced.ite
  · intro _
    exact .bind (.wordThen rfl (by intro a; rfl) (by intro a; rfl) traced_printItem)
      fun _ => .pure _ id
  · intro _
    apply Traced.ite
    · intro _
      exact .bind (.wordThen rfl (by intro a; rfl) (by intro a; rfl) traced_printItem)
        fun _ => .pure _ id
    · intro _
      exact .pure _ id

namespace Form

/-- The words and separators of a form are read by their spelling, and the two tokens that its
first word may be are spelled alike. -/
def Plain : Form → Prop
  | .bare t | .single t => t.isPlain = true
  | .pair t separator => t.isPlain = true ∧ separator.isPlain = true
  | .draw t separator position =>
    t.isPlain = true ∧ separator.isPlain = true ∧ position.isPlain = true
  | .lineRange t numbered separator =>
    t.isPlain = true ∧ numbered.isPlain = true ∧ numbered.spelling = t.spelling ∧
      ∀ comma ∈ separator, comma.isPlain = true
  | _ => True

instance : DecidablePred Plain
  | .bare _ | .single _ | .pair _ _ | .draw _ _ _ | .lineRange _ _ _ | .display _ | .forLoop
  | .nextLoop | .dimension | .inputList | .printList | .conditional | .remark | .assignment => by
    dsimp only [Plain]
    infer_instance

/-- All words but two are spelled without a colon. -/
theorem plain_of_mem {form : Form} (h : form ∈ all) :
    form.Plain ∨ form = .single .himem ∨ form = .single .lomem := by
  have key : ∀ form ∈ all, form.Plain ∨ form = .single .himem ∨ form = .single .lomem := by
    decide
  exact key form h

end Form

theorem traced_lineArgument :
    Traced anywhere true (token? Lexeme.integer .lineArgument) (fun found => !found) :=
  (Traced.token? (fun h => .lineArgument h) (fun _ => rfl) rfl).weaken
    (by intro found; cases found <;> simp [LeafKind.isOperand])

theorem traced_lineRange {t numbered : Token} {separator : Option Token}
    (plain : (Form.lineRange t numbered separator).Plain) (nested : Input → Node × Input) :
    Traced anywhere true ((Form.lineRange t numbered separator).rule nested) (fun _ => false) := by
  obtain ⟨ht, hnumbered, hspell, hcomma⟩ := plain
  apply Traced.bind (Traced.wordThen ht ?_ ?_ traced_lineArgument)
  · intro isNumbered
    apply Traced.ite
    · intro h
      rw [h]
      cases separator with
      | none => exact .pure _ (by simp)
      | some comma =>
        apply Traced.bind (.word? (hcomma comma rfl) rfl)
        intro found
        apply Traced.ite
        · intro hfound
          rw [hfound]
          apply Traced.bind traced_lineArgument
          intro isThere
          apply Traced.ite
          · intro _
            exact .pure _ (by simp)
          · intro _
            exact .stop _
        · intro _
          exact .pure _ (by simp)
    · intro _
      exact .pure _ (by simp)
  · intro a
    cases a
    · exact ht
    · exact hnumbered
  · intro a
    cases a
    · rfl
    · exact hspell

theorem traced_inputList (nested : Input → Node × Input) :
    Traced anywhere true (Form.inputList.rule nested) (fun _ => false) := by
  have htarget : Traced anywhere true (do let _ ← target expression) (fun _ => false) :=
    .bind (traced_target traced_expression_only).anywhere fun _ => .pure _ (by simp)
  have hrest : Traced anywhere false (repeated .inputComma do let _ ← target expression)
      (fun _ => false) := traced_repeated rfl htarget
  have hhead : Traced anywhere true (do
      if (← peek) == some '"' then
        stringLiteral
        expect .promptComma
        return InputHead.prompt
      else return .target (← target expression)) (fun head => head == .prompt) := by
    apply Traced.bind .peek
    intro next
    apply Traced.ite
    · intro _
      exact .bind traced_stringLiteral.anywhere fun _ => .bind (.expect rfl rfl) fun _ =>
        .pure _ (by simp)
    · intro _
      exact .bind (traced_target traced_expression_only).anywhere fun _ => .pure _ (by simp)
  apply Traced.bind (.wordThen rfl (by intro a; cases a <;> rfl) (by intro a; cases a <;> rfl) hhead)
  intro head
  apply Traced.ite
  · intro h
    rw [h]
    exact .bind (traced_target traced_expression_only).anywhere fun _ => hrest
  · intro h
    rw [Bool.eq_false_iff.2 h]
    exact hrest

def endsStatement (s : List Char) : Bool := s.head? == none || s.head? == some ':'

theorem atEnd_eq (i : Input) : atEnd i = ⟨[], .ok (endsStatement i.skip.rest, i.skip)⟩ := rfl

/-- The part of a conditional up to the statement or the line behind `THEN`. -/
def conditionThen : Rule Bool := do
  expect .condition
  let _ ← expression
  wordThen .thenStatement (fun isLine => if isLine then .thenLine else .thenStatement)
    (ahead fun s => (Lexeme.integer s).isSome)

def consequence (nested : Input → Node × Input) (isLine : Bool) : Rule Unit := do
  if isLine then
    let _ ← expression
  else if ← atEnd then stop .statement
  else fun i =>
    let (node, j) := nested i
    ⟨[node], .ok ((), j)⟩

theorem conditional_rule (nested : Input → Node × Input) :
    Form.conditional.rule nested = conditionThen >>= consequence nested := by
  rw [conditionThen, bind_assoc]
  simp only [bind_assoc]
  rfl

theorem traced_conditionThen : Traced anywhere true conditionThen (fun _ => true) :=
  .bind (.expect rfl rfl) fun _ => .bind traced_expression fun _ =>
    (Traced.wordThen rfl (by intro a; cases a <;> rfl) (by intro a; cases a <;> rfl)
      (.ahead _))

/-- The rule of a form leaves a trace, but for remarks and conditionals. -/
theorem traced_rule {form : Form} (plain : form.Plain) (hremark : form ≠ .remark)
    (hconditional : form ≠ .conditional) (nested : Input → Node × Input) :
    Traced anywhere true (form.rule nested) (fun _ => false) := by
  have hexpression : Traced anywhere true (do let _ ← expression) (fun _ => false) :=
    .bind traced_expression fun _ => .pure _ (by simp)
  cases form with
  | bare t => exact (Traced.expect plain rfl).weaken (by simp)
  | single t => exact .bind (.expect plain rfl) fun _ => hexpression
  | pair t separator =>
    exact .bind (.expect plain.1 rfl) fun _ => .bind traced_expression fun _ =>
      .bind (.expect plain.2 rfl) fun _ => hexpression
  | draw t separator position =>
    exact .bind (.expect plain.1 rfl) fun _ => .bind traced_expression fun _ =>
      .bind (.expect plain.2.1 rfl) fun _ => .bind traced_expression fun _ =>
        .bind (.expect plain.2.2 rfl) fun _ => hexpression
  | lineRange t numbered separator => exact traced_lineRange plain nested
  | display isOn =>
    cases isOn with
    | false =>
      exact .bind (.wordThen rfl (by intro a; rfl) (by intro a; cases a <;> rfl)
        traced_variableName.anywhere) fun _ => .pure _ (by simp)
    | true =>
      exact .bind (.wordThen rfl (by intro a; rfl) (by intro a; cases a <;> rfl)
        traced_variableName.anywhere) fun _ => .pure _ (by simp)
  | forLoop =>
    apply Traced.bind (.expect rfl rfl)
    intro _
    apply Traced.bind traced_integerName
    intro _
    apply Traced.bind (.expect rfl rfl)
    intro _
    apply Traced.bind traced_expression
    intro _
    apply Traced.bind (.expect rfl rfl)
    intro _
    apply Traced.bind traced_expression
    intro _
    apply Traced.bind (.word? rfl rfl)
    intro found
    apply Traced.ite
    · intro h
      rw [h]
      exact hexpression
    · intro _
      exact .pure _ (by simp)
  | nextLoop =>
    exact .bind (.expect rfl rfl) fun _ => .bind traced_integerName fun _ =>
      (traced_repeated rfl traced_integerName)
  | dimension =>
    have hitem : Traced anywhere true (do extent (← variableName)) (fun _ => false) :=
      .bind traced_variableName.anywhere fun type => traced_extent type
    exact .bind (.wordThen rfl (by intro a; rfl) (by intro a; cases a <;> rfl)
      traced_variableName.anywhere) fun type => .bind (traced_extent type) fun _ =>
        (traced_repeated rfl hitem)
  | inputList => exact traced_inputList nested
  | printList =>
    exact .bind (.wordThen rfl (by intro a; cases a <;> rfl) (by intro a; cases a <;> rfl)
      traced_printItem) fun _ => (Traced.loop (fun _ => traced_printTail) ())
  | conditional => exact absurd rfl hconditional
  | remark => exact absurd rfl hremark
  | assignment =>
    exact .bind (traced_assignmentRule (some .assign) (by rintro t ⟨⟩; rfl))
      fun _ => .pure _ (by simp)

/-- A form has at least its word. -/
theorem emits_rule (form : Form) (nested : Input → Node × Input) : Emits (form.rule nested) := by
  cases form with
  | bare t => exact emits_expect t
  | single | pair | draw | forLoop | nextLoop | conditional | remark =>
    exact (emits_expect _).bind_left
  | lineRange | dimension | inputList | printList => exact (emits_wordThen _ _ _).bind_left
  | display isOn => cases isOn <;> exact (emits_wordThen _ _ _).bind_left
  | assignment => exact (emits_enclose _ _).bind_left

/-- What a conditional has read is a trace up to a line number or a nested statement. -/
theorem conditional_ok {nested : Input → Node × Input} {i k : Input} {nodes : List Node}
    (h : Form.conditional.rule nested i = ⟨nodes, .ok ((), k)⟩) :
    Trace anywhere true i nodes false k ∨
      ∃ (xs : List Node) (j : Input), Trace anywhere true i xs true j.skip ∧
        nodes = xs ++ [(nested j.skip).1] ∧ k = (nested j.skip).2 := by
  rw [conditional_rule] at h
  obtain ⟨xs, isLine, j, ys, hx, hy, rfl⟩ := bind_ok h
  have htrace := traced_conditionThen.ok hx
  cases isLine with
  | true =>
    obtain ⟨zs, type, l, ws, hz, hw, rfl⟩ := bind_ok hy
    cases hw
    exact .inl (htrace.append (by simpa using traced_expression.ok hz))
  | false =>
    obtain ⟨zs, isEnd, l, ws, hz, hw, rfl⟩ := bind_ok hy
    rw [atEnd_eq] at hz
    cases hz
    cases hend : endsStatement j.skip.rest <;> rw [hend] at hw <;> cases hw
    exact .inr ⟨xs, j, htrace.skipped, rfl, rfl⟩

/-- A conditional that is stopped has not gone through its nested statement. -/
theorem conditional_error {nested : Input → Node × Input} {i : Input} {nodes : List Node}
    {e : Mismatch} (h : Form.conditional.rule nested i = ⟨nodes, .error e⟩) :
    ∃ p j, Trace anywhere true i nodes p j := by
  rw [conditional_rule] at h
  rcases bind_error h with h | ⟨xs, isLine, j, ys, hx, hy, rfl⟩
  · exact traced_conditionThen.error h
  · have htrace := traced_conditionThen.ok hx
    cases isLine with
    | true =>
      rcases bind_error hy with hz | ⟨zs, type, l, ws, -, hw, -⟩
      · obtain ⟨p, l, hl⟩ := traced_expression.error hz
        exact ⟨p, l, htrace.append hl⟩
      · cases hw
    | false =>
      rcases bind_error hy with hz | ⟨zs, isEnd, l, ws, hz, hw, rfl⟩
      · cases hz
      · rw [atEnd_eq] at hz
        cases hz
        cases hend : endsStatement j.skip.rest <;> rw [hend] at hw <;> cases hw
        exact ⟨true, j, by simpa using htrace⟩

end IntegerBasic.Grammar
