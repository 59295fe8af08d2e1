import IntegerBasic.Grammar.Stack
import IntegerBasic.Proofs.Grammar.Agreement
import IntegerBasic.Proofs.Grammar.Recursion

/-!
# Enough room

With limited room the rules read what they read without a limit, or they go too deep. Each step
deeper is behind an open parenthesis or behind `THEN`. So the parentheses and the letters H of a text
say how much room is enough for it.
-/

namespace IntegerBasic.Grammar

open Lexeme Rule

variable {α β σ : Type} {n m k : Nat} {i j : Input}

/-- A character that a step deeper cannot do without. -/
def opens (c : Char) : Bool := c == '(' || sameLetter 'H' c

/-- How deep a text nests at most. -/
def nesting (text : List Char) : Nat := text.countP opens

theorem nesting_append (xs ys : List Char) : nesting (xs ++ ys) = nesting xs + nesting ys :=
  List.countP_append

theorem opens_of_sameLetter {letter c : Char} (h : opens letter = true)
    (hsame : sameLetter letter c = true) : opens c = true := by
  simp only [opens, Bool.or_eq_true, beq_iff_eq] at h ⊢
  cases h with
  | inl h =>
    subst h
    rw [sameLetter_mark (by decide)] at hsame
    exact .inl (by simpa using hsame)
  | inr h =>
    simp only [sameLetter, beq_iff_eq] at h hsame ⊢
    exact .inr (h.trans hsame)

/-- A word that has been read opens as much as it is spelled to. -/
theorem nesting_le_of_wordTail {w s text rest : List Char} (hw : ∀ c ∈ w, c ≠ ' ')
    (h : wordTail w s = some (text, rest)) : nesting w ≤ nesting text := by
  induction w generalizing s text with
  | nil => exact Nat.zero_le _
  | cons letter w ih =>
    obtain ⟨c, more, read, -, hsame, hread, rfl⟩ :=
      wordTail_cons_some (hw letter List.mem_cons_self) h
    have hmore := ih (fun d hd => hw d (List.mem_cons_of_mem _ hd)) hread
    have hletter : opens letter = true → sameLetter letter c = true → opens c = true :=
      opens_of_sameLetter
    simp only [nesting, List.countP_append, List.countP_cons] at hmore ⊢
    by_cases hopens : opens letter = true
    · simp [hopens, hletter hopens hsame]
      omega
    · simp [hopens]
      omega

theorem nesting_word {t : Token} {s text rest : List Char}
    (h : word t.spelling.toList s = some (text, rest)) :
    nesting t.spelling.toList + nesting rest ≤ nesting s := by
  have htext := nesting_le_of_wordTail (spelling_ne_space t) (wordTail_of_word h)
  rw [← append_of_word h, nesting_append]
  omega

theorem Passes.nesting_le {text : List Char} (h : Passes i text j) :
    nesting j.rest ≤ nesting i.rest := by
  rw [h.rest, nesting_append]
  omega

theorem nesting_skip_le (i : Input) : nesting i.skip.rest ≤ nesting i.rest :=
  (Passes.skip i).nesting_le

theorem isDeep_iff {r : Reading α} : r.isDeep = true ↔ ∃ nodes, r = ⟨nodes, .error .depth⟩ := by
  obtain ⟨nodes, outcome⟩ := r
  cases outcome with
  | ok _ => simp [Reading.isDeep]
  | error e => cases e <;> simp [Reading.isDeep]

@[simp] theorem isDeep_error {nodes : List Node} {e : Mismatch} :
    (⟨nodes, .error e⟩ : Reading α).isDeep = decide (e = .depth) := by
  cases e <;> rfl

@[simp] theorem isDeep_ok {nodes : List Node} {x : α × Input} :
    (⟨nodes, .ok x⟩ : Reading α).isDeep = false := rfl

theorem bind_eq_of_ok {r : Rule α} {nodes : List Node} {a : α} (h : r i = ⟨nodes, .ok (a, j)⟩)
    (f : α → Rule β) : (r >>= f) i = ⟨nodes ++ (f a j).nodes, (f a j).outcome⟩ := by
  show Rule.bind r f i = _
  simp [Rule.bind, h]

theorem bind_eq_of_error {r : Rule α} {nodes : List Node} {e : Mismatch}
    (h : r i = ⟨nodes, .error e⟩) (f : α → Rule β) : (r >>= f) i = ⟨nodes, .error e⟩ := by
  show Rule.bind r f i = _
  simp [Rule.bind, h]

/-- A rule with limited room reads what one without a limit reads, or it goes too deep. It does that
only where the text nests `n` deep or more. Behind less than that the text nests less than `m`
deep. -/
structure Suffices (n m : Nat) (r' r : Rule α) : Prop where
  reads : ∀ i, (r' i).isDeep = true ∧ n ≤ nesting i.rest ∨ (r' i).isDeep = false ∧ r' i = r i
  leaves : ∀ {i nodes a j}, r i = ⟨nodes, .ok (a, j)⟩ → nesting i.rest < n → nesting j.rest < m

namespace Suffices

variable {r r' s s' : Rule α} {f f' : α → Rule β}

theorem mono {n' m' : Nat} (h : Suffices n m r' r) (hn : n' ≤ n) (hm : m ≤ m') :
    Suffices n' m' r' r where
  reads i := (h.reads i).imp_left fun ⟨hdeep, hle⟩ => ⟨hdeep, hn.trans hle⟩
  leaves hr hlt := (h.leaves hr (hlt.trans_le hn)).trans_le hm

/-- What is asked for no depth at all is only that the rule reads the same or goes too deep. -/
theorem zero (h : Suffices n m r' r) : Suffices 0 k r' r where
  reads i := (h.reads i).imp_left fun ⟨hdeep, _⟩ => ⟨hdeep, Nat.zero_le _⟩
  leaves _ hlt := absurd hlt (Nat.not_lt_zero _)

theorem of_depth : Suffices 0 m (Rule.stop .depth) r where
  reads _ := .inl ⟨rfl, Nat.zero_le _⟩
  leaves _ hlt := absurd hlt (Nat.not_lt_zero _)

/-- A rule that calls none that may go too deep. -/
theorem of_traced {K : LeafKind → Bool} {q : Bool} {post : α → Bool} (h : Traced K q r post)
    (hshallow : ∀ i, (r i).isDeep = false) : Suffices n n r r where
  reads i := .inr ⟨hshallow i, rfl⟩
  leaves hr hlt := by
    obtain ⟨text, hpasses, -⟩ := (h.ok hr).passes
    exact hpasses.nesting_le.trans_lt hlt

/-- What suffices for a depth suffices for less. -/
theorem less {K : LeafKind → Bool} {q : Bool} {post : α → Bool} (h : Suffices n m r' r)
    (hr : Traced K q r post) (hle : k ≤ n) : Suffices k k r' r where
  reads := (h.mono hle le_rfl).reads
  leaves hread hlt := by
    obtain ⟨text, hpasses, -⟩ := (hr.ok hread).passes
    exact hpasses.nesting_le.trans_lt hlt

theorem pure (a : α) : Suffices n n (Pure.pure a : Rule α) (Pure.pure a) :=
  have htraced : Traced anywhere true (Pure.pure a : Rule α) (fun _ => true) := .pure a id
  of_traced htraced fun _ => rfl

theorem stop {cause : Mismatch} (h : cause ≠ .depth) :
    Suffices n m (Rule.stop cause : Rule α) (Rule.stop cause) where
  reads _ := .inr ⟨by cases cause <;> first | rfl | exact absurd rfl h, rfl⟩
  leaves h := by cases h

theorem bind (hr : Suffices n m r' r) (hf : ∀ a, Suffices m k (f' a) (f a)) :
    Suffices n k (r' >>= f') (r >>= f) where
  reads i := by
    cases hr.reads i with
    | inl h =>
      obtain ⟨nodes, hdeep⟩ := isDeep_iff.1 h.1
      exact .inl ⟨isDeep_iff.2 ⟨nodes, bind_eq_of_error hdeep f'⟩, h.2⟩
    | inr h =>
      obtain ⟨hshallow, h⟩ := h
      rcases bind_cases r f i with ⟨nodes, e, hread, hbind⟩ | ⟨nodes, a, j, hread, hbind⟩
      · have hbind' := bind_eq_of_error (h.trans hread) f'
        refine .inr ⟨?_, hbind'.trans hbind.symm⟩
        rw [h, hread] at hshallow
        rw [hbind']
        simpa using hshallow
      · have hbind' := bind_eq_of_ok (h.trans hread) f'
        cases (hf a).reads j with
        | inl hdeep =>
          obtain ⟨more, hmore⟩ := isDeep_iff.1 hdeep.1
          refine .inl ⟨isDeep_iff.2 ⟨nodes ++ more, by rw [hbind', hmore]⟩, ?_⟩
          by_contra hlt
          have hshort := hr.leaves hread (by omega)
          omega
        | inr hsame => exact .inr ⟨by rw [hbind']; exact hsame.1, by rw [hbind', hsame.2, hbind]⟩
  leaves := by
    intro i nodes b l h hlt
    obtain ⟨xs, a, j, ys, hread, hmore, -⟩ := bind_ok h
    exact (hf a).leaves hmore (hr.leaves hread hlt)

theorem ite_of {c : Prop} [Decidable c] (hr : c → Suffices n m r' r)
    (hs : ¬c → Suffices n m s' s) : Suffices n m (if c then r' else s') (if c then r else s) := by
  by_cases h : c
  · simpa only [if_pos h] using hr h
  · simpa only [if_neg h] using hs h

theorem ite {c : Prop} [Decidable c] (hr : Suffices n m r' r) (hs : Suffices n m s' s) :
    Suffices n m (if c then r' else s') (if c then r else s) :=
  ite_of (fun _ => hr) fun _ => hs

theorem token? {reader : Lexeme.Reader} {kind : LeafKind}
    (happend : ∀ {s text rest}, reader s = some (text, rest) → text ++ rest = s) :
    Suffices n n (token? reader kind) (Rule.token? reader kind) where
  reads i := by
    unfold Rule.token?
    cases reader i.skip.rest <;> exact .inr ⟨rfl, rfl⟩
  leaves := by
    intro i nodes a j h hlt
    have hskip := nesting_skip_le i
    rcases token?_ok h with ⟨-, -, -, rfl⟩ | ⟨text, rest, hread, -, -, rfl⟩
    · omega
    · have happend := congrArg nesting (happend hread)
      rw [nesting_append] at happend
      show nesting rest < n
      omega

theorem word? (t : Token) : Suffices n n (word? t) (Rule.word? t) := token? append_of_word

theorem expect (t : Token) : Suffices n n (expect t) (Rule.expect t) :=
  bind (word? t) fun _ => ite (pure _) (stop (by simp))

/-- Behind a word that opens something less is left to open. -/
theorem opening {t : Token} (ht : n ≤ m + nesting t.spelling.toList) :
    Suffices n m (Rule.expect t) (Rule.expect t) where
  reads := (expect t).reads
  leaves := by
    intro i nodes a j h hlt
    obtain ⟨text, rest, hread, -, rfl⟩ := expect_ok h
    have hword := nesting_word hread
    have hskip := nesting_skip_le i
    show nesting rest < m
    omega

theorem wordThen {t : Token} {settle : α → Token} {body body' : Rule α}
    (ht : n ≤ m + nesting t.spelling.toList) (hbody : Suffices m k body' body) :
    Suffices n k (wordThen t settle body') (Rule.wordThen t settle body) where
  reads i := by
    unfold Rule.wordThen
    cases hread : word t.spelling.toList i.skip.rest with
    | none => exact .inr ⟨rfl, rfl⟩
    | some pair =>
      have hword := nesting_word hread
      have hskip := nesting_skip_le i
      cases hbody.reads (i.skip.after pair.1 pair.2) with
      | inl h =>
        have hle : m ≤ nesting pair.2 := h.2
        exact .inl ⟨h.1, by omega⟩
      | inr h => exact .inr ⟨h.1, by simp only [h.2]⟩
  leaves := by
    intro i nodes a j h hlt
    obtain ⟨text, rest, more, hread, hmore, -⟩ := wordThen_ok h
    have hword := nesting_word hread
    have hskip := nesting_skip_le i
    exact hbody.leaves hmore (show nesting rest < m by omega)

theorem enclose {kind : α → InnerKind} (hr : Suffices n m r' r) :
    Suffices n m (enclose kind r') (Rule.enclose kind r) where
  reads i := by
    unfold Rule.enclose
    cases hr.reads i with
    | inl h =>
      obtain ⟨nodes, hdeep⟩ := isDeep_iff.1 h.1
      exact .inl ⟨isDeep_iff.2 ⟨[], by rw [hdeep]⟩, h.2⟩
    | inr h =>
      obtain ⟨hshallow, h⟩ := h
      refine .inr ⟨?_, by rw [h]⟩
      rcases hread : r' i with ⟨inner, e | ⟨b, l⟩⟩
      · rw [hread] at hshallow
        exact hshallow
      · rfl
  leaves := by
    intro i nodes a j h hlt
    obtain ⟨inside, hread, -⟩ := enclose_ok h
    exact hr.leaves hread hlt

theorem rounds {step step' : σ → Rule (Option σ)} (hstep : ∀ s, Suffices n n (step' s) (step s))
    (count : Nat) (s : σ) : Suffices n n (rounds step' count s) (Rule.rounds step count s) := by
  induction count generalizing s with
  | zero => exact pure s
  | succ count ih =>
    apply bind (hstep s)
    intro next
    cases next with
    | none => exact pure s
    | some s' => exact ih s'

theorem loop {step step' : σ → Rule (Option σ)} (hstep : ∀ s, Suffices n n (step' s) (step s))
    (s : σ) : Suffices n n (loop step' s) (Rule.loop step s) where
  reads i := (rounds hstep (i.rest.length + 1) s).reads i
  leaves h hlt := (rounds hstep _ s).leaves h hlt

theorem variableName : Suffices n n variableName Grammar.variableName :=
  of_traced traced_variableName fun i => by
    unfold Grammar.variableName
    cases Lexeme.name i.skip.rest <;> rfl

theorem stringLiteral : Suffices n n stringLiteral Grammar.stringLiteral :=
  bind (token? append_of_string) fun _ => ite (pure _) (stop (by simp))

theorem peek : Suffices n n peek Rule.peek :=
  of_traced (Traced.peek (K := Grammar.anywhere) (q := true)) fun _ => rfl

theorem ahead (test : List Char → Bool) : Suffices n n (ahead test) (Rule.ahead test) :=
  of_traced (Traced.ahead (K := Grammar.anywhere) (q := true) test) fun _ => rfl

theorem atEnd : Suffices n n atEnd Rule.atEnd := bind peek fun _ => pure _

theorem unaryOperator : Suffices n n unaryOperator Grammar.unaryOperator :=
  bind (word? _) fun _ => ite (pure _) <| bind (word? _) fun _ => ite (pure _) <|
    token? fun h => append_of_word (word_of_negation h)

theorem binaryOperator (lhs : DataType) :
    Suffices n n (binaryOperator lhs) (Grammar.binaryOperator lhs) :=
  of_traced (traced_binaryOperator lhs) fun i => by
    unfold Grammar.binaryOperator Rule.token?
    cases firstWord? binaryOperators i.skip.rest with
    | none => rfl
    | some t => cases hword : word t.spelling.toList i.skip.rest <;> simp [hword]

section Expression

variable {near far e : Rule DataType} (hnear : Suffices n n near e) (hfar : Suffices n n far e)

section Far

include hfar

theorem subscripted {opener : Token} (hopener : nesting opener.spelling.toList = 1)
    (kind : InnerKind) (pair : Bool) :
    Suffices (n + 1) n (subscripted far opener kind pair)
      (Grammar.subscripted e opener kind pair) := by
  apply enclose
  apply bind variableName
  intro type
  apply bind (opening (Nat.add_le_add_left hopener.ge n))
  intro _
  apply bind hfar
  intro _
  have hclose : Suffices n n (do Rule.expect .close; return type)
      (do Rule.expect .close; return type) := bind (expect .close) fun _ => pure _
  exact ite (bind (word? .sliceComma) fun _ => ite (bind hfar fun _ => hclose) hclose) hclose

theorem target : Suffices (n + 1) (n + 1) (target far) (Grammar.target e) :=
  bind (ahead _) fun _ => ite
    (bind (ahead _) fun _ => ite ((subscripted hfar rfl _ _).mono le_rfl (Nat.le_succ n))
      ((subscripted hfar rfl _ _).mono le_rfl (Nat.le_succ n)))
    variableName

theorem reference : Suffices (n + 1) (n + 1) (reference far) (Grammar.reference e) :=
  bind (ahead _) fun _ => ite
    (bind (ahead _) fun _ => ite ((subscripted hfar rfl _ _).mono le_rfl (Nat.le_succ n))
      ((subscripted hfar rfl _ _).mono le_rfl (Nat.le_succ n)))
    variableName

/-- A function opens its parenthesis in its own word or behind it. -/
theorem call {f : Token} (hf : f ∈ functions) :
    Suffices (n + 1) (n + 1) (call far f) (Grammar.call e f) := by
  have hclose : Suffices n n (do Rule.expect .close; return DataType.integer)
      (do Rule.expect .close; return DataType.integer) := bind (expect .close) fun _ => pure _
  have hbody : Suffices n n (do
      let _ ← far
      if f == .scrn then
        Rule.expect .scrnComma
        let _ ← far
      Rule.expect .close
      return DataType.integer) (do
      let _ ← e
      if f == .scrn then
        Rule.expect .scrnComma
        let _ ← e
      Rule.expect .close
      return DataType.integer) :=
    bind hfar fun _ => ite (bind (expect .scrnComma) fun _ => bind hfar fun _ => hclose) hclose
  refine mono (m := n) ?_ le_rfl (Nat.le_succ n)
  cases hparen : f.includesParen with
  | true =>
    have hopens : ∀ f ∈ functions, f.includesParen = true → nesting f.spelling.toList = 1 := by
      decide
    exact bind (opening (Nat.add_le_add_left (hopens f hf hparen).ge n)) fun _ =>
      ite_of (fun _ => hbody) fun hnone => absurd hparen hnone
  | false =>
    exact bind (expect f) fun _ => ite_of (fun hsome => by simp [hparen] at hsome) fun _ =>
      bind (opening le_rfl) fun _ => hbody

theorem named : Suffices (n + 1) (n + 1)
    (fun i => match function? i.skip.rest with
      | some t => Grammar.call far t i
      | none =>
        if (Lexeme.name i.skip.rest).isSome then Grammar.reference far i
        else Rule.stop .expression i)
    (fun i => match function? i.skip.rest with
      | some t => Grammar.call e t i
      | none =>
        if (Lexeme.name i.skip.rest).isSome then Grammar.reference e i
        else Rule.stop .expression i) where
  reads i := by
    cases hfunction : function? i.skip.rest with
    | some f => exact (call hfar (List.mem_of_find?_eq_some hfunction)).reads i
    | none =>
      by_cases hname : (Lexeme.name i.skip.rest).isSome
      · simpa only [if_pos hname] using (reference hfar).reads i
      · exact .inr (by simp [hname, Rule.stop])
  leaves := by
    intro i nodes a j h hlt
    cases hfunction : function? i.skip.rest with
    | some f =>
      rw [hfunction] at h
      exact (call hfar (List.mem_of_find?_eq_some hfunction)).leaves h hlt
    | none =>
      rw [hfunction] at h
      by_cases hname : (Lexeme.name i.skip.rest).isSome
      · rw [if_pos hname] at h
        exact (reference hfar).leaves h hlt
      · rw [if_neg hname] at h
        cases h

end Far

include hnear hfar

theorem primary : Suffices (n + 1) (n + 1) (primaryOf near far) (primaryOf e e) := by
  apply bind (token? append_of_integer)
  intro _
  apply ite (pure _)
  apply bind peek
  intro _
  apply ite (bind stringLiteral fun _ => pure _)
  refine ite (mono (m := n) ?_ le_rfl (Nat.le_succ n)) (named hfar)
  exact bind (opening le_rfl) fun _ => bind hnear fun _ => bind (expect .close) fun _ => pure _

theorem operand : Suffices (n + 1) (n + 1) (operandOf (primaryOf near far))
    (operandOf (primaryOf e e)) :=
  bind (loop (fun _ => bind (unaryOperator) fun _ => pure _) _) fun _ =>
    bind (primary hnear hfar) fun _ => pure _

theorem operands : Suffices (n + 1) (n + 1) (operandsOf (operandOf (primaryOf near far)))
    (Grammar.operands e) := by
  apply bind (operand hnear hfar)
  intro first
  apply bind
  · apply loop
    rintro ⟨lhs, alone⟩
    exact bind (binaryOperator lhs) fun _ =>
      ite (bind (operand hnear hfar) fun _ => pure _) (pure _)
  · rintro ⟨type, alone⟩
    exact pure _

end Expression

/-- Every step deeper takes four calls at most. -/
theorem expressionOn {calls : Nat} (h : 4 * n ≤ calls) :
    Suffices n n (expressionOn calls) expression := by
  induction calls using Nat.strong_induction_on generalizing n with
  | h calls ih =>
    match calls, h with
    | 0, h | 1, h | 2, h | 3, h =>
      obtain rfl : n = 0 := by omega
      exact of_depth
    | calls + 4, h =>
      have hstep : ∀ n, 4 * n ≤ calls →
          Suffices (n + 1) (n + 1) (Grammar.expressionOn (calls + 4)) expression := by
        intro n hn
        have hoperands := operands (ih (calls + 1) (by omega) (by omega : 4 * n ≤ calls + 1))
          (ih calls (by omega) hn)
        rwa [computes_expression.equation] at hoperands
      cases n with
      | zero => exact (hstep 0 (Nat.zero_le _)).zero
      | succ n => exact hstep n (by omega)

section Statement

variable {near far : Rule DataType} {nested nested' : Rule Unit}
  (hnear : Suffices n n near expression) (hfar : Suffices n n far expression)

include hfar in
theorem target_same : Suffices n n (Grammar.target far) (Grammar.target expression) :=
  (target hfar).less (traced_target traced_expression_only) (Nat.le_succ n)

include hnear hfar in
theorem assignment (word : Option Token) :
    Suffices n n (assignmentOf near far word) (assignmentRule word) := by
  apply enclose
  have hbody : Suffices n n (do
      let type ← Grammar.target far
      Rule.expect (.equals type)
      let _ ← near
      return type) (do
      let type ← Grammar.target expression
      Rule.expect (.equals type)
      let _ ← expression
      return type) :=
    bind (target_same hfar) fun _ => bind (expect _) fun _ => bind hnear fun _ => pure _
  cases word with
  | none => exact hbody
  | some t => exact bind (expect t) fun _ => hbody

theorem integerName : Suffices n n integerName integerName :=
  bind variableName fun _ => ite (stop (by simp)) (pure _)

theorem repeated (separator : Token) {item item' : Rule Unit} (hitem : Suffices n n item' item) :
    Suffices n n (repeated separator item') (repeated separator item) :=
  loop (fun _ => bind (word? _) fun _ => ite (bind hitem fun _ => pure _) (pure _)) _

theorem lineArgument : Suffices n n (Rule.token? Lexeme.integer .lineArgument)
    (Rule.token? Lexeme.integer .lineArgument) := token? append_of_integer

include hnear

theorem extent (type : DataType) :
    Suffices n n (extentOf near type) (extentOf expression type) :=
  bind (expect _) fun _ => bind hnear fun _ => expect _

theorem printItem : Suffices n n (printItemOf near) (printItemOf expression) :=
  bind (bind peek fun _ => pure _) fun _ => ite (pure _) (bind hnear fun _ => pure _)

theorem printTail :
    Suffices n n (printTailOf (printItemOf near)) (printTailOf (printItemOf expression)) :=
  bind peek fun _ => ite
    (bind (wordThen (Nat.le_add_right _ _) (printItem hnear)) fun _ => pure _) <|
    ite (bind (wordThen (Nat.le_add_right _ _) (printItem hnear)) fun _ => pure _) (pure _)

/-- A statement behind `THEN` is behind a letter H. -/
theorem conditional (hnested : Suffices (n - 1) (n - 1) nested' nested) :
    Suffices n n (Form.conditional.ruleOf near far nested')
      (Form.conditional.ruleOf expression expression nested) := by
  have hle : n ≤ n - 1 + nesting (Token.spelling .thenStatement).toList := by
    show n ≤ n - 1 + 1
    omega
  refine bind (expect _) fun _ => bind hnear fun _ => ?_
  refine mono (m := n - 1) ?_ le_rfl (Nat.sub_le n 1)
  refine bind (wordThen hle (ahead _)) fun _ => ite ?_ ?_
  · exact bind (hnear.less traced_expression (Nat.sub_le n 1)) fun _ => pure _
  · exact bind atEnd fun _ => ite (stop (by simp)) hnested

include hfar

/-- A form leads one step deeper at most. -/
theorem ruleOf (hnested : Suffices (n - 1) (n - 1) nested' nested) (form : Form) :
    Suffices n n (form.ruleOf near far nested') (form.ruleOf expression expression nested) := by
  cases form with
  | bare t => exact expect t
  | single t => exact bind (expect t) fun _ => bind hnear fun _ => pure _
  | pair t separator =>
    exact bind (expect t) fun _ => bind hnear fun _ => bind (expect separator) fun _ =>
      bind hnear fun _ => pure _
  | draw t separator position =>
    exact bind (expect t) fun _ => bind hfar fun _ => bind (expect separator) fun _ =>
      bind hfar fun _ => bind (expect position) fun _ => bind hnear fun _ => pure _
  | lineRange t numbered separator =>
    refine bind (wordThen (Nat.le_add_right _ _) lineArgument) fun _ => ite ?_ (pure _)
    cases separator with
    | none => exact pure _
    | some comma =>
      exact bind (word? comma) fun _ =>
        ite (bind lineArgument fun _ => ite (pure _) (stop (by simp))) (pure _)
  | display isOn =>
    exact ite (bind (wordThen (Nat.le_add_right _ _) variableName) fun _ => pure _)
      (bind (wordThen (Nat.le_add_right _ _) variableName) fun _ => pure _)
  | forLoop =>
    exact bind (expect _) fun _ => bind integerName fun _ => bind (expect _) fun _ =>
      bind hnear fun _ => bind (expect _) fun _ => bind hnear fun _ =>
        bind (word? _) fun _ => ite (bind hnear fun _ => pure _) (pure _)
  | nextLoop =>
    exact bind (expect _) fun _ => bind integerName fun _ => repeated _ integerName
  | dimension =>
    exact bind (wordThen (Nat.le_add_right _ _) variableName) fun _ => bind (extent hnear _) fun _ =>
      repeated _ (bind variableName fun _ => extent hnear _)
  | inputList =>
    have htarget := target_same hfar
    have htargets := repeated .inputComma (bind htarget fun _ => pure ())
    refine bind (m := n) (wordThen (Nat.le_add_right _ _) (bind peek fun _ => ?_)) fun _ => ?_
    · exact ite (bind stringLiteral fun _ => bind (expect _) fun _ => pure _)
        (bind htarget fun _ => pure _)
    · exact ite (bind htarget fun _ => htargets) htargets
  | printList =>
    exact bind (wordThen (Nat.le_add_right _ _) (printItem hnear)) fun _ =>
      loop (fun _ => printTail hnear) _
  | conditional => exact conditional hnear hnested
  | remark =>
    refine bind (expect _) fun _ => ⟨fun i => .inr ⟨?_, rfl⟩, ?_⟩
    · cases i.rest.isEmpty <;> simp
    · intro i nodes a j h hlt
      cases hempty : i.rest.isEmpty with
      | true =>
        simp only [hempty] at h
        cases h
        exact hlt
      | false =>
        simp only [hempty] at h
        cases h
        exact Nat.lt_of_le_of_lt (Nat.zero_le _) hlt
  | assignment => exact bind (assignment hnear hfar (some .assign)) fun _ => pure _

omit hnear hfar in
theorem whole {r r' : Rule α} (h : Suffices n n r' r) : Suffices n n (whole r') (whole r) :=
  bind h fun _ => bind atEnd fun _ => ite (pure _) (stop (by simp))

end Statement

/-- The statement behind `THEN`. -/
theorem nested {read : Input → Except Overflow (Node × Input)}
    (h : ∀ i, read i = .error .depth ∧ n ≤ nesting i.rest ∨ read i = .ok (statement i)) :
    Suffices n n (nestedOn read) (nestedRule statement) where
  reads i := by
    unfold nestedOn nestedRule
    cases h i with
    | inl h => exact .inl ⟨by rw [h.1]; rfl, h.2⟩
    | inr h => exact .inr ⟨by rw [h]; rfl, by rw [h]⟩
  leaves := by
    intro i nodes a j h hlt
    cases h
    obtain ⟨text, hpasses⟩ := (isStatement_statement i).passes
    have hskip := nesting_skip_le i
    have hle := hpasses.nesting_le
    omega

end Suffices

end IntegerBasic.Grammar
