import IntegerBasic.Proofs.Grammar.Yields

/-!
# What expressions leave behind

The nodes of an expression are one flat run in which every parenthesis is matched by a closing one,
and every function stands right before its parenthesis. A subscripted variable is one node of the
run. That is what a reader of the run has to know who counts parentheses, or who looks for the
arguments of a function.
-/

namespace IntegerBasic

/-- A token that begins a list of variables or stands between two of them. -/
def Token.isListing : Token → Bool
  | .dim _ | .input _ | .inputPrompt | .forLoop | .dimComma | .inputComma | .promptComma => true
  | _ => false

namespace LeafKind

def isName : LeafKind → Bool
  | .name _ => true
  | _ => false

/-- A leaf that is no part of a list of variables and numbers no line. -/
def isOrdinary : LeafKind → Bool
  | .token t => !t.isListing
  | .lineNumber | .error _ => false
  | _ => true

/-- A leaf of an expression that is no parenthesis and has none in its spelling. -/
def isLoose : LeafKind → Bool
  | .token t => t.group == .operator || t.group == .function && !t.includesParen ||
    t == .sliceComma || t == .scrnComma
  | .integer | .name _ | .string => true
  | _ => false

def calls : LeafKind → Bool
  | .token t => t.group == .function && !t.includesParen
  | _ => false

def opens : LeafKind → Bool
  | .token t => t.includesParen || t == .openSlice || t == .openParen || t == .openCall ||
    t == .openElement .integer || t == .openElement .string
  | _ => false

end LeafKind

def InnerKind.isSubscripted : InnerKind → Bool
  | .element _ | .slice => true
  | _ => false

inductive Ordinary : List Node → Prop
  | nil : Ordinary []
  | leaf {l : Leaf} {more : List Node} (h : l.kind.isOrdinary = true) (rest : Ordinary more) :
      Ordinary (.leaf l :: more)
  | inner {label : Label} {children more : List Node} (kind : label.kind.isSubscripted = true)
      (within : Ordinary children) (rest : Ordinary more) :
      Ordinary (.inner label children :: more)

/-- The nodes of an expression. Every parenthesis is matched by a closing one. -/
inductive Matched : List Node → Prop
  | nil : Matched []
  | leaf {l : Leaf} {more : List Node} (h : l.kind.isLoose = true) (rest : Matched more) :
      Matched (.leaf l :: more)
  | inner {label : Label} {children more : List Node} (kind : label.kind.isSubscripted = true)
      (within : Matched children) (rest : Matched more) : Matched (.inner label children :: more)
  | bracket {opener closer : Leaf} {inside more : List Node} (ho : opener.kind.opens = true)
      (hc : closer.kind = .token .close) (within : Matched inside) (rest : Matched more) :
      Matched (.leaf opener :: (inside ++ .leaf closer :: more))

/-- The nodes of an expression, where every function stands right before its parenthesis. -/
inductive Expressed : List Node → Prop
  | nil : Expressed []
  | leaf {l : Leaf} {more : List Node} (h : l.kind.isLoose = true) (hcall : l.kind.calls = false)
      (rest : Expressed more) : Expressed (.leaf l :: more)
  | inner {label : Label} {children more : List Node} (kind : label.kind.isSubscripted = true)
      (within : Expressed children) (rest : Expressed more) :
      Expressed (.inner label children :: more)
  | bracket {opener closer : Leaf} {inside more : List Node} (ho : opener.kind.opens = true)
      (hc : closer.kind = .token .close) (within : Expressed inside) (rest : Expressed more) :
      Expressed (.leaf opener :: (inside ++ .leaf closer :: more))
  | call {word opener closer : Leaf} {inside more : List Node} (hw : word.kind.calls = true)
      (ho : opener.kind = .token .openCall) (hc : closer.kind = .token .close)
      (within : Expressed inside) (rest : Expressed more) :
      Expressed (.leaf word :: .leaf opener :: (inside ++ .leaf closer :: more))

theorem Ordinary.append {xs ys : List Node} (hx : Ordinary xs) (hy : Ordinary ys) :
    Ordinary (xs ++ ys) := by
  induction hx with
  | nil => exact hy
  | leaf h _ ih => exact .leaf h ih
  | inner kind within _ _ ih => exact .inner kind within ih

theorem Matched.append {xs ys : List Node} (hx : Matched xs) (hy : Matched ys) :
    Matched (xs ++ ys) := by
  induction hx with
  | nil => exact hy
  | leaf h _ ih => exact .leaf h ih
  | inner kind within _ _ ih => exact .inner kind within ih
  | bracket ho hc within _ _ ih =>
    rw [List.cons_append, List.append_assoc, List.cons_append]
    exact .bracket ho hc within ih

theorem Expressed.append {xs ys : List Node} (hx : Expressed xs) (hy : Expressed ys) :
    Expressed (xs ++ ys) := by
  induction hx with
  | nil => exact hy
  | leaf h hcall _ ih => exact .leaf h hcall ih
  | inner kind within _ _ ih => exact .inner kind within ih
  | bracket ho hc within _ _ ih =>
    rw [List.cons_append, List.append_assoc, List.cons_append]
    exact .bracket ho hc within ih
  | call hw ho hc within _ _ ih =>
    rw [List.cons_append, List.cons_append, List.append_assoc, List.cons_append]
    exact .call hw ho hc within ih

theorem isLoose_of_calls {kind : LeafKind} (h : kind.calls = true) : kind.isLoose = true := by
  cases kind with
  | token t =>
    have key : ∀ t ∈ Token.all, (LeafKind.token t).calls = true →
        (LeafKind.token t).isLoose = true := by decide +kernel
    exact key t (Token.mem_all t) h
  | _ => cases h

theorem Expressed.matched {nodes : List Node} (h : Expressed nodes) : Matched nodes := by
  induction h with
  | nil => exact .nil
  | leaf h _ _ ih => exact .leaf h ih
  | inner kind _ _ ih₁ ih₂ => exact .inner kind ih₁ ih₂
  | bracket ho hc _ _ ih₁ ih₂ => exact .bracket ho hc ih₁ ih₂
  | call hw ho hc _ _ ih₁ ih₂ =>
    exact .leaf (isLoose_of_calls hw) (.bracket (by rw [ho]; rfl) hc ih₁ ih₂)

theorem isOrdinary_of_isLoose {kind : LeafKind} (h : kind.isLoose = true) :
    kind.isOrdinary = true := by
  cases kind with
  | token t =>
    have key : ∀ t ∈ Token.all, (LeafKind.token t).isLoose = true →
        (LeafKind.token t).isOrdinary = true := by decide +kernel
    exact key t (Token.mem_all t) h
  | lineNumber | error => cases h
  | _ => rfl

theorem isOrdinary_of_opens {kind : LeafKind} (h : kind.opens = true) :
    kind.isOrdinary = true := by
  cases kind with
  | token t =>
    have key : ∀ t ∈ Token.all, (LeafKind.token t).opens = true →
        (LeafKind.token t).isOrdinary = true := by decide +kernel
    exact key t (Token.mem_all t) h
  | _ => cases h

theorem Matched.ordinary {nodes : List Node} (h : Matched nodes) : Ordinary nodes := by
  induction h with
  | nil => exact .nil
  | leaf h _ ih => exact .leaf (isOrdinary_of_isLoose h) ih
  | inner kind _ _ ih₁ ih₂ => exact .inner kind ih₁ ih₂
  | bracket ho hc _ _ ih₁ ih₂ =>
    exact .leaf (isOrdinary_of_opens ho) (ih₁.append (.leaf (by rw [hc]; rfl) ih₂))

inductive IsVariable : Node → Prop
  | name {l : Leaf} (h : l.kind.isName = true) : IsVariable (.leaf l)
  | element {label : Label} {l : Leaf} {more : List Node} {type : DataType}
      (kind : label.kind = .element type) (h : l.kind.isName = true) (rest : Ordinary more) :
      IsVariable (.inner label (.leaf l :: more))

namespace Grammar

open Rule

variable {α β : Type}

theorem joins_ordinary : Joins Ordinary := ⟨.nil, .append⟩

theorem joins_expressed : Joins Expressed := ⟨.nil, .append⟩

theorem expressed_leaf {kind : LeafKind} (h : kind.isLoose = true) (hcall : kind.calls = false)
    (i : Input) (text : List Char) : Expressed [i.leaf kind text] := .leaf h hcall .nil

theorem expressed_variableName : Yields Expressed variableName := by
  intro i nodes a j h
  obtain ⟨text, rest, -, -, rfl, -⟩ := variableName_ok h
  exact expressed_leaf rfl rfl _ _

theorem expressed_stringLiteral : Yields Expressed stringLiteral :=
  .bind joins_expressed (.token? joins_expressed (expressed_leaf rfl rfl)) fun _ =>
    .ite (.pure joins_expressed _) (.stop _)

def Closes (nodes : List Node) : Prop :=
  ∃ inside closer, nodes = inside ++ [.leaf closer] ∧ Expressed inside ∧ closer.kind = .token .close

theorem expressed_close (a : α) : Yields Closes (do expect .close; return a) := by
  intro i nodes b j h
  obtain ⟨xs, ⟨⟩, k, ys, hx, hy, rfl⟩ := bind_ok h
  cases hy
  obtain ⟨text, rest, -, rfl, -⟩ := expect_ok hx
  exact ⟨[], _, rfl, .nil, rfl⟩

theorem Yields.bind_closes {r : Rule α} {f : α → Rule β} (hr : Yields Expressed r)
    (hf : ∀ a, Yields Closes (f a)) : Yields Closes (r >>= f) := by
  intro i nodes b j h
  obtain ⟨xs, a, k, ys, hx, hy, rfl⟩ := bind_ok h
  obtain ⟨inside, closer, rfl, hinside, hcloser⟩ := hf a hy
  exact ⟨xs ++ inside, closer, by simp, (hr hx).append hinside, hcloser⟩

/-- A parenthesis and what it opens, up to the one that closes it. -/
theorem expressed_bracket {opener : Token} (ho : (LeafKind.token opener).opens = true)
    {f : Unit → Rule α} (hf : ∀ u, Yields Closes (f u)) :
    Yields Expressed (expect opener >>= f) := by
  intro i nodes b j h
  obtain ⟨xs, ⟨⟩, k, ys, hx, hy, rfl⟩ := bind_ok h
  obtain ⟨text, rest, -, rfl, -⟩ := expect_ok hx
  obtain ⟨inside, closer, rfl, hinside, hcloser⟩ := hf () hy
  exact .bracket ho hcloser hinside .nil

def IsElement (kind : InnerKind) (nodes : List Node) : Prop :=
  ∃ label l more, nodes = [.inner label (.leaf l :: more)] ∧ label.kind = kind ∧
    l.kind.isName = true ∧ Expressed more

theorem isLoose_of_isName {kind : LeafKind} (h : kind.isName = true) : kind.isLoose = true := by
  cases kind with
  | name => rfl
  | _ => cases h

theorem calls_eq_false_of_isName {kind : LeafKind} (h : kind.isName = true) :
    kind.calls = false := by
  cases kind with
  | name => rfl
  | _ => cases h

theorem IsElement.expressed {kind : InnerKind} (hkind : kind.isSubscripted = true)
    {nodes : List Node} (h : IsElement kind nodes) : Expressed nodes := by
  obtain ⟨label, l, more, rfl, hlabel, hl, hmore⟩ := h
  have hname := isLoose_of_isName hl
  exact .inner (by rw [hlabel, hkind]) (.leaf hname (calls_eq_false_of_isName hl) hmore) .nil

section Expression

variable {e : Rule DataType} (he : Yields Expressed e)
include he

theorem expressed_subscripted {opener : Token} (ho : (LeafKind.token opener).opens = true)
    (kind : InnerKind) (pair : Bool) :
    Yields (IsElement kind) (subscripted e opener kind pair) := by
  intro i nodes a j h
  have hsubscript : ∀ type, Yields Expressed (do
      expect opener
      let _ ← e
      if pair then
        if ← word? .sliceComma then
          let _ ← e
      expect .close
      return type : Rule DataType) := by
    intro type
    apply expressed_bracket ho
    intro _
    apply Yields.bind_closes he
    intro _
    apply Yields.ite
    · apply Yields.bind_closes (.token? joins_expressed (expressed_leaf rfl rfl))
      intro found
      exact .ite (.bind_closes he fun _ => expressed_close _) (expressed_close _)
    · exact expressed_close _
  obtain ⟨inside, hinside, rfl⟩ := enclose_ok h
  obtain ⟨xs, type, k, ys, hx, hy, rfl⟩ := bind_ok hinside
  obtain ⟨text, rest, -, -, rfl, -⟩ := variableName_ok hx
  exact ⟨_, _, ys, rfl, rfl, rfl, hsubscript _ hy⟩

theorem expressed_reference : Yields Expressed (reference e) := by
  apply Yields.bind joins_expressed (.ahead joins_expressed _)
  intro indexed
  apply Yields.ite
  · apply Yields.bind joins_expressed (.ahead joins_expressed _)
    intro isString
    exact .ite ((expressed_subscripted he rfl _ _).mono fun _ h => h.expressed rfl)
      ((expressed_subscripted he rfl _ _).mono fun _ h => h.expressed rfl)
  · exact expressed_variableName

theorem expressed_call {f : Token} (hf : f ∈ functions) : Yields Expressed (call e f) := by
  have hbody : Yields Closes (do
      let _ ← e
      if f == .scrn then
        expect .scrnComma
        let _ ← e
      expect .close
      return DataType.integer) := by
    apply Yields.bind_closes he
    intro _
    apply Yields.ite
    · exact .bind_closes (.expect joins_expressed (expressed_leaf rfl rfl)) fun _ =>
        .bind_closes he fun _ => expressed_close _
    · exact expressed_close _
  have key : ∀ f ∈ functions, (LeafKind.token f).opens = f.includesParen ∧
      (LeafKind.token f).calls = !f.includesParen := by decide +kernel
  obtain ⟨hopens, hcalls⟩ := key f hf
  unfold call
  cases hparen : f.includesParen with
  | true => exact expressed_bracket (hopens.trans hparen) fun _ => hbody
  | false =>
    intro i nodes a j h
    obtain ⟨xs, ⟨⟩, k, ys, hx, hy, rfl⟩ := bind_ok h
    obtain ⟨zs, ⟨⟩, l, ws, hz, hw, rfl⟩ := bind_ok hy
    obtain ⟨text, rest, -, rfl, -⟩ := expect_ok hx
    obtain ⟨text', rest', -, rfl, -⟩ := expect_ok hz
    obtain ⟨inside, closer, rfl, hinside, hcloser⟩ := hbody hw
    rw [hparen] at hcalls
    exact .call hcalls rfl hcloser hinside .nil

theorem expressed_primary : Yields Expressed (primary e) := by
  apply Yields.bind joins_expressed (.token? joins_expressed (expressed_leaf rfl rfl))
  intro found
  apply Yields.ite (.pure joins_expressed _)
  apply Yields.bind joins_expressed (.peek joins_expressed)
  intro next
  apply Yields.ite
  · exact .map joins_expressed expressed_stringLiteral _
  apply Yields.ite
  · exact expressed_bracket rfl fun _ => .bind_closes he fun _ => expressed_close _
  · intro i nodes a j h
    dsimp only at h
    cases hf : function? i.skip.rest with
    | some f =>
      rw [hf] at h
      exact expressed_call he (List.mem_of_find?_eq_some hf) h
    | none =>
      simp only [hf] at h
      split at h
      · exact expressed_reference he h
      · cases h

omit he in
theorem expressed_unaryOperator : Yields Expressed unaryOperator := by
  apply Yields.bind joins_expressed (.token? joins_expressed (expressed_leaf rfl rfl))
  intro minus
  apply Yields.ite (.pure joins_expressed _)
  apply Yields.bind joins_expressed (.token? joins_expressed (expressed_leaf rfl rfl))
  intro plus
  exact .ite (.pure joins_expressed _) (.token? joins_expressed (expressed_leaf rfl rfl))

theorem expressed_operand : Yields Expressed (operand e) :=
  .bind joins_expressed
    (.loop joins_expressed (fun _ => .map joins_expressed expressed_unaryOperator _) _)
    fun _ => .map joins_expressed (expressed_primary he) _

omit he in
theorem expressed_binaryOperator (lhs : DataType) : Yields Expressed (binaryOperator lhs) := by
  have key : ∀ t ∈ binaryOperators, ∀ lhs ∈ [DataType.integer, DataType.string],
      (LeafKind.token (operatorAfter lhs t)).isLoose = true ∧
        (LeafKind.token (operatorAfter lhs t)).calls = false := by decide +kernel
  intro i nodes a j h
  rcases binaryOperator_ok h with ⟨-, rfl, -, -⟩ | ⟨t, text, rest, ht, -, rfl, -, -⟩
  · exact .nil
  · obtain ⟨hloose, hcall⟩ := key t (List.mem_of_find?_eq_some ht) lhs (by cases lhs <;> simp)
    exact expressed_leaf hloose hcall _ text

theorem expressed_operands : Yields Expressed (operands e) := by
  apply Yields.bind joins_expressed (expressed_operand he)
  intro first
  refine .map joins_expressed (.loop joins_expressed ?_ _) _
  intro state
  apply Yields.bind joins_expressed (expressed_binaryOperator _)
  intro found
  exact .ite (.map joins_expressed (expressed_operand he) _) (.pure joins_expressed _)

end Expression

theorem expressed_expression : Yields Expressed expression := by
  have key : ∀ n, Yields Expressed (expressionUpTo n) := by
    intro n
    induction n with
    | zero => exact .stop _
    | succ n ih => exact expressed_operands ih
  intro i nodes a j h
  exact key _ h

theorem expressed_target : Yields Expressed (target expression) := by
  apply Yields.bind joins_expressed (.ahead joins_expressed _)
  intro indexed
  refine .ite ?_ expressed_variableName
  apply Yields.bind joins_expressed (.ahead joins_expressed _)
  intro isString
  exact .ite ((expressed_subscripted expressed_expression rfl _ _).mono fun _ h => h.expressed rfl)
    ((expressed_subscripted expressed_expression rfl _ _).mono fun _ h => h.expressed rfl)

def IsName (nodes : List Node) : Prop := ∃ l : Leaf, nodes = [.leaf l] ∧ l.kind.isName = true

def IsTarget (nodes : List Node) : Prop := ∃ node, nodes = [node] ∧ IsVariable node

theorem yields_name : Yields IsName variableName := by
  intro i nodes a j h
  obtain ⟨text, rest, -, -, rfl, -⟩ := variableName_ok h
  exact ⟨_, rfl, rfl⟩

theorem IsName.isTarget {nodes : List Node} (h : IsName nodes) : IsTarget nodes := by
  obtain ⟨l, rfl, hl⟩ := h
  exact ⟨_, rfl, .name hl⟩

theorem IsElement.isTarget {type : DataType} {nodes : List Node}
    (h : IsElement (.element type) nodes) : IsTarget nodes := by
  obtain ⟨label, l, more, rfl, hlabel, hl, hmore⟩ := h
  exact ⟨_, rfl, .element hlabel hl hmore.matched.ordinary⟩

theorem yields_target : Yields IsTarget (target expression) := by
  have hnil : ∀ {β : Type} {test : List Char → Bool} {f : Bool → Rule β},
      (∀ a, Yields IsTarget (f a)) → Yields IsTarget (ahead test >>= f) := by
    intro β test f hf i nodes b j h
    obtain ⟨xs, a, k, ys, hx, hy, rfl⟩ := bind_ok h
    cases hx
    exact hf _ hy
  apply hnil
  intro indexed
  apply Yields.ite
  · apply hnil
    intro isString
    exact .ite ((expressed_subscripted expressed_expression rfl _ _).mono fun _ h => h.isTarget)
      ((expressed_subscripted expressed_expression rfl _ _).mono fun _ h => h.isTarget)
  · exact yields_name.mono fun _ h => h.isTarget

end Grammar

end IntegerBasic
