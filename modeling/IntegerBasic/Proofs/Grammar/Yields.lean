import IntegerBasic.Proofs.Grammar.StatementTraces

/-!
# What rules leave behind

A property of runs of nodes that joined runs keep is closed under the ways to put rules together.
So it holds of the nodes of every statement if it holds of expressions, of the variables that are
given values and of the leaves that the forms of statements ask for by themselves.
-/

namespace IntegerBasic.Grammar

open Rule

variable {α β σ : Type}

def Yields (P : List Node → Prop) (r : Rule α) : Prop :=
  ∀ ⦃i nodes a j⦄, r i = ⟨nodes, .ok (a, j)⟩ → P nodes

structure Joins (P : List Node → Prop) : Prop where
  nil : P []
  append : ∀ {xs ys}, P xs → P ys → P (xs ++ ys)

namespace Yields

variable {P Q : List Node → Prop}

theorem mono {r : Rule α} (h : Yields P r) (hPQ : ∀ nodes, P nodes → Q nodes) : Yields Q r :=
  fun _ _ _ _ hr => hPQ _ (h hr)

theorem stop (cause : Mismatch) : Yields P (stop cause : Rule α) := by
  intro i nodes a j h
  cases h

theorem ite {c : Prop} [Decidable c] {r s : Rule α} (hr : Yields P r) (hs : Yields P s) :
    Yields P (if c then r else s) := by
  split
  · exact hr
  · exact hs

theorem enclose {kind : α → InnerKind} {r : Rule α} (h : Yields P r)
    (hP : ∀ (i : Input) a nodes, P nodes → P [i.enclose (kind a) nodes]) :
    Yields P (enclose kind r) := by
  intro i nodes a j hr
  obtain ⟨inside, hinside, rfl⟩ := enclose_ok hr
  exact hP i a inside (h hinside)

variable (joins : Joins P)
include joins

theorem pure (a : α) : Yields P (Pure.pure a : Rule α) := by
  intro i nodes b j h
  cases h
  exact joins.nil

theorem bind {r : Rule α} {f : α → Rule β} (hr : Yields P r) (hf : ∀ a, Yields P (f a)) :
    Yields P (r >>= f) := by
  intro i nodes b j h
  obtain ⟨xs, a, k, ys, hx, hy, rfl⟩ := bind_ok h
  exact joins.append (hr hx) (hf a hy)

/-- The value of a rule is dropped or changed. -/
theorem map {r : Rule α} (hr : Yields P r) (f : α → β) :
    Yields P (do let a ← r; return f a) :=
  bind joins hr fun a => pure joins (f a)

theorem peek : Yields P peek := by
  intro i nodes a j h
  cases h
  exact joins.nil

theorem ahead (test : List Char → Bool) : Yields P (ahead test) := by
  intro i nodes a j h
  cases h
  exact joins.nil

theorem token? {reader : Lexeme.Reader} {kind : LeafKind}
    (h : ∀ (i : Input) text, P [i.leaf kind text]) : Yields P (token? reader kind) := by
  intro i nodes a j hr
  rcases token?_ok hr with ⟨-, rfl, -, -⟩ | ⟨text, rest, -, rfl, -, -⟩
  · exact joins.nil
  · exact h _ text

theorem expect {t : Token} (h : ∀ (i : Input) text, P [i.leaf (.token t) text]) :
    Yields P (expect t) := by
  apply bind joins (token? joins h)
  intro found
  exact ite (pure joins _) (stop _)

theorem wordThen {t : Token} {settle : α → Token} {body : Rule α}
    (hword : ∀ (i : Input) text a, P [i.leaf (.token (settle a)) text]) (hbody : Yields P body) :
    Yields P (wordThen t settle body) := by
  intro i nodes a j h
  obtain ⟨text, rest, more, -, hmore, rfl⟩ := wordThen_ok h
  exact joins.append (hword _ text a) (hbody hmore)

theorem loop {step : σ → Rule (Option σ)} (h : ∀ s, Yields P (step s)) (s : σ) :
    Yields P (loop step s) := by
  have key : ∀ n s, Yields P (rounds step n s) := by
    intro n
    induction n with
    | zero => exact fun s => pure joins s
    | succ n ih =>
      intro s
      apply bind joins (h s)
      intro next
      cases next with
      | none => exact pure joins s
      | some s' => exact ih s'
  intro i nodes a j hr
  exact key _ s hr

end Yields

/-- The leaves that a form asks for by itself: those of its words, separators and names, but not
those of expressions, of subscripted variables and of a statement nested in it. -/
def Form.kinds : Form → List LeafKind
  | .bare t | .single t => [.token t]
  | .pair t separator => [.token t, .token separator]
  | .draw t separator position => [.token t, .token separator, .token position]
  | .lineRange t numbered separator =>
    .token t :: .token numbered :: .lineArgument :: separator.toList.map .token
  | .display isOn =>
    let word := if isOn then Token.dsp else Token.nodsp
    [.token (word .integer), .token (word .string), .name .integer, .name .string]
  | .forLoop =>
    [.token .forLoop, .name .integer, .name .string, .token .forEquals, .token .toLimit,
      .token .stepBy]
  | .nextLoop => [.token .next, .name .integer, .name .string, .token .nextComma]
  | .dimension =>
    [.token (.dim .integer), .token (.dim .string), .name .integer, .name .string,
      .token (.openDim .integer), .token (.openDim .string), .token .close, .token .dimComma]
  | .inputList =>
    [.token (.input .integer), .token (.input .string), .token .inputPrompt, .string,
      .token .promptComma, .token .inputComma]
  | .printList =>
    [.token (.print none), .token (.print (some .integer)), .token (.print (some .string)),
      .token (.comma none), .token (.comma (some .integer)), .token (.comma (some .string)),
      .token (.semicolon none), .token (.semicolon (some .integer)),
      .token (.semicolon (some .string))]
  | .conditional => [.token .condition, .token .thenStatement, .token .thenLine]
  | .remark => [.token .rem, .comment]
  | .assignment => [.token .assign, .token (.equals .integer), .token (.equals .string)]

def Form.isFlat : Form → Bool
  | .dimension | .inputList | .conditional | .assignment => false
  | _ => true

structure Accepts (P : List Node → Prop) (kinds : List LeafKind) : Prop extends Joins P where
  expression : Yields P expression
  leaf : ∀ kind ∈ kinds, ∀ (i : Input) (text : List Char), P [i.leaf kind text]

namespace Accepts

variable {P : List Node → Prop} {kinds : List LeafKind} (h : Accepts P kinds)
include h

theorem expect {t : Token} (ht : .token t ∈ kinds) : Yields P (expect t) :=
  .expect h.toJoins (h.leaf _ ht)

theorem word? {t : Token} (ht : .token t ∈ kinds) : Yields P (word? t) :=
  .token? h.toJoins (h.leaf _ ht)

theorem wordThen {t : Token} {settle : α → Token} {body : Rule α}
    (hsettle : ∀ a, .token (settle a) ∈ kinds) (hbody : Yields P body) :
    Yields P (wordThen t settle body) :=
  .wordThen h.toJoins (fun i text a => h.leaf _ (hsettle a) i text) hbody

theorem operand : Yields P (do let _ ← Grammar.expression) := .map h.toJoins h.expression _

theorem variableName (hname : ∀ type, .name type ∈ kinds) : Yields P variableName := by
  intro i nodes a j hr
  unfold Grammar.variableName at hr
  split at hr <;> cases hr
  exact h.leaf _ (hname _) _ _

theorem integerName (hname : ∀ type, .name type ∈ kinds) : Yields P integerName :=
  .bind h.toJoins (h.variableName hname) fun _ => .ite (.stop _) (.pure h.toJoins _)

theorem repeated {separator : Token} (hseparator : .token separator ∈ kinds) {item : Rule Unit}
    (hitem : Yields P item) : Yields P (repeated separator item) := by
  apply Yields.loop h.toJoins
  intro _
  apply Yields.bind h.toJoins (h.word? hseparator)
  intro found
  exact .ite (.map h.toJoins hitem _) (.pure h.toJoins _)

theorem lineRange {t numbered : Token} {separator : Option Token}
    (hkinds : (Form.lineRange t numbered separator).kinds ⊆ kinds)
    (nested : Input → Node × Input) :
    Yields P ((Form.lineRange t numbered separator).rule nested) := by
  have hargument : Yields P (token? Lexeme.integer .lineArgument) :=
    .token? h.toJoins (h.leaf _ (hkinds (by simp [Form.kinds])))
  apply Yields.bind h.toJoins
  · refine h.wordThen (fun isNumbered => hkinds ?_) hargument
    cases isNumbered <;> simp [Form.kinds]
  · intro isNumbered
    apply Yields.ite _ (.pure h.toJoins _)
    cases separator with
    | none => exact .pure h.toJoins _
    | some comma =>
      apply Yields.bind h.toJoins (h.word? (hkinds (by simp [Form.kinds])))
      intro found
      refine .ite (.bind h.toJoins hargument fun _ => ?_) (.pure h.toJoins _)
      exact .ite (.pure h.toJoins _) (.stop _)

theorem printItem : Yields P printItem := by
  apply Yields.bind h.toJoins (.map h.toJoins (.peek h.toJoins) _)
  intro none
  exact .ite (.pure h.toJoins _) (.map h.toJoins h.expression _)

theorem printTail (hkinds : Form.printList.kinds ⊆ kinds) : Yields P printTail := by
  have hword : ∀ {t : Token} {settle : Option DataType → Token},
      (∀ item, .token (settle item) ∈ kinds) →
        Yields P (do let _ ← Rule.wordThen t settle Grammar.printItem; return some ()) :=
    fun hsettle => .map h.toJoins (h.wordThen hsettle h.printItem) _
  apply Yields.bind h.toJoins (.peek h.toJoins)
  intro next
  refine .ite (hword fun item => hkinds ?_)
    (.ite (hword fun item => hkinds ?_) (.pure h.toJoins _))
  all_goals rcases item with _ | (_ | _) <;> simp [Form.kinds]

/-- The bounds of a loop behind its name. -/
theorem bounds (hkinds : [.token .forEquals, .token .toLimit, .token .stepBy] ⊆ kinds) :
    Yields P (do
      Rule.expect .forEquals
      let _ ← Grammar.expression
      Rule.expect .toLimit
      let _ ← Grammar.expression
      if ← Rule.word? .stepBy then
        let _ ← Grammar.expression) := by
  apply Yields.bind h.toJoins (h.expect (hkinds (by simp)))
  intro _
  apply Yields.bind h.toJoins h.expression
  intro _
  apply Yields.bind h.toJoins (h.expect (hkinds (by simp)))
  intro _
  apply Yields.bind h.toJoins h.expression
  intro _
  apply Yields.bind h.toJoins (h.word? (hkinds (by simp)))
  intro found
  exact .ite h.operand (.pure h.toJoins _)

/-- An assignment behind its variable. -/
theorem assigned {type : DataType} (hequals : .token (.equals type) ∈ kinds) :
    Yields P (do
      Rule.expect (.equals type)
      let _ ← Grammar.expression
      return type) :=
  .bind h.toJoins (h.expect hequals) fun _ => .map h.toJoins h.expression _

theorem conditionThen (hkinds : Form.conditional.kinds ⊆ kinds) : Yields P conditionThen := by
  apply Yields.bind h.toJoins (h.expect (hkinds (by simp [Form.kinds])))
  intro _
  apply Yields.bind h.toJoins h.expression
  intro _
  refine h.wordThen (fun isLine => hkinds ?_) (.ahead h.toJoins _)
  cases isLine <;> simp [Form.kinds]

omit h in
/-- A flat form has what its expressions and its own leaves have. -/
theorem flat {form : Form} (h : Accepts P form.kinds) (hflat : form.isFlat = true)
    (nested : Input → Node × Input) : Yields P (form.rule nested) := by
  cases form with
  | bare t => exact h.expect (by simp [Form.kinds])
  | single t => exact .bind h.toJoins (h.expect (by simp [Form.kinds])) fun _ => h.operand
  | pair t separator =>
    exact .bind h.toJoins (h.expect (by simp [Form.kinds])) fun _ =>
      .bind h.toJoins h.expression fun _ =>
        .bind h.toJoins (h.expect (by simp [Form.kinds])) fun _ => h.operand
  | draw t separator position =>
    exact .bind h.toJoins (h.expect (by simp [Form.kinds])) fun _ =>
      .bind h.toJoins h.expression fun _ =>
        .bind h.toJoins (h.expect (by simp [Form.kinds])) fun _ =>
          .bind h.toJoins h.expression fun _ =>
            .bind h.toJoins (h.expect (by simp [Form.kinds])) fun _ => h.operand
  | lineRange t numbered separator => exact h.lineRange (List.Subset.refl _) nested
  | display isOn =>
    have hname : Yields P Grammar.variableName :=
      h.variableName fun type => by cases type <;> simp [Form.kinds]
    cases isOn with
    | false => exact .map h.toJoins (h.wordThen (by rintro (_ | _) <;> simp [Form.kinds]) hname) _
    | true => exact .map h.toJoins (h.wordThen (by rintro (_ | _) <;> simp [Form.kinds]) hname) _
  | forLoop =>
    exact .bind h.toJoins (h.expect (by simp [Form.kinds])) fun _ =>
      .bind h.toJoins (h.integerName fun type => by cases type <;> simp [Form.kinds]) fun _ =>
        h.bounds (by simp [Form.kinds])
  | nextLoop =>
    have hname : Yields P Grammar.integerName :=
      h.integerName fun type => by cases type <;> simp [Form.kinds]
    exact .bind h.toJoins (h.expect (by simp [Form.kinds])) fun _ =>
      .bind h.toJoins hname fun _ => h.repeated (by simp [Form.kinds]) hname
  | printList =>
    refine .bind h.toJoins (h.wordThen ?_ h.printItem) fun _ =>
      .loop h.toJoins (fun _ => h.printTail (List.Subset.refl _)) ()
    rintro (_ | (_ | _)) <;> simp [Form.kinds]
  | remark =>
    intro i nodes a j hr
    obtain ⟨text, rest, -, rfl, -⟩ := remark_ok hr
    have hcomment : P (commentOf (i.skip.after text rest)) := by
      unfold commentOf
      split
      · exact h.nil
      · exact h.leaf _ (by simp [Form.kinds]) _ _
    exact h.append (h.leaf (.token .rem) (by simp [Form.kinds]) i.skip text) hcomment
  | dimension | inputList | conditional | assignment => cases hflat

end Accepts

/-- Nodes that have a property if there are no errors among them. -/
def Sound (P : List Node → Prop) (nodes : List Node) : Prop :=
  (Node.leavesOf nodes).any (·.kind.isError) = false → P nodes

theorem Joins.sound {P : List Node → Prop} (h : Joins P) : Joins (Sound P) := by
  refine ⟨fun _ => h.nil, fun hx hy sound => ?_⟩
  rw [Node.leavesOf_append, List.any_append, Bool.or_eq_false_iff] at sound
  exact h.append (hx sound.1) (hy sound.2)

theorem sound_enclose {P Q : List Node → Prop}
    (hinner : ∀ (label : Label) {children}, Q children → P [.inner label children]) (i : Input)
    (kind : InnerKind) {nodes : List Node} (h : Sound Q nodes) :
    Sound P [i.enclose kind nodes] := by
  intro sound
  rw [Node.leavesOf_cons, leaves_enclose, Node.leavesOf_nil, List.append_nil] at sound
  exact hinner _ (h sound)

/-- Every sound statement has a property that its rules hand on. What they leave behind may have
another property, from which it follows for the statement around it. -/
theorem sound_statement {P Q : List Node → Prop}
    (hinner : ∀ (label : Label) {children}, Q children → P [.inner label children])
    (hrule : ∀ form ∈ Form.all, ∀ nested, (∀ k, Sound P [(nested k).1]) →
      Yields (Sound Q) (form.rule nested))
    (hname : Yields (Sound Q) (assignmentRule none)) (i : Input) :
    Sound P [(statement i).1] := by
  have hbroken : ∀ (i : Input) (nodes : List Node) (cause : Mismatch),
      Sound P [(recover i nodes cause).1] := by
    intro i nodes cause sound
    have herror : (recover i nodes cause).1.hasError = false := hasError_of_mem sound (by simp)
    rw [hasError_recover] at herror
    cases herror
  have key : ∀ n i, Sound P [(statementUpTo n i).1] := by
    intro n
    induction n with
    | zero => exact fun i => hbroken _ _ _
    | succ n ih =>
      intro i
      have byName : ∀ {nodes j}, whole (assignmentRule none) i.skip = ⟨nodes, .ok ((), j)⟩ →
          Sound P [i.skip.enclose .statement nodes] := by
        intro nodes j hr
        obtain ⟨type, k, hr, -⟩ := whole_ok hr
        exact sound_enclose hinner _ _ (hname hr)
      rw [statementUpTo, statementWith]
      unfold settle
      cases hform : Form.ofText? i.skip.rest with
      | none =>
        rw [Option.map_none]
        rcases hname : whole (assignmentRule none) i.skip with ⟨nodes, e | ⟨⟨⟩, j⟩⟩
        · exact hbroken _ _ _
        · exact byName hname
      | some form =>
        rw [Option.map_some]
        rcases hword : whole (form.rule (statementUpTo n)) i.skip with ⟨nodes, e | ⟨⟨⟩, j⟩⟩
        · rcases hname : whole (assignmentRule none) i.skip with ⟨nodes', e' | ⟨⟨⟩, j⟩⟩
          · exact hbroken _ _ _
          · exact byName hname
        · obtain ⟨a, k, hr, -⟩ := whole_ok hword
          exact sound_enclose hinner _ _ (hrule form (List.mem_of_find?_eq_some hform) _ ih hr)
  exact key _ i

/-- The statements of a line have a property that each of them and the colon have. -/
theorem sound_statements {P : List Node → Prop} (joins : Joins P)
    (hstatement : ∀ i, Sound P [(statement i).1])
    (hcolon : ∀ (i : Input) (text : List Char), P [i.leaf (.token .colon) text]) (i : Input) :
    Sound P (statements i) := by
  have key : ∀ n i, Sound P (statementsUpTo n i) := by
    intro n i
    induction n, i using statementsUpTo_induction with
    | stop => exact joins.sound.nil
    | done => exact joins.sound.nil
    | colon n i rest _ ih => exact joins.sound.append (fun _ => hcolon _ _) ih
    | statement n i node j hread _ _ ih =>
      have hnode := hstatement i.skip
      rw [hread] at hnode
      exact joins.sound.append hnode ih
  exact key _ i

structure Hereditary (P : List Node → Prop) : Prop extends Joins P where
  inner : ∀ (label : Label) {children}, P children → P [.inner label children]
  expression : Yields P expression
  target : Yields P (target Grammar.expression)

namespace Hereditary

variable {P : List Node → Prop} (h : Hereditary P)
include h

theorem accepts {kinds : List LeafKind}
    (hleaf : ∀ kind ∈ kinds, ∀ (i : Input) (text : List Char), P [i.leaf kind text]) :
    Accepts (Sound P) kinds where
  toJoins := h.toJoins.sound
  expression := h.expression.mono fun _ hnodes _ => hnodes
  leaf := fun kind hkind i text _ => hleaf kind hkind i text

theorem target_sound : Yields (Sound P) (Grammar.target Grammar.expression) :=
  h.target.mono fun _ hnodes _ => hnodes

theorem assignmentRule {word : Option Token}
    (haccepts : Accepts (Sound P) Form.assignment.kinds)
    (hword : ∀ t ∈ word, t = .assign) : Yields (Sound P) (assignmentRule word) := by
  have hbody : Yields (Sound P) (do
      let type ← Grammar.target Grammar.expression
      expect (.equals type)
      let _ ← Grammar.expression
      return type : Rule DataType) := by
    apply Yields.bind haccepts.toJoins h.target_sound
    intro type
    exact haccepts.assigned (by cases type <;> simp [Form.kinds])
  refine Yields.enclose ?_ fun i a nodes hnodes => sound_enclose h.inner i _ hnodes
  cases word with
  | none => exact hbody
  | some t =>
    rw [hword t rfl]
    exact .bind haccepts.toJoins (haccepts.expect (by simp [Form.kinds])) fun _ => hbody

/-- The nodes of a statement have a property that its own leaves have and that the statement nested
in it has. -/
theorem rule {form : Form}
    (hleaf : ∀ kind ∈ form.kinds, ∀ (i : Input) (text : List Char), P [i.leaf kind text])
    {nested : Input → Node × Input} (known : ∀ k, Sound P [(nested k).1]) :
    Yields (Sound P) (form.rule nested) := by
  have haccepts := h.accepts hleaf
  have joins := haccepts.toJoins
  cases form with
  | dimension =>
    have hname : Yields (Sound P) variableName :=
      haccepts.variableName fun type => by cases type <;> simp [Form.kinds]
    have hextent : ∀ type, Yields (Sound P) (extent type) := fun type =>
      .bind joins (haccepts.expect (by cases type <;> simp [Form.kinds])) fun _ =>
        .bind joins haccepts.expression fun _ => haccepts.expect (by simp [Form.kinds])
    refine .bind joins (haccepts.wordThen (fun type => ?_) hname) fun type =>
      .bind joins (hextent type) fun _ =>
        haccepts.repeated (by simp [Form.kinds]) (.bind joins hname hextent)
    cases type <;> simp [Form.kinds]
  | inputList =>
    have htarget := h.target_sound
    have hstring : Yields (Sound P) stringLiteral :=
      .bind joins (.token? joins (haccepts.leaf _ (by simp [Form.kinds]))) fun _ =>
        .ite (.pure joins _) (.stop _)
    have hlist : Yields (Sound P) (repeated .inputComma do
        let _ ← Grammar.target Grammar.expression) :=
      haccepts.repeated (by simp [Form.kinds]) (.map joins htarget _)
    apply Yields.bind joins
    · refine haccepts.wordThen (fun head => ?_) ?_
      · rcases head with _ | (_ | _) <;> simp [Form.kinds, InputHead.token]
      · apply Yields.bind joins (.peek joins)
        intro next
        exact .ite (.bind joins hstring fun _ =>
            .map joins (haccepts.expect (by simp [Form.kinds])) _)
          (.map joins htarget _)
    · intro head
      exact .ite (.bind joins htarget fun _ => hlist) hlist
  | conditional =>
    rw [conditional_rule]
    apply Yields.bind joins (haccepts.conditionThen (List.Subset.refl _))
    intro isLine
    apply Yields.ite haccepts.operand
    apply Yields.bind joins (.map joins (.peek joins) _)
    intro isEnd
    refine .ite (.stop _) ?_
    intro i nodes a j hr
    cases hr
    exact known i
  | assignment => exact .map joins (h.assignmentRule haccepts (by simp)) _
  | _ => exact haccepts.flat rfl nested

end Hereditary

end IntegerBasic.Grammar
