import IntegerBasic.Proofs.Grammar.Expressions

/-!
# Phrases

A sound statement is a phrase: a list of variables that `DIM` declares or `INPUT` asks for, the
head of a `FOR` loop, an assignment, a conditional around another phrase, or a run of ordinary
leaves in which no list of variables stands.
-/

namespace IntegerBasic

/-- Names with their extents, the first behind the given token and each other behind a comma. -/
inductive Declares : Token → List Node → Prop
  | nil {t : Token} : Declares t []
  | cons {t : Token} {lead name first last : Leaf} {type : DataType} {extent more : List Node}
      (hlead : lead.kind = .token t) (hname : name.kind.isName = true)
      (hfirst : first.kind = .token (.openDim type)) (hlast : last.kind = .token .close)
      (within : Matched extent) (rest : Declares .dimComma more) :
      Declares t (.leaf lead :: .leaf name :: .leaf first :: (extent ++ .leaf last :: more))

/-- Variables, the first behind the given token and each other behind a comma. -/
inductive Asks : Token → List Node → Prop
  | nil {t : Token} : Asks t []
  | cons {t : Token} {lead : Leaf} {node : Node} {more : List Node} (hlead : lead.kind = .token t)
      (hnode : IsVariable node) (rest : Asks .inputComma more) :
      Asks t (.leaf lead :: node :: more)

inductive Phrase : List Node → Prop
  | ordinary {nodes : List Node} (h : Ordinary nodes) : Phrase nodes
  | dimension {type : DataType} {nodes : List Node} (h : Declares (.dim type) nodes) : Phrase nodes
  | input {type : DataType} {nodes : List Node} (h : Asks (.input type) nodes) : Phrase nodes
  | prompt {word text : Leaf} {nodes : List Node} (hword : word.kind = .token .inputPrompt)
      (htext : text.kind = .string) (h : Asks .promptComma nodes) :
      Phrase (.leaf word :: .leaf text :: nodes)
  | forLoop {word name : Leaf} {nodes : List Node} (hword : word.kind = .token .forLoop)
      (hname : name.kind.isName = true) (h : Ordinary nodes) :
      Phrase (.leaf word :: .leaf name :: nodes)
  | assignment {label : Label} {type : DataType} {node : Node} {nodes : List Node}
      (kind : label.kind = .assignment type) (hnode : IsVariable node) (h : Ordinary nodes) :
      Phrase [.inner label (node :: nodes)]
  | letAssignment {label : Label} {type : DataType} {word : Leaf} {node : Node} {nodes : List Node}
      (kind : label.kind = .assignment type) (hword : word.kind = .token .assign)
      (hnode : IsVariable node) (h : Ordinary nodes) :
      Phrase [.inner label (.leaf word :: node :: nodes)]
  | conditional {label : Label} {nodes children : List Node} (h : Ordinary nodes)
      (kind : label.kind = .statement) (nested : Phrase children) :
      Phrase (nodes ++ [.inner label children])

namespace Grammar

open Rule

theorem ordinary_expression : Yields Ordinary expression :=
  expressed_expression.mono fun _ h => h.matched.ordinary

theorem accepts_ordinary {kinds : List LeafKind} (h : ∀ kind ∈ kinds, kind.isOrdinary = true) :
    Accepts Ordinary kinds where
  toJoins := joins_ordinary
  expression := ordinary_expression
  leaf := fun kind hkind _ _ => .leaf (h kind hkind) .nil

/-- But for the names of variables that are given a value, the leaves of the flat forms are
ordinary. -/
theorem Form.isOrdinary_kinds {form : Form} (h : form ∈ all) (hflat : form.isFlat = true)
    (hloop : form ≠ .forLoop) : ∀ kind ∈ form.kinds, kind.isOrdinary = true := by
  have key : ∀ form ∈ all, form.isFlat = true → form ≠ .forLoop →
      ∀ kind ∈ form.kinds, kind.isOrdinary = true := by decide +kernel
  exact key form h hflat hloop

theorem integerName_ok {i j : Input} {nodes : List Node}
    (h : integerName i = ⟨nodes, .ok ((), j)⟩) : IsName nodes := by
  obtain ⟨xs, type, k, ys, hx, hy, rfl⟩ := bind_ok h
  split at hy <;> cases hy
  rw [List.append_nil]
  exact yields_name hx

/-- `FOR`, a name, and then nothing but expressions and words. -/
theorem phrase_forLoop (nested : Input → Node × Input) :
    Yields Phrase (Form.forLoop.rule nested) := by
  have haccepts : Accepts Ordinary [.token .forEquals, .token .toLimit, .token .stepBy] :=
    accepts_ordinary (by decide)
  intro i nodes a j h
  obtain ⟨xs, ⟨⟩, k, ys, hx, hy, rfl⟩ := bind_ok h
  obtain ⟨zs, ⟨⟩, l, ws, hz, hw, rfl⟩ := bind_ok hy
  obtain ⟨text, rest, -, rfl, -⟩ := expect_ok hx
  obtain ⟨name, rfl, hname⟩ := integerName_ok hz
  exact .forLoop rfl hname (haccepts.bounds (List.Subset.refl _) hw)

def IsExtended (nodes : List Node) : Prop :=
  ∃ (name first last : Leaf) (type : DataType) (extent : List Node),
    nodes = .leaf name :: .leaf first :: (extent ++ [.leaf last]) ∧ name.kind.isName = true ∧
      first.kind = .token (.openDim type) ∧ last.kind = .token .close ∧ Matched extent

theorem IsExtended.declares {nodes more : List Node} (h : IsExtended nodes)
    (hmore : Declares .dimComma more) (i : Input) (t : Token) (text : List Char) :
    Declares t (i.leaf (.token t) text :: (nodes ++ more)) := by
  obtain ⟨name, first, last, type, extent, rfl, hname, hfirst, hlast, hextent⟩ := h
  rw [Input.leaf]
  simpa using Declares.cons rfl hname hfirst hlast hextent hmore

theorem joins_declares : Joins (Declares .dimComma) := by
  refine ⟨.nil, ?_⟩
  intro xs ys hx hy
  generalize ht : Token.dimComma = t at hx
  induction hx with
  | nil => rwa [← ht]
  | cons hlead hname hfirst hlast within _ ih =>
    simpa using Declares.cons hlead hname hfirst hlast within (ih rfl)

/-- The name that a list goes on with, and its extent. -/
theorem extended_of_extent {type : DataType} {i j : Input} {xs nodes : List Node}
    (hx : IsName xs) (h : extent type i = ⟨nodes, .ok ((), j)⟩) : IsExtended (xs ++ nodes) := by
  obtain ⟨name, rfl, hname⟩ := hx
  obtain ⟨ys, ⟨⟩, k, zs, hy, hz, rfl⟩ := bind_ok h
  obtain ⟨us, type', l, vs, hu, hv, rfl⟩ := bind_ok hz
  obtain ⟨text, rest, -, rfl, -⟩ := expect_ok hy
  obtain ⟨text', rest', -, rfl, -⟩ := expect_ok hv
  exact ⟨name, _, _, type, us, rfl, hname, rfl, rfl, (expressed_expression hu).matched⟩

theorem declares_repeated :
    Yields (Declares .dimComma) (repeated .dimComma do extent (← variableName)) := by
  apply Yields.loop joins_declares
  intro _ i nodes a j h
  obtain ⟨xs, found, k, ys, hx, hy, rfl⟩ := bind_ok h
  rcases token?_ok hx with ⟨-, rfl, rfl, rfl⟩ | ⟨text, rest, -, rfl, rfl, rfl⟩
  · cases hy
    exact .nil
  · obtain ⟨zs, ⟨⟩, l, ws, hz, hw, rfl⟩ := bind_ok hy
    cases hw
    obtain ⟨us, type, m, vs, hu, hv, rfl⟩ := bind_ok hz
    have hitem := extended_of_extent (yields_name hu) hv
    simpa using hitem.declares .nil i.skip .dimComma _

theorem phrase_dimension (nested : Input → Node × Input) :
    Yields Phrase (Form.dimension.rule nested) := by
  intro i nodes a j h
  obtain ⟨xs, type, k, ys, hx, hy, rfl⟩ := bind_ok h
  obtain ⟨zs, ⟨⟩, l, ws, hz, hw, rfl⟩ := bind_ok hy
  obtain ⟨text, rest, more, -, hmore, rfl⟩ := wordThen_ok hx
  have hitem := extended_of_extent (yields_name hmore) hz
  have hlist := hitem.declares (declares_repeated hw) i.skip (.dim type) text
  rw [List.append_assoc] at hlist
  exact .dimension hlist

theorem joins_asks : Joins (Asks .inputComma) := by
  refine ⟨.nil, ?_⟩
  intro xs ys hx hy
  generalize ht : Token.inputComma = t at hx
  induction hx with
  | nil => rwa [← ht]
  | cons hlead hnode _ ih => exact .cons hlead hnode (ih rfl)

theorem asks_repeated :
    Yields (Asks .inputComma) (repeated .inputComma do let _ ← target expression) := by
  apply Yields.loop joins_asks
  intro _ i nodes a j h
  obtain ⟨xs, found, k, ys, hx, hy, rfl⟩ := bind_ok h
  rcases token?_ok hx with ⟨-, rfl, rfl, rfl⟩ | ⟨text, rest, -, rfl, rfl, rfl⟩
  · cases hy
    exact .nil
  · obtain ⟨zs, ⟨⟩, l, ws, hz, hw, rfl⟩ := bind_ok hy
    cases hw
    obtain ⟨us, type, m, vs, hu, hv, rfl⟩ := bind_ok hz
    cases hv
    obtain ⟨node, rfl, hnode⟩ := yields_target hu
    exact .cons rfl hnode .nil

theorem phrase_inputList (nested : Input → Node × Input) :
    Yields Phrase (Form.inputList.rule nested) := by
  intro i nodes a j h
  obtain ⟨xs, head, k, ys, hx, hy, rfl⟩ := bind_ok h
  obtain ⟨text, rest, more, -, hmore, rfl⟩ := wordThen_ok hx
  obtain ⟨zs, next, l, ws, hz, hw, rfl⟩ := bind_ok hmore
  cases hz
  split at hw
  · obtain ⟨us, ⟨⟩, m, vs, hu, hv, rfl⟩ := bind_ok hw
    obtain ⟨us', ⟨⟩, m', vs', hu', hv', rfl⟩ := bind_ok hv
    cases hv'
    obtain ⟨text', rest', -, rfl, -⟩ := stringLiteral_ok hu
    obtain ⟨text'', rest'', -, rfl, -⟩ := expect_ok hu'
    obtain ⟨ts, type, n, tail, ht, htail, rfl⟩ := bind_ok hy
    obtain ⟨node, rfl, hnode⟩ := yields_target ht
    exact .prompt rfl rfl (.cons rfl hnode (asks_repeated htail))
  · obtain ⟨us, type, m, vs, hu, hv, rfl⟩ := bind_ok hw
    cases hv
    obtain ⟨node, rfl, hnode⟩ := yields_target hu
    exact .input (.cons rfl hnode (asks_repeated hy))

/-- The body of an assignment behind `LET`. -/
theorem assigned_ok {i j : Input} {nodes : List Node} {type : DataType}
    (h : (do
      let type ← target expression
      expect (.equals type)
      let _ ← expression
      return type : Rule DataType) i = ⟨nodes, .ok (type, j)⟩) :
    ∃ node more, nodes = node :: more ∧ IsVariable node ∧ Ordinary more := by
  obtain ⟨xs, a, k, ys, hx, hy, rfl⟩ := bind_ok h
  obtain ⟨node, rfl, hnode⟩ := yields_target hx
  have haccepts : Accepts Ordinary [.token (.equals a)] :=
    accepts_ordinary (by simp [LeafKind.isOrdinary, Token.isListing])
  exact ⟨node, ys, rfl, hnode, haccepts.assigned (by simp) hy⟩

theorem phrase_assignmentRule_none : Yields Phrase (assignmentRule none) := by
  intro i nodes a j h
  obtain ⟨inside, hinside, rfl⟩ := enclose_ok h
  obtain ⟨node, more, rfl, hnode, hmore⟩ := assigned_ok hinside
  exact .assignment rfl hnode hmore

theorem phrase_assignment (nested : Input → Node × Input) :
    Yields Phrase (Form.assignment.rule nested) := by
  intro i nodes a j h
  obtain ⟨xs, type, k, ys, hx, hy, rfl⟩ := bind_ok h
  cases hy
  obtain ⟨inside, hinside, rfl⟩ := enclose_ok hx
  obtain ⟨zs, ⟨⟩, l, ws, hz, hw, rfl⟩ := bind_ok hinside
  obtain ⟨text, rest, -, rfl, -⟩ := expect_ok hz
  obtain ⟨node, more, rfl, hnode, hmore⟩ := assigned_ok hw
  exact .letAssignment rfl rfl hnode hmore

def IsPhrase (node : Node) : Prop :=
  ∃ label children, node = .inner label children ∧ label.kind = .statement ∧ Phrase children

theorem phrase_conditional {nested : Input → Node × Input} {i j : Input} {nodes : List Node}
    (known : ∀ k, (nested k).1.hasError = false → IsPhrase (nested k).1)
    (h : Form.conditional.rule nested i = ⟨nodes, .ok ((), j)⟩)
    (sound : (Node.leavesOf nodes).any (·.kind.isError) = false) : Phrase nodes := by
  rw [conditional_rule] at h
  obtain ⟨xs, isLine, k, ys, hx, hy, rfl⟩ := bind_ok h
  have haccepts : Accepts Ordinary Form.conditional.kinds := accepts_ordinary (by decide)
  have hcondition := haccepts.conditionThen (List.Subset.refl _) hx
  cases isLine with
  | true =>
    obtain ⟨zs, type, l, ws, hz, hw, rfl⟩ := bind_ok hy
    cases hw
    rw [List.append_nil]
    exact .ordinary (hcondition.append (ordinary_expression hz))
  | false =>
    obtain ⟨zs, isEnd, l, ws, hz, hw, rfl⟩ := bind_ok hy
    rw [atEnd_eq] at hz
    cases hz
    cases hend : endsStatement k.skip.rest <;> rw [hend] at hw <;> cases hw
    have hnested : (nested k.skip).1.hasError = false :=
      hasError_of_mem sound (by simp)
    obtain ⟨label, children, hnode, hlabel, hphrase⟩ := known k.skip hnested
    rw [List.nil_append, hnode]
    exact .conditional hcondition hlabel hphrase

/-- A form that has been read is a phrase. -/
theorem phrase_of_rule {form : Form} (hform : form ∈ Form.all) {nested : Input → Node × Input}
    (known : ∀ k, (nested k).1.hasError = false → IsPhrase (nested k).1) {i j : Input}
    {nodes : List Node} (h : form.rule nested i = ⟨nodes, .ok ((), j)⟩)
    (sound : (Node.leavesOf nodes).any (·.kind.isError) = false) : Phrase nodes := by
  have hflat : form.isFlat = true → form ≠ .forLoop → Phrase nodes := fun hflat hloop =>
    .ordinary ((accepts_ordinary (form.isOrdinary_kinds hform hflat hloop)).flat hflat nested h)
  cases form with
  | forLoop => exact phrase_forLoop nested h
  | dimension => exact phrase_dimension nested h
  | inputList => exact phrase_inputList nested h
  | conditional => exact phrase_conditional known h sound
  | assignment => exact phrase_assignment nested h
  | _ => exact hflat rfl (by simp)

/-- A statement without errors is a phrase. -/
theorem isPhrase_statement (i : Input) (sound : (statement i).1.hasError = false) :
    IsPhrase (statement i).1 := by
  have key : ∀ n i, (statementUpTo n i).1.hasError = false → IsPhrase (statementUpTo n i).1 := by
    intro n
    induction n with
    | zero =>
      intro i sound
      rw [statementUpTo, hasError_recover] at sound
      cases sound
    | succ n ih =>
      intro i sound
      have byName : ∀ {nodes j}, whole (assignmentRule none) i.skip = ⟨nodes, .ok ((), j)⟩ →
          IsPhrase (i.skip.enclose .statement nodes) := by
        intro nodes j h
        obtain ⟨type, k, hr, -, -⟩ := whole_ok h
        exact ⟨_, _, rfl, rfl, phrase_assignmentRule_none hr⟩
      rw [statementUpTo] at sound ⊢
      unfold statementWith settle at sound ⊢
      cases hform : Form.ofText? i.skip.rest with
      | none =>
        rw [hform, Option.map_none] at sound
        rcases hname : whole (assignmentRule none) i.skip with ⟨nodes, e | ⟨⟨⟩, j⟩⟩
        · rw [hname, hasError_recover] at sound
          cases sound
        · exact byName hname
      | some form =>
        rw [hform, Option.map_some] at sound
        rw [Option.map_some]
        rcases hword : whole (form.rule (statementUpTo n)) i.skip with ⟨nodes, e | ⟨⟨⟩, j⟩⟩
        · rcases hname : whole (assignmentRule none) i.skip with ⟨nodes', e' | ⟨⟨⟩, j⟩⟩
          · rw [hword, hname, hasError_recover] at sound
            cases sound
          · exact byName hname
        · rw [hword] at sound
          obtain ⟨⟨⟩, k, hr, -, -⟩ := whole_ok hword
          exact ⟨_, _, rfl, rfl, phrase_of_rule (List.mem_of_find?_eq_some hform) ih hr sound⟩
  exact key _ i sound

end Grammar

inductive Phrases : List Node → Prop
  | nil : Phrases []
  | number {l : Leaf} {more : List Node} (h : l.kind = .lineNumber) (rest : Phrases more) :
      Phrases (.leaf l :: more)
  | colon {l : Leaf} {more : List Node} (h : l.kind = .token .colon) (rest : Phrases more) :
      Phrases (.leaf l :: more)
  | phrase {label : Label} {children more : List Node} (kind : label.kind = .statement)
      (h : Phrase children) (rest : Phrases more) : Phrases (.inner label children :: more)

namespace Grammar

theorem phrases_statementsUpTo (n : Nat) (i : Input)
    (sound : (Node.leavesOf (statementsUpTo n i)).any (·.kind.isError) = false) :
    Phrases (statementsUpTo n i) := by
  induction n, i using statementsUpTo_induction with
  | stop => exact .nil
  | done => exact .nil
  | colon n i rest _ ih =>
    rw [Node.leavesOf_cons, List.any_append, Bool.or_eq_false_iff] at sound
    exact .colon rfl (ih sound.2)
  | statement n i node j hread _ _ ih =>
    rw [Node.leavesOf_cons, List.any_append, Bool.or_eq_false_iff] at sound
    have hnode := isPhrase_statement i.skip (by rw [hread]; exact sound.1)
    rw [hread] at hnode
    obtain ⟨label, children, rfl, hlabel, hphrase⟩ := hnode
    exact .phrase hlabel hphrase (ih sound.2)

/-- A line without errors is made of phrases. -/
theorem phrases_line (row : Int) (text : List Char) (sound : (line row text).hasError = false) :
    Phrases (line row text).children := by
  cases hnumber : Lexeme.lineNumber text with
  | none => simp [line, hnumber, unnumbered, Node.hasError, LeafKind.isError] at sound
  | some pair =>
    obtain ⟨number, rest⟩ := pair
    rw [line, hnumber] at sound ⊢
    have hmore : (Node.leavesOf (statements (Input.after ⟨row, 0, text⟩ number rest))).any
        (·.kind.isError) = false := by
      simp only [Node.hasError, Node.leaves_inner, Node.leavesOf_cons, List.any_append,
        Bool.or_eq_false_iff] at sound
      exact sound.2
    exact .number rfl (phrases_statementsUpTo _ _ hmore)

end Grammar

end IntegerBasic
