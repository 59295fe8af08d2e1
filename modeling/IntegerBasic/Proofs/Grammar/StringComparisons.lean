import Mathlib.Data.List.Chain
import IntegerBasic.Proofs.Grammar.Yields
import IntegerBasic.Proofs.Grammar.StatementSimulation

/-!
# Comparisons of strings

The inequality of strings is a token of its own, which can be written in two ways. It is read only
behind an operand that is a string, and such an operand ends with a string, with the name of a
string variable or with a parenthesis. So in a sound line it stands only behind a leaf of these
kinds, whatever the statements around it are.
-/

namespace IntegerBasic

def LeafKind.endsString : LeafKind → Bool
  | .string | .name .string | .token .close => true
  | _ => false

namespace Grammar

open Rule

variable {α β : Type}

/-- The second leaf compares strings only if the first can end one. -/
def Founds (l l' : Leaf) : Prop :=
  l'.kind = .token .unequalString → l.kind.endsString = true

/-- Every inequality of strings stands behind a leaf that can end a string. -/
structure Founded (L : List Leaf) : Prop where
  head : ∀ l ∈ L.head?, l.kind ≠ .token .unequalString
  chain : L.IsChain Founds

theorem Founded.nil : Founded [] := ⟨by simp, .nil⟩

theorem Founded.append {L L' : List Leaf} (h : Founded L) (h' : Founded L') :
    Founded (L ++ L') := by
  constructor
  · cases L with
    | nil => exact h'.head
    | cons l L => exact h.head
  · refine List.isChain_append.2 ⟨h.chain, h'.chain, fun l _ l' hl' hkind => ?_⟩
    exact absurd hkind (h'.head l' hl')

/-- Only a leaf that can end a string stands before an inequality of strings. -/
theorem ne_unequalString_of_chain {l : Leaf} {L : List Leaf} (h : (l :: L).IsChain Founds)
    (hl : l.kind.endsString = false) : ∀ l' ∈ L.head?, l'.kind ≠ .token .unequalString := by
  intro l' hl' hkind
  obtain ⟨more, rfl⟩ := List.head?_eq_some_iff.1 hl'
  have hfounds : Founds l l' := (List.isChain_cons_cons.1 h).1
  rw [hfounds hkind] at hl
  cases hl

def Compared (nodes : List Node) : Prop :=
  (Node.leavesOf nodes).any (·.kind.isError) = false → Founded (Node.leavesOf nodes)

theorem joins_compared : Joins Compared := by
  have joins : Joins fun nodes => Founded (Node.leavesOf nodes) := by
    refine ⟨.nil, fun hx hy => ?_⟩
    rw [Node.leavesOf_append]
    exact hx.append hy
  exact joins.sound

theorem compared_leaf {kind : LeafKind} (h : kind ≠ .token .unequalString) (i : Input)
    (text : List Char) : Compared [i.leaf kind text] :=
  fun _ => ⟨by rintro _ ⟨⟩; exact h, .singleton _⟩

theorem compared_enclose {i : Input} {kind : InnerKind} {nodes : List Node}
    (h : Compared nodes) : Compared [i.enclose kind nodes] := by
  rwa [Compared, Node.leavesOf_cons, leaves_enclose, Node.leavesOf_nil, List.append_nil]

structure EndsAs (type : DataType) (nodes : List Node) : Prop where
  compared : Compared nodes
  last : type = .string → ∃ l, (Node.leavesOf nodes).getLast? = some l ∧ l.kind.endsString = true

def YieldsTyped (r : Rule DataType) : Prop :=
  ∀ ⦃i nodes type j⦄, r i = ⟨nodes, .ok (type, j)⟩ → EndsAs type nodes

theorem EndsAs.of_leaf {kind : LeafKind} (hkind : kind ≠ .token .unequalString)
    {type : DataType} (h : type = .string → kind.endsString = true) (i : Input)
    (text : List Char) : EndsAs type [i.leaf kind text] :=
  ⟨compared_leaf hkind i text, fun htype => ⟨_, rfl, h htype⟩⟩

theorem EndsAs.append {type : DataType} {xs ys : List Node} (hx : Compared xs)
    (hy : EndsAs type ys) : EndsAs type (xs ++ ys) := by
  refine ⟨joins_compared.append hx hy.compared, fun htype => ?_⟩
  obtain ⟨l, hlast, hl⟩ := hy.last htype
  refine ⟨l, ?_, hl⟩
  rw [Node.leavesOf_append, List.getLast?_append, hlast]
  rfl

namespace YieldsTyped

theorem stop (cause : Mismatch) : YieldsTyped (stop cause) := by
  intro i nodes type j h
  cases h

theorem integer : YieldsTyped (Pure.pure .integer) := by
  intro i nodes type j h
  cases h
  exact ⟨joins_compared.nil, by simp⟩

theorem ite {c : Prop} [Decidable c] {r s : Rule DataType} (hr : YieldsTyped r)
    (hs : YieldsTyped s) : YieldsTyped (if c then r else s) := by
  split
  · exact hr
  · exact hs

theorem bind {r : Rule α} {f : α → Rule DataType} (hr : Yields Compared r)
    (hf : ∀ a, YieldsTyped (f a)) : YieldsTyped (r >>= f) := by
  intro i nodes type j h
  obtain ⟨xs, a, k, ys, hx, hy, rfl⟩ := bind_ok h
  exact .append (hr hx) (hf a hy)

theorem enclose {kind : DataType → InnerKind} {r : Rule DataType} (h : YieldsTyped r) :
    YieldsTyped (enclose kind r) := by
  intro i nodes type j hr
  obtain ⟨inside, hinside, rfl⟩ := enclose_ok hr
  obtain ⟨hcompared, hlast⟩ := h hinside
  refine ⟨compared_enclose hcompared, ?_⟩
  rwa [Node.leavesOf_cons, leaves_enclose, Node.leavesOf_nil, List.append_nil]

theorem compared {r : Rule DataType} (h : YieldsTyped r) : Yields Compared r :=
  fun _ _ _ _ hr => (h hr).compared

end YieldsTyped

theorem compared_expect {t : Token} (ht : t ≠ .unequalString) :
    Yields Compared (expect t) :=
  .expect joins_compared (compared_leaf (by simpa using ht))

theorem compared_word? {t : Token} (ht : t ≠ .unequalString) :
    Yields Compared (word? t) :=
  .token? joins_compared (compared_leaf (by simpa using ht))

theorem typed_variableName : YieldsTyped variableName := by
  intro i nodes type j h
  obtain ⟨text, rest, -, rfl, rfl, -⟩ := variableName_ok h
  refine .of_leaf (by simp) (fun htype => ?_) _ _
  rw [htype]
  rfl

/-- A parenthesis may end an operand of either type. -/
theorem typed_close (type : DataType) : YieldsTyped (do expect .close; return type) := by
  intro i nodes a j h
  obtain ⟨xs, ⟨⟩, k, ys, hx, hy, rfl⟩ := bind_ok h
  cases hy
  obtain ⟨text, rest, -, rfl, -⟩ := expect_ok hx
  exact .of_leaf (by simp) (fun _ => rfl) _ _

section Expression

variable {e : Rule DataType} (he : Yields Compared e)
include he

theorem typed_subscripted {opener : Token} (ho : opener ≠ .unequalString) (kind : InnerKind)
    (pair : Bool) : YieldsTyped (subscripted e opener kind pair) := by
  apply YieldsTyped.enclose
  apply YieldsTyped.bind typed_variableName.compared
  intro type
  apply YieldsTyped.bind (compared_expect ho)
  intro _
  apply YieldsTyped.bind he
  intro _
  apply YieldsTyped.ite
  · apply YieldsTyped.bind (compared_word? (by decide))
    intro found
    exact .ite (.bind he fun _ => typed_close type) (typed_close type)
  · exact typed_close type

theorem typed_target : YieldsTyped (target e) := by
  apply YieldsTyped.bind (.ahead joins_compared _)
  intro indexed
  apply YieldsTyped.ite
  · apply YieldsTyped.bind (.ahead joins_compared _)
    intro isString
    exact .ite (typed_subscripted he (by decide) _ _) (typed_subscripted he (by decide) _ _)
  · exact typed_variableName

theorem typed_reference : YieldsTyped (reference e) := by
  apply YieldsTyped.bind (.ahead joins_compared _)
  intro indexed
  apply YieldsTyped.ite
  · apply YieldsTyped.bind (.ahead joins_compared _)
    intro isString
    exact .ite (typed_subscripted he (by decide) _ _) (typed_subscripted he (by decide) _ _)
  · exact typed_variableName

theorem typed_call {f : Token} (hf : f ∈ functions) : YieldsTyped (call e f) := by
  have key : ∀ f ∈ functions, f ≠ .unequalString := by decide
  have hbody : YieldsTyped (do
      let _ ← e
      if f == .scrn then
        expect .scrnComma
        let _ ← e
      expect .close
      return DataType.integer) := by
    apply YieldsTyped.bind he
    intro _
    exact .ite (.bind (compared_expect (by decide)) fun _ => .bind he fun _ => typed_close _)
      (typed_close _)
  apply YieldsTyped.bind (compared_expect (key f hf))
  intro _
  exact .ite hbody (.bind (compared_expect (by decide)) fun _ => hbody)

theorem typed_primary : YieldsTyped (primary e) := by
  apply YieldsTyped.bind (.token? joins_compared (compared_leaf (by simp)))
  intro found
  apply YieldsTyped.ite .integer
  apply YieldsTyped.bind (.peek joins_compared)
  intro next
  apply YieldsTyped.ite
  · intro i nodes type j h
    obtain ⟨xs, ⟨⟩, k, ys, hx, hy, rfl⟩ := bind_ok h
    cases hy
    obtain ⟨text, rest, -, rfl, -⟩ := stringLiteral_ok hx
    exact .of_leaf (by simp) (fun _ => rfl) _ _
  apply YieldsTyped.ite
  · exact .bind (compared_expect (by decide)) fun _ => .bind he fun _ => typed_close _
  · intro i nodes type j h
    dsimp only at h
    cases hf : function? i.skip.rest with
    | some f =>
      rw [hf] at h
      exact typed_call he (List.mem_of_find?_eq_some hf) h
    | none =>
      simp only [hf] at h
      split at h
      · exact typed_reference he h
      · cases h

omit he in
theorem compared_unaryOperator : Yields Compared unaryOperator := by
  apply Yields.bind joins_compared (compared_word? (by decide))
  intro minus
  apply Yields.ite (.pure joins_compared _)
  apply Yields.bind joins_compared (compared_word? (by decide))
  intro plus
  exact .ite (.pure joins_compared _) (.token? joins_compared (compared_leaf (by simp)))

theorem typed_operand : YieldsTyped (operand e) := by
  intro i nodes type j h
  obtain ⟨xs, signed, k, ys, hx, hy, rfl⟩ := bind_ok h
  obtain ⟨zs, type', l, ws, hz, hw, rfl⟩ := bind_ok hy
  cases hw
  have hsigns : Yields Compared
      (loop (fun _ => do return if ← unaryOperator then some true else none) false) :=
    .loop joins_compared (fun _ => .bind joins_compared compared_unaryOperator fun _ =>
      .pure joins_compared _) _
  have hoperand := typed_primary he hz
  rw [List.append_nil]
  refine .append (hsigns hx) ⟨hoperand.compared, fun htype => hoperand.last ?_⟩
  cases signed with
  | true => cases htype
  | false => exact htype

omit he in
/-- A binary operator is founded behind an operand of the type that it is read for. -/
theorem compared_binaryOperator {lhs : DataType} {i j : Input} {before nodes : List Node}
    {found : Bool} (hbefore : EndsAs lhs before)
    (h : binaryOperator lhs i = ⟨nodes, .ok (found, j)⟩) : Compared (before ++ nodes) := by
  have key : ∀ t ∈ binaryOperators, operatorAfter .integer t ≠ .unequalString := by decide
  rcases binaryOperator_ok h with ⟨-, rfl, -, -⟩ | ⟨t, text, rest, ht, -, rfl, -, -⟩
  · rw [List.append_nil]
    exact hbefore.compared
  · cases lhs with
    | integer =>
      refine joins_compared.append hbefore.compared (compared_leaf ?_ _ _)
      simpa using key t (List.mem_of_find?_eq_some ht)
    | string =>
      intro sound
      rw [Node.leavesOf_append, List.any_append, Bool.or_eq_false_iff] at sound
      obtain ⟨l, hlast, hl⟩ := hbefore.last rfl
      obtain ⟨hhead, hchain⟩ := hbefore.compared sound.1
      rw [Node.leavesOf_append]
      refine ⟨?_, List.isChain_append.2 ⟨hchain, .singleton _, ?_⟩⟩
      · intro l' hl'
        cases hbegin : Node.leavesOf before with
        | nil =>
          rw [hbegin] at hlast
          cases hlast
        | cons first more =>
          rw [hbegin] at hl' hhead
          exact hhead l' hl'
      · rintro l' hl' l'' - -
        rw [hlast] at hl'
        cases hl'
        exact hl

theorem compared_operands : Yields Compared (operands e) := by
  -- what has been read so far ends as the operand that comes before the next operator
  have hrounds : ∀ n (s : DataType × Bool) i nodes s' j before,
      rounds (fun s : DataType × Bool => do
        if ← binaryOperator s.1 then
          let rhs ← operand e
          return some (rhs, false)
        else return none) n s i = ⟨nodes, .ok (s', j)⟩ →
      EndsAs s.1 before → Compared (before ++ nodes) := by
    intro n
    induction n with
    | zero =>
      intro s i nodes s' j before h hbefore
      cases h
      rw [List.append_nil]
      exact hbefore.compared
    | succ n ih =>
      intro s i nodes s' j before h hbefore
      obtain ⟨xs, next, k, ys, hx, hy, rfl⟩ := bind_ok h
      obtain ⟨us, found, l, vs, hu, hv, rfl⟩ := bind_ok hx
      have hoperator := compared_binaryOperator hbefore hu
      cases found with
      | false =>
        cases hv
        cases hy
        rw [List.append_nil, List.append_nil]
        exact hoperator
      | true =>
        obtain ⟨zs, rhs, m, ws, hz, hw, rfl⟩ := bind_ok hv
        cases hw
        have hmore := ih _ _ _ _ _ (before ++ us ++ zs) hy (.append hoperator (typed_operand he hz))
        simpa using hmore
  intro i nodes type j h
  obtain ⟨xs, first, k, ys, hx, hy, rfl⟩ := bind_ok h
  obtain ⟨zs, state, l, ws, hz, hw, rfl⟩ := bind_ok hy
  cases hw
  rw [List.append_nil]
  exact hrounds _ _ _ _ _ _ xs hz (typed_operand he hx)

end Expression

theorem compared_expression : Yields Compared expression := by
  have key : ∀ n, Yields Compared (expressionUpTo n) := by
    intro n
    induction n with
    | zero => exact .stop _
    | succ n ih => exact compared_operands ih
  intro i nodes a j h
  exact key _ h

theorem compared_target : Yields Compared (target expression) :=
  (typed_target compared_expression).compared

theorem hereditary_compared : Hereditary Compared where
  toJoins := joins_compared
  inner := fun label children h => by
    rwa [Compared, Node.leavesOf_cons, Node.leaves_inner, Node.leavesOf_nil, List.append_nil]
  expression := compared_expression
  target := compared_target

/-- No form of statement asks for the inequality of strings by itself. -/
theorem compared_kinds {form : Form} (h : form ∈ Form.all) :
    ∀ kind ∈ form.kinds, ∀ (i : Input) (text : List Char), Compared [i.leaf kind text] := by
  have key : ∀ form ∈ Form.all, ∀ kind ∈ form.kinds, kind ≠ .token .unequalString := by
    decide +kernel
  exact fun kind hkind => compared_leaf (key form h kind hkind)

/-- In the statements of a line comparisons of strings are founded. -/
theorem compared_statements (i : Input) : Compared (statements i) := by
  have hassign : ∀ kind ∈ Form.assignment.kinds, ∀ (i : Input) (text : List Char),
      Compared [i.leaf kind text] := compared_kinds (by decide)
  have hstatement := sound_statement hereditary_compared.inner
    (fun form hform _ known => hereditary_compared.rule (compared_kinds hform) known)
    (hereditary_compared.assignmentRule (hereditary_compared.accepts hassign) (by simp))
  exact fun sound =>
    sound_statements joins_compared hstatement (compared_leaf (by simp)) i sound sound

end Grammar

end IntegerBasic
