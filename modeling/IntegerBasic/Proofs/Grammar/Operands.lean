import IntegerBasic.Proofs.Grammar.Expressions

/-!
# Operands

Four words take operands that have to be an address or a byte. In a sound program they stand where
the grammar puts them: `CALL` and `COLOR=` before an expression, `POKE` before two with its comma
between them, and `PEEK` before an expression in parentheses, wherever an expression can stand.
-/

namespace IntegerBasic

/-- What an operand has to be. -/
inductive Quantity where
  | address
  | byte
  deriving DecidableEq, Repr

def Token.isBounded : Token → Bool
  | .poke | .peek | .color | .call => true
  | _ => false

def LeafKind.isBounded : LeafKind → Bool
  | .token t => t.isBounded
  | _ => false

/-- A word that has operands has those that the siblings behind it supply. -/
inductive Supplies : Node → List Node → List (Quantity × List Node) → Prop
  | poke {word comma : Leaf} {address byte : List Node} (hword : word.kind = .token .poke)
      (hcomma : comma.kind = .token .pokeComma) (haddress : Matched address)
      (hbyte : Matched byte) :
      Supplies (.leaf word) (address ++ .leaf comma :: byte)
        [(.address, address), (.byte, byte)]
  | peek {word opener closer : Leaf} {argument more : List Node}
      (hword : word.kind = .token .peek) (hopener : opener.kind = .token .openCall)
      (hcloser : closer.kind = .token .close) (hargument : Matched argument) :
      Supplies (.leaf word) (.leaf opener :: (argument ++ .leaf closer :: more))
        [(.address, argument)]
  | color {word : Leaf} {byte : List Node} (hword : word.kind = .token .color)
      (hbyte : Matched byte) : Supplies (.leaf word) byte [(.byte, byte)]
  | call {word : Leaf} {address : List Node} (hword : word.kind = .token .call)
      (haddress : Matched address) : Supplies (.leaf word) address [(.address, address)]
  | none {node : Node} {following : List Node} (h : node.leafKind?.any LeafKind.isBounded = false) :
      Supplies node following []

/-- The operands of the words in a run of siblings and below them, in the order of the words. -/
inductive Operands : List Node → List (Quantity × List Node) → Prop
  | nil : Operands [] []
  | cons {node : Node} {more : List Node} {own below behind : List (Quantity × List Node)}
      (hown : Supplies node more own) (hbelow : Operands node.children below)
      (hbehind : Operands more behind) : Operands (node :: more) (own ++ (below ++ behind))

namespace Grammar

open Rule

/-- Nodes that keep the operands of their words together, whatever follows them. -/
def Supplied (nodes : List Node) : Prop :=
  ∀ more, (∃ operands, Operands more operands) → ∃ operands, Operands (nodes ++ more) operands

theorem joins_supplied : Joins Supplied := by
  refine ⟨fun more h => h, fun hx hy more h => ?_⟩
  rw [List.append_assoc]
  exact hx _ (hy more h)

theorem Supplied.operands {nodes : List Node} (h : Supplied nodes) :
    ∃ operands, Operands nodes operands := by
  simpa using h [] ⟨[], .nil⟩

theorem supplied_leaf {l : Leaf} (h : l.kind.isBounded = false) : Supplied [.leaf l] := by
  rintro more ⟨operands, hmore⟩
  exact ⟨_, .cons (.none h) .nil hmore⟩

theorem supplied_inner (label : Label) {children : List Node}
    (h : ∃ operands, Operands children operands) : Supplied [.inner label children] := by
  obtain ⟨below, hbelow⟩ := h
  rintro more ⟨operands, hmore⟩
  exact ⟨_, .cons (.none rfl) hbelow hmore⟩

/-- A word with the operands that stand behind it. -/
theorem exists_operands_leaf {l : Leaf} {following : List Node} {own : List (Quantity × List Node)}
    (hown : Supplies (.leaf l) following own) (h : ∃ operands, Operands following operands) :
    ∃ operands, Operands (.leaf l :: following) operands := by
  obtain ⟨operands, hfollowing⟩ := h
  exact ⟨_, .cons hown .nil hfollowing⟩

theorem isBounded_of_isLoose {kind : LeafKind} (h : kind.isLoose = true)
    (hcall : kind.calls = false) : kind.isBounded = false := by
  cases kind with
  | token t =>
    have key : ∀ t ∈ Token.all, (LeafKind.token t).isLoose = true →
        (LeafKind.token t).calls = false → t.isBounded = false := by decide +kernel
    exact key t (Token.mem_all t) h hcall
  | _ => rfl

theorem isBounded_of_opens {kind : LeafKind} (h : kind.opens = true) : kind.isBounded = false := by
  cases kind with
  | token t =>
    have key : ∀ t ∈ Token.all, (LeafKind.token t).opens = true → t.isBounded = false := by
      decide +kernel
    exact key t (Token.mem_all t) h
  | _ => rfl

/-- The only function with an operand of this sort is `PEEK`. -/
theorem isBounded_of_calls {kind : LeafKind} (h : kind.calls = true) :
    kind = .token .peek ∨ kind.isBounded = false := by
  cases kind with
  | token t =>
    have key : ∀ t ∈ Token.all, (LeafKind.token t).calls = true →
        t = .peek ∨ t.isBounded = false := by decide +kernel
    exact (key t (Token.mem_all t) h).imp (congrArg LeafKind.token) id
  | _ => exact .inr rfl

theorem supplied_of_expressed {nodes : List Node} (h : Expressed nodes) : Supplied nodes := by
  have hbracket : ∀ {opener closer : Leaf} {inside more : List Node},
      opener.kind.isBounded = false → closer.kind = .token .close → Supplied inside →
      Supplied more → Supplied (.leaf opener :: (inside ++ .leaf closer :: more)) := by
    intro opener closer inside more hopener hcloser hinside hmore
    have hclose : Supplied [.leaf closer] := supplied_leaf (by rw [hcloser]; rfl)
    exact joins_supplied.append (supplied_leaf hopener)
      (joins_supplied.append hinside (joins_supplied.append hclose hmore))
  induction h with
  | nil => exact joins_supplied.nil
  | leaf h hcall _ ih =>
    exact joins_supplied.append (supplied_leaf (isBounded_of_isLoose h hcall)) ih
  | inner _ _ _ ih₁ ih₂ => exact joins_supplied.append (supplied_inner _ ih₁.operands) ih₂
  | bracket ho hc _ _ ih₁ ih₂ => exact hbracket (isBounded_of_opens ho) hc ih₁ ih₂
  | call hw ho hc within _ ih₁ ih₂ =>
    have htail := hbracket (by rw [ho]; rfl) hc ih₁ ih₂
    intro rest hrest
    rw [List.cons_append]
    rcases isBounded_of_calls hw with hpeek | hnone
    · rw [List.cons_append, List.append_assoc, List.cons_append]
      refine exists_operands_leaf (.peek hpeek ho hc within.matched) ?_
      simpa using htail rest hrest
    · exact exists_operands_leaf (.none hnone) (htail rest hrest)

theorem hereditary_supplied : Hereditary Supplied where
  toJoins := joins_supplied
  inner := fun label _ h => supplied_inner label h.operands
  expression := expressed_expression.mono fun _ h => supplied_of_expressed h
  target := expressed_target.mono fun _ h => supplied_of_expressed h

/-- A word with one operand, which goes on to the end of the statement. -/
theorem operands_single {t : Token} {quantity : Quantity}
    (hsupplies : ∀ {word : Leaf} {operand : List Node}, word.kind = .token t → Matched operand →
      Supplies (.leaf word) operand [(quantity, operand)])
    (nested : Input → Node × Input) :
    Yields (fun nodes => ∃ operands, Operands nodes operands) ((Form.single t).rule nested) := by
  intro i nodes a j hr
  obtain ⟨xs, ⟨⟩, k, ys, hx, hy, rfl⟩ := bind_ok hr
  obtain ⟨zs, type, l, ws, hz, hw, rfl⟩ := bind_ok hy
  cases hw
  obtain ⟨text, rest, -, rfl, -⟩ := expect_ok hx
  have hoperand := expressed_expression hz
  rw [List.append_nil]
  exact exists_operands_leaf (hsupplies rfl hoperand.matched)
    (supplied_of_expressed hoperand).operands

/-- `POKE` has an address up to its comma and a byte behind it. -/
theorem operands_poke (nested : Input → Node × Input) :
    Yields (fun nodes => ∃ operands, Operands nodes operands)
      ((Form.pair .poke .pokeComma).rule nested) := by
  intro i nodes a j hr
  obtain ⟨xs, ⟨⟩, k, ys, hx, hy, rfl⟩ := bind_ok hr
  obtain ⟨address, type, l, ws, hz, hw, rfl⟩ := bind_ok hy
  obtain ⟨us, ⟨⟩, m, vs, hu, hv, rfl⟩ := bind_ok hw
  obtain ⟨byte, type', n, ts, hb, ht, rfl⟩ := bind_ok hv
  cases ht
  obtain ⟨text, rest, -, rfl, -⟩ := expect_ok hx
  obtain ⟨text', rest', -, rfl, -⟩ := expect_ok hu
  have haddress := expressed_expression hz
  have hbyte := expressed_expression hb
  rw [List.append_nil]
  refine exists_operands_leaf (.poke rfl rfl haddress.matched hbyte.matched) ?_
  exact supplied_of_expressed haddress _
    (exists_operands_leaf (.none rfl) (supplied_of_expressed hbyte).operands)

/-- The nodes of a sound statement hold the operands of their words. -/
theorem operands_rule {form : Form} (h : form ∈ Form.all) {nested : Input → Node × Input}
    (known : ∀ k, Sound Supplied [(nested k).1]) :
    Yields (Sound fun nodes => ∃ operands, Operands nodes operands) (form.rule nested) := by
  have key : ∀ form ∈ Form.all, form = .single .call ∨ form = .single .color ∨
      form = .pair .poke .pokeComma ∨ ∀ kind ∈ form.kinds, kind.isBounded = false := by
    decide +kernel
  rcases key form h with rfl | rfl | rfl | hnone
  · exact (operands_single .call nested).mono fun _ hnodes _ => hnodes
  · exact (operands_single .color nested).mono fun _ hnodes _ => hnodes
  · exact (operands_poke nested).mono fun _ hnodes _ => hnodes
  · have hrule := hereditary_supplied.rule
      (fun kind hkind i text => supplied_leaf (hnone kind hkind)) known
    exact hrule.mono fun _ hnodes sound => (hnodes sound).operands

theorem supplied_statements (i : Input) : Sound Supplied (statements i) := by
  have hassign : ∀ kind ∈ Form.assignment.kinds, ∀ (i : Input) (text : List Char),
      Supplied [i.leaf kind text] := by
    have key : ∀ kind ∈ Form.assignment.kinds, kind.isBounded = false := by decide
    exact fun kind hkind i text => supplied_leaf (key kind hkind)
  have hname : Yields (Sound Supplied) (assignmentRule none) :=
    hereditary_supplied.assignmentRule (hereditary_supplied.accepts hassign) (by simp)
  refine sound_statements joins_supplied (sound_statement supplied_inner
    (fun form hform nested known => operands_rule hform known) ?_) ?_ i
  · exact hname.mono fun _ hnodes sound => (hnodes sound).operands
  · exact fun i text => supplied_leaf rfl

theorem supplied_line (row : Int) (text : List Char) : Sound Supplied [line row text] := by
  intro sound
  rw [Node.leavesOf_cons, Node.leavesOf_nil, List.append_nil] at sound
  cases hnumber : Lexeme.lineNumber text with
  | none => simp [line, hnumber, unnumbered, LeafKind.isError] at sound
  | some pair =>
    obtain ⟨number, rest⟩ := pair
    rw [line, hnumber] at sound ⊢
    rw [Node.leaves_inner] at sound
    have hnumbered : Sound Supplied [(⟨row, 0, text⟩ : Input).leaf .lineNumber number] :=
      fun _ => supplied_leaf rfl
    exact supplied_inner _
      ((joins_supplied.sound.append hnumbered (supplied_statements _)) sound).operands

/-- In a sound program the operands of every word stand where they belong. -/
theorem operands_program {text : List Char} (sound : (program text).hasError = false) :
    ∃ operands, Operands (program text).children operands := by
  have hlines : ∀ rows : List (Nat × List Char),
      Sound Supplied (rows.map fun row => line row.1 row.2) := by
    intro rows
    induction rows with
    | nil => exact joins_supplied.sound.nil
    | cons row rows ih => exact joins_supplied.sound.append (supplied_line row.1 row.2) ih
  exact (hlines (numberedRows text) (by simpa [program, Node.hasError] using sound)).operands

end Grammar

end IntegerBasic
