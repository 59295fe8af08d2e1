import IntegerBasic.Analysis.Checks

/-!
# What a visit does

The first pass files the number of a line, takes variables into the table as declared or as given a
value, or passes a node by. What the second pass does at a node goes by the kind of the node: it
holds a branch against the table of lines, the operands of another word against their bounds, the
use of a name against the table of variables, and reports an error. Before all that it looks at the
case of the letters.

Each of these checks is opened once here, and said to do one of a few things to the state. What a
pass keeps or collects is then shown of these few.
-/

namespace IntegerBasic.Analysis

/-! ### Remarks -/

/-- What is said of names, of the case of letters and of the length of lines. -/
def Finding.isRemark : Finding → Bool
  | .undeclaredArray | .undeclaredString | .unassigned | .firstElement | .illegalName
  | .lowerCase | .longLine => true
  | _ => false

/-- Some remarks are added to the diagnostics, and the symbols are the given ones. -/
structure Remarked (symbols : Symbols) (state state' : State) : Prop where
  reports : ∃ remarks, state'.diagnostics = state.diagnostics ++ remarks ∧
    ∀ d ∈ remarks, d.finding.isRemark = true
  symbols : state'.symbols = symbols
  lastLine : state'.lastLine = state.lastLine

namespace Remarked

theorem refl (state : State) : Remarked state.symbols state state := ⟨⟨[], by simp⟩, rfl, rfl⟩

theorem report {finding : Finding} (h : finding.isRemark = true) (state : State) (span : Span) :
    Remarked state.symbols state (state.report span finding) :=
  ⟨⟨[⟨span, finding⟩], rfl, by simpa using h⟩, rfl, rfl⟩

theorem checkCase (settings : Settings) (leaf : Leaf) (state : State) :
    Remarked state.symbols state (checkCase settings leaf state) := by
  unfold Analysis.checkCase
  split
  · exact report rfl _ _
  · exact refl _

theorem checkInner (settings : Settings) (label : Label) (children : List Node) (state : State) :
    Remarked state.symbols state (checkInner settings label children state) := by
  unfold Analysis.checkInner
  split
  · split
    · exact report rfl _ _
    · exact refl _
  · split
    · exact report rfl _ _
    · exact refl _
  · exact refl _

end Remarked

theorem foldl_report (findings : List Finding) (span : Span) (state : State) :
    findings.foldl (fun state finding => state.report span finding) state =
      { state with diagnostics := state.diagnostics ++ findings.map (⟨span, ·⟩) } := by
  induction findings generalizing state with
  | nil => simp
  | cons finding findings ih =>
    rw [List.foldl_cons, ih]
    simp [State.report]

/-- The use of a variable is noted. -/
theorem Remarked.checkVariable (settings : Settings) (v : Variable) (span : Span)
    (state : State) :
    Remarked (state.symbols.refer v span) state (checkVariable settings v span state) := by
  unfold Analysis.checkVariable
  simp only [foldl_report]
  refine ⟨⟨_, rfl, fun d hd => ?_⟩, rfl, rfl⟩
  obtain ⟨finding, hfinding, rfl⟩ := List.mem_map.1 hd
  simp only [List.mem_append] at hfinding
  rcases hfinding with (hfinding | hfinding) | hfinding <;> split at hfinding <;>
    simp at hfinding
  · rcases hfinding with ⟨-, rfl⟩ | ⟨-, rfl⟩ <;> rfl
  · rw [hfinding]
    rfl
  · rw [hfinding]
    rfl

/-! ### Operands -/

theorem literal?_of_number {operand : List Node} {text : List Char} {span : Span}
    (h : operand.drop (operand.takeWhile isSign).length = [.leaf ⟨.integer, text, span⟩]) :
    literal? operand = (Numeral.readToken text).map fun n : Nat =>
      some (if ((operand.takeWhile isSign).filter (isToken .unaryMinus)).length % 2 = 1 then
          -(n : Int) else n,
        ⟨((operand.takeWhile isSign).head?.map (·.span.start)).getD span.start, span.stop⟩) := by
  rw [literal?, h]
  dsimp only
  cases Numeral.readToken text <;> rfl

theorem literal?_of_computed {operand : List Node}
    (h : ∀ text span,
      operand.drop (operand.takeWhile isSign).length ≠ [.leaf ⟨.integer, text, span⟩]) :
    literal? operand = .ok none := by
  unfold literal?
  dsimp only
  split
  · exact absurd ‹_› (h _ _)
  · rfl

inductive Measured (operand : List Node) (low high : Int) (state : State) : State → Prop
  | computed (hvalue : literal? operand = .ok none) : Measured operand low high state state
  | within {value : Int} {span : Span} (hvalue : literal? operand = .ok (some (value, span)))
      (hbounds : low ≤ value ∧ value ≤ high) : Measured operand low high state state
  | outside {value : Int} {span : Span} (hvalue : literal? operand = .ok (some (value, span)))
      (hbounds : ¬(low ≤ value ∧ value ≤ high)) :
      Measured operand low high state (state.report span (.outOfRange low high))

theorem measured_of_checkRange {operand : List Node} {low high : Int} {state state' : State}
    (h : checkRange operand low high state = .ok state') :
    Measured operand low high state state' := by
  unfold checkRange at h
  cases hvalue : literal? operand with
  | error e =>
    rw [hvalue] at h
    cases h
  | ok found =>
    rw [hvalue] at h
    cases found with
    | none =>
      cases h
      exact .computed hvalue
    | some pair =>
      cases h
      by_cases hbounds : low ≤ pair.1 ∧ pair.1 ≤ high
      · rw [if_pos hbounds]
        exact .within hvalue hbounds
      · rw [if_neg hbounds]
        exact .outside hvalue hbounds

/-- What every check of a range keeps is kept by a check of operands, whose bounds are those of an
address or of a byte. -/
theorem checkOperands_keeps {R : State → State → Prop} (refl : ∀ s, R s s)
    (trans : ∀ {s t u}, R s t → R t u → R s u)
    (address : ∀ {operand s s'},
      checkRange operand (-addressLimit) addressLimit s = .ok s' → R s s')
    (byte : ∀ {operand s s'}, checkRange operand 0 byteLimit s = .ok s' → R s s')
    {t : Token} {following : List Node} {state state' : State}
    (h : checkOperands t following state = .ok state') : R state state' := by
  unfold checkOperands at h
  split at h
  · cases hfirst : checkRange (upTo .pokeComma following) (-addressLimit) addressLimit state with
    | error e =>
      rw [hfirst] at h
      cases h
    | ok state₁ =>
      rw [hfirst] at h
      cases hbehind : behind .pokeComma following with
      | none =>
        simp only [hbehind] at h
        cases h
        exact address hfirst
      | some operand =>
        simp only [hbehind] at h
        exact trans (address hfirst) (byte h)
  · exact address h
  · exact byte h
  · exact address h
  · cases h
    exact refl state

/-! ### Branches -/

theorem takeWhile_of_branchTarget? {following : List Node} {target : Leaf}
    (h : branchTarget? following = some target) :
    target.kind = .integer ∧ following.takeWhile (!·.isError) = [.leaf target] := by
  unfold branchTarget? at h
  split at h
  · cases h
    exact ⟨rfl, ‹_›⟩
  · cases h

inductive Branched (seat : Seat) (isGosub : Bool) (state : State) : Directive → State → Prop
  | computed (htarget : branchTarget? seat.following = none) :
      Branched seat isGosub state .child state
  | known {target : Leaf} {number : Nat} (htarget : branchTarget? seat.following = some target)
      (hread : Numeral.readToken target.text = .ok number)
      (hknown : (state.symbols.findLine? number).isSome = true) :
      Branched seat isGosub state .parentSibling
        { state with symbols := state.symbols.branch number isGosub target.span }
  | unsure {target : Leaf} {number : Nat} (htarget : branchTarget? seat.following = some target)
      (hread : Numeral.readToken target.text = .ok number)
      (hknown : (state.symbols.findLine? number).isSome = false)
      (hfamily : seat.familyHasError = true) :
      Branched seat isGosub state .sibling (state.report target.span .unsureBranch)
  | dead {target : Leaf} {number : Nat} (htarget : branchTarget? seat.following = some target)
      (hread : Numeral.readToken target.text = .ok number)
      (hknown : (state.symbols.findLine? number).isSome = false)
      (hfamily : seat.familyHasError = false) :
      Branched seat isGosub state .parentSibling (state.report target.span .deadBranch)

theorem branched_of_checkBranch {seat : Seat} {isGosub : Bool} {state state' : State}
    {next : Directive} (h : checkBranch seat isGosub state = .ok (next, state')) :
    Branched seat isGosub state next state' := by
  unfold checkBranch at h
  cases htarget : branchTarget? seat.following with
  | none =>
    rw [htarget] at h
    cases h
    exact .computed htarget
  | some target =>
    rw [htarget] at h
    cases hread : Numeral.readToken target.text with
    | error e =>
      simp only [hread] at h
      cases h
    | ok number =>
      simp only [hread, bind, Except.bind] at h
      cases hknown : (state.symbols.findLine? number).isSome with
      | true =>
        rw [if_pos hknown] at h
        cases h
        exact .known htarget hread hknown
      | false =>
        rw [if_neg (Bool.eq_false_iff.1 hknown)] at h
        cases hfamily : seat.familyHasError with
        | true =>
          rw [if_pos hfamily] at h
          cases h
          exact .unsure htarget hread hknown hfamily
        | false =>
          rw [if_neg (Bool.eq_false_iff.1 hfamily)] at h
          cases h
          exact .dead htarget hread hknown hfamily

/-! ### A visit of the first pass -/

inductive Gathered (seat : Seat) (state : State) : Directive → State → Prop
  | number {l : Leaf} {n : Nat} (hnode : seat.node = .leaf l) (hkind : l.kind = .lineNumber)
      (hread : Numeral.readToken l.text = .ok n) :
      Gathered seat state .sibling (addPrimary l.span n seat.following state)
  | declared (found : List (Variable × Span)) :
      Gathered seat state .parentSibling (declareAll found state)
  | defined (found : List (Variable × Span)) :
      Gathered seat state .parentSibling (defineAll found state)
  | passed {next : Directive} (hnext : next ≠ .exit) : Gathered seat state next state

theorem gathered_of_declareAt {seat : Seat} {state state' : State} {next : Directive}
    (h : declareAt seat state = .ok (next, state')) : Gathered seat state next state' := by
  by_cases hnumber : ∃ text span, seat.node = .leaf ⟨.lineNumber, text, span⟩
  · obtain ⟨text, span, hnode⟩ := hnumber
    rw [declareAt, hnode] at h
    cases hread : Numeral.readToken text with
    | error e =>
      simp only [hread] at h
      cases h
    | ok n =>
      simp only [hread] at h
      cases h
      exact .number hnode rfl hread
  · unfold declareAt at h
    split at h
    · exact absurd ⟨_, _, ‹_›⟩ hnumber
    · cases h
      exact .declared _
    iterate 4
      · cases h
        exact .defined _
    all_goals
      cases h
      exact .passed (by simp)

/-! ### A visit of the second pass -/

def isBranch : Token → Bool
  | .goto | .gosub | .thenLine => true
  | _ => false

theorem checkLeaf_branch {settings : Settings} {seat : Seat} {l : Leaf} {state : State} {t : Token}
    (hkind : l.kind = .token t) (ht : isBranch t = true) :
    checkLeaf settings seat l state =
      checkBranch seat (t == .gosub) (checkCase settings l state) := by
  unfold isBranch at ht
  split at ht
  · rw [checkLeaf, hkind]
    rfl
  · rw [checkLeaf, hkind]
    rfl
  · rw [checkLeaf, hkind]
    rfl
  · cases ht

theorem checkLeaf_word {settings : Settings} {seat : Seat} {l : Leaf} {state : State} {t : Token}
    (hkind : l.kind = .token t) (ht : isBranch t = false) :
    checkLeaf settings seat l state =
      (checkOperands t seat.following (checkCase settings l state)).map (Directive.child, ·) := by
  unfold checkLeaf
  rw [hkind]
  dsimp only
  split <;> simp_all [isBranch]
  cases checkOperands _ seat.following (checkCase settings l state) <;> rfl

/-- The ways a visit of the second pass can go, by what sits there. -/
inductive Checked (settings : Settings) (seat : Seat) (state : State) : Directive → State → Prop
  | inner {label : Label} {children : List Node} (hnode : seat.node = .inner label children) :
      Checked settings seat state .child (checkInner settings label children state)
  | error {l : Leaf} {cause : Mismatch} (hnode : seat.node = .leaf l)
      (hkind : l.kind = .error cause) :
      Checked settings seat state .child
        ((checkCase settings l state).report l.span (.badText cause))
  | branch {l : Leaf} {t : Token} {next : Directive} {state' : State}
      (hnode : seat.node = .leaf l) (hkind : l.kind = .token t) (ht : isBranch t = true)
      (h : checkBranch seat (t == .gosub) (checkCase settings l state) = .ok (next, state')) :
      Checked settings seat state next state'
  | word {l : Leaf} {t : Token} {state' : State} (hnode : seat.node = .leaf l)
      (hkind : l.kind = .token t) (ht : isBranch t = false)
      (h : checkOperands t seat.following (checkCase settings l state) = .ok state') :
      Checked settings seat state .child state'
  | declared {l : Leaf} {type : DataType} (hnode : seat.node = .leaf l)
      (hkind : l.kind = .name type) (h : isDeclared seat = true) :
      Checked settings seat state .child (checkCase settings l state)
  | name {l : Leaf} {type : DataType} (hnode : seat.node = .leaf l)
      (hkind : l.kind = .name type) (h : isDeclared seat = false) :
      Checked settings seat state .child
        (checkVariable settings (nameVariable l.text type seat.following) l.span
          (checkCase settings l state))
  | plain {l : Leaf} (hnode : seat.node = .leaf l) (hword : ∀ t, l.kind ≠ .token t)
      (hname : ∀ type, l.kind ≠ .name type) (hsound : l.kind.isError = false) :
      Checked settings seat state .child (checkCase settings l state)

theorem checked_of_checkAt {settings : Settings} {seat : Seat} {state state' : State}
    {next : Directive} (h : checkAt settings seat state = .ok (next, state')) :
    Checked settings seat state next state' := by
  unfold checkAt at h
  cases hnode : seat.node with
  | inner label children =>
    rw [hnode] at h
    cases h
    exact .inner hnode
  | leaf l =>
    rw [hnode] at h
    dsimp only at h
    cases hkind : l.kind with
    | error cause =>
      rw [checkLeaf, hkind] at h
      cases h
      exact .error hnode hkind
    | token t =>
      cases ht : isBranch t with
      | true =>
        rw [checkLeaf_branch hkind ht] at h
        exact .branch hnode hkind ht h
      | false =>
        rw [checkLeaf_word hkind ht] at h
        cases hoperands : checkOperands t seat.following (checkCase settings l state) with
        | error e =>
          rw [hoperands] at h
          cases h
        | ok state₁ =>
          rw [hoperands] at h
          cases h
          exact .word hnode hkind ht hoperands
    | name type =>
      rw [checkLeaf, hkind] at h
      dsimp only at h
      cases hdeclared : isDeclared seat with
      | true =>
        rw [if_pos hdeclared] at h
        cases h
        exact .declared hnode hkind hdeclared
      | false =>
        rw [if_neg (Bool.eq_false_iff.1 hdeclared)] at h
        cases h
        exact .name hnode hkind hdeclared
    | _ =>
      rw [checkLeaf, hkind] at h
      cases h
      refine .plain hnode ?_ ?_ ?_ <;> simp [hkind, LeafKind.isError]

end IntegerBasic.Analysis
