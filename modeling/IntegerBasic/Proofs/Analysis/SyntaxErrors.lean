import IntegerBasic.Analysis
import IntegerBasic.Proofs.Analysis.Checks
import IntegerBasic.Proofs.Grammar.ErrorLeaves
import IntegerBasic.Proofs.Grammar.Numbers
import IntegerBasic.Proofs.Tree.Traversal

/-!
# Which syntax errors are reported

The second pass reports an error leaf when it comes to it. It leaves a family early only at a word
that branches, and what it then leaves out is the number of the branch and perhaps an error leaf
behind it. If the line is there the error leaf is lost, and no other error leaf is.
-/

namespace IntegerBasic.Analysis

open Grammar (program)

/-- The words that the message of every syntax error begins with. -/
def Diagnostic.isSyntaxError (d : Diagnostic) : Bool :=
  "syntax error: ".toList.isPrefixOf d.finding.message.toList

theorem isSyntaxError_badText (span : Span) (cause : Mismatch) :
    Diagnostic.isSyntaxError ⟨span, .badText cause⟩ = true := by
  rw [Diagnostic.isSyntaxError, List.isPrefixOf_iff_prefix]
  show "syntax error: ".toList <+: ("syntax error: " ++ cause.message).toList
  rw [String.toList_append]
  exact List.prefix_append _ _

theorem head?_message_badText (cause : Mismatch) :
    (Finding.badText cause).message.toList.head? = some 's' := by
  show List.head? ("syntax error: " ++ cause.message).toList = some 's'
  rw [String.toList_append]
  rfl

theorem beq_eq_false_of_head? {s t : String} (h : s.toList.head? ≠ t.toList.head?) :
    (s == t) = false := by
  rw [beq_eq_false_iff_ne]
  rintro rfl
  exact h rfl

/-- Only what is said of bad text is called a syntax error. -/
theorem isSyntaxError_eq_false {span : Span} {finding : Finding}
    (h : ∀ cause, finding ≠ .badText cause) :
    Diagnostic.isSyntaxError ⟨span, finding⟩ = false := by
  unfold Diagnostic.isSyntaxError
  cases finding with
  | outOfRange low high =>
    show List.isPrefixOf _
      ("Out of range (" ++ toString low ++ "," ++ toString high ++ ")").toList = false
    simp only [String.toList_append, List.append_assoc]
    rfl
  | badText cause => exact absurd rfl (h cause)
  | _ => dsimp only; decide +kernel

def State.syntaxErrors (state : State) : List Diagnostic :=
  state.diagnostics.filter (·.isSyntaxError)

theorem syntaxErrors_report_badText (state : State) (span : Span) (cause : Mismatch) :
    (state.report span (.badText cause)).syntaxErrors =
      state.syntaxErrors ++ [⟨span, .badText cause⟩] := by
  simp [State.syntaxErrors, State.report, isSyntaxError_badText]

theorem syntaxErrors_report {finding : Finding} (h : ∀ cause, finding ≠ .badText cause)
    (state : State) (span : Span) :
    (state.report span finding).syntaxErrors = state.syntaxErrors := by
  simp [State.syntaxErrors, State.report, isSyntaxError_eq_false h]

def Symbols.knows (symbols : Symbols) (number : Nat) : Bool := (symbols.findLine? number).isSome

/-- A change of some entries leaves the keys of a table as they are. -/
theorem isSome_get?_map {α : Type} (table : List (Nat × α)) (change : Nat × α → Nat × α)
    (h : ∀ entry, (change entry).1 = entry.1) (key : Nat) :
    (Table.get? (table.map change) key).isSome = (Table.get? table key).isSome := by
  unfold Table.get?
  rw [List.find?_map, Option.map_map, Option.isSome_map, Option.isSome_map]
  congr 2
  funext entry
  exact congrArg (· == key) (h entry)

theorem knows_branch (symbols : Symbols) (number : Nat) (isGosub : Bool) (span : Span) (n : Nat) :
    (symbols.branch number isGosub span).knows n = symbols.knows n := by
  apply isSome_get?_map
  rintro ⟨k, info⟩
  dsimp only
  split <;> rfl

/-- Every number in these nodes has few enough digits to be read. -/
def Readable (nodes : List Node) : Prop :=
  ∀ l ∈ Node.leavesOf nodes, l.kind.isNumber = true →
    (l.text.filter Char.isDigit).length ≤ Numeral.digitLimit

theorem Readable.right {node : Node} {nodes : List Node} (h : Readable (node :: nodes)) :
    Readable nodes := by
  intro l hl
  exact h l (by simp [hl])

theorem Readable.below {node : Node} {nodes : List Node} (h : Readable (node :: nodes)) :
    Readable node.children := by
  intro l hl
  cases node with
  | leaf l' => simp [Node.children] at hl
  | inner label children => exact h l (by simp_all [Node.children])

theorem Readable.readToken {l : Leaf} {nodes : List Node} (h : Readable nodes)
    (hl : .leaf l ∈ nodes) (hnumber : l.kind.isNumber = true) :
    Numeral.readToken l.text = .ok (Numeral.digitsValue l.text) := by
  apply Numeral.readToken_of_le
  apply h l _ hnumber
  induction nodes with
  | nil => cases hl
  | cons node nodes ih =>
    rw [Node.leavesOf_cons]
    cases hl with
    | head => simp
    | tail _ hl => exact List.mem_append_right _ (ih h.right hl)

theorem syntaxErrors_addPrimary (span : Span) (number : Nat) (statements : List Node)
    (state : State) : (addPrimary span number statements state).syntaxErrors =
      state.syntaxErrors := by
  unfold addPrimary
  split
  · exact syntaxErrors_report (by simp) state span
  · split
    · exact syntaxErrors_report (by simp) state span
    · rfl

/-- One visit of the first pass reports no syntax error. -/
theorem declareAt_ok (seat : Seat) (state : State)
    (h : Readable (seat.node :: seat.following)) :
    ∃ next state', declareAt seat state = .ok (next, state') ∧ next ≠ .exit ∧
      state'.syntaxErrors = state.syntaxErrors := by
  unfold declareAt
  split
  · have hread := h.readToken (List.mem_cons.2 (.inl (Eq.symm ‹seat.node = _›))) rfl
    dsimp only at hread
    rw [hread]
    exact ⟨_, _, rfl, by simp, syntaxErrors_addPrimary _ _ _ _⟩
  all_goals exact ⟨_, _, rfl, by simp, rfl⟩

/-- The first pass reports no syntax error. -/
theorem declarePass_ok (tree : Node) (state : State) (h : Readable tree.children) :
    ∃ state', declarePass tree state = .ok state' ∧
      state'.syntaxErrors = state.syntaxErrors := by
  apply survey_ok (P := fun _ nodes _ => Readable nodes)
    (Q := fun _ _ s t => t.syntaxErrors = s.syntaxErrors) (fun _ => rfl) _ tree state h
  intro left node right state hread
  obtain ⟨next, state', hok, hexit, hsame⟩ := declareAt_ok ⟨node, left, right⟩ state hread
  refine ⟨(next, state'), hok, ?_⟩
  cases next with
  | exit => exact hexit rfl
  | parentSibling => exact hsame
  | sibling => exact ⟨hread.right, fun _ h₂ => h₂.trans hsame⟩
  | child =>
    exact ⟨hread.below, fun _ h₂ => ⟨hread.right, fun _ h₃ => h₃.trans (h₂.trans hsame)⟩⟩

/-- A change of state that leaves the syntax errors and the known lines as they are. -/
structure Quiet (state state' : State) : Prop where
  errors : state'.syntaxErrors = state.syntaxErrors
  lines : ∀ n, state'.symbols.knows n = state.symbols.knows n

namespace Quiet

theorem refl (state : State) : Quiet state state := ⟨rfl, fun _ => rfl⟩

theorem report {finding : Finding} (h : ∀ cause, finding ≠ .badText cause) (state : State)
    (span : Span) : Quiet state (state.report span finding) :=
  ⟨syntaxErrors_report h state span, fun _ => rfl⟩

end Quiet

/-- A finding about neither bad text nor the target of a branch. -/
def Finding.isAside : Finding → Bool
  | .unsureBranch | .deadBranch | .badText _ => false
  | _ => true

theorem isAside_of_isRemark {finding : Finding} (h : finding.isRemark = true) :
    finding.isAside = true := by
  cases finding with
  | unsureBranch | deadBranch | badText => cases h
  | _ => rfl

structure Aside (state state' : State) : Prop where
  reports : ∃ more, state'.diagnostics = state.diagnostics ++ more ∧
    ∀ d ∈ more, d.finding.isAside = true
  lines : state'.symbols.lines = state.symbols.lines

namespace Aside

theorem refl (state : State) : Aside state state := ⟨⟨[], by simp⟩, rfl⟩

theorem trans {s t u : State} (h₁ : Aside s t) (h₂ : Aside t u) : Aside s u := by
  obtain ⟨more₁, hmore₁, haside₁⟩ := h₁.reports
  obtain ⟨more₂, hmore₂, haside₂⟩ := h₂.reports
  refine ⟨⟨more₁ ++ more₂, by rw [hmore₂, hmore₁, List.append_assoc], ?_⟩,
    h₂.lines.trans h₁.lines⟩
  intro d hd
  rcases List.mem_append.1 hd with hd | hd
  · exact haside₁ d hd
  · exact haside₂ d hd

theorem report {finding : Finding} (h : finding.isAside = true) (state : State) (span : Span) :
    Aside state (state.report span finding) :=
  ⟨⟨[⟨span, finding⟩], rfl, by simpa using h⟩, rfl⟩

theorem quiet {state state' : State} (h : Aside state state') : Quiet state state' := by
  obtain ⟨more, hmore, haside⟩ := h.reports
  have hnone : more.filter (·.isSyntaxError) = [] := by
    rw [List.filter_eq_nil_iff]
    rintro ⟨span, finding⟩ hd
    rw [isSyntaxError_eq_false]
    · exact Bool.false_ne_true
    · rintro cause rfl
      cases haside _ hd
  refine ⟨?_, fun n => ?_⟩
  · rw [State.syntaxErrors, hmore, List.filter_append, hnone, List.append_nil]
    rfl
  · rw [Symbols.knows, Symbols.findLine?, h.lines]
    rfl

theorem of_remarked {symbols : Symbols} {state state' : State} (h : Remarked symbols state state')
    (hlines : symbols.lines = state.symbols.lines) : Aside state state' := by
  obtain ⟨remarks, hremarks, hremark⟩ := h.reports
  refine ⟨⟨remarks, hremarks, fun d hd => isAside_of_isRemark (hremark d hd)⟩, ?_⟩
  rw [h.symbols, hlines]

theorem checkCase (settings : Settings) (leaf : Leaf) (state : State) :
    Aside state (checkCase settings leaf state) :=
  of_remarked (.checkCase settings leaf state) rfl

theorem checkVariable (settings : Settings) (v : Variable) (span : Span) (state : State) :
    Aside state (checkVariable settings v span state) :=
  of_remarked (.checkVariable settings v span state) rfl

theorem checkInner (settings : Settings) (label : Label) (children : List Node)
    (state : State) : Aside state (checkInner settings label children state) :=
  of_remarked (.checkInner settings label children state) rfl

theorem checkRange {operand : List Node} {low high : Int} {state state' : State}
    (h : checkRange operand low high state = .ok state') : Aside state state' := by
  cases measured_of_checkRange h with
  | computed => exact refl state
  | within => exact refl state
  | outside => exact report rfl state _

theorem checkOperands {t : Token} {following : List Node} {state state' : State}
    (h : checkOperands t following state = .ok state') : Aside state state' :=
  checkOperands_keeps refl trans checkRange checkRange h

end Aside

theorem Readable.mono {xs ys : List Node} (h : Readable ys) (hs : xs <:+: ys) : Readable xs := by
  obtain ⟨before, behind, rfl⟩ := hs
  intro l hl
  exact h l (by simp [hl])

theorem literal?_ok {operand : List Node} (h : Readable operand) :
    ∃ found, literal? operand = .ok found := by
  by_cases hnumber : ∃ text span,
      operand.drop (operand.takeWhile isSign).length = [.leaf ⟨.integer, text, span⟩]
  · obtain ⟨text, span, hdrop⟩ := hnumber
    have hmem : Node.leaf ⟨.integer, text, span⟩ ∈ operand :=
      List.mem_of_mem_drop (by rw [hdrop]; exact List.mem_cons_self)
    rw [literal?_of_number hdrop, h.readToken hmem rfl]
    exact ⟨_, rfl⟩
  · exact ⟨_, literal?_of_computed fun text span hdrop => hnumber ⟨text, span, hdrop⟩⟩

theorem exists_checkRange {operand : List Node} (h : Readable operand) (low high : Int)
    (state : State) : ∃ state', checkRange operand low high state = .ok state' := by
  obtain ⟨found, hfound⟩ := literal?_ok h
  unfold checkRange
  rw [hfound]
  cases found <;> exact ⟨_, rfl⟩

theorem suffix_of_behind {t : Token} {following operand : List Node}
    (h : behind t following = some operand) : operand <:+ following := by
  unfold behind at h
  cases hdrop : following.dropWhile (!isToken t ·) with
  | nil =>
    rw [hdrop] at h
    cases h
  | cons node rest =>
    rw [hdrop] at h
    cases h
    exact (List.suffix_cons node _).trans (hdrop ▸ List.dropWhile_suffix _)

theorem exists_checkOperands {following : List Node} (h : Readable following) (t : Token)
    (state : State) : ∃ state', checkOperands t following state = .ok state' := by
  unfold checkOperands
  split
  · have hprefix : upTo .pokeComma following <:+: following := (List.takeWhile_prefix _).isInfix
    obtain ⟨state₁, hfirst⟩ :=
      exists_checkRange (h.mono hprefix) (-addressLimit) addressLimit state
    rw [hfirst]
    cases hbehind : behind .pokeComma following with
    | none => exact ⟨state₁, rfl⟩
    | some operand =>
      exact exists_checkRange (h.mono (suffix_of_behind hbehind).isInfix) 0 byteLimit state₁
  · have htail : upTo .close following.tail <:+: following :=
      (List.takeWhile_prefix _).isInfix.trans (List.tail_suffix following).isInfix
    exact exists_checkRange (h.mono htail) _ _ state
  · exact exists_checkRange h _ _ state
  · exact exists_checkRange h _ _ state
  · exact ⟨state, rfl⟩

/-- A word that branches, and the number of a line in the table. -/
def leads (symbols : Symbols) (word number : Node) : Bool :=
  match word, number with
  | .leaf ⟨.token t, _, _⟩, .leaf ⟨.integer, text, _⟩ =>
    isBranch t && symbols.knows (Numeral.digitsValue text)
  | _, _ => false

/-- Right before this seat a branch leads to a line in the table. -/
def isHidden (symbols : Symbols) (seat : Seat) : Bool :=
  match seat.preceding with
  | number :: word :: _ => leads symbols word number
  | _ => false

/-- What is to be said of a leaf if it is an error. -/
def syntaxError? (leaf : Leaf) : Option Diagnostic :=
  match leaf.kind with
  | .error cause => some ⟨leaf.span, .badText cause⟩
  | _ => none

/-- What the second pass says of an error leaf that is not hidden. -/
def reported? (symbols : Symbols) (seat : Seat) : Option Diagnostic :=
  if isHidden symbols seat then none else seat.leaf?.bind syntaxError?

theorem syntaxError?_of_not_isError {l : Leaf} (h : l.kind.isError = false) :
    syntaxError? l = none := by
  obtain ⟨kind, text, span⟩ := l
  cases kind with
  | error cause => cases h
  | _ => rfl

theorem leads_congr {symbols symbols' : Symbols} (h : ∀ n, symbols'.knows n = symbols.knows n) :
    leads symbols' = leads symbols := by
  funext word number
  unfold leads
  split
  · rw [h]
  · rfl

theorem reported?_congr {symbols symbols' : Symbols}
    (h : ∀ n, symbols'.knows n = symbols.knows n) : reported? symbols' = reported? symbols := by
  funext seat
  unfold reported? isHidden
  rw [leads_congr h]

/-- A branch with a written number stands before this number, and before an error leaf if the
statement is broken. -/
theorem following_of_branchTarget? {following : List Node} {target : Leaf}
    (h : branchTarget? following = some target) (hlast : ErrorsLast following) :
    target.kind = .integer ∧
      (following = [.leaf target] ∨ ∃ e, following = [.leaf target, e] ∧ e.isError = true) := by
  obtain ⟨hkind, htake⟩ := takeWhile_of_branchTarget? h
  refine ⟨hkind, ?_⟩
  cases hlast with
  | nil => cases htake
  | inner within hright => simp at htake
  | @leaf l right last hright =>
    cases herror : l.kind.isError with
    | true => simp [herror] at htake
    | false =>
      simp only [List.takeWhile_cons, Node.isError_leaf, herror, Bool.not_false, if_true,
        List.cons.injEq, Node.leaf.injEq] at htake
      obtain ⟨rfl, hnil⟩ := htake
      cases right with
      | nil => exact .inl rfl
      | cons e right =>
        right
        have he : e.isError = true := by
          cases hc : e.isError with
          | true => rfl
          | false => simp [hc] at hnil
        cases hright with
        | leaf last _ =>
          rw [last he]
          exact ⟨_, rfl, he⟩
        | inner => cases he

structure Visited (seat : Seat) (state : State) (next : Directive) (state' : State) : Prop where
  errors : state'.syntaxErrors = state.syntaxErrors ++ (seat.leaf?.bind syntaxError?).toList
  lines : ∀ n, state'.symbols.knows n = state.symbols.knows n
  goesOn : next ≠ .exit
  /-- Only below inner nodes there is more to visit. -/
  below : next ≠ .child → seat.node.children = []
  /-- A family that is left has nothing more, or a hidden error leaf. -/
  leaves : next = .parentSibling → ∃ target : Leaf, target.kind.isError = false ∧
    (seat.following = [.leaf target] ∨
      ∃ e, seat.following = [.leaf target, e] ∧ e.children = [] ∧
        leads state.symbols seat.node (.leaf target) = true)
  /-- A family that is not left has no hidden error leaf to come. -/
  stays : next ≠ .parentSibling → ∀ number e, seat.following = [number, e] →
    e.isError = true → leads state.symbols seat.node number = false

theorem leaf?_of_node {seat : Seat} {l : Leaf} (h : seat.node = .leaf l) :
    seat.leaf? = some l := by
  rw [Seat.leaf?, h]

/-- A visit that goes on below its node, and whose node is no branch. -/
theorem Visited.of_quiet {seat : Seat} {state state' : State} (h : Quiet state state')
    (hnode : seat.leaf?.bind syntaxError? = none)
    (hword : ∀ number, leads state.symbols seat.node number = false) :
    Visited seat state .child state' where
  errors := by rw [hnode, h.errors]; simp
  lines := h.lines
  goesOn := by simp
  below := by simp
  leaves := by simp
  stays := fun _ number _ _ _ => hword number

theorem leads_eq_false {symbols : Symbols} {l : Leaf}
    (h : ∀ t, l.kind = .token t → isBranch t = false) (number : Node) :
    leads symbols (.leaf l) number = false := by
  unfold leads
  split
  · cases ‹Node.leaf l = _›
    rw [h _ rfl, Bool.false_and]
  · rfl

theorem leads_of_branchTarget?_eq_none {symbols : Symbols} {word number e : Node}
    (h : branchTarget? [number, e] = none) (he : e.isError = true) :
    leads symbols word number = false := by
  unfold leads
  split
  · rw [branchTarget?, List.takeWhile_cons_of_pos (by rfl),
      List.takeWhile_cons_of_neg (by simp [he])] at h
    cases h
  · rfl

theorem leads_leaf {word target : Leaf} {t : Token} (hword : word.kind = .token t)
    (ht : isBranch t = true) (htarget : target.kind = .integer) (symbols : Symbols) :
    leads symbols (.leaf word) (.leaf target) =
      symbols.knows (Numeral.digitsValue target.text) := by
  obtain ⟨kind, text, span⟩ := word
  obtain ⟨kind', text', span'⟩ := target
  cases hword
  cases htarget
  simp [leads, ht]

theorem mem_of_branchTarget? {following : List Node} {target : Leaf}
    (h : branchTarget? following = some target) :
    target.kind = .integer ∧ .leaf target ∈ following := by
  obtain ⟨hkind, htake⟩ := takeWhile_of_branchTarget? h
  exact ⟨hkind, (List.takeWhile_sublist _).subset (by rw [htake]; exact List.mem_cons_self)⟩

theorem exists_checkBranch {seat : Seat} (hread : Readable seat.following) (isGosub : Bool)
    (state : State) : ∃ result, checkBranch seat isGosub state = .ok result := by
  unfold checkBranch
  cases htarget : branchTarget? seat.following with
  | none => exact ⟨_, rfl⟩
  | some target =>
    obtain ⟨hinteger, hmem⟩ := mem_of_branchTarget? htarget
    dsimp only
    rw [hread.readToken hmem (by rw [hinteger]; rfl)]
    simp only [bind, Except.bind]
    split
    · exact ⟨_, rfl⟩
    · split <;> exact ⟨_, rfl⟩

/-- A visit at a branch. -/
theorem Branched.visited {seat : Seat} {isGosub : Bool} {state state' : State} {next : Directive}
    (h : Branched seat isGosub state next state') {l : Leaf} {t : Token}
    (hnode : seat.node = .leaf l) (hkind : l.kind = .token t) (hbranch : isBranch t = true)
    (hlast : ErrorsLast seat.following) : Visited seat state next state' := by
  have hnone : seat.leaf?.bind syntaxError? = none := by
    rw [leaf?_of_node hnode, Option.bind_some]
    exact syntaxError?_of_not_isError (by rw [hkind]; rfl)
  have hchildren : seat.node.children = [] := by rw [hnode]; rfl
  have hleads : ∀ {target : Leaf} {number : Nat}, target.kind = .integer →
      Numeral.readToken target.text = .ok number →
      leads state.symbols seat.node (.leaf target) = state.symbols.knows number := by
    intro target number hinteger hnumber
    rw [hnode, leads_leaf hkind hbranch hinteger, Numeral.eq_digitsValue hnumber]
  cases h with
  | computed htarget =>
    refine ⟨by rw [hnone]; simp, fun _ => rfl, by simp, by simp, by simp, ?_⟩
    intro _ number e hfollowing he
    exact leads_of_branchTarget?_eq_none (hfollowing ▸ htarget) he
  | known htarget hnumber hknown =>
    obtain ⟨hinteger, hfollowing⟩ := following_of_branchTarget? htarget hlast
    refine ⟨by rw [hnone]; simp [State.syntaxErrors], knows_branch _ _ _ _, by simp,
      fun _ => hchildren, fun _ => ⟨_, by rw [hinteger]; rfl, ?_⟩, by simp⟩
    rcases hfollowing with h | ⟨e, h, he⟩
    · exact .inl h
    · refine .inr ⟨e, h, ?_, (hleads hinteger hnumber).trans hknown⟩
      cases e with
      | leaf => rfl
      | inner => cases he
  | @unsure target _ htarget hnumber hunknown =>
    obtain ⟨hinteger, hfollowing⟩ := following_of_branchTarget? htarget hlast
    have hquiet : Quiet state (state.report target.span .unsureBranch) := .report (by simp) _ _
    refine ⟨by rw [hnone, hquiet.errors]; simp, hquiet.lines, by simp, fun _ => hchildren,
      by simp, ?_⟩
    intro _ number e h he
    rcases hfollowing with h' | ⟨e', h', -⟩
    · rw [h] at h'
      cases h'
    · rw [h] at h'
      cases h'
      exact (hleads hinteger hnumber).trans hunknown
  | @dead target _ htarget hnumber _ hfamily =>
    obtain ⟨hinteger, hfollowing⟩ := following_of_branchTarget? htarget hlast
    have hquiet : Quiet state (state.report target.span .deadBranch) := .report (by simp) _ _
    refine ⟨by rw [hnone, hquiet.errors]; simp, hquiet.lines, by simp, fun _ => hchildren,
      fun _ => ⟨target, by rw [hinteger]; rfl, ?_⟩, by simp⟩
    rcases hfollowing with h | ⟨e, h, he⟩
    · exact .inl h
    · -- the family would have an error
      exfalso
      cases e with
      | leaf l' => simp_all [Seat.familyHasError, Node.hasError]
      | inner => cases he

theorem Visited.of_checkCase {settings : Settings} {seat : Seat} {leaf : Leaf} {state state' : State}
    {next : Directive} (h : Visited seat (checkCase settings leaf state) next state') :
    Visited seat state next state' where
  errors := by rw [h.errors, (Aside.checkCase settings leaf state).quiet.errors]
  lines := fun n => (h.lines n).trans ((Aside.checkCase settings leaf state).quiet.lines n)
  goesOn := h.goesOn
  below := h.below
  leaves := by
    rw [← leads_congr (Aside.checkCase settings leaf state).quiet.lines]
    exact h.leaves
  stays := by
    rw [← leads_congr (Aside.checkCase settings leaf state).quiet.lines]
    exact h.stays

theorem exists_checkAt (settings : Settings) {seat : Seat} (state : State)
    (hread : Readable seat.following) : ∃ result, checkAt settings seat state = .ok result := by
  rw [checkAt]
  cases seat.node with
  | inner label children => exact ⟨_, rfl⟩
  | leaf l =>
    dsimp only
    cases hkind : l.kind with
    | token t =>
      cases ht : isBranch t with
      | true =>
        rw [checkLeaf_branch hkind ht]
        exact exists_checkBranch hread _ _
      | false =>
        obtain ⟨state', hok⟩ := exists_checkOperands hread t (checkCase settings l state)
        rw [checkLeaf_word hkind ht, hok]
        exact ⟨_, rfl⟩
    | name type =>
      rw [checkLeaf, hkind]
      dsimp only
      split <;> exact ⟨_, rfl⟩
    | _ =>
      rw [checkLeaf, hkind]
      exact ⟨_, rfl⟩

theorem Checked.visited {settings : Settings} {seat : Seat} {state state' : State}
    {next : Directive} (h : Checked settings seat state next state')
    (hlast : ErrorsLast (seat.node :: seat.following)) : Visited seat state next state' := by
  -- a leaf that is neither an error nor a word that branches
  have plain : ∀ {l : Leaf} {state' : State}, seat.node = .leaf l → l.kind.isError = false →
      (∀ t, l.kind = .token t → isBranch t = false) →
      Quiet (checkCase settings l state) state' → Visited seat state .child state' := by
    intro l state' hnode hsound hword hquiet
    refine .of_checkCase (.of_quiet hquiet ?_ (by rw [hnode]; exact leads_eq_false hword))
    rw [leaf?_of_node hnode, Option.bind_some, syntaxError?_of_not_isError hsound]
  cases h with
  | @inner label children hnode =>
    refine .of_quiet (Aside.checkInner settings label children state).quiet ?_ ?_
    · rw [Seat.leaf?, hnode]
      rfl
    · rw [hnode]
      exact fun _ => rfl
  | @error l cause hnode hkind =>
    suffices hvisited : Visited seat (checkCase settings l state) .child
        ((checkCase settings l state).report l.span (.badText cause)) from hvisited.of_checkCase
    refine ⟨?_, fun _ => rfl, by simp, by simp, by simp, ?_⟩
    · rw [syntaxErrors_report_badText, leaf?_of_node hnode, Option.bind_some, syntaxError?, hkind]
      rfl
    · intro _ number e _ _
      rw [hnode]
      exact leads_eq_false (by rw [hkind]; simp) number
  | branch hnode hkind ht hbranch =>
    exact ((branched_of_checkBranch hbranch).visited hnode hkind ht hlast.right).of_checkCase
  | word hnode hkind ht hoperands =>
    refine plain hnode (by rw [hkind]; rfl) (fun t' ht' => ?_) (Aside.checkOperands hoperands).quiet
    rw [← LeafKind.token.inj (hkind.symm.trans ht')]
    exact ht
  | declared hnode hkind =>
    exact plain hnode (by rw [hkind]; rfl) (by rw [hkind]; simp) (.refl _)
  | name hnode hkind =>
    exact plain hnode (by rw [hkind]; rfl) (by rw [hkind]; simp)
      (Aside.checkVariable _ _ _ _).quiet
  | plain hnode hword _ hsound =>
    exact plain hnode hsound (fun t ht => (hword t ht).elim) (.refl _)

/-- One visit of the second pass. -/
theorem checkAt_ok (settings : Settings) (seat : Seat) (state : State)
    (hread : Readable (seat.node :: seat.following))
    (hlast : ErrorsLast (seat.node :: seat.following)) :
    ∃ next state', checkAt settings seat state = .ok (next, state') ∧
      Visited seat state next state' := by
  obtain ⟨⟨next, state'⟩, hok⟩ := exists_checkAt settings state hread.right
  exact ⟨next, state', hok, (checked_of_checkAt hok).visited hlast⟩

/-- No error leaf to come is hidden by a branch already passed. -/
def Open (symbols : Symbols) (left nodes : List Node) : Prop :=
  (∀ word more number e, left = word :: more → nodes = [number, e] → e.isError = true →
      leads symbols word number = false) ∧
    ∀ number word more e, left = number :: word :: more → nodes = [e] → e.isError = true →
      leads symbols word number = false

theorem Open.nil (symbols : Symbols) (nodes : List Node) : Open symbols [] nodes := by
  constructor
  · intro word more number e h
    cases h
  · intro number word more e h
    cases h

theorem Open.congr {symbols symbols' : Symbols} (h : ∀ n, symbols'.knows n = symbols.knows n)
    {left nodes : List Node} (ho : Open symbols left nodes) : Open symbols' left nodes := by
  unfold Open
  rw [leads_congr h]
  exact ho

/-- A visit that does not leave the family keeps the error leaves to come in sight. -/
theorem Visited.open {left right : List Node} {node : Node} {state state' : State}
    {next : Directive} (h : Visited ⟨node, left, right⟩ state next state')
    (hnext : next ≠ .parentSibling) (ho : Open state.symbols left (node :: right)) :
    Open state.symbols (node :: left) right := by
  constructor
  · intro word more number e hleft hright he
    cases hleft
    exact h.stays hnext number e hright he
  · intro number word more e hleft hright he
    cases hleft
    exact ho.1 word more node e rfl (by rw [hright]) he

theorem reported?_of_open {symbols : Symbols} {left right : List Node} {node : Node}
    (hlast : ErrorsLast (node :: right)) (ho : Open symbols left (node :: right)) :
    reported? symbols ⟨node, left, right⟩ =
      (Seat.leaf? ⟨node, left, right⟩).bind syntaxError? := by
  rw [reported?]
  cases hhidden : isHidden symbols ⟨node, left, right⟩ with
  | false => rfl
  | true =>
    cases hlast with
    | inner => rfl
    | @leaf l _ last =>
      cases herror : l.kind.isError with
      | false => exact (syntaxError?_of_not_isError herror).symm
      | true =>
        match left, ho, hhidden with
        | [], _, hhidden | [_], _, hhidden => cases hhidden
        | number :: word :: more, ho, hhidden =>
          cases (ho.2 number word more (.leaf l) rfl (by rw [last herror]) herror).symm.trans hhidden

/-- A family that is left has nothing more to report. -/
theorem Visited.reported?_left {left right : List Node} {node : Node} {state state' : State}
    (h : Visited ⟨node, left, right⟩ state .parentSibling state') :
    (seats (node :: left) right).filterMap (reported? state.symbols) = [] := by
  obtain ⟨target, hsound, hright | ⟨e, hright, he, hleads⟩⟩ := h.leaves rfl
  · dsimp only at hright
    rw [hright, seats, Node.children, seats, seats]
    simp [reported?, Seat.leaf?, syntaxError?_of_not_isError hsound]
  · dsimp only at hright hleads
    rw [hright, seats, Node.children, seats, seats, he, seats, seats]
    simp [reported?, isHidden, Seat.leaf?, syntaxError?_of_not_isError hsound, hleads]

structure Toured (symbols : Symbols) (left nodes : List Node) (state state' : State) : Prop where
  errors : state'.syntaxErrors =
    state.syntaxErrors ++ (seats left nodes).filterMap (reported? symbols)
  lines : ∀ n, state'.symbols.knows n = symbols.knows n

/-- A visit and what the walk does behind it make up the walk over both. -/
theorem Toured.cons {symbols : Symbols} {left right : List Node} {node : Node}
    {state state₁ state₂ state₃ : State} {next : Directive}
    (hvisit : Visited ⟨node, left, right⟩ state next state₁)
    (hlast : ErrorsLast (node :: right)) (ho : Open symbols left (node :: right))
    (hbelow : Toured symbols [] node.children state₁ state₂)
    (hright : Toured symbols (node :: left) right state₂ state₃) :
    Toured symbols left (node :: right) state state₃ where
  errors := by
    rw [seats, List.filterMap_cons, reported?_of_open hlast ho, hright.errors, hbelow.errors,
      hvisit.errors, List.filterMap_append]
    cases (Seat.leaf? ⟨node, left, right⟩).bind syntaxError? <;> simp
  lines := hright.lines

theorem Toured.nil {symbols : Symbols} {left : List Node} {state : State}
    (h : ∀ n, state.symbols.knows n = symbols.knows n) : Toured symbols left [] state state where
  errors := by rw [seats]; simp
  lines := h

structure Ready (symbols : Symbols) (left nodes : List Node) (state : State) : Prop where
  read : Readable nodes
  last : ErrorsLast nodes
  inSight : Open symbols left nodes
  lines : ∀ n, state.symbols.knows n = symbols.knows n

/-- The second pass reports every error leaf that is not hidden. -/
theorem checkPass_ok (settings : Settings) (tree : Node) (state : State)
    (hread : Readable tree.children) (hlast : ErrorsLast tree.children) :
    ∃ state', checkPass settings tree state = .ok state' ∧
      Toured state.symbols [] tree.children state state' := by
  apply survey_ok (P := Ready state.symbols) (Q := Toured state.symbols)
    (fun h => .nil h.lines) _ tree state ⟨hread, hlast, .nil _ _, fun _ => rfl⟩
  intro left node right s h
  obtain ⟨next, s₁, hok, hv⟩ := checkAt_ok settings ⟨node, left, right⟩ s h.read h.last
  refine ⟨(next, s₁), hok, ?_⟩
  have hlines : ∀ n, s₁.symbols.knows n = state.symbols.knows n :=
    fun n => (hv.lines n).trans (h.lines n)
  have hopen : next ≠ .parentSibling → Open state.symbols (node :: left) right := fun hnext =>
    (hv.open hnext (h.inSight.congr h.lines)).congr fun n => (h.lines n).symm
  have hleaf : next ≠ .child → Toured state.symbols [] node.children s₁ s₁ := by
    intro hnext
    rw [show node.children = [] from hv.below hnext]
    exact .nil hlines
  cases next with
  | exit => exact hv.goesOn rfl
  | parentSibling =>
    have hright : Toured state.symbols (node :: left) right s₁ s₁ := by
      refine ⟨?_, hlines⟩
      rw [← reported?_congr h.lines, hv.reported?_left, List.append_nil]
    exact .cons hv h.last h.inSight (hleaf (by simp)) hright
  | sibling =>
    refine ⟨⟨h.read.right, h.last.right, hopen (by simp), hlines⟩, ?_⟩
    intro s₂ hright
    exact .cons hv h.last h.inSight (hleaf (by simp)) hright
  | child =>
    refine ⟨⟨h.read.below, h.last.children, .nil _ _, hlines⟩, ?_⟩
    intro s₂ hbelow
    refine ⟨⟨h.read.right, h.last.right, hopen (by simp), hbelow.lines⟩, ?_⟩
    intro s₃ hright
    exact .cons hv h.last h.inSight hbelow hright

/-- Where some finds are left out, nothing is lost exactly if there was nothing to find there. -/
theorem filterMap_unless_eq_iff {α β : Type} (p : α → Bool) (f : α → Option β) (xs : List α) :
    xs.filterMap (fun x => if p x then none else f x) = xs.filterMap f ↔
      ∀ x ∈ xs, (f x).isSome = true → p x = false := by
  have hle : ∀ xs : List α, (xs.filterMap fun x => if p x then none else f x).length ≤
      (xs.filterMap f).length := by
    intro xs
    induction xs with
    | nil => exact Nat.le_refl _
    | cons x xs ih =>
      rw [List.filterMap_cons, List.filterMap_cons]
      cases hp : p x <;> cases hf : f x <;> simp <;> omega
  induction xs with
  | nil => simp
  | cons x xs ih =>
    rw [List.filterMap_cons, List.filterMap_cons, List.forall_mem_cons]
    cases hf : f x with
    | none => simpa using ih
    | some b =>
      cases hp : p x with
      | false => simpa using ih
      | true =>
        have hlength := hle xs
        refine ⟨fun h => ?_, by simp⟩
        have := congrArg List.length h
        simp only [if_true, List.length_cons] at this
        omega

theorem isSome_syntaxError? (l : Leaf) : (syntaxError? l).isSome = l.kind.isError := by
  obtain ⟨kind, text, span⟩ := l
  cases kind <;> rfl

theorem isSome_bind_syntaxError? (seat : Seat) :
    (seat.leaf?.bind syntaxError?).isSome = seat.node.isError := by
  obtain ⟨node, left, right⟩ := seat
  cases node with
  | leaf l => exact isSome_syntaxError? l
  | inner label children => rfl

/-- The syntax errors of an analysis are the error leaves of the program in their order, each at
its own place, but for those right behind a branch to a line of the program. So none goes
unreported exactly if no error leaf stands there. -/
theorem syntaxErrors_ofProgram (settings : Settings) (text : List Char)
    (h : Readable (program text).children) :
    ∃ analysis, ofProgram settings text = .ok analysis ∧
      analysis.diagnostics.filter (·.isSyntaxError) =
        (program text).seats.filterMap (reported? analysis.symbols) ∧
      (analysis.diagnostics.filter (·.isSyntaxError) =
          (program text).leaves.filterMap syntaxError? ↔
        ∀ seat ∈ (program text).seats, seat.node.isError = true →
          isHidden analysis.symbols seat = false) := by
  obtain ⟨state, hdeclare, hnone⟩ := declarePass_ok (program text) {} h
  obtain ⟨state', hcheck, htoured⟩ :=
    checkPass_ok settings (program text) state h (Grammar.errorsLast_program text)
  have herrors : state'.diagnostics.filter (·.isSyntaxError) =
      (program text).seats.filterMap (reported? state'.symbols) := by
    rw [reported?_congr htoured.lines]
    exact htoured.errors.trans (by rw [hnone]; rfl)
  have hleaves : (program text).leaves.filterMap syntaxError? =
      (program text).seats.filterMap fun seat => seat.leaf?.bind syntaxError? := by
    rw [← List.filterMap_filterMap, Node.seats, leaf?_seats]
    rfl
  refine ⟨⟨state'.diagnostics, state'.symbols⟩, ?_, herrors, ?_⟩
  · rw [ofProgram, hdeclare]
    exact congrArg (Except.map fun s : State => (⟨s.diagnostics, s.symbols⟩ : Analysis)) hcheck
  · rw [herrors, hleaves]
    simp only [← isSome_bind_syntaxError?]
    exact filterMap_unless_eq_iff (isHidden state'.symbols) _ _

/-- The text behind `GOTO 10` is an error leaf that no diagnostic speaks of. -/
theorem syntaxErrors_behind_goto :
    ∃ analysis, ofProgram {} "10 GOTO 10 X".toList = .ok analysis ∧
      analysis.diagnostics.filter (·.isSyntaxError) =
        (program "10 GOTO 10 X".toList).seats.filterMap (reported? analysis.symbols) ∧
      (analysis.diagnostics.filter (·.isSyntaxError) =
          (program "10 GOTO 10 X".toList).leaves.filterMap syntaxError? ↔
        ∀ seat ∈ (program "10 GOTO 10 X".toList).seats, seat.node.isError = true →
          isHidden analysis.symbols seat = false) :=
  syntaxErrors_ofProgram {} _ (by unfold Readable; decide +kernel)

end IntegerBasic.Analysis
