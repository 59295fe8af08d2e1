import IntegerBasic.Proofs.Analysis.VariableTable

/-!
# What the first pass finds of the variables

The first pass leaves a statement at the word that begins a list, and takes the list as a whole
from the siblings behind it, where it counts parentheses. In a sound program it comes to what can
be seen at each seat from the sibling right before: every declaration and every value given, each
once and in the order of the text.
-/

namespace IntegerBasic.Analysis

/-- A list of variables stands behind this word. -/
def opensList (node : Node) : Bool :=
  match node.token? with
  | some (.dim _) | some (.input _) | some .inputPrompt => true
  | _ => false

def isSeparator (node : Node) : Bool := isToken .dimComma node || isToken .inputComma node

/-- How many variables a list has: one more than commas. -/
def listLength (nodes : List Node) : Nat := nodes.countP isSeparator + 1

/-- No list of variables at these seats is longer than the first pass reads. -/
def Short (left nodes : List Node) : Prop :=
  ∀ seat ∈ seats left nodes, opensList seat.node = true → listLength seat.following ≤ listLimit

namespace Short

variable {left more : List Node} {node : Node}

theorem below (h : Short left (node :: more)) : Short [] node.children := by
  intro seat hseat
  exact h seat (mem_seats_cons.2 (.inr (.inl hseat)))

theorem right (h : Short left (node :: more)) : Short (node :: left) more := by
  intro seat hseat
  exact h seat (mem_seats_cons.2 (.inr (.inr hseat)))

theorem head (h : Short left (node :: more)) (hnode : opensList node = true) :
    listLength more ≤ listLimit :=
  h ⟨node, left, more⟩ (mem_seats_cons.2 (.inl rfl)) hnode

end Short

/-- The sibling right before these is no part of a list. -/
def Unled (left : List Node) : Prop := (left.head?.bind Node.token?).any Token.isListing = false

theorem Unled.nil : Unled [] := rfl

theorem unled_leaf {l : Leaf} (h : l.kind.isOrdinary = true) (left : List Node) :
    Unled (.leaf l :: left) := by
  obtain ⟨kind, text, span⟩ := l
  cases kind with
  | token t => simpa [Unled, Node.token?, LeafKind.isOrdinary] using h
  | _ => rfl

theorem unled_inner (label : Label) (children left : List Node) :
    Unled (.inner label children :: left) := rfl

theorem Unled.isListed {left : List Node} (h : Unled left) (node : Node) (right : List Node) :
    isListed ⟨node, left, right⟩ = false := by
  unfold Unled at h
  unfold Analysis.isListed Seat.tokenBefore?
  split <;> simp_all [Token.isListing]

theorem Unled.isGiven {left : List Node} (h : Unled left) (node : Node) (right : List Node) :
    isGiven ⟨node, left, right⟩ = false := by
  unfold Unled at h
  unfold Analysis.isGiven Seat.tokenBefore?
  split <;> simp_all [Token.isListing]

/-- Nothing is noted at a leaf that is no name. -/
theorem firstEvent?_of_not_isName {l : Leaf} (h : l.kind.isName = false) (left right : List Node) :
    firstEvent? ⟨.leaf l, left, right⟩ = none := by
  have hdeclaration : declaration? ⟨.leaf l, left, right⟩ = none := by
    simp [declaration?, Seat.name?, Seat.leaf?, Option.filter_some, h]
  have hdefinition : definition? ⟨.leaf l, left, right⟩ = none := by
    unfold definition? givenNode?
    dsimp only
    split <;> simp [Node.variableName?, h]
  rw [firstEvent?, hdeclaration, hdefinition]
  rfl

/-- Nothing is noted at a node that is no assignment and in no list. -/
theorem Unled.firstEvent? {left : List Node} (h : Unled left) {node : Node}
    (hnode : ∀ type, node.innerKind? ≠ some (.assignment type)) (right : List Node) :
    firstEvent? ⟨node, left, right⟩ = none := by
  have hgiven : givenNode? ⟨node, left, right⟩ = none := by
    simp [givenNode?_of_not_assignment hnode, h.isGiven]
  simp [Analysis.firstEvent?, declaration?, definition?, h.isListed, hgiven]

/-- What is noted at a seat does not depend on what follows. -/
theorem firstEvent?_following (node : Node) (left right : List Node) :
    firstEvent? ⟨node, left, right⟩ = firstEvent? ⟨node, left, []⟩ := rfl

theorem not_assignment {label : Label} (h : label.kind.isSubscripted = true)
    (children : List Node) (type : DataType) :
    (Node.inner label children).innerKind? ≠ some (.assignment type) := by
  intro heq
  cases heq' : label.kind <;> simp_all [Node.innerKind?, InnerKind.isSubscripted]

/-- The last of some siblings, or the one before them all. -/
theorem unled_reverse_append {nodes left : List Node} (h : Ordinary nodes) (hleft : Unled left) :
    Unled (nodes.reverse ++ left) := by
  induction h generalizing left with
  | nil => exact hleft
  | leaf h _ ih =>
    rw [List.reverse_cons, List.append_assoc]
    exact ih (unled_leaf h _)
  | inner _ _ _ _ ih =>
    rw [List.reverse_cons, List.append_assoc]
    exact ih (unled_inner _ _ _)

/-- Nothing is noted in a run of ordinary nodes. -/
theorem firstEvents_ordinary {nodes left : List Node} (h : Ordinary nodes) (hleft : Unled left) :
    (seats left nodes).filterMap firstEvent? = [] := by
  induction h generalizing left with
  | nil => rw [seats]; rfl
  | leaf h _ ih =>
    rw [seats, Node.children, seats, List.nil_append, List.filterMap_cons,
      hleft.firstEvent? (by simp [Node.innerKind?])]
    exact ih (unled_leaf h _)
  | inner kind _ _ ih₁ ih₂ =>
    rw [seats, Node.children, List.filterMap_cons, hleft.firstEvent? (not_assignment kind _),
      List.filterMap_append, ih₁ Unled.nil, ih₂ (unled_inner _ _ _)]
    rfl

/-- The parenthesis of a declaration is the only way into a subscript. -/
theorem subscriptDepth_zero {node : Node} (h : ∀ type, node.token? ≠ some (.openDim type)) :
    subscriptDepth 0 node = 0 := by
  unfold subscriptDepth
  split <;> simp_all

theorem subscriptDepth_loose {l : Leaf} (h : l.kind.isLoose = true) (d : Nat) :
    subscriptDepth (d + 1) (.leaf l) = d + 1 := by
  obtain ⟨kind, text, span⟩ := l
  cases kind with
  | token t =>
    have key : ∀ t ∈ Token.all, (LeafKind.token t).isLoose = true →
        t.group ≠ .opener ∧ t.group ≠ .closer ∧ (t.group = .function → t.includesParen = false) := by
      decide +kernel
    obtain ⟨hopener, hcloser, hfunction⟩ := key t (Token.mem_all t) h
    simp only [subscriptDepth, Node.token?]
    split <;> simp_all
  | _ => rfl

theorem subscriptDepth_opens {l : Leaf} (h : l.kind.opens = true) (d : Nat) :
    subscriptDepth (d + 1) (.leaf l) = d + 2 := by
  obtain ⟨kind, text, span⟩ := l
  cases kind with
  | token t =>
    have key : ∀ t ∈ Token.all, (LeafKind.token t).opens = true →
        t.group = .opener ∨ t.group = .function ∧ t.includesParen = true := by
      decide +kernel
    rcases key t (Token.mem_all t) h with hgroup | ⟨hgroup, hparen⟩
    · simp [subscriptDepth, Node.token?, hgroup]
    · simp [subscriptDepth, Node.token?, hgroup, hparen]
  | _ => cases h

theorem token?_of_kind {l : Leaf} {t : Token} (h : l.kind = .token t) :
    (Node.leaf l).token? = some t := by
  obtain ⟨kind, text, span⟩ := l
  cases h
  rfl

theorem subscriptDepth_close {l : Leaf} (h : l.kind = .token .close) (d : Nat) :
    subscriptDepth (d + 1) (.leaf l) = d := by
  unfold subscriptDepth
  rw [token?_of_kind h]
  rfl

theorem subscriptDepth_inner (label : Label) (children : List Node) (d : Nat) :
    subscriptDepth d (.inner label children) = d := by
  cases d <;> rfl

/-- The parentheses of an expression inside a subscript lead back to where they began. -/
theorem foldl_subscriptDepth {nodes : List Node} (h : Matched nodes) (d : Nat) :
    nodes.foldl subscriptDepth (d + 1) = d + 1 := by
  induction h generalizing d with
  | nil => rfl
  | leaf h _ ih => rw [List.foldl_cons, subscriptDepth_loose h, ih]
  | inner _ _ _ _ ih => rw [List.foldl_cons, subscriptDepth_inner, ih]
  | bracket ho hc _ _ ih₁ ih₂ =>
    rw [List.foldl_cons, subscriptDepth_opens ho, List.foldl_append, ih₁, List.foldl_cons,
      subscriptDepth_close hc, ih₂]

/-- No node of an expression inside a subscript is outside. -/
theorem outsideSubscripts_matched {nodes : List Node} (h : Matched nodes) (d : Nat)
    (more : List Node) :
    outsideSubscripts (d + 1) (nodes ++ more) = outsideSubscripts (d + 1) more := by
  induction h generalizing d more with
  | nil => rfl
  | leaf h _ ih =>
    rw [List.cons_append, outsideSubscripts, subscriptDepth_loose h, ih]
    rfl
  | inner _ _ _ _ ih =>
    rw [List.cons_append, outsideSubscripts, subscriptDepth_inner, ih]
    rfl
  | bracket ho hc _ _ ih₁ ih₂ =>
    rw [List.cons_append, List.append_assoc, List.cons_append, outsideSubscripts,
      subscriptDepth_opens ho, ih₁, outsideSubscripts, subscriptDepth_close hc, ih₂]
    rfl

/-- A node without a variable that opens no subscript is passed over. -/
theorem targets_cons_none {node : Node} (hopen : ∀ type, node.token? ≠ some (.openDim type))
    {more : List Node} (hnone : targetVariable? node more = none) :
    targets (node :: more) = targets more := by
  simp [targets, outsideSubscripts, subscriptDepth_zero hopen, hnone]

theorem targets_cons_some {node : Node} (hopen : ∀ type, node.token? ≠ some (.openDim type))
    {more : List Node} {v : Variable} (hsome : targetVariable? node more = some v) :
    targets (node :: more) = (v, node.span) :: targets more := by
  simp [targets, outsideSubscripts, subscriptDepth_zero hopen, hsome]

theorem targetVariable?_leaf {l : Leaf} (h : l.kind.isName = false) (more : List Node) :
    targetVariable? (.leaf l) more = none := by
  obtain ⟨kind, text, span⟩ := l
  cases kind with
  | name => cases h
  | _ => rfl

/-- The variable of a name that `DIM` declares. -/
theorem targetVariable?_name {l : Leaf} (h : l.kind.isName = true) (more : List Node) :
    ∃ v, targetVariable? (.leaf l) more = some v ∧ v.key = keyOf l.text := by
  obtain ⟨kind, text, span⟩ := l
  cases kind with
  | name => exact ⟨_, rfl, rfl⟩
  | _ => cases h

/-- The names before and behind an extent are the targets of a list of `DIM`. -/
theorem targets_extended {first last : Leaf} {type : DataType} {extent : List Node}
    (hfirst : first.kind = .token (.openDim type)) (hlast : last.kind = .token .close)
    (within : Matched extent) (more : List Node) :
    targets (.leaf first :: (extent ++ .leaf last :: more)) = targets more := by
  have hdepth : subscriptDepth 0 (.leaf first) = 1 := by
    unfold subscriptDepth
    rw [token?_of_kind hfirst]
  have hnone : ∀ nodes, targetVariable? (.leaf first) nodes = none :=
    fun nodes => targetVariable?_leaf (by rw [hfirst]; rfl) nodes
  simp [targets, outsideSubscripts, hdepth, hnone, outsideSubscripts_matched within 0,
    subscriptDepth_close hlast]

/-- A token in front of a list is no target. -/
theorem targets_lead {lead : Leaf} {t : Token} (hlead : lead.kind = .token t)
    (ht : ∀ type, t ≠ .openDim type) (more : List Node) :
    targets (.leaf lead :: more) = targets more := by
  apply targets_cons_none _ (targetVariable?_leaf (by rw [hlead]; rfl) _)
  intro type heq
  rw [token?_of_kind hlead] at heq
  cases heq
  exact ht type rfl

/-- A prompt is no target. -/
theorem targets_string {text : Leaf} (htext : text.kind = .string) (more : List Node) :
    targets (.leaf text :: more) = targets more := by
  obtain ⟨kind, chars, span⟩ := text
  cases htext
  exact targets_cons_none (by simp [Node.token?]) rfl

/-- A name with its extent is one target. -/
theorem targets_declared {name first last : Leaf} {type : DataType} {extent : List Node}
    (hname : name.kind.isName = true) (hfirst : first.kind = .token (.openDim type))
    (hlast : last.kind = .token .close) (within : Matched extent) (more : List Node) :
    ∃ v, targets (.leaf name :: .leaf first :: (extent ++ .leaf last :: more)) =
      (v, name.span) :: targets more ∧ v.key = keyOf name.text := by
  obtain ⟨v, hv, hkey⟩ := targetVariable?_name hname (.leaf first :: (extent ++ .leaf last :: more))
  have hopen : ∀ type, (Node.leaf name).token? ≠ some (.openDim type) := by
    obtain ⟨kind, text, span⟩ := name
    cases kind <;> simp_all [Node.token?, LeafKind.isName]
  refine ⟨v, ?_, hkey⟩
  rw [targets_cons_some hopen hv, targets_extended hfirst hlast within]
  rfl

/-- What the first pass finds at a variable that is given a value. -/
theorem target_variable {node : Node} (h : IsVariable node) :
    ∃ l, node.variableName? = some l ∧
      ∀ more, ∃ v, targets (node :: more) = (v, node.span) :: targets more ∧
        v.key = keyOf l.text := by
  cases h with
  | @name l h =>
    refine ⟨l, by simp [Node.variableName?, h], fun more => ?_⟩
    obtain ⟨v, hv, hkey⟩ := targetVariable?_name h more
    refine ⟨v, targets_cons_some ?_ hv, hkey⟩
    obtain ⟨kind, text, span⟩ := l
    cases kind <;> simp_all [Node.token?, LeafKind.isName]
  | @element label l inside type kind h rest =>
    obtain ⟨kind', text, span⟩ := label
    cases kind
    refine ⟨l, by simp [Node.variableName?, h], fun more => ?_⟩
    obtain ⟨v, hv, hkey⟩ := targetVariable?_name h inside
    refine ⟨v, targets_cons_some (by simp [Node.token?]) ?_, hkey⟩
    obtain ⟨kind, text, span⟩ := l
    cases kind <;> simp_all [targetVariable?, LeafKind.isName]

def noteAll (event : List Char → Span → Event) (found : List (Variable × Span)) : List Event :=
  found.map fun (v, span) => event v.key span

theorem noteAll_cons (event : List Char → Span → Event) (v : Variable) (span : Span)
    (found : List (Variable × Span)) :
    noteAll event ((v, span) :: found) = event v.key span :: noteAll event found := rfl

theorem view_declareAll (found : List (Variable × Span)) (state : State) :
    (declareAll found state).symbols.view =
      (noteAll .declare found).foldl View.add state.symbols.view := by
  obtain ⟨symbols, diagnostics, lastLine⟩ := state
  unfold declareAll noteAll
  dsimp only
  induction found generalizing symbols with
  | nil => rfl
  | cons pair found ih => rw [List.foldl_cons, ih, view_declare, List.map_cons, List.foldl_cons]

theorem view_defineAll (found : List (Variable × Span)) (state : State) :
    (defineAll found state).symbols.view =
      (noteAll .define found).foldl View.add state.symbols.view := by
  obtain ⟨symbols, diagnostics, lastLine⟩ := state
  unfold defineAll noteAll
  dsimp only
  induction found generalizing symbols with
  | nil => rfl
  | cons pair found ih => rw [List.foldl_cons, ih, view_define, List.map_cons, List.foldl_cons]

/-- Nothing is noted at a leaf, and on go the siblings. -/
theorem firstEvents_leaf {l : Leaf} (h : l.kind.isName = false) (left more : List Node) :
    (seats left (.leaf l :: more)).filterMap firstEvent? =
      (seats (.leaf l :: left) more).filterMap firstEvent? := by
  rw [seats, Node.children, seats, List.nil_append, List.filterMap_cons,
    firstEvent?_of_not_isName h]

/-- The names of a `DIM` list are what the first pass finds in it. -/
theorem firstEvents_declares {t : Token} {nodes : List Node} (h : Declares t nodes)
    (ht : t = .dimComma ∨ ∃ type, t = .dim type) (left : List Node) :
    (seats left nodes).filterMap firstEvent? = noteAll .declare (targets nodes) := by
  induction h generalizing left with
  | nil => rw [seats]; rfl
  | @cons t lead name first last type extent more hlead hname hfirst hlast within rest ih =>
    have hlisted : ∀ right, firstEvent? ⟨.leaf name, .leaf lead :: left, right⟩ =
        some (.declare (keyOf name.text) name.span) := by
      intro right
      have hbefore : isListed ⟨.leaf name, .leaf lead :: left, right⟩ = true := by
        rcases ht with rfl | ⟨type, rfl⟩ <;>
          simp [isListed, Seat.tokenBefore?, token?_of_kind hlead]
      simp [firstEvent?, declaration?, hbefore, Seat.name?, Seat.leaf?, Option.filter_some, hname]
    have hopen : ∀ type, t ≠ .openDim type := by
      rcases ht with rfl | ⟨type, rfl⟩ <;> simp
    obtain ⟨v, hv, hkey⟩ := targets_declared hname hfirst hlast within more
    have hextent : Unled (.leaf first :: .leaf name :: .leaf lead :: left) :=
      unled_leaf (by rw [hfirst]; rfl) _
    rw [targets_lead hlead hopen, hv,
      firstEvents_leaf (by rw [hlead]; rfl), seats, List.filterMap_cons, hlisted, Node.children,
      seats, List.nil_append, firstEvents_leaf (by rw [hfirst]; rfl),
      filterMap_seats_append firstEvent?_following, firstEvents_ordinary within.ordinary hextent,
      firstEvents_leaf (by rw [hlast]; rfl), ih (.inl rfl), noteAll_cons, hkey]
    rfl

/-- The words and commas that a variable with a new value stands behind. -/
def isGiving : Token → Bool
  | .input _ | .promptComma | .inputComma | .forLoop => true
  | _ => false

theorem isListed_of_isGiving {lead : Leaf} {t : Token} (hlead : lead.kind = .token t)
    (ht : isGiving t = true) (node : Node) (left right : List Node) :
    isListed ⟨node, .leaf lead :: left, right⟩ = false := by
  unfold isListed Seat.tokenBefore?
  simp only [List.head?_cons, Option.bind_some, token?_of_kind hlead]
  split <;> simp_all [isGiving]

theorem isVariable_kind {node : Node} (h : IsVariable node) (type : DataType) :
    node.innerKind? ≠ some (.assignment type) := by
  cases h with
  | name => simp [Node.innerKind?]
  | element kind => simp [Node.innerKind?, kind]

theorem firstEvents_below {node : Node} (h : IsVariable node) :
    (seats [] node.children).filterMap firstEvent? = [] := by
  cases h with
  | name => rw [Node.children, seats]; rfl
  | element kind h rest =>
    exact firstEvents_ordinary (.leaf (isOrdinary_of_isLoose (Grammar.isLoose_of_isName h)) rest)
      Unled.nil

/-- The seat of a variable behind a word or a comma that gives it a value. -/
theorem firstEvent?_given {node : Node} (h : IsVariable node) {lead : Leaf} {t : Token}
    (hlead : lead.kind = .token t) (ht : isGiving t = true) {l : Leaf}
    (hl : node.variableName? = some l) (left right : List Node) :
    firstEvent? ⟨node, .leaf lead :: left, right⟩ = some (.define (keyOf l.text) node.span) := by
  have hlisted := isListed_of_isGiving hlead ht node left right
  have hgiven : isGiven ⟨node, .leaf lead :: left, right⟩ = true := by
    unfold isGiven Seat.tokenBefore?
    simp only [List.head?_cons, Option.bind_some, token?_of_kind hlead]
    split <;> simp_all [isGiving]
  have hnode : givenNode? ⟨node, .leaf lead :: left, right⟩ = some node := by
    rw [givenNode?_of_not_assignment (isVariable_kind h), if_pos hgiven]
  simp [firstEvent?, declaration?, hlisted, definition?, hnode, hl]

/-- The variables of an `INPUT` list are what the first pass finds in it. -/
theorem firstEvents_asks {t : Token} {nodes : List Node} (h : Asks t nodes)
    (ht : isGiving t = true) (left : List Node) :
    (seats left nodes).filterMap firstEvent? = noteAll .define (targets nodes) := by
  induction h generalizing left with
  | nil => rw [seats]; rfl
  | @cons t lead node more hlead hnode rest ih =>
    have hopen : ∀ type, t ≠ .openDim type := by
      rintro type rfl
      cases ht
    obtain ⟨l, hl, htargets⟩ := target_variable hnode
    obtain ⟨v, hv, hkey⟩ := htargets more
    rw [targets_lead hlead hopen, hv, firstEvents_leaf (by rw [hlead]; rfl), seats,
      List.filterMap_cons, firstEvent?_given hnode hlead ht hl, List.filterMap_append,
      firstEvents_below hnode, ih rfl, noteAll_cons, hkey]
    rfl

theorem isSeparator_of_kind {l : Leaf} {t : Token} (h : l.kind = .token t) :
    isSeparator (.leaf l) = (t == .dimComma || t == .inputComma) := by
  simp [isSeparator, isToken, token?_of_kind h]

/-- A list has no more targets than commas, if the first one stands behind a comma, too. -/
theorem length_targets_declares {nodes : List Node} (h : Declares .dimComma nodes) :
    (targets nodes).length ≤ nodes.countP isSeparator := by
  generalize ht : Token.dimComma = t at h
  induction h with
  | nil => exact Nat.le_refl _
  | @cons t lead name first last type extent more hlead hname hfirst hlast within rest ih =>
    subst ht
    obtain ⟨v, hv, -⟩ := targets_declared hname hfirst hlast within more
    have hcomma : isSeparator (.leaf lead) = true := isSeparator_of_kind hlead
    have := ih rfl
    rw [targets_lead hlead (by simp), hv]
    simp only [List.length_cons, List.countP_cons, List.countP_append, hcomma, if_true]
    omega

theorem length_targets_asks {nodes : List Node} (h : Asks .inputComma nodes) :
    (targets nodes).length ≤ nodes.countP isSeparator := by
  generalize ht : Token.inputComma = t at h
  induction h with
  | nil => exact Nat.le_refl _
  | @cons t lead node more hlead hnode rest ih =>
    subst ht
    obtain ⟨l, -, htargets⟩ := target_variable hnode
    obtain ⟨v, hv, -⟩ := htargets more
    have hcomma : isSeparator (.leaf lead) = true := isSeparator_of_kind hlead
    have := ih rfl
    rw [targets_lead hlead (by simp), hv]
    simp only [List.length_cons, List.countP_cons, hcomma, if_true]
    omega

/-- The first pass finds no more in a list of `DIM` than it has variables. -/
theorem length_targets_of_declares {t : Token} {lead : Leaf} {more : List Node}
    (h : Declares t (.leaf lead :: more)) : (targets more).length ≤ listLength more := by
  cases h with
  | @cons _ _ name first last type extent rest hlead hname hfirst hlast within hrest =>
    obtain ⟨v, hv, -⟩ := targets_declared hname hfirst hlast within rest
    have := length_targets_declares hrest
    rw [hv, listLength]
    simp only [List.length_cons, List.countP_cons, List.countP_append]
    omega

/-- The first pass finds no more in a list of `INPUT` than it has variables. -/
theorem length_targets_of_asks {t : Token} {lead : Leaf} {more : List Node}
    (h : Asks t (.leaf lead :: more)) : (targets more).length ≤ listLength more := by
  cases h with
  | @cons _ _ node rest hlead hnode hrest =>
    obtain ⟨l, -, htargets⟩ := target_variable hnode
    obtain ⟨v, hv, -⟩ := htargets rest
    have := length_targets_asks hrest
    rw [hv, listLength]
    simp only [List.length_cons, List.countP_cons]
    omega

def Declared (left nodes : List Node) : Prop :=
  ∀ state, ∃ state', tour declareAt left nodes state = .ok (false, state') ∧
    state'.symbols.view =
      ((seats left nodes).filterMap firstEvent?).foldl View.add state.symbols.view

theorem tour_nil (left : List Node) (state : State) :
    tour declareAt left [] state = .ok (false, state) := by
  rw [tour]

theorem tour_sibling {node : Node} {left right : List Node} {state state' : State}
    (h : declareAt ⟨node, left, right⟩ state = .ok (.sibling, state')) :
    tour declareAt left (node :: right) state = tour declareAt (node :: left) right state' := by
  rw [tour, h]

theorem tour_parentSibling {node : Node} {left right : List Node} {state state' : State}
    (h : declareAt ⟨node, left, right⟩ state = .ok (.parentSibling, state')) :
    tour declareAt left (node :: right) state = .ok (false, state') := by
  rw [tour, h]

/-- The first pass goes over ordinary nodes and finds nothing. -/
theorem tour_ordinary {nodes : List Node} (h : Ordinary nodes) (left more : List Node)
    (state : State) :
    tour declareAt left (nodes ++ more) state = tour declareAt (nodes.reverse ++ left) more state := by
  induction h generalizing left with
  | nil => rfl
  | @leaf l _ h _ ih =>
    have hvisit : ∀ right, declareAt ⟨.leaf l, left, right⟩ state = .ok (.sibling, state) := by
      intro right
      obtain ⟨kind, text, span⟩ := l
      cases kind with
      | token t => cases t <;> first | rfl | cases h
      | lineNumber => cases h
      | _ => rfl
    rw [List.cons_append, tour_sibling (hvisit _), ih, List.reverse_cons, List.append_assoc]
    rfl
  | @inner label children _ kind _ _ _ ih =>
    have hvisit : ∀ right, declareAt ⟨.inner label children, left, right⟩ state =
        .ok (.sibling, state) := by
      intro right
      obtain ⟨kind', text, span⟩ := label
      cases kind' <;> first | rfl | cases kind
    rw [List.cons_append, tour_sibling (hvisit _), ih, List.reverse_cons, List.append_assoc]
    rfl

namespace Declared

variable {node : Node} {left right : List Node}

/-- The first pass leaves the siblings with what it has found of them. -/
theorem declares {found : List (Variable × Span)}
    (hvisit : ∀ state, declareAt ⟨node, left, right⟩ state =
      .ok (.parentSibling, declareAll found state))
    (hevents : (seats left (node :: right)).filterMap firstEvent? = noteAll .declare found) :
    Declared left (node :: right) := by
  intro state
  exact ⟨_, tour_parentSibling (hvisit state), by rw [hevents, view_declareAll]⟩

theorem defines {found : List (Variable × Span)}
    (hvisit : ∀ state, declareAt ⟨node, left, right⟩ state =
      .ok (.parentSibling, defineAll found state))
    (hevents : (seats left (node :: right)).filterMap firstEvent? = noteAll .define found) :
    Declared left (node :: right) := by
  intro state
  exact ⟨_, tour_parentSibling (hvisit state), by rw [hevents, view_defineAll]⟩

/-- The first pass goes on behind a leaf that says nothing of variables. -/
theorem leaf {l : Leaf} (hname : l.kind.isName = false)
    (hvisit : ∀ state, ∃ state', declareAt ⟨.leaf l, left, right⟩ state = .ok (.sibling, state') ∧
      state'.symbols.view = state.symbols.view)
    (h : Declared (.leaf l :: left) right) : Declared left (.leaf l :: right) := by
  intro state
  obtain ⟨state₁, hok, hview⟩ := hvisit state
  obtain ⟨state₂, htour, hview₂⟩ := h state₁
  exact ⟨state₂, (tour_sibling hok).trans htour, by rw [firstEvents_leaf hname, hview₂, hview]⟩

/-- The first pass goes over the children of a node and on behind it. -/
theorem inner {label : Label} {children : List Node}
    (hkind : label.kind = .line ∨ label.kind = .statement) (hbelow : Declared [] children)
    (h : Declared (.inner label children :: left) right) :
    Declared left (.inner label children :: right) := by
  intro state
  obtain ⟨state₁, htour₁, hview₁⟩ := hbelow state
  obtain ⟨state₂, htour₂, hview₂⟩ := h state₁
  obtain ⟨kind, text, span⟩ := label
  have hvisit : declareAt ⟨.inner ⟨kind, text, span⟩ children, left, right⟩ state =
      .ok (.child, state) := by
    rcases hkind with hkind | hkind <;> cases hkind <;> rfl
  have hnone : firstEvent? ⟨.inner ⟨kind, text, span⟩ children, left, right⟩ = none := by
    rcases hkind with hkind | hkind <;> cases hkind <;>
      simp [firstEvent?, declaration?, definition?, givenNode?, Seat.name?, Seat.leaf?,
        Node.variableName?]
  refine ⟨state₂, ?_, ?_⟩
  · rw [tour, hvisit]
    simp only [htour₁, htour₂]
  · rw [seats, List.filterMap_cons, hnone, List.filterMap_append, Node.children,
      List.foldl_append, hview₂, hview₁]

theorem nil (left : List Node) : Declared left [] := by
  intro state
  exact ⟨state, tour_nil left state, by rw [seats]; rfl⟩

/-- The first pass goes over ordinary nodes to what stands behind them. -/
theorem ordinary {nodes more : List Node} (h : Ordinary nodes) (hleft : Unled left)
    (hmore : Declared (nodes.reverse ++ left) more) : Declared left (nodes ++ more) := by
  intro state
  obtain ⟨state', htour, hview⟩ := hmore state
  refine ⟨state', (tour_ordinary h left more state).trans htour, ?_⟩
  rw [filterMap_seats_append firstEvent?_following, firstEvents_ordinary h hleft, List.nil_append,
    hview]

end Declared

/-- An assignment is one variable that is given a value, perhaps behind `LET`. -/
theorem declared_assignment {label : Label} {type : DataType} (hkind : label.kind = .assignment type)
    {before : Option Leaf} (hbefore : ∀ l ∈ before, l.kind = .token .assign) {node : Node}
    (hnode : IsVariable node) {nodes : List Node} (h : Ordinary nodes) :
    Declared [] [.inner label (before.toList.map .leaf ++ node :: nodes)] := by
  obtain ⟨kind, text, span⟩ := label
  cases hkind
  obtain ⟨l, hl, htargets⟩ := target_variable hnode
  obtain ⟨v, hv, hkey⟩ := htargets nodes
  have htoken : node.token? ≠ some .assign := by
    cases hnode with
    | @name l h =>
      obtain ⟨kind, text, span⟩ := l
      cases kind <;> simp_all [Node.token?, LeafKind.isName]
    | element => simp [Node.token?]
  have hrest : ∀ left, Unled left →
      (seats left (node :: nodes)).filterMap firstEvent? = [] := by
    intro left hleft
    have hbehind : Unled (node :: left) := by
      cases hnode with
      | name h => exact unled_leaf (isOrdinary_of_isLoose (Grammar.isLoose_of_isName h)) _
      | element => exact unled_inner _ _ _
    rw [seats, List.filterMap_cons, hleft.firstEvent? (isVariable_kind hnode),
      List.filterMap_append, firstEvents_below hnode, firstEvents_ordinary h hbehind]
    rfl
  cases before with
  | none =>
    refine .defines (fun state => rfl) ?_
    have hgiven : firstEvent? ⟨.inner ⟨.assignment type, text, span⟩ (node :: nodes), [], []⟩ =
        some (.define (keyOf l.text) node.span) := by
      simp [firstEvent?, declaration?, definition?, givenNode?, isListed, Seat.tokenBefore?,
        htoken, hl]
    simp only [Option.toList, List.map_nil, List.nil_append]
    rw [hv, seats, seats, List.filterMap_cons, hgiven, Node.children, List.append_nil,
      hrest [] Unled.nil, List.take_succ_cons, List.take_zero, noteAll_cons, hkey]
    rfl
  | some word =>
    have hword := hbefore word rfl
    refine .defines (fun state => rfl) ?_
    have hgiven : firstEvent? ⟨.inner ⟨.assignment type, text, span⟩ (.leaf word :: node :: nodes),
        [], []⟩ = some (.define (keyOf l.text) node.span) := by
      simp [firstEvent?, declaration?, definition?, givenNode?, isListed, Seat.tokenBefore?,
        token?_of_kind hword, htoken, hl]
    simp only [Option.toList, List.map_cons, List.map_nil, List.cons_append, List.nil_append]
    rw [targets_lead hword (by simp), hv, seats, seats, List.filterMap_cons, hgiven, Node.children,
      List.append_nil, firstEvents_leaf (by rw [hword]; rfl),
      hrest [.leaf word] (unled_leaf (by rw [hword]; rfl) _), List.take_succ_cons, List.take_zero,
      noteAll_cons, hkey]
    rfl

/-- The first pass over a list of `DIM`. -/
theorem declared_dimension {type : DataType} {nodes : List Node} (h : Declares (.dim type) nodes)
    (short : Short [] nodes) : Declared [] nodes := by
  cases nodes with
  | nil => exact .nil _
  | cons node more =>
    have hevents := firstEvents_declares h (.inr ⟨type, rfl⟩) []
    obtain ⟨lead, rfl, hlead⟩ : ∃ lead, node = .leaf lead ∧ lead.kind = .token (.dim type) := by
      cases h with
      | cons hlead => exact ⟨_, rfl, hlead⟩
    have hle : (targets more).length ≤ listLimit :=
      Nat.le_trans (length_targets_of_declares h)
        (short.head (by simp [opensList, token?_of_kind hlead]))
    rw [targets_lead hlead (by simp), ← List.take_of_length_le hle] at hevents
    obtain ⟨kind, text, span⟩ := lead
    cases hlead
    exact .declares (fun state => rfl) hevents

/-- The first pass over a list of `INPUT`. -/
theorem declared_input {type : DataType} {nodes : List Node} (h : Asks (.input type) nodes)
    (short : Short [] nodes) : Declared [] nodes := by
  cases nodes with
  | nil => exact .nil _
  | cons node more =>
    have hevents := firstEvents_asks h rfl []
    obtain ⟨lead, rfl, hlead⟩ : ∃ lead, node = .leaf lead ∧ lead.kind = .token (.input type) := by
      cases h with
      | cons hlead => exact ⟨_, rfl, hlead⟩
    have hle : (targets more).length ≤ listLimit :=
      Nat.le_trans (length_targets_of_asks h)
        (short.head (by simp [opensList, token?_of_kind hlead]))
    rw [targets_lead hlead (by simp), ← List.take_of_length_le hle] at hevents
    obtain ⟨kind, text, span⟩ := lead
    cases hlead
    exact .defines (fun state => rfl) hevents

/-- The first pass over a list of `INPUT` behind a prompt. -/
theorem declared_prompt {word text : Leaf} {nodes : List Node}
    (hword : word.kind = .token .inputPrompt) (htext : text.kind = .string)
    (h : Asks .promptComma nodes) (short : Short [] (.leaf word :: .leaf text :: nodes)) :
    Declared [] (.leaf word :: .leaf text :: nodes) := by
  have htargets := targets_string htext nodes
  have hlength : (targets nodes).length ≤ listLength (.leaf text :: nodes) := by
    cases h with
    | nil => exact Nat.zero_le _
    | cons hlead hnode rest =>
      have := length_targets_of_asks (.cons hlead hnode rest)
      rw [targets_lead hlead (by simp)]
      simp only [listLength, List.countP_cons] at this ⊢
      omega
  have hle : (targets (.leaf text :: nodes)).length ≤ listLimit := by
    rw [htargets]
    exact Nat.le_trans hlength (short.head (by simp [opensList, token?_of_kind hword]))
  have hevents : (seats [] (.leaf word :: .leaf text :: nodes)).filterMap firstEvent? =
      noteAll .define ((targets (.leaf text :: nodes)).take listLimit) := by
    rw [firstEvents_leaf (by rw [hword]; rfl), firstEvents_leaf (by rw [htext]; rfl),
      firstEvents_asks h rfl, List.take_of_length_le hle, htargets]
  obtain ⟨kind, chars, span⟩ := word
  cases hword
  exact .defines (fun state => rfl) hevents

/-- The first pass over the head of a loop. -/
theorem declared_forLoop {word name : Leaf} {nodes : List Node}
    (hword : word.kind = .token .forLoop) (hname : name.kind.isName = true)
    (h : Ordinary nodes) : Declared [] (.leaf word :: .leaf name :: nodes) := by
  obtain ⟨l, hl, htargets⟩ := target_variable (.name hname)
  obtain ⟨v, hv, hkey⟩ := htargets nodes
  have hbehind : Unled [.leaf name, .leaf word] :=
    unled_leaf (isOrdinary_of_isLoose (Grammar.isLoose_of_isName hname)) _
  have hevents : (seats [] (.leaf word :: .leaf name :: nodes)).filterMap firstEvent? =
      noteAll .define ((targets (.leaf name :: nodes)).take 1) := by
    rw [firstEvents_leaf (by rw [hword]; rfl), seats, List.filterMap_cons,
      firstEvent?_given (.name hname) hword rfl hl, List.filterMap_append,
      firstEvents_below (.name hname), firstEvents_ordinary h hbehind, hv, List.take_succ_cons,
      List.take_zero, noteAll_cons, hkey]
    rfl
  obtain ⟨kind, chars, span⟩ := word
  cases hword
  exact .defines (fun state => rfl) hevents

theorem Short.append {left xs ys : List Node} (h : Short left (xs ++ ys)) :
    Short (xs.reverse ++ left) ys := by
  induction xs generalizing left with
  | nil => exact h
  | cons x xs ih =>
    rw [List.reverse_cons, List.append_assoc]
    exact ih h.right

/-- The first pass over a sound statement. -/
theorem declared_phrase {children : List Node} (h : Phrase children) (short : Short [] children) :
    Declared [] children := by
  induction h with
  | ordinary h =>
    have := Declared.ordinary h Unled.nil (.nil _)
    rwa [List.append_nil] at this
  | dimension h => exact declared_dimension h short
  | input h => exact declared_input h short
  | prompt hword htext h => exact declared_prompt hword htext h short
  | forLoop hword hname h => exact declared_forLoop hword hname h
  | assignment kind hnode h =>
    exact declared_assignment kind (fun _ h => nomatch h : ∀ l ∈ none, _) hnode h
  | @letAssignment label type word node nodes kind hword hnode h =>
    exact declared_assignment kind (by simpa using hword : ∀ l ∈ some word, _) hnode h
  | conditional h kind _ ih =>
    exact .ordinary h Unled.nil (.inner (.inr kind) (ih short.append.below) (.nil _))

theorem view_addPrimary (span : Span) (number : Nat) (statements : List Node) (state : State) :
    (addPrimary span number statements state).symbols.view = state.symbols.view := by
  unfold addPrimary
  split
  · rfl
  · split <;> rfl

/-- The first pass over a sound line. -/
theorem declared_phrases {nodes : List Node} (h : Phrases nodes) {left : List Node}
    (short : Short left nodes) (read : Readable nodes) : Declared left nodes := by
  induction h generalizing left with
  | nil => exact .nil left
  | @number l more h _ ih =>
    refine .leaf (by rw [h]; rfl) (fun state => ?_) (ih short.right read.right)
    have hread := read.readToken List.mem_cons_self (l := l) (by rw [h]; rfl)
    obtain ⟨kind, text, span⟩ := l
    cases h
    refine ⟨_, ?_, view_addPrimary span (Numeral.digitsValue text) more state⟩
    unfold declareAt
    dsimp only
    rw [hread]
    rfl
  | @colon l more h _ ih =>
    refine .leaf (by rw [h]; rfl) (fun state => ⟨state, ?_, rfl⟩) (ih short.right read.right)
    obtain ⟨kind, text, span⟩ := l
    cases h
    rfl
  | phrase kind h _ ih =>
    exact .inner (.inr kind) (declared_phrase h short.below) (ih short.right read.right)

def IsSoundLine (node : Node) : Prop :=
  ∃ label children, node = .inner label children ∧ label.kind = .line ∧ Phrases children

/-- The first pass over sound lines. -/
theorem declared_lines {nodes : List Node} (h : ∀ node ∈ nodes, IsSoundLine node)
    {left : List Node} (short : Short left nodes) (read : Readable nodes) :
    Declared left nodes := by
  induction nodes generalizing left with
  | nil => exact .nil left
  | cons node nodes ih =>
    obtain ⟨⟨label, children, rfl, hkind, hline⟩, hmore⟩ := List.forall_mem_cons.1 h
    exact .inner (.inl hkind) (declared_phrases hline short.below read.below)
      (ih hmore short.right read.right)

end IntegerBasic.Analysis
