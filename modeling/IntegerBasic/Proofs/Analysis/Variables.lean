import IntegerBasic.Proofs.Analysis.DeclaredVariables

/-!
# The table of variables is complete

The second pass sees every name, and counts parentheses to know which of them a `DIM` list
declares. In a sound program these are the names right behind the word or a comma of the list. So
the table that both passes build has an entry for each name of the program, with all its places in
the order of the text.
-/

namespace IntegerBasic.Analysis

open Grammar (program)

def referral? (seat : Seat) : Option Event :=
  if isDeclared seat then none else seat.name?.map fun l => .refer (keyOf l.text) l.span

theorem referral?_of_not_isName {l : Leaf} (h : l.kind.isName = false) (left right : List Node) :
    referral? ⟨.leaf l, left, right⟩ = none := by
  simp [referral?, Seat.name?, Seat.leaf?, Option.filter_some, h]

theorem isName_of_hidden {kind : LeafKind} (h : kind = .integer ∨ kind.isError = true) :
    kind.isName = false := by
  cases kind with
  | name => rcases h with h | h <;> cases h
  | _ => rfl

theorem symbols_checkOperands {t : Token} {following : List Node} {state state' : State}
    (h : checkOperands t following state = .ok state') : state'.symbols = state.symbols := by
  have range : ∀ {operand low high s s'}, checkRange operand low high s = .ok s' →
      s'.symbols = s.symbols := by
    intro operand low high s s' hrange
    cases measured_of_checkRange hrange <;> rfl
  exact checkOperands_keeps (R := fun s t => t.symbols = s.symbols) (fun _ => rfl)
    (fun h₁ h₂ => h₂.trans h₁) range range h

theorem checkBranch_view {seat : Seat} {isGosub : Bool} {state state' : State} {next : Directive}
    (h : checkBranch seat isGosub state = .ok (next, state')) :
    state'.symbols.view = state.symbols.view ∧
      (next = .parentSibling → (branchTarget? seat.following).isSome = true) := by
  cases branched_of_checkBranch h with
  | computed => exact ⟨rfl, by simp⟩
  | known htarget | unsure htarget | dead htarget => exact ⟨rfl, by simp [htarget]⟩

/-- One visit of the second pass notes a name that is not declared, and leaves a family only at a
branch to a written number. -/
theorem checkAt_view {settings : Settings} {seat : Seat} {state state' : State} {next : Directive}
    (h : checkAt settings seat state = .ok (next, state')) :
    state'.symbols.view = (referral? seat).toList.foldl View.add state.symbols.view ∧
      (next = .parentSibling → (branchTarget? seat.following).isSome = true) := by
  obtain ⟨node, left, right⟩ := seat
  have hnone : ∀ {l : Leaf}, node = .leaf l → (∀ type, l.kind ≠ .name type) →
      referral? ⟨node, left, right⟩ = none := by
    rintro l rfl hname
    refine referral?_of_not_isName ?_ left right
    cases hkind : l.kind with
    | name type => exact absurd hkind (hname type)
    | _ => rfl
  have hcase : ∀ l, (checkCase settings l state).symbols = state.symbols :=
    fun l => (Remarked.checkCase settings l state).symbols
  cases checked_of_checkAt h with
  | inner hnode =>
    cases hnode
    simp [(Remarked.checkInner _ _ _ _).symbols, referral?, Seat.name?, Seat.leaf?]
  | error hnode hkind =>
    rw [hnone hnode (by simp [hkind])]
    exact ⟨congrArg Symbols.view (hcase _), by simp⟩
  | branch hnode hkind _ hbranch =>
    obtain ⟨hview, hleaves⟩ := checkBranch_view hbranch
    rw [hnone hnode (by simp [hkind]), hview, hcase]
    exact ⟨rfl, hleaves⟩
  | word hnode hkind _ hoperands =>
    rw [hnone hnode (by simp [hkind]), symbols_checkOperands hoperands, hcase]
    exact ⟨rfl, by simp⟩
  | declared hnode _ hdeclared =>
    rw [referral?, if_pos hdeclared, hcase]
    exact ⟨rfl, by simp⟩
  | @name l type hnode hkind hdeclared =>
    cases hnode
    have hname : Seat.name? ⟨.leaf l, left, right⟩ = some l := by
      simp [Seat.name?, Seat.leaf?, Option.filter_some, hkind, LeafKind.isName]
    rw [referral?, if_neg (by simp [hdeclared]), hname,
      (Remarked.checkVariable _ _ _ _).symbols, view_refer, hcase]
    exact ⟨rfl, by simp⟩
  | plain hnode _ hname =>
    rw [hnone hnode hname, hcase]
    exact ⟨rfl, by simp⟩

/-- What the second pass leaves out behind a branch is a number and perhaps an error leaf. -/
theorem filterMap_behind_branch {α : Type} {find? : Seat → Option α}
    (hidden : ∀ {l : Leaf} (left right : List Node), l.kind = .integer ∨ l.kind.isError = true →
      find? ⟨.leaf l, left, right⟩ = none)
    {following : List Node} (left : List Node) (hlast : ErrorsLast following)
    (h : (branchTarget? following).isSome = true) :
    (seats left following).filterMap find? = [] := by
  obtain ⟨target, htarget⟩ := Option.isSome_iff_exists.1 h
  obtain ⟨hkind, hfollowing⟩ := following_of_branchTarget? htarget hlast
  rcases hfollowing with rfl | ⟨e, rfl, he⟩
  · rw [seats, Node.children, seats, seats, List.filterMap_cons, hidden _ _ (.inl hkind)]
    rfl
  · cases e with
    | inner => cases he
    | leaf l =>
      rw [seats, Node.children, seats, seats, seats, Node.children, seats, List.nil_append,
        List.filterMap_cons, hidden _ _ (.inl hkind), List.nil_append, List.filterMap_cons,
        hidden _ _ (.inr he)]
      rfl

/-- What the visits of the second pass collect adds up to what there is to collect, if nothing of it
is a number or an error leaf. `P` is what every visit needs and keeps. -/
theorem checkPass_collects {α : Type} {find? : Seat → Option α}
    {C : List α → State → State → Prop} {P : State → Prop}
    (nil : ∀ s, C [] s s)
    (append : ∀ {xs ys s t u}, C xs s t → C ys t u → C (xs ++ ys) s u)
    (hidden : ∀ {l : Leaf} (left right : List Node), l.kind = .integer ∨ l.kind.isError = true →
      find? ⟨.leaf l, left, right⟩ = none)
    {settings : Settings}
    (visit : ∀ {seat s next s'}, Readable (seat.node :: seat.following) →
      ErrorsLast (seat.node :: seat.following) → P s →
      checkAt settings seat s = .ok (next, s') → C (find? seat).toList s s' ∧ P s')
    {tree : Node} {state : State} (hread : Readable tree.children)
    (hlast : ErrorsLast tree.children) (hstate : P state) :
    ∃ state', checkPass settings tree state = .ok state' ∧
      C (tree.seats.filterMap find?) state state' := by
  have hcons : ∀ {left right node s s₁ s₂ s₃}, C (find? ⟨node, left, right⟩).toList s s₁ →
      C ((seats [] node.children).filterMap find?) s₁ s₂ →
      C ((seats (node :: left) right).filterMap find?) s₂ s₃ →
      C ((seats left (node :: right)).filterMap find?) s s₃ := by
    intro left right node s s₁ s₂ s₃ hvisit hbelow hright
    rw [seats, List.filterMap_cons, List.filterMap_append]
    cases hfind : find? ⟨node, left, right⟩ <;>
      simpa [hfind] using append hvisit (append hbelow hright)
  have hnone : ∀ {left nodes} (s : State), (seats left nodes).filterMap find? = [] →
      C ((seats left nodes).filterMap find?) s s := by
    intro left nodes s h
    rw [h]
    exact nil s
  suffices hwalk : ∃ state', checkPass settings tree state = .ok state' ∧
      C (tree.seats.filterMap find?) state state' ∧ P state' by
    obtain ⟨state', hok, hcollects, -⟩ := hwalk
    exact ⟨state', hok, hcollects⟩
  apply survey_ok (P := fun _ nodes s => Readable nodes ∧ ErrorsLast nodes ∧ P s)
    (Q := fun left nodes s t => C ((seats left nodes).filterMap find?) s t ∧ P t)
    (fun {_ s} h => ⟨hnone s (by rw [seats]; rfl), h.2.2⟩) _ tree state ⟨hread, hlast, hstate⟩
  rintro left node right s ⟨hread, hlast, hs⟩
  obtain ⟨next, s₁, hok, hvisited⟩ := checkAt_ok settings ⟨node, left, right⟩ s hread hlast
  obtain ⟨hcollects, hs₁⟩ := visit hread hlast hs hok
  have hbelow : next ≠ .child → C ((seats [] node.children).filterMap find?) s₁ s₁ := by
    intro hnext
    rw [show node.children = [] from hvisited.below hnext]
    exact hnone s₁ (by rw [seats]; rfl)
  refine ⟨(next, s₁), hok, ?_⟩
  cases next with
  | exit => exact hvisited.goesOn rfl
  | parentSibling =>
    exact ⟨hcons hcollects (hbelow (by simp))
      (hnone s₁ (filterMap_behind_branch hidden _ hlast.right ((checkAt_view hok).2 rfl))), hs₁⟩
  | sibling =>
    exact ⟨⟨hread.right, hlast.right, hs₁⟩,
      fun _ h => ⟨hcons hcollects (hbelow (by simp)) h.1, h.2⟩⟩
  | child =>
    exact ⟨⟨hread.below, hlast.children, hs₁⟩, fun _ h₂ => ⟨⟨hread.right, hlast.right, h₂.2⟩,
      fun _ h₃ => ⟨hcons hcollects h₂.1 h₃.1, h₃.2⟩⟩⟩

/-- The second pass notes every name that is not declared. -/
theorem checkPass_referred (settings : Settings) (tree : Node) (state : State)
    (hread : Readable tree.children) (hlast : ErrorsLast tree.children) :
    ∃ state', checkPass settings tree state = .ok state' ∧ state'.symbols.view =
      (tree.seats.filterMap referral?).foldl View.add state.symbols.view :=
  checkPass_collects (P := fun _ => True)
    (C := fun events s t => t.symbols.view = events.foldl View.add s.symbols.view)
    (fun _ => rfl) (fun hx hy => by rw [List.foldl_append, hy, hx])
    (fun left right h => referral?_of_not_isName (isName_of_hidden h) left right)
    (fun _ _ _ hok => ⟨(checkAt_view hok).1, trivial⟩) hread hlast trivial

/-- How deep inside the subscripts of a `DIM` list the node behind these siblings stands, the
nearest first; none if they do not begin with the word. -/
def dimDepth? (left : List Node) : Option Nat :=
  match left.reverse with
  | .leaf ⟨.token (.dim _), _, _⟩ :: between => some (between.foldl subscriptDepth 0)
  | _ => none

theorem isDeclared_eq (node : Node) (left right : List Node) :
    isDeclared ⟨node, left, right⟩ = (dimDepth? left == some 0) := by
  unfold isDeclared dimDepth?
  dsimp only
  split <;> simp_all

theorem dimDepth?_of_reverse {left between : List Node} {lead : Node} {type : DataType}
    (hleft : left.reverse = lead :: between) (hlead : lead.token? = some (.dim type)) :
    dimDepth? left = some (between.foldl subscriptDepth 0) := by
  obtain ⟨text, span, rfl⟩ := Node.exists_of_token? hlead
  rw [dimDepth?, hleft]

theorem dimDepth?_eq_some {left : List Node} {d : Nat} (h : dimDepth? left = some d) :
    ∃ lead between type, left.reverse = lead :: between ∧ lead.token? = some (.dim type) ∧
      d = between.foldl subscriptDepth 0 := by
  unfold dimDepth? at h
  split at h
  · cases h
    exact ⟨_, _, _, ‹_›, rfl, rfl⟩
  · cases h

/-- The depth behind some more siblings. -/
theorem dimDepth?_append {left : List Node} {d : Nat} (h : dimDepth? left = some d)
    (nodes : List Node) :
    dimDepth? (nodes.reverse ++ left) = some (nodes.foldl subscriptDepth d) := by
  obtain ⟨lead, between, type, hleft, hlead, rfl⟩ := dimDepth?_eq_some h
  have hmore : (nodes.reverse ++ left).reverse = lead :: (between ++ nodes) := by simp [hleft]
  rw [dimDepth?_of_reverse hmore hlead, List.foldl_append]

theorem dimDepth?_cons {left : List Node} {d : Nat} (h : dimDepth? left = some d) (node : Node) :
    dimDepth? (node :: left) = some (subscriptDepth d node) :=
  dimDepth?_append h [node]

def Free (left : List Node) : Prop := dimDepth? left = none

theorem Free.nil : Free [] := rfl

theorem Free.cons {left : List Node} (h : Free left) {node : Node}
    (hnode : ∀ type, node.token? ≠ some (.dim type)) : Free (node :: left) := by
  refine Option.eq_none_iff_forall_ne_some.2 fun d hd => ?_
  obtain ⟨lead, between, type, hreverse, hlead, -⟩ := dimDepth?_eq_some hd
  rw [List.reverse_cons] at hreverse
  cases hleft : left.reverse with
  | nil =>
    rw [hleft] at hreverse
    cases hreverse
    exact hnode type hlead
  | cons first rest =>
    rw [hleft] at hreverse
    cases hreverse
    cases h.symm.trans (dimDepth?_of_reverse hleft hlead)

/-- The second pass and the sibling right before say the same of every name here. -/
def Agree (left nodes : List Node) : Prop :=
  (seats left nodes).filterMap referral? = (seats left nodes).filterMap secondEvent?

namespace Agree

variable {left : List Node}

theorem nil : Agree left [] := by
  rw [Agree, seats]
  rfl

theorem cons {node : Node} {more : List Node}
    (h : referral? ⟨node, left, more⟩ = secondEvent? ⟨node, left, more⟩)
    (below : Agree [] node.children) (rest : Agree (node :: left) more) :
    Agree left (node :: more) := by
  unfold Agree at *
  rw [seats, List.filterMap_cons, List.filterMap_cons, List.filterMap_append,
    List.filterMap_append, h, below, rest]

theorem append {xs ys : List Node} (hx : Agree left xs) (hy : Agree (xs.reverse ++ left) ys) :
    Agree left (xs ++ ys) := by
  unfold Agree at *
  rw [filterMap_seats_append (fun _ _ _ => rfl), filterMap_seats_append (fun _ _ _ => rfl), hx, hy]

/-- A leaf at which both say the same. -/
theorem leaf {l : Leaf} {more : List Node}
    (h : l.kind.isName = true → isDeclared ⟨.leaf l, left, more⟩ = isListed ⟨.leaf l, left, more⟩)
    (rest : Agree (.leaf l :: left) more) : Agree left (.leaf l :: more) := by
  refine cons ?_ nil rest
  cases hname : l.kind.isName with
  | false =>
    rw [referral?_of_not_isName hname]
    simp [secondEvent?, Seat.name?, Seat.leaf?, Option.filter_some, hname]
  | true => rw [referral?, secondEvent?, h hname]

theorem inner {label : Label} {children more : List Node} (below : Agree [] children)
    (rest : Agree (.inner label children :: left) more) :
    Agree left (.inner label children :: more) := by
  refine cons ?_ below rest
  simp [referral?, secondEvent?, Seat.name?, Seat.leaf?]

/-- Outside of a `DIM` list no name is declared. -/
theorem free_leaf {l : Leaf} {more : List Node} (hfree : Free left)
    (hlisted : isListed ⟨.leaf l, left, more⟩ = false) (rest : Agree (.leaf l :: left) more) :
    Agree left (.leaf l :: more) := by
  refine leaf (fun _ => ?_) rest
  rw [hlisted, isDeclared_eq, hfree]
  rfl

end Agree

theorem token?_ne_dim_of_isOrdinary {l : Leaf} (h : l.kind.isOrdinary = true) (type : DataType) :
    (Node.leaf l).token? ≠ some (.dim type) := by
  obtain ⟨kind, text, span⟩ := l
  cases kind with
  | token t =>
    rintro ⟨⟩
    cases h
  | _ => simp [Node.token?]

theorem agree_ordinary {nodes left : List Node} (h : Ordinary nodes) (hfree : Free left)
    (hleft : Unled left) : Agree left nodes := by
  induction h generalizing left with
  | nil => exact .nil
  | leaf h _ ih =>
    exact .free_leaf hfree (hleft.isListed _ _)
      (ih (hfree.cons (token?_ne_dim_of_isOrdinary h)) (unled_leaf h _))
  | inner _ _ _ ih₁ ih₂ =>
    exact .inner (ih₁ Free.nil Unled.nil)
      (ih₂ (hfree.cons (by simp [Node.token?])) (unled_inner _ _ _))

/-- Inside the subscripts of a `DIM` list no name is declared. -/
theorem agree_matched {nodes left : List Node} (h : Matched nodes) {d : Nat}
    (hdepth : dimDepth? left = some (d + 1)) (hleft : Unled left) : Agree left nodes := by
  have hleaf : ∀ {l : Leaf} {left more : List Node} {d : Nat}, dimDepth? left = some (d + 1) →
      Unled left → Agree (.leaf l :: left) more → Agree left (.leaf l :: more) := by
    intro l left more d hdepth hleft rest
    refine .leaf (fun _ => ?_) rest
    rw [hleft.isListed, isDeclared_eq, hdepth]
    rfl
  induction h generalizing left d with
  | nil => exact .nil
  | @leaf l _ h _ ih =>
    have hmore := dimDepth?_cons hdepth (.leaf l)
    rw [subscriptDepth_loose h] at hmore
    exact hleaf hdepth hleft (ih hmore (unled_leaf (isOrdinary_of_isLoose h) _))
  | @inner label children _ _ within _ _ ih =>
    have hmore := dimDepth?_cons hdepth (.inner label children)
    rw [subscriptDepth_inner] at hmore
    exact .inner (agree_ordinary within.ordinary Free.nil Unled.nil) (ih hmore (unled_inner _ _ _))
  | @bracket opener closer inside more ho hc within _ ih₁ ih₂ =>
    have hopener : Unled (.leaf opener :: left) := unled_leaf (isOrdinary_of_opens ho) _
    have hinside : dimDepth? (.leaf opener :: left) = some (d + 2) := by
      rw [dimDepth?_cons hdepth, subscriptDepth_opens ho]
    have hcloser : dimDepth? (inside.reverse ++ .leaf opener :: left) = some (d + 2) := by
      rw [dimDepth?_append hinside, foldl_subscriptDepth within]
    have hmore := dimDepth?_cons hcloser (.leaf closer)
    rw [subscriptDepth_close hc] at hmore
    exact hleaf hdepth hleft (.append (ih₁ hinside hopener)
      (hleaf hcloser (unled_reverse_append within.ordinary hopener)
        (ih₂ hmore (unled_leaf (by rw [hc]; rfl) _))))

/-- The names of a `DIM` list outside its subscripts are those right behind the word or a
comma. -/
theorem agree_declares {t : Token} {nodes : List Node} (h : Declares t nodes) {left : List Node}
    (ht : (∃ type, t = .dim type) ∧ left = [] ∨ t = .dimComma ∧ dimDepth? left = some 0) :
    Agree left nodes := by
  induction h generalizing left with
  | nil => exact .nil
  | @cons t lead name first last type extent more hlead hname hfirst hlast within rest ih =>
    have hdepth : dimDepth? (.leaf lead :: left) = some 0 := by
      rcases ht with ⟨⟨type', rfl⟩, rfl⟩ | ⟨rfl, hdepth⟩
      · obtain ⟨kind, text, span⟩ := lead
        cases hlead
        rfl
      · rw [dimDepth?_cons hdepth, subscriptDepth_zero]
        simp [token?_of_kind hlead]
    have hlisted : ∀ right, isListed ⟨.leaf name, .leaf lead :: left, right⟩ = true := by
      intro right
      rcases ht with ⟨⟨type', rfl⟩, -⟩ | ⟨rfl, -⟩ <;>
        simp [isListed, Seat.tokenBefore?, token?_of_kind hlead]
    have hnameToken : (Node.leaf name).token? = none := by
      obtain ⟨kind, text, span⟩ := name
      cases kind <;> simp_all [Node.token?, LeafKind.isName]
    have hopen : dimDepth? (.leaf first :: .leaf name :: .leaf lead :: left) = some 1 := by
      rw [dimDepth?_cons (dimDepth?_cons hdepth _), subscriptDepth_zero (by simp [hnameToken])]
      unfold subscriptDepth
      rw [token?_of_kind hfirst]
    have hclose : dimDepth? (.leaf last :: (extent.reverse ++
        .leaf first :: .leaf name :: .leaf lead :: left)) = some 0 := by
      rw [dimDepth?_cons (dimDepth?_append hopen extent), foldl_subscriptDepth within 0,
        subscriptDepth_close hlast]
    apply Agree.leaf (by rw [hlead]; simp [LeafKind.isName])
    apply Agree.leaf
    · intro _
      rw [hlisted, isDeclared_eq, hdepth]
      rfl
    apply Agree.leaf (by rw [hfirst]; simp [LeafKind.isName])
    apply Agree.append (agree_matched within hopen (unled_leaf (by rw [hfirst]; rfl) _))
    apply Agree.leaf (by rw [hlast]; simp [LeafKind.isName])
    exact ih (.inr ⟨rfl, hclose⟩)

theorem Free.lead {left : List Node} (h : Free left) {lead : Leaf} {t : Token}
    (hlead : lead.kind = .token t) (ht : ∀ type, t ≠ .dim type) : Free (.leaf lead :: left) := by
  apply h.cons
  intro type heq
  rw [token?_of_kind hlead] at heq
  cases heq
  exact ht type rfl

/-- A variable that is given a value is not declared there. -/
theorem agree_variable {node : Node} (h : IsVariable node) {left more : List Node}
    (hfree : Free left) (hlisted : ∀ right, isListed ⟨node, left, right⟩ = false)
    (rest : Free (node :: left) → Unled (node :: left) → Agree (node :: left) more) :
    Agree left (node :: more) := by
  cases h with
  | name h =>
    have hordinary := isOrdinary_of_isLoose (Grammar.isLoose_of_isName h)
    exact .free_leaf hfree (hlisted _)
      (rest (hfree.cons (token?_ne_dim_of_isOrdinary hordinary)) (unled_leaf hordinary _))
  | element _ h within =>
    have hordinary := isOrdinary_of_isLoose (Grammar.isLoose_of_isName h)
    exact .inner (agree_ordinary (.leaf hordinary within) Free.nil Unled.nil)
      (rest (hfree.cons (by simp [Node.token?])) (unled_inner _ _ _))

theorem agree_asks {t : Token} {nodes : List Node} (h : Asks t nodes) (ht : isGiving t = true)
    {left : List Node} (hfree : Free left) : Agree left nodes := by
  induction h generalizing left with
  | nil => exact .nil
  | @cons t lead node more hlead hnode rest ih =>
    have hdim : ∀ type, t ≠ .dim type := by
      rintro type rfl
      cases ht
    apply Agree.leaf (by rw [hlead]; simp [LeafKind.isName])
    exact agree_variable hnode (hfree.lead hlead hdim) (isListed_of_isGiving hlead ht node left)
      fun hfree _ => ih rfl hfree

theorem agree_phrase {children : List Node} (h : Phrase children) : Agree [] children := by
  induction h with
  | ordinary h => exact agree_ordinary h Free.nil Unled.nil
  | dimension h => exact agree_declares h (.inl ⟨⟨_, rfl⟩, rfl⟩)
  | input h => exact agree_asks h rfl Free.nil
  | @prompt word text nodes hword htext h =>
    have htoken : ∀ type, (Node.leaf text).token? ≠ some (.dim type) :=
      token?_ne_dim_of_isOrdinary (by rw [htext]; rfl)
    apply Agree.leaf (by rw [hword]; simp [LeafKind.isName])
    apply Agree.leaf (by rw [htext]; simp [LeafKind.isName])
    exact agree_asks h rfl ((Free.nil.lead hword (by simp)).cons htoken)
  | forLoop hword hname h =>
    apply Agree.leaf (by rw [hword]; simp [LeafKind.isName])
    exact agree_variable (.name hname) (Free.nil.lead hword (by simp))
      (isListed_of_isGiving hword rfl _ _) fun hfree hleft => agree_ordinary h hfree hleft
  | assignment _ hnode h =>
    refine .inner (agree_variable hnode Free.nil (Unled.nil.isListed _) ?_) .nil
    exact fun hfree hleft => agree_ordinary h hfree hleft
  | @letAssignment label type word node nodes _ hword hnode h =>
    have hleft : Unled [.leaf word] := unled_leaf (by rw [hword]; rfl) _
    refine .inner (.leaf (by rw [hword]; simp [LeafKind.isName]) ?_) .nil
    exact agree_variable hnode (Free.nil.lead hword (by simp)) (hleft.isListed _)
      fun hfree hleft => agree_ordinary h hfree hleft
  | conditional h _ _ ih =>
    exact .append (agree_ordinary h Free.nil Unled.nil) (.inner ih .nil)

theorem agree_phrases {nodes : List Node} (h : Phrases nodes) {left : List Node} :
    Agree left nodes := by
  induction h generalizing left with
  | nil => exact .nil
  | number h _ ih => exact .leaf (by rw [h]; simp [LeafKind.isName]) ih
  | colon h _ ih => exact .leaf (by rw [h]; simp [LeafKind.isName]) ih
  | phrase _ h _ ih => exact .inner (agree_phrase h) ih

theorem agree_lines {nodes : List Node} (h : ∀ node ∈ nodes, IsSoundLine node) {left : List Node} :
    Agree left nodes := by
  induction nodes generalizing left with
  | nil => exact .nil
  | cons node nodes ih =>
    obtain ⟨⟨label, children, rfl, -, hline⟩, hmore⟩ := List.forall_mem_cons.1 h
    exact .inner (agree_phrases hline) (ih hmore)

theorem isSoundLine_program {text : List Char} (sound : (program text).hasError = false) :
    ∀ node ∈ (program text).children, IsSoundLine node := by
  intro node hnode
  obtain ⟨⟨row, line⟩, -, rfl⟩ := List.mem_map.1 hnode
  refine ⟨_, _, rfl, rfl, Grammar.phrases_line row line ?_⟩
  exact Grammar.hasError_of_mem sound hnode

/-- What both passes note of the variables of a sound program. -/
theorem view_ofProgram (settings : Settings) {text : List Char}
    (sound : (program text).hasError = false) (read : Readable (program text).children)
    (short : Short [] (program text).children) :
    ∃ analysis, ofProgram settings text = .ok analysis ∧
      analysis.symbols.view = ((program text).seats.filterMap firstEvent? ++
        (program text).seats.filterMap secondEvent?).foldl View.add fun _ => none := by
  have hlines := isSoundLine_program sound
  obtain ⟨state, hdeclare, hfirst⟩ := declared_lines hlines short read {}
  obtain ⟨state', hcheck, hsecond⟩ :=
    checkPass_referred settings (program text) state read (Grammar.errorsLast_program text)
  refine ⟨⟨state'.diagnostics, state'.symbols⟩, ?_, ?_⟩
  · rw [ofProgram, declarePass, survey_eq_tour, hdeclare]
    exact congrArg (Except.map fun s : State => (⟨s.diagnostics, s.symbols⟩ : Analysis)) hcheck
  · rw [Node.seats, agree_lines hlines, hfirst] at hsecond
    rw [List.foldl_append]
    exact hsecond

/-- The finds of a kind among the events of a key can be looked for seat by seat. -/
theorem filterMap_filter_events {β : Type} (event? : Seat → Option Event) (key : List Char)
    (f : Event → Option β) (seats : List Seat) :
    ((seats.filterMap event?).filter (·.key == key)).filterMap f =
      seats.filterMap fun seat => ((event? seat).filter (·.key == key)).bind f := by
  rw [List.filter_filterMap, List.filterMap_filterMap]

/-- The places of a key among all events. -/
theorem places_events (seats : List Seat) (key : List Char) :
    ((seats.filterMap firstEvent? ++ seats.filterMap secondEvent?).filter (·.key == key)).foldl
        Event.addTo {} =
      ⟨seats.filterMap (declaredAt key), seats.filterMap (definedAt key),
        seats.filterMap (referredAt key)⟩ := by
  have hfirst := fun seat => bind_firstEvent? key seat
  have hsecond := fun seat => bind_secondEvent? key seat
  rw [Event.foldl_addTo]
  simp only [List.filter_append, List.filterMap_append, filterMap_filter_events, List.nil_append,
    (hfirst _).1, (hfirst _).2.1, (hfirst _).2.2, (hsecond _).1, (hsecond _).2.1, (hsecond _).2.2]
  simp

/-- The leaves below a seat are leaves of the whole. -/
theorem leaves_of_mem_seats {left nodes : List Node} {seat : Seat} (h : seat ∈ seats left nodes)
    {l : Leaf} (hl : l ∈ seat.node.leaves) : l ∈ Node.leavesOf nodes := by
  refine (leavesOf_infix_of_mem_seats h).subset ?_
  rw [Node.leavesOf_cons]
  exact List.mem_append_left _ hl

theorem name_of_variableName? {node : Node} {l : Leaf} (h : node.variableName? = some l) :
    l ∈ node.leaves ∧ l.kind.isName = true := by
  unfold Node.variableName? at h
  split at h
  · split at h
    · cases h
      exact ⟨by simp, ‹_›⟩
    · cases h
  · split at h
    · cases h
      exact ⟨by simp, ‹_›⟩
    · cases h
  · cases h

/-- A node that is given a value stands at the seat or right below it. -/
theorem leaves_of_givenNode? {seat : Seat} {node : Node} (h : givenNode? seat = some node) {l : Leaf}
    (hl : l ∈ node.leaves) : l ∈ seat.node.leaves := by
  obtain ⟨site, left, right⟩ := seat
  by_cases hkind : ∃ type, site.innerKind? = some (.assignment type)
  · obtain ⟨type, hkind⟩ := hkind
    cases site with
    | leaf => cases hkind
    | inner label children =>
      obtain ⟨kind, text, span⟩ := label
      cases hkind
      obtain ⟨before, behind, rfl⟩ := List.append_of_mem (List.mem_of_find?_eq_some h)
      simp [hl]
  · rw [givenNode?_of_not_assignment fun type h => hkind ⟨type, h⟩] at h
    split at h
    · cases h
      exact hl
    · cases h

theorem name?_eq_some {seat : Seat} {l : Leaf} (h : seat.name? = some l) :
    seat.leaf? = some l ∧ l.kind.isName = true :=
  Option.filter_eq_some_iff.1 h

theorem mem_leaves_of_leaf? {seat : Seat} {l : Leaf} (h : seat.leaf? = some l) :
    l ∈ seat.node.leaves := by
  obtain ⟨node, left, right⟩ := seat
  cases node with
  | leaf => cases h; simp
  | inner => cases h

/-- Every event speaks of a name at or below its seat. -/
theorem name_of_event {seat : Seat} {event : Event}
    (h : firstEvent? seat = some event ∨ secondEvent? seat = some event) :
    ∃ l ∈ seat.node.leaves, l.kind.isName = true ∧ keyOf l.text = event.key := by
  have hname : ∀ {l} (_ : seat.name? = some l), l ∈ seat.node.leaves ∧ l.kind.isName = true := by
    intro l hl
    obtain ⟨hleaf, hname⟩ := name?_eq_some hl
    exact ⟨mem_leaves_of_leaf? hleaf, hname⟩
  rcases h with h | h
  · rcases Option.or_eq_some_iff.1 h with h | ⟨-, h⟩
    · unfold declaration? at h
      split at h
      · obtain ⟨l, hl, rfl⟩ := Option.map_eq_some_iff.1 h
        exact ⟨l, (hname hl).1, (hname hl).2, rfl⟩
      · cases h
    · obtain ⟨node, hnode, hdefine⟩ := Option.bind_eq_some_iff.1 h
      obtain ⟨l, hl, rfl⟩ := Option.map_eq_some_iff.1 hdefine
      obtain ⟨hmem, hl⟩ := name_of_variableName? hl
      exact ⟨l, leaves_of_givenNode? hnode hmem, hl, rfl⟩
  · unfold secondEvent? at h
    split at h
    · cases h
    · obtain ⟨l, hl, rfl⟩ := Option.map_eq_some_iff.1 h
      exact ⟨l, (hname hl).1, (hname hl).2, rfl⟩

/-- Every name has an event. -/
theorem event_of_name {seat : Seat} {l : Leaf} (h : seat.name? = some l) :
    ∃ event, (firstEvent? seat = some event ∨ secondEvent? seat = some event) ∧
      event.key = keyOf l.text := by
  cases hlisted : isListed seat with
  | true =>
    refine ⟨.declare (keyOf l.text) l.span, .inl ?_, rfl⟩
    simp [firstEvent?, declaration?, hlisted, h]
  | false =>
    refine ⟨.refer (keyOf l.text) l.span, .inr ?_, rfl⟩
    simp [secondEvent?, hlisted, h]

/-- The keys that events speak of are those of the names. -/
theorem any_events_iff (nodes : List Node) (key : List Char) :
    ((seats [] nodes).filterMap firstEvent? ++ (seats [] nodes).filterMap secondEvent?).any
        (·.key == key) = true ↔
      ∃ l ∈ Node.leavesOf nodes, l.kind.isName = true ∧ keyOf l.text = key := by
  have hmem : ∀ event, event ∈ (seats [] nodes).filterMap firstEvent? ++
      (seats [] nodes).filterMap secondEvent? ↔
        ∃ seat ∈ seats [] nodes, firstEvent? seat = some event ∨ secondEvent? seat = some event := by
    intro event
    simp only [List.mem_append, List.mem_filterMap, ← exists_or, ← and_or_left]
  simp only [List.any_eq_true, hmem, beq_iff_eq]
  constructor
  · rintro ⟨event, ⟨seat, hseat, hevent⟩, rfl⟩
    obtain ⟨l, hl, hname, hkey⟩ := name_of_event hevent
    exact ⟨l, leaves_of_mem_seats hseat hl, hname, hkey⟩
  · rintro ⟨l, hl, hname, rfl⟩
    rw [← leaf?_seats [] nodes, List.mem_filterMap] at hl
    obtain ⟨seat, hseat, hleaf⟩ := hl
    obtain ⟨event, hevent, hkey⟩ :=
      event_of_name (show seat.name? = some l from Option.filter_eq_some_iff.2 ⟨hleaf, hname⟩)
    exact ⟨event, ⟨seat, hseat, hevent⟩, hkey⟩

/-- The variables of a sound program are its names. Each has as declarations the places right
behind the word or a comma of a `DIM` list, as definitions the places where it is given a value,
and as references the places of all its other names, each in the order of the text. -/
theorem variables_ofProgram (settings : Settings) (text : List Char)
    (sound : (program text).hasError = false) (read : Readable (program text).children)
    (short : Short [] (program text).children) :
    ∃ analysis, ofProgram settings text = .ok analysis ∧ ∀ key,
      ((analysis.symbols.findVariable? key).isSome = true ↔
        ∃ l ∈ (program text).leaves, l.kind.isName = true ∧ keyOf l.text = key) ∧
      ∀ info, analysis.symbols.findVariable? key = some info →
        info.declarations = (program text).seats.filterMap (declaredAt key) ∧
        info.definitions = (program text).seats.filterMap (definedAt key) ∧
        info.references = (program text).seats.filterMap (referredAt key) := by
  obtain ⟨analysis, hok, hview⟩ := view_ofProgram settings sound read short
  refine ⟨analysis, hok, fun key => ?_⟩
  have hkey := congrFun hview key
  rw [foldl_add, Option.getD_none, places_events] at hkey
  have hany : ((program text).seats.filterMap firstEvent? ++
      (program text).seats.filterMap secondEvent?).any (·.key == key) = true ↔
        ∃ l ∈ (program text).leaves, l.kind.isName = true ∧ keyOf l.text = key :=
    any_events_iff (program text).children key
  constructor
  · rw [← hany, ← Option.isSome_map (f := VariableInfo.places)]
    change (analysis.symbols.view key).isSome = true ↔ _
    rw [hkey]
    split <;> simp_all
  · intro info hinfo
    rw [Symbols.view, hinfo] at hkey
    split at hkey
    · have hplaces := Option.some.inj hkey
      exact ⟨congrArg Record.declarations hplaces, congrArg Record.definitions hplaces,
        congrArg Record.references hplaces⟩
    · cases hkey

/-- Names inside the extents of a `DIM` list, in a nested statement and in a subscript. -/
theorem variables_nested :
    let text := "1 DIM A$(B(1)),C(A):IF A THEN INPUT C(D),A$".toList
    ∃ analysis, ofProgram {} text = .ok analysis ∧
      ∀ key, ((analysis.symbols.findVariable? key).isSome = true ↔
        ∃ l ∈ (program text).leaves, l.kind.isName = true ∧ keyOf l.text = key) ∧
      ∀ info, analysis.symbols.findVariable? key = some info →
        info.declarations = (program text).seats.filterMap (declaredAt key) ∧
        info.definitions = (program text).seats.filterMap (definedAt key) ∧
        info.references = (program text).seats.filterMap (referredAt key) :=
  variables_ofProgram {} _ (by decide +kernel) (by unfold Readable; decide +kernel)
    (by unfold Short; decide +kernel)

end IntegerBasic.Analysis
