import IntegerBasic.Tree.Walk

/-!
# Walks as recursive traversals

A walk goes from cursor to cursor and keeps no stack. What it does is nevertheless what a
recursive traversal of the children does: a node is visited, then what its directive asks for
below it, then its siblings. The answer of a traversal says beside the state whether the whole
walk is over.
-/

namespace IntegerBasic

variable {ε σ : Type}

/-- Induction on runs of siblings: below the first of them, and behind it. -/
@[elab_as_elim]
theorem siblings_induction {P : List Node → Prop} (nil : P [])
    (cons : ∀ node right, P node.children → P right → P (node :: right)) (nodes : List Node) :
    P nodes := by
  induction hsize : Node.sizes nodes using Nat.strongRecOn generalizing nodes with
  | ind size ih =>
    cases nodes with
    | nil => exact nil
    | cons node right =>
      rw [Node.sizes_cons, Node.size_eq] at hsize
      exact cons node right (ih _ (by omega) _ rfl) (ih _ (by omega) _ rfl)

/-- Visits siblings from left to right, each before its children. `left` holds the siblings
already passed, the nearest first, and `below` the way from the parent up to the root. -/
def traverse (visit : Visitor ε σ) (above below : List Frame) (label : Label)
    (left nodes : List Node) (state : σ) : Except ε (Bool × σ) :=
  match nodes with
  | [] => .ok (false, state)
  | node :: right =>
    match visit ⟨node, ⟨label, left, right⟩ :: below, above⟩ state with
    | .error e => .error e
    | .ok (.exit, state) => .ok (true, state)
    | .ok (.parentSibling, state) => .ok (false, state)
    | .ok (.sibling, state) => traverse visit above below label (node :: left) right state
    | .ok (.child, state) =>
      match node with
      | .leaf l => traverse visit above below label (.leaf l :: left) right state
      | .inner own children =>
        match traverse visit above (⟨label, left, right⟩ :: below) own [] children state with
        | .error e => .error e
        | .ok (true, state) => .ok (true, state)
        | .ok (false, state) =>
          traverse visit above below label (.inner own children :: left) right state
termination_by Node.sizes nodes
decreasing_by
  all_goals simp only [Node.sizes_cons, Node.size_eq, Node.children]
  all_goals omega

def resume (visit : Visitor ε σ) (parent : Cursor) : Except ε (Bool × σ) → Except ε σ
  | .error e => .error e
  | .ok (true, state) => .ok state
  | .ok (false, state) => walkFrom visit parent .sibling state

def walkSiblings (visit : Visitor ε σ) (above below : List Frame) (label : Label)
    (left nodes : List Node) (state : σ) : Except ε σ :=
  match nodes with
  | [] => walkFrom visit ⟨.inner label left.reverse, below, above⟩ .sibling state
  | node :: right =>
    match visit ⟨node, ⟨label, left, right⟩ :: below, above⟩ state with
    | .error e => .error e
    | .ok (next, state) => walkFrom visit ⟨node, ⟨label, left, right⟩ :: below, above⟩ next state

theorem walkSiblings_cons (visit : Visitor ε σ) (above below : List Frame) (label : Label)
    (left : List Node) (node : Node) (right : List Node) (state : σ) :
    walkSiblings visit above below label left (node :: right) state =
      match visit ⟨node, ⟨label, left, right⟩ :: below, above⟩ state with
      | .error e => .error e
      | .ok (next, state) =>
        walkFrom visit ⟨node, ⟨label, left, right⟩ :: below, above⟩ next state := rfl

theorem walkFrom_of_none {visit : Visitor ε σ} {c : Cursor} {directive : Directive}
    (h : c.follow? directive = none) (state : σ) :
    walkFrom visit c directive state = .ok state := by
  rw [walkFrom]
  split <;> simp_all

theorem walkFrom_of_some {visit : Visitor ε σ} {c d : Cursor} {directive : Directive}
    (h : c.follow? directive = some d) (state : σ) :
    walkFrom visit c directive state =
      match visit d state with
      | .error e => .error e
      | .ok (next, state) => walkFrom visit d next state := by
  rw [walkFrom]
  split <;> simp_all <;> rfl

/-- Directives that lead to the same place go on in the same way. -/
theorem walkFrom_congr {visit : Visitor ε σ} {c c' : Cursor} {directive directive' : Directive}
    (h : c.follow? directive = c'.follow? directive') (state : σ) :
    walkFrom visit c directive state = walkFrom visit c' directive' state := by
  cases hd : c'.follow? directive' with
  | none => rw [walkFrom_of_none hd, walkFrom_of_none (h.trans hd)]
  | some d => rw [walkFrom_of_some hd, walkFrom_of_some (h.trans hd)]

/-- Behind a node the walk is about to visit its right siblings. -/
theorem walkFrom_sibling (visit : Visitor ε σ) (above below : List Frame) (label : Label)
    (left : List Node) (node : Node) (right : List Node) (state : σ) :
    walkFrom visit ⟨node, ⟨label, left, right⟩ :: below, above⟩ .sibling state =
      walkSiblings visit above below label (node :: left) right state := by
  cases right with
  | nil =>
    apply walkFrom_congr
    simp [Cursor.follow?, Cursor.nextOutside?, Cursor.climb, Frame.plug]
  | cons sibling right =>
    rw [walkSiblings_cons]
    exact walkFrom_of_some rfl state

/-- Leaving the parent is the same as going on behind it. -/
theorem walkFrom_parentSibling (visit : Visitor ε σ) (above below : List Frame) (label : Label)
    (left : List Node) (node : Node) (right : List Node) (state : σ) :
    walkFrom visit ⟨node, ⟨label, left, right⟩ :: below, above⟩ .parentSibling state =
      walkFrom visit ⟨.inner label (left.reverse ++ node :: right), below, above⟩ .sibling
        state := by
  apply walkFrom_congr
  simp [Cursor.follow?, Cursor.up?, Frame.plug]

theorem walkFrom_exit (visit : Visitor ε σ) (c : Cursor) (state : σ) :
    walkFrom visit c .exit state = .ok state :=
  walkFrom_of_none rfl state

/-- Below an inner node the walk is about to visit its children. -/
theorem walkFrom_child_inner (visit : Visitor ε σ) (above below : List Frame) (own : Label)
    (children : List Node) (state : σ) :
    walkFrom visit ⟨.inner own children, below, above⟩ .child state =
      walkSiblings visit above below own [] children state := by
  cases children with
  | nil =>
    apply walkFrom_congr
    simp [Cursor.follow?, Cursor.firstChild?]
  | cons child more =>
    rw [walkSiblings_cons]
    exact walkFrom_of_some rfl state

theorem walkFrom_child_leaf (visit : Visitor ε σ) (above below : List Frame) (l : Leaf)
    (state : σ) :
    walkFrom visit ⟨.leaf l, below, above⟩ .child state =
      walkFrom visit ⟨.leaf l, below, above⟩ .sibling state := by
  apply walkFrom_congr
  simp [Cursor.follow?, Cursor.firstChild?]

/-- The walk over some siblings traverses them and goes on behind their parent. -/
theorem walkSiblings_eq_resume (visit : Visitor ε σ) (above below : List Frame) (label : Label)
    (left nodes : List Node) (state : σ) :
    walkSiblings visit above below label left nodes state =
      resume visit ⟨.inner label (left.reverse ++ nodes), below, above⟩
        (traverse visit above below label left nodes state) := by
  induction nodes using siblings_induction generalizing below label left state with
  | nil => simp [traverse, walkSiblings, resume]
  | cons node right children_ih right_ih =>
    rw [walkSiblings_cons, traverse]
    rcases visit ⟨node, ⟨label, left, right⟩ :: below, above⟩ state with e | ⟨directive, state⟩
    · rfl
    cases directive with
    | exit => exact walkFrom_exit visit _ state
    | parentSibling => exact walkFrom_parentSibling visit above below label left node right state
    | sibling => simp [walkFrom_sibling, right_ih]
    | child =>
      cases node with
      | leaf l => simp [walkFrom_child_leaf, walkFrom_sibling, right_ih]
      | inner own children =>
        have hchildren := children_ih (⟨label, left, right⟩ :: below) own [] state
        rw [Node.children] at hchildren
        dsimp only
        rw [walkFrom_child_inner, hchildren]
        rcases traverse visit above (⟨label, left, right⟩ :: below) own [] children state with
          e | ⟨ended, state⟩
        · rfl
        cases ended with
        | true => rfl
        | false => simp [resume, walkFrom_sibling, right_ih]

/-- The siblings of a visit are all that a visitor of seats looks at, so a traversal for it needs
no way up. -/
def tour (visit : Seat → σ → Except ε (Directive × σ)) (left nodes : List Node) (state : σ) :
    Except ε (Bool × σ) :=
  match nodes with
  | [] => .ok (false, state)
  | node :: right =>
    match visit ⟨node, left, right⟩ state with
    | .error e => .error e
    | .ok (.exit, state) => .ok (true, state)
    | .ok (.parentSibling, state) => .ok (false, state)
    | .ok (.sibling, state) => tour visit (node :: left) right state
    | .ok (.child, state) =>
      match node with
      | .leaf l => tour visit (.leaf l :: left) right state
      | .inner own children =>
        match tour visit [] children state with
        | .error e => .error e
        | .ok (true, state) => .ok (true, state)
        | .ok (false, state) => tour visit (.inner own children :: left) right state
termination_by Node.sizes nodes
decreasing_by
  all_goals simp only [Node.sizes_cons, Node.size_eq, Node.children]
  all_goals omega

theorem seat_mk (node : Node) (label : Label) (left right : List Node)
    (below above : List Frame) :
    Cursor.seat ⟨node, ⟨label, left, right⟩ :: below, above⟩ = ⟨node, left, right⟩ := rfl

theorem traverse_seat (visit : Seat → σ → Except ε (Directive × σ)) (above below : List Frame)
    (label : Label) (left nodes : List Node) (state : σ) :
    traverse (fun c => visit c.seat) above below label left nodes state =
      tour visit left nodes state := by
  induction nodes using siblings_induction generalizing below label left state with
  | nil => rw [traverse, tour]
  | cons node right children_ih right_ih =>
    rw [traverse, tour]
    dsimp only [seat_mk]
    cases node with
    | leaf l => simp only [right_ih]
    | inner own children =>
      rw [Node.children] at children_ih
      simp only [right_ih, children_ih]

/-- A survey of a tree is the tour of the children of its top. -/
theorem survey_eq_tour (tree : Node) (visit : Seat → σ → Except ε (Directive × σ)) (state : σ) :
    tree.survey visit state = (tour visit [] tree.children state).map (·.2) := by
  cases tree with
  | leaf l =>
    rw [Node.children, tour]
    exact walkFrom_of_none rfl state
  | inner own children =>
    rw [Node.survey, Node.walk, Cursor.walk, Cursor.ofTree, Cursor.asRoot, walkFrom_child_inner,
      walkSiblings_eq_resume, traverse_seat, Node.children]
    cases tour visit [] children state with
    | error e => rfl
    | ok answer =>
      obtain ⟨ended, state'⟩ := answer
      cases ended with
      | true => rfl
      | false => exact walkFrom_of_none rfl state'

/-- What a visit has to see to so that a tour comes through: `P` is what is known before the
siblings are visited, and `Q` what is known when they have been. -/
def Advances (P : List Node → List Node → σ → Prop) (Q : List Node → List Node → σ → σ → Prop)
    (left : List Node) (node : Node) (right : List Node) (state : σ) :
    Directive × σ → Prop
  | (.exit, _) => False
  | (.parentSibling, state₁) => Q left (node :: right) state state₁
  | (.sibling, state₁) =>
    P (node :: left) right state₁ ∧
      ∀ state₂, Q (node :: left) right state₁ state₂ → Q left (node :: right) state state₂
  | (.child, state₁) =>
    P [] node.children state₁ ∧ ∀ state₂, Q [] node.children state₁ state₂ →
      P (node :: left) right state₂ ∧
        ∀ state₃, Q (node :: left) right state₂ state₃ → Q left (node :: right) state state₃

/-- A tour comes through if each of its visits does. -/
theorem tour_ok {visit : Seat → σ → Except ε (Directive × σ)}
    {P : List Node → List Node → σ → Prop} {Q : List Node → List Node → σ → σ → Prop}
    (nil : ∀ {left state}, P left [] state → Q left [] state state)
    (cons : ∀ {left node right state}, P left (node :: right) state →
      ∃ answer, visit ⟨node, left, right⟩ state = .ok answer ∧
        Advances P Q left node right state answer)
    (left nodes : List Node) (state : σ) (h : P left nodes state) :
    ∃ state', tour visit left nodes state = .ok (false, state') ∧ Q left nodes state state' := by
  induction nodes using siblings_induction generalizing left state with
  | nil => exact ⟨state, by rw [tour], nil h⟩
  | cons node right children_ih right_ih =>
    obtain ⟨⟨directive, state₁⟩, hvisit, hadvance⟩ := cons h
    rw [tour, hvisit]
    cases directive with
    | exit => exact hadvance.elim
    | parentSibling => exact ⟨state₁, rfl, hadvance⟩
    | sibling =>
      obtain ⟨state₂, hright, h₂⟩ := right_ih _ _ hadvance.1
      exact ⟨state₂, hright, hadvance.2 state₂ h₂⟩
    | child =>
      obtain ⟨state₂, hbelow, h₂⟩ := children_ih _ _ hadvance.1
      obtain ⟨hP, hQ⟩ := hadvance.2 state₂ h₂
      obtain ⟨state₃, hright, h₃⟩ := right_ih _ _ hP
      refine ⟨state₃, ?_, hQ state₃ h₃⟩
      cases node with
      | leaf l =>
        rw [Node.children, tour] at hbelow
        cases hbelow
        exact hright
      | inner own children =>
        rw [Node.children] at hbelow
        simp only [hbelow, hright]

/-- A survey comes through if each of its visits does. -/
theorem survey_ok {visit : Seat → σ → Except ε (Directive × σ)}
    {P : List Node → List Node → σ → Prop} {Q : List Node → List Node → σ → σ → Prop}
    (nil : ∀ {left state}, P left [] state → Q left [] state state)
    (cons : ∀ {left node right state}, P left (node :: right) state →
      ∃ answer, visit ⟨node, left, right⟩ state = .ok answer ∧
        Advances P Q left node right state answer)
    (tree : Node) (state : σ) (h : P [] tree.children state) :
    ∃ state', tree.survey visit state = .ok state' ∧ Q [] tree.children state state' := by
  obtain ⟨state', htour, hQ⟩ := tour_ok nil cons [] tree.children state h
  refine ⟨state', ?_, hQ⟩
  rw [survey_eq_tour, htour]
  rfl

/-- The seats of some siblings and of all nodes below them, parents before children. `left` holds
the siblings already passed, the nearest first. -/
def seats (left nodes : List Node) : List Seat :=
  match nodes with
  | [] => []
  | node :: right =>
    ⟨node, left, right⟩ :: (seats [] node.children ++ seats (node :: left) right)
termination_by Node.sizes nodes
decreasing_by
  all_goals simp only [Node.sizes_cons, Node.size_eq]
  all_goals omega

/-- The seats of all nodes below the top of a tree, in the order of the text. -/
def Node.seats (tree : Node) : List Seat := IntegerBasic.seats [] tree.children

theorem not_mem_seats_nil {left : List Node} {seat : Seat} : seat ∉ seats left [] := by
  simp [seats]

/-- A seat among some siblings is that of the first, one below it, or one further on. -/
theorem mem_seats_cons {node : Node} {left right : List Node} {seat : Seat} :
    seat ∈ seats left (node :: right) ↔
      seat = ⟨node, left, right⟩ ∨ seat ∈ seats [] node.children ∨
        seat ∈ seats (node :: left) right := by
  rw [seats, List.mem_cons, List.mem_append]

theorem mem_seats_leaf {l : Leaf} {left right : List Node} {seat : Seat} :
    seat ∈ seats left (.leaf l :: right) ↔
      seat = ⟨.leaf l, left, right⟩ ∨ seat ∈ seats (.leaf l :: left) right := by
  rw [mem_seats_cons, Node.children, or_iff_right not_mem_seats_nil]

theorem mem_seats_singleton {node : Node} {left : List Node} {seat : Seat} :
    seat ∈ seats left [node] ↔ seat = ⟨node, left, []⟩ ∨ seat ∈ seats [] node.children := by
  rw [mem_seats_cons, or_iff_left not_mem_seats_nil]

/-- What holds of all nodes in their seats holds of each sibling and of all nodes below it. -/
theorem forall_seats_iff {P : Node → Prop} (left nodes : List Node) :
    (∀ seat ∈ seats left nodes, P seat.node) ↔
      ∀ node ∈ nodes, P node ∧ ∀ seat ∈ node.seats, P seat.node := by
  induction nodes generalizing left with
  | nil => simp [seats]
  | cons node right ih =>
    rw [seats, List.forall_mem_cons, List.forall_mem_append, List.forall_mem_cons, ih, Node.seats,
      and_assoc]

/-- The leaves of a node and of the siblings behind it stand side by side in the whole. -/
theorem leavesOf_infix_of_mem_seats {left nodes : List Node} {seat : Seat}
    (h : seat ∈ seats left nodes) :
    Node.leavesOf (seat.node :: seat.following) <:+: Node.leavesOf nodes := by
  induction nodes using siblings_induction generalizing left with
  | nil => exact absurd h not_mem_seats_nil
  | cons node right children_ih right_ih =>
    rcases mem_seats_cons.1 h with rfl | hbelow | hright
    · exact List.infix_refl _
    · have hinfix := children_ih hbelow
      cases node with
      | leaf => exact absurd hbelow not_mem_seats_nil
      | inner label children =>
        rw [Node.leavesOf_cons (.inner label children), Node.leaves_inner]
        exact hinfix.trans (List.prefix_append _ _).isInfix
    · rw [Node.leavesOf_cons node]
      exact (right_ih hright).trans (List.suffix_append _ _).isInfix

/-- A find that does not depend on what follows can be looked for in two parts. -/
theorem filterMap_seats_append {β : Type} {f : Seat → Option β}
    (hf : ∀ node left right, f ⟨node, left, right⟩ = f ⟨node, left, []⟩) (left xs ys : List Node) :
    (seats left (xs ++ ys)).filterMap f =
      (seats left xs).filterMap f ++ (seats (xs.reverse ++ left) ys).filterMap f := by
  induction xs generalizing left with
  | nil => simp [seats]
  | cons x xs ih =>
    rw [List.cons_append, seats, seats, List.filterMap_cons, List.filterMap_cons, hf x left xs,
      hf x left (xs ++ ys), List.filterMap_append, List.filterMap_append, ih, List.reverse_cons]
    cases f ⟨x, left, []⟩ <;> simp

def Seat.leaf? (seat : Seat) : Option Leaf :=
  match seat.node with
  | .leaf l => some l
  | .inner _ _ => none

/-- The leaves of some siblings sit in their seats, in the same order. -/
theorem leaf?_seats (left nodes : List Node) :
    (seats left nodes).filterMap Seat.leaf? = Node.leavesOf nodes := by
  induction nodes using siblings_induction generalizing left with
  | nil => simp [seats]
  | cons node right children_ih right_ih =>
    rw [seats, Node.leavesOf_cons, ← right_ih (node :: left)]
    cases node with
    | leaf l => simp [Seat.leaf?, Node.children, seats]
    | inner label children =>
      rw [Node.children] at children_ih
      rw [Node.leaves_inner, ← children_ih [], Node.children, ← List.filterMap_append]
      rfl

end IntegerBasic
