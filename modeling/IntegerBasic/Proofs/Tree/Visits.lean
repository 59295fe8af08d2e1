import IntegerBasic.Proofs.Tree.Traversal

/-!
# What a walk visits

The directives have a meaning that says nothing of cursors that move: after a node come its
children, or its following siblings, or neither. A walk does what this meaning says, whatever the
visitor answers and on whatever its answers depend. So it visits nodes below its root only, parents
before children and from left to right, and none of them twice. A node is known by its address, the
child numbers that lead to it from the root: equal nodes may stand in many places.
-/

namespace IntegerBasic

variable {ε σ : Type}

def Node.at? : Node → List Nat → Option Node
  | node, [] => some node
  | node, i :: path => node.children[i]?.bind (·.at? path)

namespace Cursor

/-- The child numbers that lead from the root to the node. -/
def address (c : Cursor) : List Nat := c.below.reverse.map (·.left.length)

def rebuilt (c : Cursor) : Node := c.below.foldl (fun node frame => frame.plug node) c.node

def onSiblings (above below : List Frame) (label : Label) : List Node → List Node → List Cursor
  | _, [] => []
  | left, node :: right =>
    ⟨node, ⟨label, left, right⟩ :: below, above⟩ :: onSiblings above below label (node :: left) right

/-- The cursors on the children of the node, from left to right. -/
def children (c : Cursor) : List Cursor :=
  match c.node with
  | .leaf _ => []
  | .inner label nodes => onSiblings c.above c.below label [] nodes

def sizes (cursors : List Cursor) : Nat := Node.sizes (cursors.map (·.node))

@[simp] theorem sizes_nil : sizes [] = 0 := by simp [sizes]
@[simp] theorem sizes_cons (c : Cursor) (more : List Cursor) :
    sizes (c :: more) = c.node.size + sizes more := by simp [sizes]

theorem map_node_onSiblings (above below : List Frame) (label : Label) (left nodes : List Node) :
    (onSiblings above below label left nodes).map (·.node) = nodes := by
  induction nodes generalizing left with
  | nil => rfl
  | cons node right ih => rw [onSiblings, List.map_cons, ih]

theorem map_node_children (c : Cursor) : c.children.map (·.node) = c.node.children := by
  unfold children
  cases c.node with
  | leaf l => rfl
  | inner label nodes => exact map_node_onSiblings _ _ _ _ _

theorem size_node (c : Cursor) : c.node.size = 1 + sizes c.children := by
  rw [sizes, map_node_children, Node.size_eq]

end Cursor

/-- Induction on runs of cursors: below the first of them, and behind it. -/
@[elab_as_elim]
theorem cursors_induction {P : List Cursor → Prop} (nil : P [])
    (cons : ∀ c more, P c.children → P more → P (c :: more)) : ∀ cursors : List Cursor, P cursors
  | [] => nil
  | c :: more =>
    cons c more (cursors_induction nil cons c.children) (cursors_induction nil cons more)
termination_by cursors => Cursor.sizes cursors
decreasing_by
  all_goals simp only [Cursor.sizes_cons, Cursor.size_node]
  all_goals omega

/-- The meaning of the directives: visits the given cursors one after the other, and below each of
them what its visit asks for. The answer says beside the state whether the whole walk is over. -/
def visitAll (visit : Visitor ε σ) (cursors : List Cursor) (state : σ) : Except ε (Bool × σ) :=
  match cursors with
  | [] => .ok (false, state)
  | c :: more =>
    match visit c state with
    | .error e => .error e
    | .ok (.exit, state) => .ok (true, state)
    | .ok (.parentSibling, state) => .ok (false, state)
    | .ok (.sibling, state) => visitAll visit more state
    | .ok (.child, state) =>
      match visitAll visit c.children state with
      | .error e => .error e
      | .ok (true, state) => .ok (true, state)
      | .ok (false, state) => visitAll visit more state
termination_by Cursor.sizes cursors
decreasing_by
  all_goals simp only [Cursor.sizes_cons, Cursor.size_node]
  all_goals omega

/-- A traversal of siblings visits the cursors on them. -/
theorem traverse_eq_visitAll (visit : Visitor ε σ) (above below : List Frame) (label : Label)
    (left nodes : List Node) (state : σ) :
    traverse visit above below label left nodes state =
      visitAll visit (Cursor.onSiblings above below label left nodes) state := by
  induction nodes using siblings_induction generalizing below label left state with
  | nil => rw [traverse, Cursor.onSiblings, visitAll]
  | cons node right children_ih right_ih =>
    rw [traverse, Cursor.onSiblings, visitAll]
    rcases visit ⟨node, ⟨label, left, right⟩ :: below, above⟩ state with e | ⟨directive, state⟩
    · rfl
    cases directive with
    | exit | parentSibling => rfl
    | sibling => exact right_ih below label (node :: left) state
    | child =>
      cases node with
      | leaf l =>
        dsimp only [Cursor.children]
        rw [visitAll]
        exact right_ih below label (.leaf l :: left) state
      | inner own children =>
        have hchildren := children_ih (⟨label, left, right⟩ :: below) own [] state
        rw [Node.children] at hchildren
        dsimp only [Cursor.children]
        rw [hchildren]
        rcases visitAll visit
          (Cursor.onSiblings above (⟨label, left, right⟩ :: below) own [] children) state with
          e | ⟨ended, state⟩
        · rfl
        cases ended with
        | true => rfl
        | false => exact right_ih below label (.inner own children :: left) state

/-- A walk does what the directives mean. -/
theorem walk_eq_visitAll (root : Cursor) (visit : Visitor ε σ) (state : σ) :
    root.walk visit state = (visitAll visit root.asRoot.children state).map (·.2) := by
  obtain ⟨node, below, above⟩ := root
  cases node with
  | leaf l =>
    rw [Cursor.children, Cursor.asRoot, visitAll]
    exact walkFrom_of_none rfl state
  | inner label nodes =>
    rw [Cursor.walk, Cursor.asRoot, walkFrom_child_inner, walkSiblings_eq_resume,
      traverse_eq_visitAll, Cursor.children]
    cases visitAll visit (Cursor.onSiblings (below ++ above) [] label [] nodes) state with
    | error e => rfl
    | ok answer =>
      obtain ⟨ended, state'⟩ := answer
      cases ended with
      | true => rfl
      | false => exact walkFrom_of_none rfl state'

/-- A visitor that keeps the record of its visits, and answers as this record and the place where it
stands tell it to. -/
def recording (answer : List Cursor → Cursor → Directive) : Visitor Empty (List Cursor) :=
  fun c visited => .ok (answer visited c, visited ++ [c])

/-- The given cursors and those on all nodes below them, parents before children. -/
def preorder (cursors : List Cursor) : List Cursor :=
  match cursors with
  | [] => []
  | c :: more => c :: (preorder c.children ++ preorder more)
termination_by Cursor.sizes cursors
decreasing_by
  all_goals simp only [Cursor.sizes_cons, Cursor.size_node]
  all_goals omega

/-- Whatever is answered, the visits come in order, and some may be left out. -/
theorem exists_recorded (answer : List Cursor → Cursor → Directive) (cursors visited : List Cursor) :
    ∃ ended new, visitAll (recording answer) cursors visited = .ok (ended, visited ++ new) ∧
      new.Sublist (preorder cursors) := by
  induction cursors using cursors_induction generalizing visited with
  | nil => exact ⟨false, [], by rw [visitAll, List.append_nil], List.nil_sublist _⟩
  | cons c more children_ih more_ih =>
    have hvisit : recording answer c visited = .ok (answer visited c, visited ++ [c]) := rfl
    rw [visitAll, hvisit, preorder]
    cases answer visited c with
    | exit => exact ⟨true, [c], rfl, by simp⟩
    | parentSibling => exact ⟨false, [c], rfl, by simp⟩
    | sibling =>
      obtain ⟨ended, new, hnew, hsub⟩ := more_ih (visited ++ [c])
      exact ⟨ended, c :: new, by simpa using hnew,
        (hsub.trans (List.sublist_append_right _ _)).cons_cons c⟩
    | child =>
      obtain ⟨ended, new, hnew, hsub⟩ := children_ih (visited ++ [c])
      simp only [hnew]
      cases ended with
      | true =>
        exact ⟨true, c :: new, by simp, (hsub.trans (List.sublist_append_left _ _)).cons_cons c⟩
      | false =>
        obtain ⟨ended, rest, hrest, hsub'⟩ := more_ih (visited ++ [c] ++ new)
        exact ⟨ended, c :: (new ++ rest), by simpa using hrest, (hsub.append hsub').cons_cons c⟩

namespace Cursor

/-- The cursor stands strictly below another: its address leads from the other's node to its own,
as many steps down as it is deep, and the tree around the two is the same. -/
structure IsBelow (root c : Cursor) : Prop where
  address : c.address ≠ []
  node : root.node.at? c.address = some c.node
  depth : c.depth = c.address.length
  rebuilt : c.rebuilt = root.node
  above : c.above = root.frames

theorem address_cons (node : Node) (frame : Frame) (below above : List Frame) :
    address ⟨node, frame :: below, above⟩ =
      address ⟨frame.plug node, below, above⟩ ++ [frame.left.length] := by
  simp [address]

theorem at?_append (node : Node) (path path' : List Nat) :
    node.at? (path ++ path') = (node.at? path).bind (·.at? path') := by
  induction path generalizing node with
  | nil => rfl
  | cons i path ih =>
    rw [List.cons_append, Node.at?, Node.at?]
    cases node.children[i]? with
    | none => rfl
    | some child => exact ih child

/-- An address leads to the node. -/
theorem at?_address (c : Cursor) : c.rebuilt.at? c.address = some c.node := by
  obtain ⟨node, below, above⟩ := c
  induction below generalizing node with
  | nil => rfl
  | cons frame below ih =>
    have hchild : (frame.plug node).at? [frame.left.length] = some node := by
      simp [Node.at?, Frame.plug, Node.children]
    rw [address_cons, at?_append]
    show ((rebuilt ⟨frame.plug node, below, above⟩).at? _).bind _ = _
    rw [ih]
    exact hchild

/-- Two addresses part somewhere, and the first of them goes on further to the left. -/
def Precedes (a b : List Nat) : Prop :=
  ∃ p i j s t, i < j ∧ a = p ++ i :: s ∧ b = p ++ j :: t

theorem Precedes.lt {a b : List Nat} (h : Precedes a b) : a < b := by
  obtain ⟨p, i, j, s, t, hij, rfl, rfl⟩ := h
  exact List.append_left_lt (List.Lex.rel hij)

/-- What lies below two places lies in the same order as they do. -/
theorem Precedes.append {a b : List Nat} (h : Precedes a b) (s t : List Nat) :
    Precedes (a ++ s) (b ++ t) := by
  obtain ⟨p, i, j, s', t', hij, rfl, rfl⟩ := h
  exact ⟨p, i, j, s' ++ s, t' ++ t, hij, by simp, by simp⟩

structure Extends (c d : Cursor) : Prop where
  address : c.address <+: d.address
  rebuilt : d.rebuilt = c.rebuilt
  above : d.above = c.above

theorem Extends.trans {c d e : Cursor} (h : Extends c d) (h' : Extends d e) : Extends c e :=
  ⟨h.address.trans h'.address, h'.rebuilt.trans h.rebuilt, h'.above.trans h.above⟩

theorem mem_onSiblings {above below : List Frame} {label : Label} {left nodes : List Node} {d : Cursor}
    (h : d ∈ onSiblings above below label left nodes) :
    ∃ i, left.length ≤ i ∧
      d.address = address ⟨.inner label (left.reverse ++ nodes), below, above⟩ ++ [i] ∧
      d.rebuilt = rebuilt ⟨.inner label (left.reverse ++ nodes), below, above⟩ ∧ d.above = above := by
  induction nodes generalizing left with
  | nil => cases h
  | cons node right ih =>
    rw [onSiblings, List.mem_cons] at h
    rcases h with rfl | h
    · exact ⟨left.length, Nat.le_refl _, address_cons _ _ _ _, rfl, rfl⟩
    · obtain ⟨i, hi, hd⟩ := ih h
      rw [List.reverse_cons, List.append_assoc, List.singleton_append] at hd
      exact ⟨i, by rw [List.length_cons] at hi; omega, hd⟩

theorem pairwise_onSiblings (above below : List Frame) (label : Label) (left nodes : List Node) :
    (onSiblings above below label left nodes).Pairwise
      fun c d => Precedes c.address d.address := by
  induction nodes generalizing left with
  | nil => exact .nil
  | cons node right ih =>
    refine List.pairwise_cons.2 ⟨fun d hd => ?_, ih _⟩
    obtain ⟨i, hi, hd, -, -⟩ := mem_onSiblings hd
    exact ⟨_, left.length, i, [], [], hi, address_cons _ _ _ _, hd⟩

/-- A child stands one step below its parent. -/
theorem mem_children {c d : Cursor} (h : d ∈ c.children) :
    ∃ i, d.address = c.address ++ [i] ∧ Extends c d := by
  obtain ⟨node, below, above⟩ := c
  cases node with
  | leaf l => cases h
  | inner label nodes =>
    obtain ⟨i, -, haddress, hrebuilt, habove⟩ := mem_onSiblings h
    exact ⟨i, haddress, ⟨[i], haddress.symm⟩, hrebuilt, habove⟩

theorem pairwise_children (c : Cursor) :
    c.children.Pairwise fun c d => Precedes c.address d.address := by
  unfold children
  cases c.node with
  | leaf l => exact .nil
  | inner label nodes => exact pairwise_onSiblings _ _ _ _ _

theorem mem_preorder {cursors : List Cursor} {d : Cursor} (h : d ∈ preorder cursors) :
    ∃ c ∈ cursors, Extends c d := by
  induction cursors using cursors_induction with
  | nil =>
    rw [preorder] at h
    cases h
  | cons c more children_ih more_ih =>
    rw [preorder, List.mem_cons, List.mem_append] at h
    rcases h with rfl | h | h
    · exact ⟨d, List.mem_cons_self, List.prefix_refl _, rfl, rfl⟩
    · obtain ⟨child, hchild, hext⟩ := children_ih h
      obtain ⟨-, -, hbelow⟩ := mem_children hchild
      exact ⟨c, List.mem_cons_self, hbelow.trans hext⟩
    · obtain ⟨e, he, hext⟩ := more_ih h
      exact ⟨e, List.mem_cons_of_mem _ he, hext⟩

/-- Parents come before their children, and what is to the left before what is to the right. -/
theorem increasing_preorder {cursors : List Cursor}
    (h : cursors.Pairwise fun c d => Precedes c.address d.address) :
    (preorder cursors).Pairwise fun c d => c.address < d.address := by
  induction cursors using cursors_induction with
  | nil =>
    rw [preorder]
    exact .nil
  | cons c more children_ih more_ih =>
    rw [preorder]
    obtain ⟨hfirst, hmore⟩ := List.pairwise_cons.1 h
    have hright : ∀ {x}, c.address <+: x → ∀ d ∈ preorder more, x < d.address := by
      rintro x ⟨s, rfl⟩ d hd
      obtain ⟨e, he, ⟨t, ht⟩, -, -⟩ := mem_preorder hd
      rw [← ht]
      exact ((hfirst e he).append s t).lt
    refine List.pairwise_cons.2 ⟨fun d hd => ?_, List.pairwise_append.2
      ⟨children_ih (pairwise_children c), more_ih hmore, fun d hd e he => ?_⟩⟩
    · rcases List.mem_append.1 hd with hd | hd
      · obtain ⟨child, hchild, ⟨t, ht⟩, -, -⟩ := mem_preorder hd
        obtain ⟨i, hi, -⟩ := mem_children hchild
        have hlt : c.address ++ [] < c.address ++ i :: t :=
          List.append_left_lt (List.nil_lt_cons i t)
        rw [← ht, hi, List.append_assoc]
        simpa using hlt
      · exact hright (List.prefix_refl _) d hd
    · obtain ⟨child, hchild, hext⟩ := mem_preorder hd
      obtain ⟨-, -, hbelow⟩ := mem_children hchild
      exact hright (hbelow.trans hext).address e he

/-- All that stands in order below a root is below it. -/
theorem isBelow_of_mem {root d : Cursor} (h : d ∈ preorder root.asRoot.children) :
    IsBelow root d := by
  obtain ⟨child, hchild, hext⟩ := mem_preorder h
  obtain ⟨i, hi, hbelow⟩ := mem_children hchild
  have hall := hbelow.trans hext
  have hrebuilt : d.rebuilt = root.node := hall.rebuilt
  refine ⟨fun hnil => ?_, ?_, ?_, hrebuilt, hall.above⟩
  · have := hext.address.length_le
    rw [hnil, hi] at this
    simp at this
  · rw [← hrebuilt, at?_address]
  · simp [depth, address]

end Cursor

/-- A walk below any node of a tree does what the directives mean, for every visitor. A visitor that
answers in any way by what was visited before has visited, in the end, what it visits by this
meaning: nodes below the root at their own depths, none of them twice, and in the order of their
addresses, which is parents before children and left before right. -/
theorem walk_visits (root : Cursor) :
    (∀ (ε σ : Type) (visit : Visitor ε σ) (state : σ),
      root.walk visit state = (visitAll visit root.asRoot.children state).map (·.2)) ∧
    ∀ answer : List Cursor → Cursor → Directive, ∃ ended visited,
      visitAll (recording answer) root.asRoot.children [] = .ok (ended, visited) ∧
      root.walk (recording answer) [] = .ok visited ∧
      (visited.map Cursor.address).Pairwise (· < ·) ∧ ∀ c ∈ visited, root.IsBelow c := by
  refine ⟨fun ε σ => walk_eq_visitAll root, fun answer => ?_⟩
  obtain ⟨ended, visited, hvisits, hsub⟩ := exists_recorded answer root.asRoot.children []
  have hordered := Cursor.increasing_preorder (Cursor.pairwise_children root.asRoot)
  refine ⟨ended, visited, hvisits, ?_, ?_, ?_⟩
  · rw [walk_eq_visitAll, hvisits]
    rfl
  · exact List.pairwise_map.2 (hordered.sublist hsub)
  · exact fun c hc => Cursor.isBelow_of_mem (hsub.subset hc)

end IntegerBasic
