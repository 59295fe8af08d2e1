import IntegerBasic.Proofs.Tree.Visits

/-!
# Moves of a cursor

A cursor carries the way up with it and knows nothing of the tree as a whole. The same moves can be
made on addresses in the whole tree, where a move is refused at the address of the root, and with a
count of levels that goes up and down by one. Cursor and address go together through any run of
moves. So a cursor stays in the subtree of its root, also of one with siblings and parents of its
own, and its depth is the number of steps that lead down to it.
-/

namespace IntegerBasic

/-- Where a move leads from a node that is known by its address in the tree. From the address of the
root no move leads to a sibling or up. -/
def Node.step? (tree : Node) (root place : List Nat) : Cursor.Move → Option (List Nat)
  | .firstChild => Option.guard (fun next => (tree.at? next).isSome) (place ++ [0])
  | .nextSibling =>
    if place = root then none
    else place.getLast?.bind fun i =>
      Option.guard (fun next => (tree.at? next).isSome) (place.dropLast ++ [i + 1])
  | .up => if place = root ∨ place = [] then none else some place.dropLast

def Cursor.Move.levels : Cursor.Move → Int
  | .firstChild => 1
  | .nextSibling => 0
  | .up => -1

/-- Carries out a move on an address and a count of levels. Both stay if it leads nowhere. -/
def Node.follow (tree : Node) (root : List Nat) : List Nat × Int → Cursor.Move → List Nat × Int
  | (place, levels), m =>
    match tree.step? root place m with
    | none => (place, levels)
    | some next => (next, levels + m.levels)

namespace Cursor

/-- Carries out moves one after the other. One that is not possible leaves the cursor as it is. -/
def run (c : Cursor) (moves : List Move) : Cursor :=
  moves.foldl (fun c m => (c.move? m).getD c) c

/-- The same place in the tree as a whole, with the top of the tree as the root. -/
def whole (c : Cursor) : Cursor := ⟨c.node, c.frames, []⟩

def place (c : Cursor) : List Nat := c.whole.address

def tree (c : Cursor) : Node := c.whole.rebuilt

variable {root c d : Cursor} {m : Move}

theorem at?_place (c : Cursor) : c.tree.at? c.place = some c.node := at?_address c.whole

theorem place_eq (c : Cursor) : c.place = (c.above.reverse.map (·.left.length)) ++ c.address := by
  simp [place, whole, address, frames]

theorem tree_eq (c : Cursor) :
    c.tree = c.above.foldl (fun node frame => frame.plug node) c.rebuilt := by
  simp [tree, whole, rebuilt, frames]

theorem length_address (c : Cursor) : c.address.length = c.depth := by
  simp [address, depth]

/-- No move changes the subtree of the root, or what is around it. -/
theorem rebuilt_move? (h : c.move? m = some d) : d.rebuilt = c.rebuilt ∧ d.above = c.above := by
  obtain ⟨node, below, above⟩ := c
  cases m with
  | firstChild =>
    cases node with
    | leaf l => cases h
    | inner label children =>
      cases children with
      | nil => cases h
      | cons child more =>
        cases h
        exact ⟨rfl, rfl⟩
  | nextSibling =>
    rcases below with _ | ⟨⟨label, left, _ | ⟨sibling, right⟩⟩, more⟩
    · cases h
    · cases h
    · cases h
      simp [rebuilt, Frame.plug]
  | up =>
    cases below with
    | nil => cases h
    | cons frame more =>
      cases h
      exact ⟨rfl, rfl⟩

theorem at?_child (c : Cursor) (i : Nat) : c.tree.at? (c.place ++ [i]) = c.node.children[i]? := by
  rw [at?_append, at?_place, Option.bind_some, Node.at?]
  cases c.node.children[i]? <;> rfl

theorem place_cons (node : Node) (frame : Frame) (below above : List Frame) :
    place ⟨node, frame :: below, above⟩ =
      place ⟨frame.plug node, below, above⟩ ++ [frame.left.length] :=
  address_cons node frame (below ++ above) []

theorem tree_cons (node : Node) (frame : Frame) (below above : List Frame) :
    tree ⟨node, frame :: below, above⟩ = tree ⟨frame.plug node, below, above⟩ := rfl

/-- The address of the root is that of the cursor only where the cursor is at its root. -/
theorem place_eq_iff (h : c.above = root.frames) : c.place = root.place ↔ c.below = [] := by
  have hroot : root.place = c.above.reverse.map (·.left.length) := by
    rw [h]
    rfl
  rw [place_eq, hroot, List.append_right_eq_self, ← List.length_eq_zero_iff, length_address, depth,
    List.length_eq_zero_iff]

/-- A move leads where it leads by addresses, or nowhere if it leads nowhere. -/
theorem place_move? (h : c.above = root.frames) (m : Move) :
    (c.move? m).map place = c.tree.step? root.place c.place m := by
  have hroot := place_eq_iff h
  cases m with
  | firstChild =>
    rw [Node.step?, Option.guard, at?_child]
    obtain ⟨node, below, above⟩ := c
    rcases node with l | ⟨label, _ | ⟨child, more⟩⟩
    · rfl
    · rfl
    · exact congrArg some (place_cons child ⟨label, [], more⟩ below above)
  | nextSibling =>
    obtain ⟨node, below, above⟩ := c
    cases below with
    | nil =>
      rw [Node.step?, if_pos (hroot.2 rfl)]
      rfl
    | cons frame more =>
      obtain ⟨label, left, right⟩ := frame
      have hne : ¬place ⟨node, ⟨label, left, right⟩ :: more, above⟩ = root.place :=
        fun heq => List.cons_ne_nil _ _ (hroot.1 heq)
      rw [Node.step?, if_neg hne, place_cons, List.getLast?_concat, Option.bind_some,
        List.dropLast_concat, Option.guard, tree_cons, at?_child]
      cases right with
      | nil => simp [move?, nextSibling?, Frame.plug, Node.children]
      | cons sibling right =>
        simp [move?, nextSibling?, Frame.plug, Node.children, place_cons]
  | up =>
    obtain ⟨node, below, above⟩ := c
    cases below with
    | nil =>
      rw [Node.step?, if_pos (.inl (hroot.2 rfl))]
      rfl
    | cons frame more =>
      have hne : ¬place ⟨node, frame :: more, above⟩ = root.place :=
        fun heq => List.cons_ne_nil _ _ (hroot.1 heq)
      have hsome : ¬(place ⟨node, frame :: more, above⟩ = root.place ∨
          place ⟨node, frame :: more, above⟩ = []) :=
        not_or.2 ⟨hne, by simp [place_cons]⟩
      rw [Node.step?, if_neg hsome, place_cons, List.dropLast_concat]
      rfl

/-- The depth counts the steps down. -/
theorem depth_move? (h : c.move? m = some d) : (d.depth : Int) = c.depth + m.levels := by
  obtain ⟨node, below, above⟩ := c
  cases m with
  | firstChild =>
    rcases node with l | ⟨label, _ | ⟨child, more⟩⟩ <;> cases h
    simp [depth, Move.levels]
  | nextSibling =>
    rcases below with _ | ⟨⟨label, left, _ | ⟨sibling, right⟩⟩, more⟩ <;> cases h
    simp [depth, Move.levels]
  | up =>
    cases below with
    | nil => cases h
    | cons frame more =>
      cases h
      simp only [depth, Move.levels, List.length_cons]
      omega

theorem run_cons (c : Cursor) (m : Move) (moves : List Move) :
    c.run (m :: moves) = ((c.move? m).getD c).run moves := rfl

theorem run_concat (c : Cursor) (moves : List Move) (m : Move) :
    c.run (moves ++ [m]) = ((c.run moves).move? m).getD (c.run moves) := by
  rw [run, List.foldl_append]
  rfl

/-- What one move keeps any run of moves keeps. -/
theorem run_induction {P : Cursor → Prop} (hmove : ∀ {c d m}, P c → c.move? m = some d → P d)
    (h : P c) (moves : List Move) : P (c.run moves) := by
  induction moves generalizing c with
  | nil => exact h
  | cons m moves ih =>
    rw [run_cons]
    apply ih
    cases hm : c.move? m with
    | none => exact h
    | some d => exact hmove h hm

theorem rebuilt_run (c : Cursor) (moves : List Move) :
    (c.run moves).rebuilt = c.rebuilt ∧ (c.run moves).above = c.above := by
  apply run_induction (P := fun d => d.rebuilt = c.rebuilt ∧ d.above = c.above) _ ⟨rfl, rfl⟩
  intro d e m hd hm
  obtain ⟨hrebuilt, habove⟩ := rebuilt_move? hm
  exact ⟨hrebuilt.trans hd.1, habove.trans hd.2⟩

/-- Siblings lead back to the same parent, however many of them are passed. -/
theorem up?_run_siblings (d : Cursor) (n : Nat) :
    (d.run (List.replicate n .nextSibling)).up? = d.up? := by
  induction n with
  | zero => rfl
  | succ n ih =>
    rw [List.replicate_succ', run_concat]
    cases hm : (d.run (List.replicate n .nextSibling)).move? .nextSibling with
    | none => exact ih
    | some e => exact (up?_of_nextSibling? hm).trans ih

/-- Address and count follow the cursor through a run of moves. -/
theorem follow_run (h : c.above = root.frames) (htree : c.tree = root.tree) (moves : List Move) :
    moves.foldl (root.tree.follow root.place) (c.place, (c.depth : Int)) =
      ((c.run moves).place, ((c.run moves).depth : Int)) := by
  induction moves generalizing c with
  | nil => rfl
  | cons m moves ih =>
    have hstep := place_move? h m
    rw [htree] at hstep
    rw [List.foldl_cons, run_cons, Node.follow, ← hstep]
    cases hm : c.move? m with
    | none => exact ih h htree
    | some d =>
      obtain ⟨hrebuilt, habove⟩ := rebuilt_move? hm
      have hcount : (c.depth : Int) + m.levels = d.depth := (depth_move? hm).symm
      rw [Option.map_some, Option.getD_some]
      dsimp only
      rw [hcount]
      refine ih (habove.trans h) ?_
      rw [tree_eq, hrebuilt, habove, ← tree_eq, htree]

end Cursor

/-- Whatever node of a tree is the root and whatever moves are made, a cursor stays in the subtree
of its root, where its depth is the number of steps from the root to its node. It goes where the
moves lead by addresses, its depth is the count of levels, a move is refused to it exactly where the
addresses refuse it, and then it stays as it is. From a first child the parent is the node that was
left, also behind any number of siblings. -/
theorem run_confined (root : Cursor) (moves : List Cursor.Move) :
    let c := root.asRoot.run moves
    root.node.at? c.address = some c.node ∧ c.place = root.place ++ c.address ∧
      c.depth = c.address.length ∧
      moves.foldl (root.tree.follow root.place) (root.place, 0) = (c.place, (c.depth : Int)) ∧
      (∀ m, (c.move? m).map Cursor.place = root.tree.step? root.place c.place m) ∧
      (∀ m, c.move? m = none → root.asRoot.run (moves ++ [m]) = c) ∧
      ∀ d, c.firstChild? = some d → ∀ n, (d.run (List.replicate n .nextSibling)).up? = some c := by
  intro c
  obtain ⟨hrebuilt, habove⟩ := Cursor.rebuilt_run root.asRoot moves
  have htree : c.tree = root.tree := by
    rw [Cursor.tree_eq, hrebuilt, habove]
    rfl
  refine ⟨?_, ?_, (Cursor.length_address c).symm, ?_, ?_, ?_, ?_⟩
  · rw [← Cursor.at?_address c, hrebuilt]
    rfl
  · rw [Cursor.place_eq, habove]
    rfl
  · exact Cursor.follow_run (c := root.asRoot) rfl rfl moves
  · intro m
    rw [Cursor.place_move? habove, htree]
  · intro m hm
    rw [Cursor.run_concat, hm]
    rfl
  · intro d hd n
    rw [Cursor.up?_run_siblings, Cursor.up?_of_firstChild? hd]

end IntegerBasic
