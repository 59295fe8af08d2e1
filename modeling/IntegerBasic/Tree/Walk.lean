import IntegerBasic.Tree.Cursor

/-!
# Walks

A walk visits the nodes below a root from left to right, parents before children. The visitor
sees the cursor and a state of its own, and answers where to go next. The walk goes on from
cursor to cursor and keeps no stack beside the cursor's own way up.
-/

namespace IntegerBasic

inductive Directive where
  /-- To the first child; from a node without children, as `sibling`. -/
  | child
  /-- To the next sibling, or the next sibling of the nearest ancestor that has one. -/
  | sibling
  /-- Out of the parent, and then on as `sibling` from there. -/
  | parentSibling
  /-- The walk is over. -/
  | exit
  deriving DecidableEq, Repr

namespace Cursor

/-- The next sibling of the node at the end of the frames, or of the nearest node above it
that has one. -/
def climb (node : Node) (above : List Frame) : List Frame → Option Cursor
  | [] => none
  | ⟨label, left, sibling :: right⟩ :: more =>
    some ⟨sibling, ⟨label, node :: left, right⟩ :: more, above⟩
  | frame :: more => climb (frame.plug node) above more

/-- The next sibling of the node or of its nearest ancestor below the root that has one. -/
def nextOutside? (c : Cursor) : Option Cursor := climb c.node c.above c.below

def follow? (c : Cursor) : Directive → Option Cursor
  | .child => c.firstChild? <|> c.nextOutside?
  | .sibling => c.nextOutside?
  | .parentSibling => do (← c.up?).nextOutside?
  | .exit => none

theorem ahead_climb {node : Node} {above frames : List Frame} {d : Cursor}
    (h : climb node above frames = some d) :
    d.ahead < rightSizes frames := by
  induction frames generalizing node with
  | nil => cases h
  | cons frame more ih =>
    match frame, h with
    | ⟨label, left, sibling :: right⟩, rfl =>
      simp [ahead, rightSizes, Node.size_eq sibling]
      omega
    | ⟨label, left, []⟩, h =>
      have hmore := ih h
      simp only [rightSizes]
      omega

theorem ahead_nextOutside? {c d : Cursor} (h : c.nextOutside? = some d) : d.ahead < c.ahead := by
  have := ahead_climb h
  simp only [ahead] at this ⊢
  omega

/-- Every step of a walk has fewer nodes ahead of it. -/
theorem ahead_follow? {c d : Cursor} {directive : Directive}
    (h : c.follow? directive = some d) : d.ahead < c.ahead := by
  cases directive with
  | child =>
    cases hc : c.firstChild? with
    | some e =>
      simp only [follow?, hc, Option.orElse_eq_orElse, Option.orElse_some] at h
      cases h
      exact ahead_firstChild? hc
    | none =>
      simp only [follow?, hc, Option.orElse_eq_orElse, Option.orElse_none] at h
      exact ahead_nextOutside? h
  | sibling => exact ahead_nextOutside? h
  | parentSibling =>
    match c, h with
    | ⟨node, frame :: more, above⟩, h =>
      have hclimb : climb (frame.plug node) above more = some d := h
      have hmore := ahead_climb hclimb
      simp only [ahead, rightSizes] at hmore ⊢
      omega
  | exit => cases h

end Cursor

/-- What a visitor does on a node: it may fail, and otherwise gives the way on and a state. -/
abbrev Visitor (ε σ : Type) := Cursor → σ → Except ε (Directive × σ)

/-- Goes on from a cursor by a directive, visits there, and so forth. -/
def walkFrom {ε σ : Type} (visit : Visitor ε σ) (c : Cursor) (directive : Directive) (state : σ) :
    Except ε σ :=
  match _h : c.follow? directive with
  | none => .ok state
  | some d =>
    match visit d state with
    | .error e => .error e
    | .ok (next, state) => walkFrom visit d next state
termination_by c.ahead
decreasing_by exact Cursor.ahead_follow? ‹_›

/-- Walks the nodes below the cursor's node. The node itself is not visited. -/
def Cursor.walk {ε σ : Type} (root : Cursor) (visit : Visitor ε σ) (state : σ) : Except ε σ :=
  walkFrom visit root.asRoot .child state

/-- Walks the nodes below the top of a tree. -/
def Node.walk {ε σ : Type} (tree : Node) (visit : Visitor ε σ) (state : σ) : Except ε σ :=
  (Cursor.ofTree tree).walk visit state

/-- Walks the nodes below the top of a tree with a visitor that looks at nothing but the node
and its siblings. -/
def Node.survey {ε σ : Type} (tree : Node) (visit : Seat → σ → Except ε (Directive × σ))
    (state : σ) : Except ε σ :=
  tree.walk (fun c => visit c.seat) state

end IntegerBasic
