import IntegerBasic.Index
import IntegerBasic.Tree.Node

/-!
# Cursors

A cursor stands on a node of a tree and knows the way back up: for each level the label of the
parent and the siblings on both sides. The way is cut in two at the cursor's root. `below`
leads from the node up to the root, `above` from the root up to the top of the tree. Moves stay
below the root; looking at neighbours does not.
-/

namespace IntegerBasic

/-- One level of the way up: the parent's label, the siblings to the left with the nearest
first, and the siblings to the right. -/
structure Frame where
  label : Label
  left : List Node
  right : List Node

def Frame.plug (frame : Frame) (node : Node) : Node :=
  .inner frame.label (frame.left.reverse ++ node :: frame.right)

/-- A node among its siblings: those before it, the nearest first, and those behind it. -/
structure Seat where
  node : Node
  preceding : List Node
  following : List Node

def Seat.familyHasError (seat : Seat) : Bool :=
  seat.preceding.any (·.hasError) || seat.node.hasError || seat.following.any (·.hasError)

structure Cursor where
  node : Node
  below : List Frame
  above : List Frame

namespace Cursor

def ofTree (tree : Node) : Cursor := ⟨tree, [], []⟩

def depth (c : Cursor) : Nat := c.below.length

/-- The levels above the node, inside and outside the root. -/
def frames (c : Cursor) : List Frame := c.below ++ c.above

def following (c : Cursor) : List Node :=
  match c.frames with
  | [] => []
  | frame :: _ => frame.right

def preceding (c : Cursor) : List Node :=
  match c.frames with
  | [] => []
  | frame :: _ => frame.left

/-- The node among its siblings. -/
def seat (c : Cursor) : Seat := ⟨c.node, c.preceding, c.following⟩

def parent? (c : Cursor) : Option Node := c.frames.head?.map (·.plug c.node)

def firstChild? (c : Cursor) : Option Cursor :=
  match c.node with
  | .inner label (child :: more) => some ⟨child, ⟨label, [], more⟩ :: c.below, c.above⟩
  | _ => none

/-- Moves to the next sibling; the root has none. -/
def nextSibling? (c : Cursor) : Option Cursor :=
  match c.below with
  | ⟨label, left, sibling :: right⟩ :: more =>
    some ⟨sibling, ⟨label, c.node :: left, right⟩ :: more, c.above⟩
  | _ => none

def up? (c : Cursor) : Option Cursor :=
  match c.below with
  | frame :: more => some ⟨frame.plug c.node, more, c.above⟩
  | [] => none

def child? (c : Cursor) : Nat → Option Cursor
  | 0 => c.firstChild?
  | i + 1 => do (← c.child? i).nextSibling?

/-- Follows child numbers down from the node, where a negative number counts from the last
child. -/
def descend? (c : Cursor) (path : List Int) : Option Cursor :=
  path.foldlM (fun c i => (Index.place? c.node.children.length i).bind c.child?) c

/-- The same place with the node as the root: what was below the old root is above the new. -/
def asRoot (c : Cursor) : Cursor := ⟨c.node, [], c.below ++ c.above⟩

inductive Move where
  | firstChild
  | nextSibling
  | up
  deriving DecidableEq, Repr

def move? (c : Cursor) : Move → Option Cursor
  | .firstChild => c.firstChild?
  | .nextSibling => c.nextSibling?
  | .up => c.up?

/-- The parent of the first child is the node. -/
theorem up?_of_firstChild? {c d : Cursor} (h : c.firstChild? = some d) : d.up? = some c := by
  match c, h with
  | ⟨.inner label (child :: more), below, above⟩, rfl => rfl

/-- Siblings have the same parent. -/
theorem up?_of_nextSibling? {c d : Cursor} (h : c.nextSibling? = some d) : d.up? = c.up? := by
  match c, h with
  | ⟨node, ⟨label, left, sibling :: right⟩ :: more, above⟩, rfl => simp [up?, Frame.plug]

def rightSizes : List Frame → Nat
  | [] => 0
  | frame :: more => Node.sizes frame.right + rightSizes more

/-- The number of nodes that a walk from here can still reach below the root: those under the
node, and those at and under the siblings to the right on every level. -/
def ahead (c : Cursor) : Nat := Node.sizes c.node.children + rightSizes c.below

theorem ahead_firstChild? {c d : Cursor} (h : c.firstChild? = some d) : d.ahead < c.ahead := by
  match c, h with
  | ⟨.inner label (child :: more), below, above⟩, rfl =>
    simp [ahead, rightSizes, Node.children, Node.size_eq child]
    omega

end Cursor

end IntegerBasic
