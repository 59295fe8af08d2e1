import IntegerBasic.Token

/-!
# Trees of program text

A leaf is one token of the text with the exact characters it was read from and its place. An
inner node stands for a statement, an assignment, a subscripted variable, a line or a whole
program, and spans its children. Expressions have no nodes of their own: their tokens are
siblings in one flat run. Text that fits no rule is kept in an error leaf, which says what the
parser missed.
-/

namespace IntegerBasic

/-- A place in a document: row and column, both counted from zero. A line that is read on its
own can be said to stand in any row, so that rows are whole numbers of either sign. -/
structure Point where
  row : Int
  col : Nat
  deriving DecidableEq, Repr

/-- The stretch from a place up to, and without, another. -/
structure Span where
  start : Point
  stop : Point
  deriving DecidableEq, Repr

inductive Mismatch where
  | expected (token : Token)
  | lineNumber
  | name
  | integerName
  | expression
  | statement
  | stringEnd
  | surplus
  /-- The rules call one another deeper than there is room for. No statement recovers from it. -/
  | depth
  deriving DecidableEq, Repr

def Mismatch.message : Mismatch → String
  | .expected t => "expected " ++ t.spelling
  | .lineNumber => "expected line number"
  | .name => "expected variable"
  | .integerName => "expected integer variable"
  | .expression => "expected expression"
  | .statement => "expected statement"
  | .stringEnd => "unterminated string"
  | .surplus => "unexpected text"
  | .depth => "maximum recursion depth exceeded"

/-- What a leaf is. The number that labels a line and a line number given to a command look
alike, and share the name under which they are shown. -/
inductive LeafKind where
  | token (token : Token)
  | lineNumber
  | lineArgument
  | integer
  | name (type : DataType)
  | string
  | comment
  | error (cause : Mismatch)
  deriving DecidableEq, Repr

inductive InnerKind where
  | program
  | line
  | statement
  | assignment (type : DataType)
  | element (type : DataType)
  | slice
  deriving DecidableEq, Repr

structure Leaf where
  kind : LeafKind
  text : List Char
  span : Span
  deriving DecidableEq, Repr

structure Label where
  kind : InnerKind
  text : List Char
  span : Span
  deriving DecidableEq, Repr

inductive Node where
  | leaf (leaf : Leaf)
  | inner (label : Label) (children : List Node)

def LeafKind.shown : LeafKind → String
  | .token t => t.name
  | .lineNumber | .lineArgument => "linenum"
  | .integer => "integer"
  | .name y => y.tag ++ "_name"
  | .string => "string"
  | .comment => "comment_text"
  | .error _ => "ERROR"

def InnerKind.shown : InnerKind → String
  | .program => "source_file"
  | .line => "line"
  | .statement => "statement"
  | .assignment y => "assignment_" ++ y.tag
  | .element y => y.tag ++ "_array"
  | .slice => "str_slice"

/-- An error leaf's account of what was missed; other leaves have none. -/
def LeafKind.detail : LeafKind → String
  | .error cause => cause.message
  | _ => ""

def LeafKind.isError : LeafKind → Bool
  | .error _ => true
  | _ => false

/-- A leaf that is written with digits. -/
def LeafKind.isNumber : LeafKind → Bool
  | .lineNumber | .lineArgument | .integer => true
  | _ => false

namespace Node

def kindShown : Node → String
  | .leaf l => l.kind.shown
  | .inner label _ => label.kind.shown

def text : Node → List Char
  | .leaf l => l.text
  | .inner label _ => label.text

def span : Node → Span
  | .leaf l => l.span
  | .inner label _ => label.span

def detail : Node → String
  | .leaf l => l.kind.detail
  | .inner _ _ => ""

def children : Node → List Node
  | .leaf _ => []
  | .inner _ children => children

def leafKind? : Node → Option LeafKind
  | .leaf l => some l.kind
  | .inner _ _ => none

def innerKind? : Node → Option InnerKind
  | .leaf _ => none
  | .inner label _ => some label.kind

def token? : Node → Option Token
  | .leaf ⟨.token t, _, _⟩ => some t
  | _ => none

theorem exists_of_token? {node : Node} {t : Token} (h : node.token? = some t) :
    ∃ text span, node = .leaf ⟨.token t, text, span⟩ := by
  unfold token? at h
  split at h
  · cases h
    exact ⟨_, _, rfl⟩
  · cases h

def isError (node : Node) : Bool :=
  match node with
  | .leaf l => l.kind.isError
  | .inner _ _ => false

mutual
/-- The leaves below a node, the node itself included, from left to right. -/
def leaves : Node → List Leaf
  | .leaf l => [l]
  | .inner _ children => leavesOf children
def leavesOf : List Node → List Leaf
  | [] => []
  | node :: more => node.leaves ++ leavesOf more
end

/-- Some leaf of the node is an error leaf. -/
def hasError (node : Node) : Bool := node.leaves.any (·.kind.isError)

mutual
def size : Node → Nat
  | .leaf _ => 1
  | .inner _ children => 1 + sizes children
def sizes : List Node → Nat
  | [] => 0
  | node :: more => node.size + sizes more
end

mutual
/-- The shape of a tree as nested parentheses with the kinds in them. -/
def shape : Node → String
  | .leaf l => "(" ++ l.kind.shown ++ ")"
  | .inner label children => "(" ++ label.kind.shown ++ shapeOf children ++ ")"
def shapeOf : List Node → String
  | [] => ""
  | node :: more => " " ++ node.shape ++ shapeOf more
end

@[simp] theorem leaves_leaf (l : Leaf) : (Node.leaf l).leaves = [l] := by simp [leaves]
@[simp] theorem leaves_inner (label : Label) (children : List Node) :
    (Node.inner label children).leaves = leavesOf children := by simp [leaves]
@[simp] theorem leavesOf_nil : leavesOf [] = [] := by simp [leavesOf]
@[simp] theorem leavesOf_cons (node : Node) (more : List Node) :
    leavesOf (node :: more) = node.leaves ++ leavesOf more := by simp [leavesOf]
@[simp] theorem leavesOf_append (xs ys : List Node) :
    leavesOf (xs ++ ys) = leavesOf xs ++ leavesOf ys := by
  induction xs with
  | nil => simp
  | cons x xs ih => simp [ih]

@[simp] theorem sizes_nil : sizes [] = 0 := by simp [sizes]
@[simp] theorem sizes_cons (node : Node) (more : List Node) :
    sizes (node :: more) = node.size + sizes more := by simp [sizes]

/-- A node is one more than its children. -/
theorem size_eq (node : Node) : node.size = 1 + sizes node.children := by
  cases node <;> simp [size, children]

end Node

end IntegerBasic
