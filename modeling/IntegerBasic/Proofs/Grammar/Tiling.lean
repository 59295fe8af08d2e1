import Mathlib.Data.List.Chain
import IntegerBasic.Proofs.Grammar.Places
import IntegerBasic.Proofs.Tree.Traversal

/-!
# Leaves tile the line

The leaves of a line without errors lie one behind the other, each on the text it was read from,
and only gaps are left between them. An inner node lies on the text from its first child to its
last. A relation between places carries the proof: leaves are put down from one place to the next,
and the places stay places of the line.
-/

namespace IntegerBasic

/-- The text between two columns of a line. -/
def stretch (line : List Char) (start stop : Nat) : List Char :=
  (line.drop start).take (stop - start)

/-- Leaves that make up a line: each is its own stretch of it, no stretch is empty, they follow one
another, and every character outside of them is a gap. -/
structure Tiles (row : Int) (full : List Char) (leaves : List Leaf) : Prop where
  row : ∀ l ∈ leaves, l.span.start.row = row ∧ l.span.stop.row = row
  text : ∀ l ∈ leaves, l.text = stretch full l.span.start.col l.span.stop.col
  nonempty : ∀ l ∈ leaves, l.text ≠ []
  inside : ∀ l ∈ leaves, l.span.stop.col ≤ full.length
  order : leaves.IsChain fun l r => l.span.stop.col ≤ r.span.start.col
  gaps : ∀ col c, full[col]? = some c →
    (∀ l ∈ leaves, col < l.span.start.col ∨ l.span.stop.col ≤ col) → Text.isGap c = true

/-- An inner node reaches from its first child to its last, and holds the text between. -/
def Node.Covers (line : List Char) : Node → Prop
  | .leaf _ => True
  | .inner label children =>
    ∃ first last, children.head? = some first ∧ children.getLast? = some last ∧
      label.span = ⟨first.span.start, last.span.stop⟩ ∧
      label.text = stretch line label.span.start.col label.span.stop.col

namespace Grammar

structure Input.On (row : Int) (full : List Char) (i : Input) : Prop where
  row : i.row = row
  col : i.col ≤ full.length
  rest : i.rest = full.drop i.col

namespace Input.On

variable {row : Int} {full : List Char} {i : Input}

theorem after (h : i.On row full) {text rest : List Char} (hrest : text ++ rest = i.rest) :
    (i.after text rest).On row full := by
  have hfull : full.drop i.col = text ++ rest := by rw [hrest, h.rest]
  have hlength : full.length - i.col = text.length + rest.length := by
    rw [← List.length_drop, hfull, List.length_append]
  refine ⟨h.row, ?_, ?_⟩
  · have := h.col
    simp only [Input.after]
    omega
  · show rest = full.drop (i.col + text.length)
    rw [← List.drop_drop, hfull, List.drop_left]

theorem skip (h : i.On row full) : i.skip.On row full :=
  h.after List.takeWhile_append_dropWhile

/-- A stretch of the line behind a place. -/
theorem slice_eq (h : i.On row full) {start : Nat} (hstart : i.col ≤ start) (stop : Nat) :
    i.slice start stop = stretch full start stop := by
  rw [Input.slice, h.rest, List.drop_drop, stretch]
  congr 2
  omega

end Input.On

inductive Tiled : Input → List Leaf → Input → Prop
  | done {i : Input} : Tiled i [] i
  | skip {i j : Input} {leaves : List Leaf} (h : Tiled i.skip leaves j) : Tiled i leaves j
  | leaf {i j : Input} {kind : LeafKind} {text rest : List Char} {leaves : List Leaf}
      (ne : text ≠ []) (read : text ++ rest = i.rest) (h : Tiled (i.after text rest) leaves j) :
      Tiled i (⟨kind, text, ⟨i.point, ⟨i.row, i.col + text.length⟩⟩⟩ :: leaves) j

theorem le_col_skip (i : Input) : i.col ≤ i.skip.col := Nat.le_add_right _ _

namespace Tiled

variable {row : Int} {full : List Char} {i j : Input} {leaves : List Leaf}

theorem append {k : Input} {xs ys : List Leaf} (hx : Tiled i xs k) (hy : Tiled k ys j) :
    Tiled i (xs ++ ys) j := by
  induction hx with
  | done => exact hy
  | skip _ ih => exact .skip (ih hy)
  | leaf ne read _ ih => exact .leaf ne read (ih hy)

theorem on (h : Tiled i leaves j) (hi : i.On row full) : j.On row full := by
  induction h with
  | done => exact hi
  | skip _ ih => exact ih hi.skip
  | leaf _ read _ ih => exact ih (hi.after read)

theorem le_col (h : Tiled i leaves j) : i.col ≤ j.col := by
  induction h with
  | done => exact Nat.le_refl _
  | @skip i _ _ _ ih => exact Nat.le_trans (le_col_skip i) ih
  | leaf _ _ _ ih => exact Nat.le_trans (Nat.le_add_right _ _) ih

/-- Each leaf lies between the two places, on the text that it holds. -/
theorem leaf_place (h : Tiled i leaves j) (hi : i.On row full) {l : Leaf} (hl : l ∈ leaves) :
    l.span = ⟨⟨row, l.span.start.col⟩, ⟨row, l.span.start.col + l.text.length⟩⟩ ∧ l.text ≠ [] ∧
      i.col ≤ l.span.start.col ∧ l.span.stop.col ≤ j.col ∧
      l.text = stretch full l.span.start.col l.span.stop.col := by
  induction h with
  | done => cases hl
  | @skip i _ _ _ ih =>
    obtain ⟨hspan, hne, hstart, hstop, htext⟩ := ih hi.skip hl
    exact ⟨hspan, hne, Nat.le_trans (le_col_skip i) hstart, hstop, htext⟩
  | @leaf i _ _ text rest _ ne read h ih =>
    cases hl with
    | head =>
      refine ⟨by rw [← hi.row]; rfl, ne, Nat.le_refl _, h.le_col, ?_⟩
      show text = stretch full i.col (i.col + text.length)
      rw [stretch, ← hi.rest, ← read, Nat.add_sub_cancel_left, List.take_left]
    | tail _ hl =>
      obtain ⟨hspan, hne, hstart, hstop, htext⟩ := ih (hi.after read) hl
      exact ⟨hspan, hne, Nat.le_trans (Nat.le_add_right _ _) hstart, hstop, htext⟩

/-- The leaves follow one another, from the first place on. -/
theorem chain (h : Tiled i leaves j) :
    leaves.IsChain (fun l r => l.span.stop.col ≤ r.span.start.col) ∧
      ∀ first ∈ leaves.head?, i.col ≤ first.span.start.col := by
  induction h with
  | done => simp
  | @skip i _ _ _ ih => exact ⟨ih.1, fun first hf => Nat.le_trans (le_col_skip i) (ih.2 first hf)⟩
  | leaf _ _ _ ih =>
    refine ⟨List.isChain_cons.2 ⟨fun first hf => ih.2 first hf, ih.1⟩, ?_⟩
    rintro first ⟨⟩
    exact Nat.le_refl _

/-- A character between the places that is in no leaf is a gap. -/
theorem isGap_of_outside (h : Tiled i leaves j) (hi : i.On row full) {col : Nat} {c : Char}
    (hc : full[col]? = some c) (hstart : i.col ≤ col) (hstop : col < j.col)
    (outside : ∀ l ∈ leaves, col < l.span.start.col ∨ l.span.stop.col ≤ col) :
    Text.isGap c = true := by
  induction h with
  | done => omega
  | @skip i j leaves h ih =>
    by_cases hskip : i.skip.col ≤ col
    · exact ih hi.skip hskip hstop outside
    · have hgaps : col - i.col < (i.rest.takeWhile Text.isGap).length := by
        simp only [Input.skip, Input.after] at hskip
        omega
      have hrest : i.rest[col - i.col]? = some c := by
        rw [hi.rest, List.getElem?_drop, Nat.add_sub_cancel' hstart, hc]
      rw [← List.takeWhile_append_dropWhile (p := Text.isGap) (l := i.rest),
        List.getElem?_append_left hgaps] at hrest
      exact of_mem_takeWhile (List.mem_of_getElem? hrest)
  | @leaf i j _ text rest leaves _ read _ ih =>
    have hbehind : i.col + text.length ≤ col := by
      have := outside _ List.mem_cons_self
      simp only [Input.point] at this
      omega
    exact ih (hi.after read) hbehind hstop fun l hl => outside l (List.mem_cons_of_mem _ hl)

/-- Leaves put down from the first column to the last tile the line. -/
theorem tiles (h : Tiled i leaves j) (hi : i.On row full) (hfirst : i.col = 0)
    (hlast : j.rest = []) : Tiles row full leaves := by
  have hj := h.on hi
  have hend : full.length ≤ j.col := by
    have := hj.rest
    rw [hlast] at this
    exact List.drop_eq_nil_iff.1 this.symm
  constructor
  · intro l hl
    rw [(h.leaf_place hi hl).1]
    exact ⟨rfl, rfl⟩
  · intro l hl
    exact (h.leaf_place hi hl).2.2.2.2
  · intro l hl
    exact (h.leaf_place hi hl).2.1
  · intro l hl
    exact Nat.le_trans (h.leaf_place hi hl).2.2.2.1 hj.col
  · exact h.chain.1
  · intro col c hc outside
    have hcol := (List.getElem?_eq_some_iff.1 hc).1
    exact h.isGap_of_outside hi hc (by omega) (by omega) outside

end Tiled

/-- Nodes put down from one place to another: their leaves are, no node begins before the first
place, and every inner node covers its children. -/
structure Laid (full : List Char) (i : Input) (nodes : List Node) (j : Input) : Prop where
  tiled : Tiled i (Node.leavesOf nodes) j
  start : ∀ first ∈ nodes.head?, i.col ≤ first.span.start.col
  covers : ∀ node ∈ nodes, node.Covers full ∧ ∀ seat ∈ node.seats, seat.node.Covers full

namespace Laid

variable {row : Int} {full : List Char} {i j k : Input} {nodes : List Node}

theorem nil (i : Input) : Laid full i [] i := ⟨.done, by simp, by simp⟩

theorem skip (h : Laid full i.skip nodes j) : Laid full i nodes j :=
  ⟨.skip h.tiled, fun first hf => Nat.le_trans (le_col_skip i) (h.start first hf), h.covers⟩

theorem append {xs ys : List Node} (hx : Laid full i xs k) (hy : Laid full k ys j) :
    Laid full i (xs ++ ys) j := by
  refine ⟨?_, ?_, List.forall_mem_append.2 ⟨hx.covers, hy.covers⟩⟩
  · rw [Node.leavesOf_append]
    exact hx.tiled.append hy.tiled
  · intro first hf
    rw [List.head?_append] at hf
    cases hxs : xs.head? with
    | none =>
      rw [hxs] at hf
      exact Nat.le_trans hx.tiled.le_col (hy.start first hf)
    | some x =>
      rw [hxs] at hf
      exact hx.start first (hxs.trans hf)

theorem leaf (kind : LeafKind) {text rest : List Char} (ne : text ≠ [])
    (read : text ++ rest = i.rest) : Laid full i [i.leaf kind text] (i.after text rest) := by
  constructor
  · simpa [Input.leaf] using Tiled.leaf ne read .done
  · rintro first ⟨⟩
    exact Nat.le_refl _
  · simp [Input.leaf, Node.Covers, Node.seats, Node.children, seats]

/-- Nodes under a new node still lie where they lay. -/
theorem enclose (hi : i.On row full) (h : Laid full i nodes j) (ne : nodes ≠ [])
    (kind : InnerKind) : Laid full i [i.enclose kind nodes] j := by
  have hfirst := List.head?_eq_some_head ne
  have hlast := List.getLast?_eq_some_getLast ne
  have hstart := h.start _ hfirst
  constructor
  · simpa [Input.enclose] using h.tiled
  · rintro node ⟨⟩
    simpa [Input.enclose, Node.span, hfirst] using hstart
  · intro node hnode
    rw [List.mem_singleton.1 hnode]
    refine ⟨⟨_, _, hfirst, hlast, ?_, ?_⟩, ?_⟩
    · simp [hfirst, hlast]
    · exact hi.slice_eq (by simpa [hfirst] using hstart) _
    · exact (forall_seats_iff [] nodes).2 h.covers

end Laid

variable {row : Int} {full : List Char} {i j : Input} {nodes : List Node} {node : Node}

/-- A trace puts its nodes down. -/
theorem Trace.laid {K : LeafKind → Bool} {q q' : Bool} (h : Trace K q i nodes q' j)
    (hi : i.On row full) : Laid full i nodes j := by
  induction h with
  | done => exact .nil _
  | skip _ ih => exact .skip (ih hi.skip)
  | leaf _ read _ _ ih =>
    exact (Laid.leaf _ read.ne_nil read.append).append (ih (hi.after read.append))
  | inner _ ne _ ih₁ ih₂ =>
    have hwithin := ih₁ hi
    exact (hwithin.enclose hi ne _).append (ih₂ (hwithin.tiled.on hi))

theorem laid_word {t : Token} {text rest : List Char}
    (read : Lexeme.word t.spelling.toList i.rest = some (text, rest)) :
    Laid full i [i.leaf (.token t) text] (i.after text rest) :=
  .leaf _ (ne_nil_of_word (spelling_ne_nil t) read) (Lexeme.append_of_word read)

theorem laid_commentOf (i : Input) : Laid full i (commentOf i) (i.after i.rest []) := by
  unfold commentOf
  by_cases hempty : i.rest.isEmpty = true
  · rw [if_pos hempty]
    have hrest : i.rest = [] := by simpa using hempty
    have hplace : i.after i.rest [] = i := by
      obtain ⟨row, col, rest⟩ := i
      cases hrest
      rfl
    rw [hplace]
    exact .nil i
  · rw [if_neg hempty]
    exact .leaf _ (by simpa using hempty) (List.append_nil _)

/-- A sound statement puts its node down. -/
theorem IsStatement.laid (h : IsStatement i node j) (hi : i.On row full)
    (sound : node.hasError = false) : Laid full i [node] j := by
  induction h with
  | plain h _ ne => exact (h.laid hi).enclose hi ne _
  | pointer _ read h =>
    have hword : Laid full _ _ _ := laid_word read
    exact (hword.append (h.laid (hword.tiled.on hi))).enclose hi (List.cons_ne_nil _ _) _
  | remark read =>
    exact ((laid_word read).append (laid_commentOf _)).enclose hi (List.cons_ne_nil _ _) _
  | conditional h _ ih =>
    have htrace := h.laid hi
    have hnested := ih (htrace.tiled.on hi)
      (by simp_all [Input.enclose, Node.hasError])
    exact (htrace.append hnested).enclose hi (by simp) _
  | broken => rw [hasError_recover] at sound; cases sound
  | brokenPointer => rw [hasError_recover] at sound; cases sound

/-- Sound statements are put down up to the end of the line. -/
theorem laid_statementsUpTo (n : Nat) (i : Input) (hn : i.rest.length < n) (hi : i.On row full)
    (sound : ∀ node ∈ statementsUpTo n i, node.hasError = false) :
    ∃ j, Laid full i (statementsUpTo n i) j ∧ j.rest = [] := by
  induction n, i using statementsUpTo_induction with
  | stop => omega
  | done n i hrest => exact ⟨i.skip, .skip (.nil _), hrest⟩
  | colon n i rest hrest ih =>
    have hcolon : Laid full i.skip [i.skip.leaf (.token .colon) [':']] (i.skip.after [':'] rest) :=
      .leaf _ (List.cons_ne_nil _ _) hrest.symm
    have hlength : rest.length < n := by
      have := length_skip_le i
      rw [hrest, List.length_cons] at this
      omega
    obtain ⟨j, hlaid, hj⟩ := ih hlength (hcolon.tiled.on hi.skip)
      fun node hnode => sound node (List.mem_cons_of_mem _ hnode)
    exact ⟨j, .skip (hcolon.append hlaid), hj⟩
  | statement n i node j _ hnode hbegins ih =>
    have hlaid := hnode.laid hi.skip (sound node List.mem_cons_self)
    have hlength : j.rest.length < n := by
      have : j.rest.length < i.skip.rest.length := hnode.length_lt hbegins
      have := length_skip_le i
      omega
    obtain ⟨k, hmore, hk⟩ := ih hlength (hlaid.tiled.on hi.skip)
      fun node hnode => sound node (List.mem_cons_of_mem _ hnode)
    exact ⟨k, .skip (hlaid.append hmore), hk⟩

theorem Input.On.first (row : Int) (text : List Char) : Input.On row text ⟨row, 0, text⟩ :=
  ⟨rfl, Nat.zero_le _, rfl⟩

/-- A line with a number is the number and the statements behind it. -/
theorem children_line {text number rest : List Char}
    (h : Lexeme.lineNumber text = some (number, rest)) (row : Int) :
    (line row text).children = [Input.leaf ⟨row, 0, text⟩ .lineNumber number] ++
      statements (Input.after ⟨row, 0, text⟩ number rest) := by
  simp [line, h, Node.children]

/-- A line without errors loses nothing: its leaves tile it, and its inner nodes cover their
children. -/
theorem tiles_line (row : Int) (text : List Char) (sound : (line row text).hasError = false) :
    Tiles row text (line row text).leaves ∧
      ∀ seat ∈ (line row text).seats, seat.node.Covers text := by
  cases hnumber : Lexeme.lineNumber text with
  | none => simp [line, hnumber, unnumbered, Node.hasError, LeafKind.isError] at sound
  | some pair =>
    obtain ⟨number, rest⟩ := pair
    have hline := children_line hnumber row
    have hi := Input.On.first row text
    have hfirst : Laid text ⟨row, 0, text⟩ [Input.leaf ⟨row, 0, text⟩ .lineNumber number]
        (Input.after ⟨row, 0, text⟩ number rest) :=
      .leaf _ (ne_nil_of_lineNumber hnumber) (Lexeme.append_of_lineNumber hnumber)
    obtain ⟨j, hmore, hj⟩ := laid_statementsUpTo _ _ (Nat.lt_succ_self _) (hfirst.tiled.on hi)
      fun node hnode => hasError_of_mem sound
        (show node ∈ (line row text).children from hline ▸ List.mem_append_right _ hnode)
    have hlaid := hfirst.append hmore
    rw [← statements, ← hline] at hlaid
    refine ⟨hlaid.tiled.tiles hi rfl hj, ?_⟩
    rw [Node.seats, forall_seats_iff]
    exact hlaid.covers

/-- A line with a quoted colon, a nested statement, a subscript and a remark. -/
theorem tiles_line_nested :
    (line 0 "10 IF A$=\":\" THEN B ( 1 )=2 :REM X ".toList).hasError = false ∧
      Tiles 0 "10 IF A$=\":\" THEN B ( 1 )=2 :REM X ".toList
        (line 0 "10 IF A$=\":\" THEN B ( 1 )=2 :REM X ".toList).leaves ∧
      ∀ seat ∈ (line 0 "10 IF A$=\":\" THEN B ( 1 )=2 :REM X ".toList).seats,
        seat.node.Covers "10 IF A$=\":\" THEN B ( 1 )=2 :REM X ".toList := by
  have sound : (line 0 "10 IF A$=\":\" THEN B ( 1 )=2 :REM X ".toList).hasError = false := by
    decide +kernel
  exact ⟨sound, tiles_line 0 _ sound⟩

end Grammar

end IntegerBasic
