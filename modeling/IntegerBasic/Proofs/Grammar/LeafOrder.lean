import IntegerBasic.Proofs.Grammar.Tiling
import IntegerBasic.Proofs.Grammar.ErrorLeaves
import IntegerBasic.Proofs.Text.Letters

/-!
# Where text is read twice

A broken statement is left at the colon that ends its text, and the line goes on from there. Two
words have a colon of their own. Behind a broken `HIMEM:` or `LOMEM:` the line goes on at this
colon, and what the statement had recognized is read once more. Everywhere else the leaves of a
line lie one behind the other, however many of its statements are broken.
-/

namespace IntegerBasic

def InOrder : Nat → List Leaf → Nat → Prop
  | start, [], stop => start ≤ stop
  | start, l :: leaves, stop =>
    start ≤ l.span.start.col ∧ l.span.start.col ≤ l.span.stop.col ∧
      InOrder l.span.stop.col leaves stop

def lastStop : List Leaf → Nat → Nat
  | [], start => start
  | l :: leaves, _ => lastStop leaves l.span.stop.col

theorem lastStop_append (xs ys : List Leaf) (start : Nat) :
    lastStop (xs ++ ys) start = lastStop ys (lastStop xs start) := by
  induction xs generalizing start with
  | nil => rfl
  | cons l xs ih => exact ih _

namespace InOrder

variable {start middle stop : Nat} {xs ys leaves : List Leaf}

theorem mono_left (h : InOrder middle leaves stop) (hstart : start ≤ middle) :
    InOrder start leaves stop := by
  cases leaves with
  | nil => exact Nat.le_trans hstart h
  | cons l leaves => exact ⟨Nat.le_trans hstart h.1, h.2⟩

theorem append (hx : InOrder start xs middle) (hy : InOrder middle ys stop) :
    InOrder start (xs ++ ys) stop := by
  induction xs generalizing start with
  | nil => exact hy.mono_left hx
  | cons l xs ih => exact ⟨hx.1, hx.2.1, ih hx.2.2⟩

/-- Leaves in order reach up to the last of them. -/
theorem to_lastStop (h : InOrder start leaves stop) :
    InOrder start leaves (lastStop leaves start) ∧ start ≤ lastStop leaves start ∧
      lastStop leaves start ≤ stop := by
  induction leaves generalizing start with
  | nil => exact ⟨Nat.le_refl _, Nat.le_refl _, h⟩
  | cons l leaves ih =>
    obtain ⟨hin, hstart, hstop⟩ := ih h.2.2
    exact ⟨⟨h.1, h.2.1, hin⟩, Nat.le_trans h.1 (Nat.le_trans h.2.1 hstart), hstop⟩

theorem isChain (h : InOrder start leaves stop) :
    leaves.IsChain fun l r => l.span.stop.col ≤ r.span.start.col := by
  induction leaves generalizing start with
  | nil => exact .nil
  | cons l leaves ih =>
    refine List.isChain_cons.2 ⟨?_, ih h.2.2⟩
    intro next hnext
    cases leaves with
    | nil => cases hnext
    | cons r leaves =>
      cases hnext
      exact h.2.2.1

end InOrder

def Node.isPointer (node : Node) : Bool :=
  node.token? == some .himem || node.token? == some .lomem

/-- Such a word with an error leaf among the siblings behind it. -/
def Seat.isBrokenPointer (seat : Seat) : Bool :=
  seat.node.isPointer && seat.following.any Node.isError

/-- Only leaves are words. -/
theorem isPointer_seat {left nodes : List Node}
    (h : ∀ l ∈ Node.leavesOf nodes, (Node.leaf l).isPointer = false) :
    ∀ seat ∈ seats left nodes, seat.node.isPointer = false := by
  intro seat hseat
  cases hnode : seat.node with
  | inner => rfl
  | leaf l =>
    apply h
    rw [← leaf?_seats left]
    exact List.mem_filterMap.2 ⟨seat, hseat, by rw [Seat.leaf?, hnode]⟩

theorem any_isBrokenPointer_eq_false {left nodes : List Node}
    (h : ∀ l ∈ Node.leavesOf nodes, (Node.leaf l).isPointer = false) :
    (seats left nodes).any Seat.isBrokenPointer = false := by
  rw [List.any_eq_false]
  intro seat hseat
  simp [Seat.isBrokenPointer, isPointer_seat h seat hseat]

/-- Where the first siblings and what is below them are no such words, only the others matter. -/
theorem any_isBrokenPointer_append (left : List Node) {xs : List Node} (ys : List Node)
    (h : ∀ l ∈ Node.leavesOf xs, (Node.leaf l).isPointer = false) :
    (seats left (xs ++ ys)).any Seat.isBrokenPointer =
      (seats (xs.reverse ++ left) ys).any Seat.isBrokenPointer := by
  induction xs generalizing left with
  | nil => rfl
  | cons x xs ih =>
    rw [Node.leavesOf_cons, List.forall_mem_append] at h
    have hbelow : (seats [] x.children).any Seat.isBrokenPointer = false := by
      apply any_isBrokenPointer_eq_false
      cases x with
      | leaf l => simp [Node.children]
      | inner label children => simpa [Node.children] using h.1
    have hx : x.isPointer = false := by
      cases x with
      | leaf l => exact h.1 l (by simp)
      | inner => rfl
    rw [List.cons_append, seats, List.any_cons, List.any_append, hbelow, ih _ h.2]
    simp [Seat.isBrokenPointer, hx]

namespace Grammar

variable {i j : Input} {nodes : List Node} {node : Node}

theorem Tiled.inOrder {leaves : List Leaf} (h : Tiled i leaves j) :
    InOrder i.col leaves j.col := by
  induction h with
  | done => exact Nat.le_refl _
  | @skip i _ _ _ ih => exact ih.mono_left (le_col_skip i)
  | leaf _ _ _ ih => exact ⟨Nat.le_refl _, Nat.le_add_right _ _, ih⟩

theorem Reads.isPointer {kind : LeafKind} {s text rest : List Char} (h : Reads kind s text rest)
    (span : Span) : (Node.leaf ⟨kind, text, span⟩).isPointer = false := by
  cases h with
  | @word t _ _ _ plain =>
    simp only [Token.isPlain, Bool.and_eq_true, bne_iff_ne, ne_eq] at plain
    simp [Node.isPointer, Node.token?, plain]
  | @operator t _ _ _ lhs first =>
    have key : ∀ t ∈ binaryOperators, ∀ lhs ∈ [DataType.integer, DataType.string],
        operatorAfter lhs t ≠ .himem ∧ operatorAfter lhs t ≠ .lomem := by decide
    have := key t (List.mem_of_find?_eq_some first) lhs (by cases lhs <;> simp)
    simp [Node.isPointer, Node.token?, this]
  | _ => rfl

variable {K : LeafKind → Bool} {q q' : Bool}

/-- No word of a trace sets a pointer. -/
theorem Trace.isPointer (h : Trace K q i nodes q' j) :
    ∀ l ∈ Node.leavesOf nodes, (Node.leaf l).isPointer = false := by
  induction h with
  | done => simp
  | skip _ ih => exact ih
  | leaf _ read _ _ ih =>
    intro l hl
    rw [Input.leaf, Node.leavesOf_cons, Node.leaves_leaf, List.singleton_append] at hl
    cases hl with
    | head => exact read.isPointer _
    | tail _ hl => exact ih l hl
  | inner _ _ _ ih₁ ih₂ =>
    rw [Input.enclose, Node.leavesOf_cons, Node.leaves_inner]
    exact List.forall_mem_append.2 ⟨ih₁, ih₂⟩

def nodesStop (nodes : List Node) (start : Nat) : Nat :=
  (nodes.getLast?.map (·.span.stop.col)).getD start

theorem nodesStop_cons (node : Node) (nodes : List Node) (start : Nat) :
    nodesStop (node :: nodes) start = nodesStop nodes node.span.stop.col := by
  cases h : nodes.getLast? <;> simp [nodesStop, List.getLast?_cons, h]

/-- The last node of a trace ends with its last leaf. -/
theorem Trace.nodesStop_eq (h : Trace K q i nodes q' j) (start : Nat) :
    nodesStop nodes start = lastStop (Node.leavesOf nodes) start := by
  induction h generalizing start with
  | done => rfl
  | skip _ ih => exact ih start
  | leaf _ _ _ _ ih =>
    rw [nodesStop_cons, ih]
    simp [Input.leaf, lastStop, Node.span]
  | @inner _ _ _ i _ _ kind inside nodes _ ne _ ih₁ ih₂ =>
    have hstop : (i.enclose kind inside).span.stop.col = nodesStop inside start := by
      simp [Input.enclose, Node.span, nodesStop, List.getLast?_eq_some_getLast ne]
    rw [nodesStop_cons, ih₂, hstop, ih₁, Node.leavesOf_cons, lastStop_append]
    simp [Input.enclose]

theorem Passes.on {row : Int} {full text : List Char} (h : Passes i text j) (hi : i.On row full) :
    j.On row full := by
  rw [h.place]
  exact hi.after h.rest.symm

def errorLeaf (i : Input) (nodes : List Node) (cause : Mismatch) : Leaf :=
  let start := nodesStop nodes i.col
  let stop := max start (i.col + (Text.trimRight (statementText false i.rest)).length)
  ⟨.error cause, i.slice start stop, ⟨⟨i.row, start⟩, ⟨i.row, stop⟩⟩⟩

theorem recover_eq (i : Input) (nodes : List Node) (cause : Mismatch) :
    (recover i nodes cause).1 =
      i.enclose .statement (nodes ++ [.leaf (errorLeaf i nodes cause)]) := rfl

theorem leaves_recover (i : Input) (nodes : List Node) (cause : Mismatch) :
    (recover i nodes cause).1.leaves = Node.leavesOf nodes ++ [errorLeaf i nodes cause] := by
  simp [recover_eq, Input.enclose]

section Statement

variable {row : Int} {full : List Char}

/-- A broken statement puts its error leaf behind what was recognized and leaves it behind. -/
theorem Trace.inOrder_recover (h : Trace K q i nodes q' j) (hi : i.On row full)
    (cause : Mismatch) :
    InOrder i.col (recover i nodes cause).1.leaves (recover i nodes cause).2.col := by
  obtain ⟨text, hpasses⟩ := h.passes_recover nodes cause
  obtain ⟨hin, -, hstop⟩ := (h.laid hi).tiled.inOrder.to_lastStop
  have hend : nodesStop nodes i.col ≤ (recover i nodes cause).2.col := by
    rw [h.nodesStop_eq, hpasses.col]
    omega
  have htrim := (Text.dropTail_isPrefix Text.isBlank (statementText false i.rest)).length_le
  rw [leaves_recover]
  refine hin.append ⟨Nat.le_of_eq (h.nodesStop_eq _).symm, Nat.le_max_left _ _, ?_⟩
  exact Nat.max_le.2 ⟨hend, Nat.add_le_add_left htrim _⟩

structure Overlaps (node : Node) (j : Input) : Prop where
  last : ∃ l ∈ node.leaves.getLast?, j.col < l.span.stop.col
  colon : ∃ rest, j.rest = ':' :: rest
  broken : node.seats.any Seat.isBrokenPointer = true

/-- Every letter of a word stands in its text. -/
theorem exists_mem_of_wordTail {letters s text rest : List Char}
    (h : Lexeme.wordTail letters s = some (text, rest)) {letter : Char} (hl : letter ∈ letters)
    (hspace : letter ≠ ' ') : ∃ c ∈ text, Lexeme.sameLetter letter c = true := by
  induction letters generalizing s text rest with
  | nil => cases hl
  | cons first letters ih =>
    by_cases hfirst : first = ' '
    · subst hfirst
      have hl : letter ∈ letters := (List.mem_cons.1 hl).resolve_left hspace
      rcases Lexeme.wordTail_space_some h with ⟨rfl, -⟩ | ⟨more, read, -, hmore, rfl⟩
      · cases hl
      · obtain ⟨c, hc, hsame⟩ := ih hmore hl
        exact ⟨c, List.mem_cons_of_mem _ hc, hsame⟩
    · obtain ⟨c, more, read, -, hsame, hmore, rfl⟩ := Lexeme.wordTail_cons_some hfirst h
      cases hl with
      | head => exact ⟨c, by simp, hsame⟩
      | tail _ hl =>
        obtain ⟨d, hd, hsame⟩ := ih hmore hl
        exact ⟨d, by simp [hd], hsame⟩

/-- The text of a word that sets a pointer has a colon and no quote. -/
theorem colon_mem_pointer {t : Token} (ht : t = .himem ∨ t = .lomem) {s text rest : List Char}
    (read : Lexeme.word t.spelling.toList s = some (text, rest)) : ':' ∈ text ∧ '"' ∉ text := by
  have hletters : ∃ first letters, t.spelling.toList = first :: letters ∧ ':' ∈ letters := by
    cases ht with
    | inl ht => exact ⟨'H', "IMEM:".toList, by rw [ht]; decide, by decide⟩
    | inr ht => exact ⟨'L', "OMEM:".toList, by rw [ht]; decide, by decide⟩
  constructor
  · obtain ⟨first, letters, hspelling, hcolon⟩ := hletters
    rw [hspelling] at read
    obtain ⟨d, more, tail, -, -, htail, rfl⟩ := Lexeme.word_cons_some read
    obtain ⟨c, hc, hsame⟩ := exists_mem_of_wordTail htail hcolon (by decide)
    rw [Lexeme.sameLetter_mark (by decide), beq_iff_eq] at hsame
    exact List.mem_cons_of_mem _ (hsame ▸ hc)
  · intro hquote
    rcases mem_word read _ hquote with h | ⟨letter, hl, hsame⟩
    · cases h
    · rw [sameLetter_quote t letter hl] at hsame
      cases hsame

/-- A colon outside of quotes ends the text of a statement. -/
theorem length_statementText_lt {text : List Char} (hcolon : ':' ∈ text) (hquote : '"' ∉ text)
    (rest : List Char) : (statementText false (text ++ rest)).length < text.length := by
  induction text with
  | nil => cases hcolon
  | cons c text ih =>
    rw [List.mem_cons, not_or] at hquote
    rw [List.cons_append, statementText]
    by_cases hc : c = ':'
    · simp [hc]
    · have hmem : ':' ∈ text := by simpa [Ne.symm hc] using hcolon
      have := ih hmem hquote.2
      rw [if_neg (by simp [hc]), if_neg (by simpa using Ne.symm hquote.1)]
      simpa using this

theorem overlaps_recover {t : Token} {text rest : List Char} (ht : t = .himem ∨ t = .lomem)
    (read : Lexeme.word t.spelling.toList i.rest = some (text, rest))
    (h : Trace K q (i.after text rest) nodes q' j) (hi : i.On row full) (cause : Mismatch) :
    Overlaps (recover i (i.leaf (.token t) text :: nodes) cause).1
      (recover i (i.leaf (.token t) text :: nodes) cause).2 := by
  have hrest := Lexeme.append_of_word read
  obtain ⟨hcolon, hquote⟩ := colon_mem_pointer ht read
  have hshort := length_statementText_lt hcolon hquote rest
  rw [hrest] at hshort
  constructor
  · refine ⟨errorLeaf i (i.leaf (.token t) text :: nodes) cause, ?_, ?_⟩
    · rw [leaves_recover, List.getLast?_concat]
      rfl
    · have hstart : i.col + text.length ≤ nodesStop (i.leaf (.token t) text :: nodes) i.col := by
        rw [nodesStop_cons, h.nodesStop_eq]
        exact (h.laid (hi.after hrest)).tiled.inOrder.to_lastStop.2.1
      calc i.col + (statementText false i.rest).length
          < i.col + text.length := Nat.add_lt_add_left hshort _
        _ ≤ nodesStop (i.leaf (.token t) text :: nodes) i.col := hstart
        _ ≤ _ := Nat.le_max_left _ _
  · have hends := endsStatement_recover i (i.leaf (.token t) text :: nodes) cause
    cases hafter : (recover i (i.leaf (.token t) text :: nodes) cause).2.rest with
    | nil =>
      have hall := (passes_recover i (i.leaf (.token t) text :: nodes) cause).rest
      rw [hafter, List.append_nil] at hall
      rw [← hall, ← hrest, List.length_append] at hshort
      omega
    | cons c more =>
      rw [hafter] at hends
      have hc : c = ':' := by simpa [endsStatement] using hends
      exact ⟨more, by rw [hc]⟩
  · have hpointer : (i.leaf (.token t) text).isPointer = true := by
      cases ht with
      | inl ht => rw [ht]; rfl
      | inr ht => rw [ht]; rfl
    rw [recover_eq, Input.enclose, Node.seats, Node.children, List.cons_append, seats]
    simp [Seat.isBrokenPointer, hpointer, errorLeaf, LeafKind.isError]

theorem any_isBrokenPointer_singleton (left : List Node) (h : node.isPointer = false) :
    (seats left [node]).any Seat.isBrokenPointer = node.seats.any Seat.isBrokenPointer := by
  simp [seats, Node.seats, Seat.isBrokenPointer, h]

theorem IsStatement.isPointer (h : IsStatement i node j) : node.isPointer = false := by
  cases h <;> rfl

/-- The leaves of a statement lie in order up to the place behind it, or it is a broken
pointer. -/
theorem IsStatement.inOrder_or_overlaps (h : IsStatement i node j) (hi : i.On row full) :
    (InOrder i.col node.leaves j.col ∧ node.seats.any Seat.isBrokenPointer = false) ∨
      Overlaps node j := by
  induction h with
  | plain h =>
    refine .inl ⟨?_, any_isBrokenPointer_eq_false h.isPointer⟩
    simpa [Input.enclose] using (h.laid hi).tiled.inOrder
  | @pointer i j t text rest nodes _ read h =>
    have hword : Laid full i [i.leaf (.token t) text] (i.after text rest) := laid_word read
    have hlaid := hword.append (h.laid (hword.tiled.on hi))
    have hsound : nodes.any Node.isError = false := by
      simpa [List.any_eq_false] using h.errorsLast.2
    refine .inl ⟨by simpa [Input.enclose] using hlaid.tiled.inOrder, ?_⟩
    rw [Input.enclose, Node.seats, Node.children, seats, List.any_cons, List.any_append,
      any_isBrokenPointer_eq_false h.isPointer]
    simp [Seat.isBrokenPointer, hsound, Input.leaf, Node.children, seats]
  | @remark i text rest read =>
    have hlaid : Laid full i (i.leaf (.token .rem) text :: commentOf (i.after text rest))
        ((i.after text rest).after rest []) := (laid_word read).append (laid_commentOf _)
    refine .inl ⟨by simpa [Input.enclose] using hlaid.tiled.inOrder, ?_⟩
    apply any_isBrokenPointer_eq_false
    show ∀ l ∈ Node.leavesOf (i.leaf (.token .rem) text :: commentOf (i.after text rest)), _
    unfold commentOf
    split <;> simp [Input.leaf, Node.isPointer, Node.token?]
  | @conditional i k j nodes node h nested ih =>
    have hlaid := h.laid hi
    have hbroken : (i.enclose .statement (nodes ++ [node])).seats.any Seat.isBrokenPointer =
        node.seats.any Seat.isBrokenPointer := by
      rw [Input.enclose, Node.seats, Node.children, any_isBrokenPointer_append [] _ h.isPointer,
        any_isBrokenPointer_singleton _ nested.isPointer]
    have hleaves : (i.enclose .statement (nodes ++ [node])).leaves =
        Node.leavesOf nodes ++ node.leaves := by simp [Input.enclose]
    rw [hbroken, hleaves]
    rcases ih (hlaid.tiled.on hi) with ⟨hin, hsound⟩ | hover
    · exact .inl ⟨hlaid.tiled.inOrder.append hin, hsound⟩
    · obtain ⟨l, hl, hstop⟩ := hover.last
      refine .inr ⟨⟨l, ?_, hstop⟩, hover.colon, by rw [hbroken, hover.broken]⟩
      rw [hleaves, List.getLast?_append, hl]
      rfl
  | broken h =>
    refine .inl ⟨h.inOrder_recover hi _, ?_⟩
    rw [recover_eq, Input.enclose, Node.seats, Node.children,
      any_isBrokenPointer_append [] _ h.isPointer, any_isBrokenPointer_singleton _ rfl]
    simp [Node.seats, Node.children, seats]
  | brokenPointer ht read h => exact .inr (overlaps_recover ht read h hi _)

/-- A colon that comes next is the next leaf. -/
theorem head?_statementsUpTo {n : Nat} {rest : List Char} (hn : j.rest.length < n)
    (h : j.rest = ':' :: rest) :
    ∃ l ∈ (Node.leavesOf (statementsUpTo n j)).head?, l.span.start.col = j.col := by
  have hskip : j.skip = j := skip_of_endsStatement (by rw [h]; rfl)
  cases n with
  | zero => omega
  | succ n =>
    have hcolon : statementsUpTo (n + 1) j =
        j.leaf (.token .colon) [':'] :: statementsUpTo n (j.after [':'] rest) := by
      rw [statementsUpTo, hskip, h]
      rfl
    rw [hcolon]
    exact ⟨_, rfl, rfl⟩

/-- The statements of a line lie in order, or one of them is a broken pointer and the colon behind
it is read twice. -/
theorem inOrder_or_broken (n : Nat) (i : Input) (hn : i.rest.length < n) (hi : i.On row full)
    (left : List Node) :
    ((∃ stop, InOrder i.col (Node.leavesOf (statementsUpTo n i)) stop) ∧
      (seats left (statementsUpTo n i)).any Seat.isBrokenPointer = false) ∨
    (¬(Node.leavesOf (statementsUpTo n i)).IsChain (fun l r => l.span.stop.col ≤ r.span.start.col) ∧
      (seats left (statementsUpTo n i)).any Seat.isBrokenPointer = true) := by
  induction n, i using statementsUpTo_induction generalizing left with
  | stop => omega
  | done n i => exact .inl ⟨⟨i.col, Nat.le_refl _⟩, by simp [seats]⟩
  | colon n i rest hrest ih =>
    have hlength : rest.length < n := by
      have := length_skip_le i
      rw [hrest, List.length_cons] at this
      omega
    have hcolon : ∀ l ∈ Node.leavesOf [i.skip.leaf (.token .colon) [':']],
        (Node.leaf l).isPointer = false := by simp [Input.leaf, Node.isPointer, Node.token?]
    rw [← List.singleton_append, any_isBrokenPointer_append left _ hcolon]
    rcases ih hlength (hi.skip.after hrest.symm) _ with ⟨⟨stop, hin⟩, hsound⟩ | ⟨hchain, hbroken⟩
    · refine .inl ⟨⟨stop, ?_⟩, hsound⟩
      rw [Node.leavesOf_append]
      exact ⟨le_col_skip i, Nat.le_add_right _ _, hin⟩
    · refine .inr ⟨fun hall => hchain ?_, hbroken⟩
      rw [Node.leavesOf_append] at hall
      exact hall.right_of_append
  | statement n i node j _ hnode hbegins ih =>
    have hlength : j.rest.length < n := by
      have : j.rest.length < i.skip.rest.length := hnode.length_lt hbegins
      have := length_skip_le i
      omega
    obtain ⟨text, hpasses⟩ := hnode.passes
    have hseats : (seats left (node :: statementsUpTo n j)).any Seat.isBrokenPointer =
        (node.seats.any Seat.isBrokenPointer ||
          (seats (node :: left) (statementsUpTo n j)).any Seat.isBrokenPointer) := by
      simp [seats, Seat.isBrokenPointer, hnode.isPointer, Node.seats]
    rw [hseats, Node.leavesOf_cons]
    rcases hnode.inOrder_or_overlaps hi.skip with ⟨hfirst, hsound⟩ | hover
    · rcases ih hlength (hpasses.on hi.skip) (node :: left) with
        ⟨⟨stop, hin⟩, hmore⟩ | ⟨hchain, hbroken⟩
      · exact .inl ⟨⟨stop, (hfirst.append hin).mono_left (le_col_skip i)⟩, by simp [hsound, hmore]⟩
      · exact .inr ⟨fun hall => hchain hall.right_of_append, by simp [hbroken]⟩
    · refine .inr ⟨fun hall => ?_, by simp [hover.broken]⟩
      obtain ⟨l, hl, hstop⟩ := hover.last
      obtain ⟨rest, hrest⟩ := hover.colon
      obtain ⟨next, hnext, hstart⟩ := head?_statementsUpTo hlength hrest
      have hle : l.span.stop.col ≤ next.span.start.col :=
        (List.isChain_append.1 hall).2.2 l hl next hnext
      rw [hstart] at hle
      exact absurd hstop (Nat.not_lt.2 hle)

end Statement

/-- The leaves of a line follow one another exactly if none of its statements is a broken
pointer. -/
theorem leaves_in_order_iff (row : Int) (text : List Char) :
    (line row text).leaves.IsChain (fun l r => l.span.stop.col ≤ r.span.start.col) ↔
      ∀ seat ∈ (line row text).seats, seat.isBrokenPointer = false := by
  have hall : (∀ seat ∈ (line row text).seats, seat.isBrokenPointer = false) ↔
      (line row text).seats.any Seat.isBrokenPointer = false := by simp [List.any_eq_false]
  rw [hall]
  cases hnumber : Lexeme.lineNumber text with
  | none =>
    simp [line, hnumber, unnumbered, Node.seats, Node.children, seats, Seat.isBrokenPointer,
      Node.isPointer, Node.token?]
  | some pair =>
    obtain ⟨number, rest⟩ := pair
    have hleaf : ∀ l ∈ Node.leavesOf [Input.leaf ⟨row, 0, text⟩ .lineNumber number],
        (Node.leaf l).isPointer = false := by simp [Input.leaf, Node.isPointer, Node.token?]
    have hi : Input.On row text (Input.after ⟨row, 0, text⟩ number rest) :=
      (Input.On.first row text).after (Lexeme.append_of_lineNumber hnumber)
    have hseats := any_isBrokenPointer_append []
      (statements (Input.after ⟨row, 0, text⟩ number rest)) hleaf
    have hleaves : (line row text).leaves = Node.leavesOf (line row text).children := by
      simp [line, Node.children]
    rw [Node.seats, hleaves, children_line hnumber, hseats, Node.leavesOf_append]
    rcases inOrder_or_broken _ _ (Nat.lt_succ_self _) hi _ with
      ⟨⟨stop, hin⟩, hsound⟩ | ⟨hchain, hbroken⟩
    · rw [statements, hsound]
      have hfirst : InOrder 0 (Node.leavesOf [Input.leaf ⟨row, 0, text⟩ .lineNumber number])
          (0 + number.length) := ⟨Nat.le_refl _, Nat.le_add_right _ _, Nat.le_refl _⟩
      exact iff_of_true (hfirst.append hin).isChain rfl
    · rw [statements, hbroken]
      exact iff_of_false (fun hall => hchain hall.right_of_append) (by simp)

/-- The colon of a broken `HIMEM:` is read again as the one that ends the statement. -/
example : (line 0 "10 HIMEM:".toList).leaves.map (fun l => (l.span.start.col, l.span.stop.col)) =
    [(0, 3), (3, 9), (9, 9), (8, 9)] := by decide +kernel

end Grammar

end IntegerBasic
