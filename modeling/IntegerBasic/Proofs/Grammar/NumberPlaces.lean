import IntegerBasic.Proofs.Grammar.Agreement
import IntegerBasic.Proofs.Grammar.NumberLeaves

/-!
# What stands before a number

Every leaf of a line is a part of its text, in broken statements too. Before a number stands a gap,
a word or a mark, and no word ends in an `x`. Unless a `HIMEM:` or `LOMEM:` is broken, the numbers
of a line follow one another.
-/

namespace IntegerBasic

theorem InOrder.filter {start stop : Nat} {leaves : List Leaf} (h : InOrder start leaves stop)
    (p : Leaf → Bool) : InOrder start (leaves.filter p) stop := by
  induction leaves generalizing start with
  | nil => exact h
  | cons l leaves ih =>
    obtain ⟨hstart, hspan, hmore⟩ := h
    cases hl : p l with
    | true =>
      rw [List.filter_cons_of_pos hl]
      exact ⟨hstart, hspan, ih hmore⟩
    | false =>
      rw [List.filter_cons_of_neg (by simp [hl])]
      exact (ih hmore).mono_left (Nat.le_trans hstart hspan)

/-- Some `HIMEM:` or `LOMEM:` of the tree is broken. -/
def Node.hasBrokenPointer (node : Node) : Bool := node.seats.any Seat.isBrokenPointer

namespace Grammar

variable {i j : Input} {nodes : List Node} {node : Node} {K : LeafKind → Bool} {q q' : Bool}
  {row : Int} {full : List Char}

def PartsOf (s : List Char) (leaves : List Leaf) : Prop := ∀ l ∈ leaves, l.text <:+: s

namespace PartsOf

variable {s t : List Char} {xs ys : List Leaf}

theorem mono (h : PartsOf t xs) (hs : t <:+ s) : PartsOf s xs :=
  fun l hl => (h l hl).trans hs.isInfix

theorem append (hx : PartsOf s xs) (hy : PartsOf s ys) : PartsOf s (xs ++ ys) :=
  List.forall_mem_append.2 ⟨hx, hy⟩

theorem leaf (kind : LeafKind) {text rest : List Char} (h : text ++ rest = i.rest) :
    PartsOf i.rest (i.leaf kind text).leaves := by
  rw [Input.leaf, Node.leaves_leaf]
  exact List.forall_mem_singleton.2 ⟨[], rest, h⟩

end PartsOf

theorem suffix_of_append {s text rest : List Char} (h : text ++ rest = s) : rest <:+ s := ⟨text, h⟩

theorem skip_suffix (i : Input) : i.skip.rest <:+ i.rest := List.dropWhile_suffix _

theorem Trace.suffix (h : Trace K q i nodes q' j) : j.rest <:+ i.rest := by
  obtain ⟨text, hpasses, -⟩ := h.passes
  exact suffix_of_append hpasses.rest.symm

theorem Trace.partsOf (h : Trace K q i nodes q' j) : PartsOf i.rest (Node.leavesOf nodes) := by
  induction h with
  | done => simp [PartsOf]
  | skip _ ih => exact ih.mono (skip_suffix _)
  | leaf _ read _ _ ih =>
    rw [Node.leavesOf_cons]
    exact (PartsOf.leaf _ read.append).append (ih.mono (suffix_of_append read.append))
  | inner within _ _ ih₁ ih₂ =>
    rw [Node.leavesOf_cons, leaves_enclose]
    exact ih₁.append (ih₂.mono within.suffix)

theorem partsOf_error (i : Input) (nodes : List Node) (cause : Mismatch) :
    PartsOf i.rest [errorLeaf i nodes cause] :=
  List.forall_mem_singleton.2
    ((List.take_prefix _ _).isInfix.trans (List.drop_suffix _ _).isInfix)

/-- The leaves of a statement are parts of its text and what follows it. -/
theorem IsStatement.partsOf (h : IsStatement i node j) : PartsOf i.rest node.leaves := by
  induction h with
  | plain h =>
    rw [leaves_enclose]
    exact h.partsOf
  | pointer _ read h =>
    have happend := Lexeme.append_of_word read
    rw [leaves_enclose, Node.leavesOf_cons]
    exact (PartsOf.leaf _ happend).append (h.partsOf.mono (suffix_of_append happend))
  | @remark i text rest read =>
    have happend := Lexeme.append_of_word read
    rw [leaves_enclose, Node.leavesOf_cons]
    refine (PartsOf.leaf _ happend).append (PartsOf.mono ?_ (suffix_of_append happend))
    unfold commentOf
    split
    · simp [PartsOf]
    · rw [Node.leavesOf_cons, Node.leavesOf_nil, List.append_nil]
      exact PartsOf.leaf _ (List.append_nil _)
  | conditional h _ ih =>
    rw [leaves_enclose, Node.leavesOf_append, Node.leavesOf_cons, Node.leavesOf_nil,
      List.append_nil]
    exact h.partsOf.append (ih.mono h.suffix)
  | broken h =>
    rw [leaves_recover]
    exact h.partsOf.append (partsOf_error _ _ _)
  | brokenPointer _ read h =>
    have happend := Lexeme.append_of_word read
    rw [leaves_recover, Node.leavesOf_cons]
    exact ((PartsOf.leaf _ happend).append (h.partsOf.mono (suffix_of_append happend))).append
      (partsOf_error _ _ _)

theorem partsOf_statementsUpTo (n : Nat) (i : Input) :
    PartsOf i.rest (Node.leavesOf (statementsUpTo n i)) := by
  induction n, i using statementsUpTo_induction with
  | stop => simp [PartsOf]
  | done => simp [PartsOf]
  | colon n i rest hrest ih =>
    have happend : [':'] ++ rest = i.skip.rest := hrest.symm
    rw [Node.leavesOf_cons]
    exact ((PartsOf.leaf _ happend).append (ih.mono (suffix_of_append happend))).mono
      (skip_suffix i)
  | statement n i node j _ hnode _ ih =>
    obtain ⟨text, hpasses⟩ := hnode.passes
    rw [Node.leavesOf_cons]
    exact (hnode.partsOf.append (ih.mono (suffix_of_append hpasses.rest.symm))).mono (skip_suffix i)

/-- The leaves of a line are parts of its text, whatever the line looks like. -/
theorem partsOf_line (row : Int) (s : List Char) : PartsOf s (line row s).leaves := by
  cases hs : Lexeme.lineNumber s with
  | none =>
    simp only [line, hs, unnumbered, Node.leaves_inner, Node.leavesOf_cons, Node.leaves_leaf,
      Node.leavesOf_nil, List.append_nil]
    exact List.forall_mem_singleton.2
      ((List.drop_suffix _ _).isInfix.trans (List.take_prefix _ _).isInfix)
  | some pair =>
    obtain ⟨number, rest⟩ := pair
    have happend := Lexeme.append_of_lineNumber hs
    rw [leaves_line hs]
    exact List.forall_mem_cons.2 ⟨⟨[], rest, happend⟩,
      (partsOf_statementsUpTo _ _).mono (suffix_of_append happend)⟩

/-- The character before a column is no small `x`. -/
def ClearOfX (full : List Char) (col : Nat) : Prop := (full.take col).getLast? ≠ some 'x'

theorem take_col_after (hi : i.On row full) {text rest : List Char} (h : text ++ rest = i.rest) :
    full.take (i.after text rest).col = full.take i.col ++ text := by
  rw [Input.after, List.take_add, ← hi.rest, ← h, List.take_left]

theorem ClearOfX.after (hi : i.On row full) {text rest : List Char} (h : text ++ rest = i.rest)
    (ne : text ≠ []) (hlast : text.getLast? ≠ some 'x') : ClearOfX full (i.after text rest).col := by
  rw [ClearOfX, take_col_after hi h, List.getLast?_append_of_ne_nil _ ne]
  exact hlast

theorem ClearOfX.skip (hi : i.On row full) (h : ClearOfX full i.col) :
    ClearOfX full i.skip.col := by
  by_cases hgaps : i.rest.takeWhile Text.isGap = []
  · have hcol : i.skip.col = i.col := by rw [Input.skip, Input.after, hgaps]; rfl
    rwa [hcol]
  · refine ClearOfX.after hi List.takeWhile_append_dropWhile hgaps fun hlast => ?_
    cases of_mem_takeWhile (List.mem_of_getLast? hlast)

/-- No word ends in an `x`. -/
theorem getLast?_word {t : Token} {s text rest : List Char}
    (h : Lexeme.word t.spelling.toList s = some (text, rest)) : text.getLast? ≠ some 'x' := by
  have key : ∀ t ∈ Token.all, ' ' ∉ t.spelling.toList ∧
      t.spelling.toList.getLast?.all (!Lexeme.sameLetter · 'x') = true := by decide +kernel
  obtain ⟨hspace, hlast⟩ := key t (Token.mem_all t)
  have htail := Lexeme.wordTail_of_word h
  rcases List.eq_nil_or_concat t.spelling.toList with hnil | ⟨letters, mark, hspelling⟩
  · exact absurd hnil (spelling_ne_nil t)
  · rw [hspelling, List.concat_eq_append] at htail hspace hlast
    rw [List.mem_append, List.mem_singleton, not_or] at hspace
    obtain ⟨front, c, rfl, hsame, -⟩ := wordTail_concat hspace.1 (Ne.symm hspace.2) htail
    intro hx
    obtain rfl : c = 'x' := by simpa using hx
    simp [hsame] at hlast

/-- What is read where no operand stands is a word. -/
theorem Reads.getLast? {kind : LeafKind} {s text rest : List Char} (h : Reads kind s text rest)
    (hkind : kind.isOperand = false) : text.getLast? ≠ some 'x' := by
  cases h with
  | word _ h => exact getLast?_word h
  | operator _ _ h => exact getLast?_word h
  | negation h => exact getLast?_word (word_of_negation h)
  | integer | lineArgument | name | string => cases hkind

def NumbersClear (full : List Char) (leaves : List Leaf) : Prop :=
  ∀ l ∈ leaves, l.kind.isNumber = true → ClearOfX full l.span.start.col

namespace NumbersClear

variable {xs ys : List Leaf}

theorem append (hx : NumbersClear full xs) (hy : NumbersClear full ys) :
    NumbersClear full (xs ++ ys) := List.forall_mem_append.2 ⟨hx, hy⟩

theorem leaf (kind : LeafKind) (text : List Char)
    (h : kind.isNumber = true → ClearOfX full i.col) :
    NumbersClear full (i.leaf kind text).leaves := by
  rw [Input.leaf, Node.leaves_leaf]
  exact List.forall_mem_singleton.2 h

theorem error (i : Input) (nodes : List Node) (cause : Mismatch) :
    NumbersClear full [errorLeaf i nodes cause] :=
  List.forall_mem_singleton.2 (by simp [errorLeaf, LeafKind.isNumber])

end NumbersClear

/-- A trace from a place that is clear where an operand may stand. The numbers in it are clear, and
so is the place behind it. -/
theorem Trace.numbersClear (h : Trace K q i nodes q' j) (hi : i.On row full)
    (hclear : q = true → ClearOfX full i.col) :
    NumbersClear full (Node.leavesOf nodes) ∧ (q' = true → ClearOfX full j.col) := by
  induction h with
  | done h => exact ⟨by simp [NumbersClear], fun hq => hclear (h hq)⟩
  | skip _ ih => exact ih hi.skip fun hq => (hclear hq).skip hi
  | @leaf q q' i j kind text rest nodes _ read allowed _ ih =>
    have hafter : (!kind.isOperand) = true → ClearOfX full (i.after text rest).col := fun hkind =>
      .after hi read.append read.ne_nil (read.getLast? (by simpa using hkind))
    obtain ⟨hmore, hend⟩ := ih (hi.after read.append) hafter
    rw [Node.leavesOf_cons]
    refine ⟨(NumbersClear.leaf _ _ fun hnumber => hclear (allowed ?_)).append hmore, hend⟩
    cases kind with
    | integer | lineArgument => rfl
    | lineNumber => nomatch read
    | token | name | string | comment | error => cases hnumber
  | inner within _ _ ih₁ ih₂ =>
    obtain ⟨hinside, hmiddle⟩ := ih₁ hi hclear
    obtain ⟨hmore, hend⟩ := ih₂ ((within.laid hi).tiled.on hi) hmiddle
    rw [Node.leavesOf_cons, leaves_enclose]
    exact ⟨hinside.append hmore, hend⟩

/-- The numbers of a statement are clear if its beginning is. -/
theorem IsStatement.numbersClear (h : IsStatement i node j) (hi : i.On row full)
    (hclear : ClearOfX full i.col) : NumbersClear full node.leaves := by
  have hword : ∀ {i : Input} {t : Token} {text rest : List Char}, i.On row full →
      Lexeme.word t.spelling.toList i.rest = some (text, rest) →
        (i.after text rest).On row full ∧ ClearOfX full (i.after text rest).col := by
    intro i t text rest hi read
    have happend := Lexeme.append_of_word read
    exact ⟨hi.after happend,
      .after hi happend (ne_nil_of_word (spelling_ne_nil t) read) (getLast?_word read)⟩
  have htoken : ∀ {i : Input} {t : Token} {text : List Char},
      NumbersClear full (i.leaf (.token t) text).leaves :=
    fun {i t text} => NumbersClear.leaf _ _ (by simp [LeafKind.isNumber])
  induction h with
  | plain h =>
    rw [leaves_enclose]
    exact (h.numbersClear hi fun _ => hclear).1
  | pointer _ read h =>
    obtain ⟨hi', hclear'⟩ := hword hi read
    rw [leaves_enclose, Node.leavesOf_cons]
    exact htoken.append (h.numbersClear hi' fun _ => hclear').1
  | remark =>
    rw [leaves_enclose, Node.leavesOf_cons]
    refine htoken.append ?_
    unfold commentOf
    split
    · simp [NumbersClear]
    · rw [Node.leavesOf_cons, Node.leavesOf_nil, List.append_nil]
      exact NumbersClear.leaf _ _ (by simp [LeafKind.isNumber])
  | conditional h _ ih =>
    obtain ⟨hnodes, hmiddle⟩ := h.numbersClear hi fun _ => hclear
    rw [leaves_enclose, Node.leavesOf_append, Node.leavesOf_cons, Node.leavesOf_nil,
      List.append_nil]
    exact hnodes.append (ih ((h.laid hi).tiled.on hi) (hmiddle rfl))
  | broken h =>
    rw [leaves_recover]
    exact (h.numbersClear hi fun _ => hclear).1.append (.error _ _ _)
  | brokenPointer _ read h =>
    obtain ⟨hi', hclear'⟩ := hword hi read
    rw [leaves_recover, Node.leavesOf_cons]
    exact (htoken.append (h.numbersClear hi' fun _ => hclear').1).append (.error _ _ _)

/-- The numbers of statements are clear if the first begins at a clear place or a colon comes
first. -/
theorem numbersClear_statementsUpTo (n : Nat) (i : Input) (hi : i.On row full)
    (hclear : endsStatement i.skip.rest = true ∨ ClearOfX full i.col) :
    NumbersClear full (Node.leavesOf (statementsUpTo n i)) := by
  induction n, i using statementsUpTo_induction with
  | stop => simp [NumbersClear]
  | done => simp [NumbersClear]
  | colon n i rest hrest ih =>
    have happend : [':'] ++ rest = i.skip.rest := hrest.symm
    have hmore := ih (hi.skip.after happend)
      (.inr (.after hi.skip happend (List.cons_ne_nil _ _) (by simp)))
    rw [Node.leavesOf_cons]
    exact (NumbersClear.leaf _ _ (by simp [LeafKind.isNumber])).append hmore
  | statement n i node j _ hnode hbegins ih =>
    obtain ⟨text, hpasses⟩ := hnode.passes
    have hends : endsStatement j.skip.rest = true := by
      rw [skip_of_endsStatement hnode.ends]
      exact hnode.ends
    have hstart : ClearOfX full i.col :=
      hclear.resolve_left (by simp [hbegins])
    rw [Node.leavesOf_cons]
    exact (hnode.numbersClear hi.skip (hstart.skip hi)).append
      (ih (hpasses.on hi.skip) (.inl hends))

section Line

variable {s number rest : List Char}

/-- The numbers behind the number of a line are clear. -/
theorem numbersClear_line (hs : Lexeme.lineNumber s = some (number, rest)) :
    NumbersClear s (Node.leavesOf (statements (Input.after ⟨row, 0, s⟩ number rest))) := by
  have hi := (Input.On.first row s).after (Lexeme.append_of_lineNumber hs)
  refine numbersClear_statementsUpTo _ _ hi (.inr ?_)
  obtain ⟨gaps, text, rfl, -, htext, -, -⟩ := Lexeme.lineNumber_some hs
  obtain ⟨c, more, rfl, -⟩ := htext.head
  refine .after (.first row s) (Lexeme.append_of_lineNumber hs) (by simp) fun hx => ?_
  rw [List.getLast?_append_of_ne_nil _ (List.cons_ne_nil _ _)] at hx
  cases htext.all 'x' (List.mem_of_getLast? hx)

/-- The leaves behind the number of a line follow one another if no pointer is broken. -/
theorem inOrder_line (hs : Lexeme.lineNumber s = some (number, rest))
    (h : (line row s).hasBrokenPointer = false) : ∃ stop, InOrder number.length
      (Node.leavesOf (statements (Input.after ⟨row, 0, s⟩ number rest))) stop := by
  have hi := (Input.On.first row s).after (Lexeme.append_of_lineNumber hs)
  have hleaf : ∀ l ∈ Node.leavesOf [Input.leaf ⟨row, 0, s⟩ .lineNumber number],
      (Node.leaf l).isPointer = false := by simp [Input.leaf, Node.isPointer, Node.token?]
  have hcol : (Input.after ⟨row, 0, s⟩ number rest).col = number.length := Nat.zero_add _
  rw [Node.hasBrokenPointer, Node.seats, children_line hs,
    any_isBrokenPointer_append [] _ hleaf] at h
  rw [← hcol]
  rcases inOrder_or_broken _ _ (Nat.lt_succ_self _) hi _ with ⟨hin, -⟩ | ⟨-, hbroken⟩
  · exact hin
  · rw [statements, hbroken] at h
    cases h

end Line

end Grammar

end IntegerBasic
