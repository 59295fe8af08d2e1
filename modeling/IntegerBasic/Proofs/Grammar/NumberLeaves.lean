import IntegerBasic.Proofs.Grammar.LeafOrder
import IntegerBasic.Proofs.Grammar.Numbers

/-!
# The digits of a line

Numbers are read off the line, so every digit of a number leaf is a digit of the line. A broken
`HIMEM:` or `LOMEM:` makes the difference between once and twice: what it has recognized lies
between its own colon and the next, and the line goes on at its own colon. This stretch is read
once more, but not a third time, because the colon that it is now read behind is no longer part of
a word. So the digits of all number leaves together are at most twice those of the line.
-/

namespace IntegerBasic

/-- How many digits stand in a text. -/
def digitCount (s : List Char) : Nat := s.countP Char.isDigit

@[simp] theorem digitCount_nil : digitCount [] = 0 := rfl

@[simp] theorem digitCount_append (s t : List Char) :
    digitCount (s ++ t) = digitCount s + digitCount t := List.countP_append

theorem digitCount_le_of_sublist {s t : List Char} (h : s.Sublist t) :
    digitCount s ≤ digitCount t := h.countP_le

def numberDigits : List Leaf → Nat
  | [] => 0
  | l :: leaves => (if l.kind.isNumber then digitCount l.text else 0) + numberDigits leaves

@[simp] theorem numberDigits_append (xs ys : List Leaf) :
    numberDigits (xs ++ ys) = numberDigits xs + numberDigits ys := by
  induction xs with
  | nil => simp [numberDigits]
  | cons l xs ih => simp [numberDigits, ih, Nat.add_assoc]

theorem numberDigits_singleton {l : Leaf} (h : l.kind.isNumber = false) : numberDigits [l] = 0 := by
  simp [numberDigits, h]

structure Leaf.StandsIn (line : List Char) (start : Nat) (l : Leaf) : Prop where
  isInteger : Lexeme.IsInteger l.text
  start : start ≤ l.span.start.col
  stop : l.span.stop.col = l.span.start.col + l.text.length
  text : l.text = stretch line l.span.start.col l.span.stop.col

theorem Leaf.StandsIn.digit {full : List Char} {start : Nat} {l : Leaf} (h : l.StandsIn full start) :
    ∃ c, full[l.span.start.col]? = some c ∧ c.isDigit = true := by
  obtain ⟨c, more, hc, hdigit⟩ := h.isInteger.head
  have hhead := h.text
  rw [h.stop, stretch, Nat.add_sub_cancel_left, hc, List.length_cons] at hhead
  have hfirst := congrArg List.head? hhead
  rw [List.head?_take, if_neg (Nat.succ_ne_zero _), List.head?_drop] at hfirst
  exact ⟨c, hfirst.symm, hdigit⟩

def NumbersStand (line : List Char) (start : Nat) (leaves : List Leaf) : Prop :=
  ∀ l ∈ leaves, l.kind.isNumber = true → l.StandsIn line start

namespace NumbersStand

variable {line : List Char} {start : Nat} {xs ys : List Leaf}

theorem append (hx : NumbersStand line start xs) (hy : NumbersStand line start ys) :
    NumbersStand line start (xs ++ ys) := List.forall_mem_append.2 ⟨hx, hy⟩

theorem singleton {l : Leaf} (h : l.kind.isNumber = false) : NumbersStand line start [l] := by
  intro l' hl' hnumber
  rw [List.mem_singleton.1 hl', h] at hnumber
  cases hnumber

theorem mono {start' : Nat} (h : NumbersStand line start' xs) (hle : start ≤ start') :
    NumbersStand line start xs := fun l hl hnumber =>
  have hl := h l hl hnumber
  ⟨hl.isInteger, Nat.le_trans hle hl.start, hl.stop, hl.text⟩

end NumbersStand

namespace Grammar

variable {i j : Input} {nodes : List Node} {node : Node} {K : LeafKind → Bool} {q q' : Bool}

theorem Reads.isInteger {kind : LeafKind} {s text rest : List Char} (h : Reads kind s text rest)
    (hnumber : kind.isNumber = true) : Lexeme.IsInteger text := by
  cases h with
  | integer h => exact (Lexeme.integer_some h).2.1
  | lineArgument h => exact (Lexeme.integer_some h).2.1
  | word | operator | negation | name | string => cases hnumber

theorem Trace.isInteger (h : Trace K q i nodes q' j) :
    ∀ l ∈ Node.leavesOf nodes, l.kind.isNumber = true → Lexeme.IsInteger l.text := by
  induction h with
  | done => simp
  | skip _ ih => exact ih
  | leaf _ read _ _ ih =>
    rw [Input.leaf, Node.leavesOf_cons, Node.leaves_leaf, List.singleton_append]
    exact List.forall_mem_cons.2 ⟨read.isInteger, ih⟩
  | inner _ _ _ ih₁ ih₂ =>
    rw [Node.leavesOf_cons, leaves_enclose]
    exact List.forall_mem_append.2 ⟨ih₁, ih₂⟩

section Places

variable {row : Int} {full : List Char}

theorem Trace.numbersStand (h : Trace K q i nodes q' j) (hi : i.On row full) :
    NumbersStand full i.col (Node.leavesOf nodes) := by
  intro l hl hnumber
  obtain ⟨hspan, -, hstart, -, htext⟩ := (h.laid hi).tiled.leaf_place hi hl
  exact ⟨h.isInteger l hl hnumber, hstart, by rw [hspan], htext⟩

theorem numbersStand_word {t : Token} {text : List Char} (start : Nat) :
    NumbersStand full start (i.leaf (.token t) text).leaves := by
  rw [Input.leaf, Node.leaves_leaf]
  exact .singleton rfl

/-- The numbers of a statement stand where it begins or behind. -/
theorem IsStatement.numbersStand (h : IsStatement i node j) (hi : i.On row full) :
    NumbersStand full i.col node.leaves := by
  induction h with
  | plain h =>
    rw [leaves_enclose]
    exact h.numbersStand hi
  | pointer _ read h =>
    rw [leaves_enclose, Node.leavesOf_cons]
    have hnodes := h.numbersStand (hi.after (Lexeme.append_of_word read))
    exact (numbersStand_word _).append (hnodes.mono (Nat.le_add_right _ _))
  | remark =>
    rw [leaves_enclose, Node.leavesOf_cons]
    refine (numbersStand_word _).append ?_
    unfold commentOf
    split
    · simp [NumbersStand]
    · rw [Input.leaf, Node.leavesOf_cons, Node.leaves_leaf, Node.leavesOf_nil, List.append_nil]
      exact .singleton rfl
  | conditional h _ ih =>
    have hk := (h.laid hi).tiled
    rw [leaves_enclose, Node.leavesOf_append, Node.leavesOf_cons, Node.leavesOf_nil,
      List.append_nil]
    exact (h.numbersStand hi).append ((ih (hk.on hi)).mono hk.le_col)
  | broken h =>
    rw [leaves_recover]
    exact (h.numbersStand hi).append (.singleton rfl)
  | brokenPointer _ read h =>
    rw [leaves_recover, Node.leavesOf_cons]
    have hnodes := h.numbersStand (hi.after (Lexeme.append_of_word read))
    exact ((numbersStand_word _).append (hnodes.mono (Nat.le_add_right _ _))).append (.singleton rfl)

theorem numbersStand_statementsUpTo (n : Nat) (i : Input) (hi : i.On row full) :
    NumbersStand full i.col (Node.leavesOf (statementsUpTo n i)) := by
  induction n, i using statementsUpTo_induction with
  | stop => simp [NumbersStand]
  | done => simp [NumbersStand]
  | colon n i rest hrest ih =>
    have hmore := (ih (hi.skip.after hrest.symm)).mono
      (Nat.le_trans (le_col_skip i) (Nat.le_add_right _ _))
    exact (numbersStand_word _).append hmore
  | statement n i node j _ hnode _ ih =>
    obtain ⟨text, hpasses⟩ := hnode.passes
    have hle : i.skip.col ≤ j.col := by
      rw [hpasses.col]
      exact Nat.le_add_right _ _
    rw [Node.leavesOf_cons]
    exact ((hnode.numbersStand hi.skip).append ((ih (hpasses.on hi.skip)).mono hle)).mono
      (le_col_skip i)

end Places

/-- A trace passes over a closed text, and the digits of its numbers are digits of this text. -/
theorem Trace.numberDigits_le (h : Trace K q i nodes q' j) :
    ∃ text, Passes i text j ∧ Closed text ∧
      numberDigits (Node.leavesOf nodes) ≤ digitCount text := by
  induction h with
  | done => exact ⟨[], .refl _, closed_nil, Nat.le_refl _⟩
  | skip _ ih =>
    obtain ⟨text, hpasses, hclosed, hle⟩ := ih
    refine ⟨_, (Passes.skip _).trans hpasses, closed_append (closed_gaps _) hclosed, ?_⟩
    rw [digitCount_append]
    omega
  | @leaf _ _ i _ kind text rest _ _ read _ _ ih =>
    obtain ⟨more, hpasses, hclosed, hle⟩ := ih
    refine ⟨_, (Passes.after read.append.symm).trans hpasses, closed_append read.closed hclosed, ?_⟩
    rw [Input.leaf, Node.leavesOf_cons, Node.leaves_leaf, numberDigits_append, digitCount_append]
    refine Nat.add_le_add ?_ hle
    simp only [numberDigits]
    split <;> omega
  | inner _ _ _ ih₁ ih₂ =>
    obtain ⟨xs, hx, hclosedx, hlex⟩ := ih₁
    obtain ⟨ys, hy, hclosedy, hley⟩ := ih₂
    refine ⟨_, hx.trans hy, closed_append hclosedx hclosedy, ?_⟩
    rw [Node.leavesOf_cons, leaves_enclose, numberDigits_append, digitCount_append]
    exact Nat.add_le_add hlex hley

/-- The last character of a word is its last letter. -/
theorem wordTail_concat {letters : List Char} (hspace : ' ' ∉ letters) {mark : Char}
    (hmark : mark ≠ ' ') {s text rest : List Char}
    (h : Lexeme.wordTail (letters ++ [mark]) s = some (text, rest)) :
    ∃ front c, text = front ++ [c] ∧ Lexeme.sameLetter mark c = true ∧
      ∀ d ∈ front, d = ' ' ∨ ∃ letter ∈ letters, Lexeme.sameLetter letter d = true := by
  have ofSpace : ∀ {c}, c ∈ s.takeWhile Lexeme.isSpace → c = ' ' := by
    intro c hc
    simpa [Lexeme.isSpace] using of_mem_takeWhile hc
  induction letters generalizing s text rest with
  | nil =>
    obtain ⟨c, more, read, -, hsame, hmore, rfl⟩ := Lexeme.wordTail_cons_some hmark h
    cases hmore
    exact ⟨_, c, rfl, hsame, fun d hd => .inl (ofSpace hd)⟩
  | cons letter letters ih =>
    rw [List.mem_cons, not_or] at hspace
    obtain ⟨c, more, read, -, hsame, htail, rfl⟩ :=
      Lexeme.wordTail_cons_some (Ne.symm hspace.1) h
    obtain ⟨front, last, rfl, hlast, hfront⟩ := ih hspace.2 htail fun hc => by
      simpa [Lexeme.isSpace] using of_mem_takeWhile hc
    refine ⟨s.takeWhile Lexeme.isSpace ++ c :: front, last, by simp, hlast, ?_⟩
    refine List.forall_mem_append.2 ⟨fun d hd => .inl (ofSpace hd), ?_⟩
    refine List.forall_mem_cons.2 ⟨.inr ⟨letter, List.mem_cons_self, hsame⟩, fun d hd => ?_⟩
    rcases hfront d hd with hd | ⟨l, hl, hd⟩
    · exact .inl hd
    · exact .inr ⟨l, List.mem_cons_of_mem _ hl, hd⟩

/-- The colon of a word that sets a pointer is its last character and the only one of its kind. -/
theorem pointer_text {t : Token} (ht : t = .himem ∨ t = .lomem) {s text rest : List Char}
    (read : Lexeme.word t.spelling.toList s = some (text, rest)) :
    ∃ front, text = front ++ [':'] ∧ ∀ c ∈ front, c ≠ ':' ∧ c ≠ '"' := by
  have hletters : ∃ first letters, t.spelling.toList = first :: (letters ++ [':']) ∧
      ' ' ∉ letters ∧ ∀ letter ∈ first :: letters,
        Lexeme.sameLetter letter ':' = false ∧ Lexeme.sameLetter letter '"' = false := by
    rcases ht with rfl | rfl
    · exact ⟨'H', "IMEM".toList, by decide, by decide, by decide +kernel⟩
    · exact ⟨'L', "OMEM".toList, by decide, by decide, by decide +kernel⟩
  obtain ⟨first, letters, hspelling, hspace, hplain⟩ := hletters
  have plain : ∀ c, (c = ' ' ∨ ∃ letter ∈ first :: letters, Lexeme.sameLetter letter c = true) →
      c ≠ ':' ∧ c ≠ '"' := by
    rintro c (rfl | ⟨letter, hl, hc⟩)
    · decide
    · constructor <;> rintro rfl
      · rw [(hplain letter hl).1] at hc
        cases hc
      · rw [(hplain letter hl).2] at hc
        cases hc
  rw [hspelling] at read
  obtain ⟨d, more, tail, -, hfirst, htail, rfl⟩ := Lexeme.word_cons_some read
  obtain ⟨front, c, rfl, hc, hfront⟩ := wordTail_concat hspace (by decide) htail
  rw [Lexeme.sameLetter_mark (by decide), beq_iff_eq] at hc
  refine ⟨d :: front, by rw [hc]; rfl, List.forall_mem_cons.2 ⟨?_, fun c hc => ?_⟩⟩
  · exact plain d (.inr ⟨first, List.mem_cons_self, hfirst⟩)
  · refine plain c ((hfront c hc).imp_right ?_)
    rintro ⟨letter, hl, hsame⟩
    exact ⟨letter, List.mem_cons_of_mem _ hl, hsame⟩

/-- The text of a statement that begins with such a word ends before the colon of the word. -/
theorem statementText_pointer {front : List Char} (h : ∀ c ∈ front, c ≠ ':' ∧ c ≠ '"')
    (rest : List Char) : statementText false (front ++ [':'] ++ rest) = front := by
  rw [List.append_assoc, closed_of_forall h]
  simp [statementText]

theorem statementText_of_endsStatement {s : List Char} (h : endsStatement s = true) :
    statementText false s = [] := by
  cases s with
  | nil => rfl
  | cons c rest =>
    have hc : c = ':' := by simpa [endsStatement] using h
    simp [statementText, hc]

theorem digitCount_statementText_le (s : List Char) :
    digitCount (statementText false s) ≤ digitCount s := by
  conv_rhs => rw [← append_drop_statementText false s, digitCount_append]
  exact Nat.le_add_right _ _

theorem numberDigits_word (i : Input) (t : Token) (text : List Char) :
    numberDigits (i.leaf (.token t) text).leaves = 0 := by
  rw [Input.leaf, Node.leaves_leaf]
  exact numberDigits_singleton rfl

/-- The digits that a statement reads, with those that come next before the first colon counted in
advance: each digit of its text counts at most twice. Only a broken pointer reads beyond its text,
up to the colon behind the one that it ends at. -/
theorem IsStatement.numberDigits_le (h : IsStatement i node j) :
    ∃ text, Passes i text j ∧
      numberDigits node.leaves + digitCount (statementText false i.rest) ≤
        2 * digitCount text + digitCount (statementText false j.rest.tail) := by
  induction h with
  | @plain i j nodes h ends =>
    obtain ⟨text, hpasses, hclosed, hle⟩ := h.numberDigits_le
    have hown : statementText false i.rest = text := by
      rw [hpasses.rest, hclosed, statementText_of_endsStatement ends, List.append_nil]
    refine ⟨text, hpasses, ?_⟩
    rw [leaves_enclose, hown]
    omega
  | @pointer i j t text rest nodes ht read h =>
    obtain ⟨more, hpasses, -, hle⟩ := h.numberDigits_le
    have hrest := Lexeme.append_of_word read
    obtain ⟨front, rfl, hfront⟩ := pointer_text ht read
    have hown : statementText false i.rest = front := by rw [← hrest, statementText_pointer hfront]
    refine ⟨_, (Passes.after hrest.symm).trans hpasses, ?_⟩
    rw [leaves_enclose, Node.leavesOf_cons, numberDigits_append, numberDigits_word, hown,
      digitCount_append, digitCount_append]
    omega
  | @remark i text rest read =>
    have hrest := Lexeme.append_of_word read
    have hown := digitCount_statementText_le i.rest
    refine ⟨_, (Passes.after hrest.symm).trans (.after (List.append_nil _).symm), ?_⟩
    have hnone : numberDigits (Node.leavesOf (commentOf (i.after text rest))) = 0 := by
      unfold commentOf
      split
      · rfl
      · simp [Input.leaf, numberDigits, LeafKind.isNumber]
    rw [← hrest] at hown
    rw [leaves_enclose, Node.leavesOf_cons, numberDigits_append, numberDigits_word, hnone]
    rw [← hrest]
    show _ ≤ 2 * digitCount (text ++ rest) + _
    omega
  | @conditional i k j nodes node h _ ih =>
    obtain ⟨text, hpasses, hclosed, hle⟩ := h.numberDigits_le
    obtain ⟨more, hmore, hnested⟩ := ih
    have hown : statementText false i.rest = text ++ statementText false k.rest := by
      rw [hpasses.rest, hclosed]
    refine ⟨_, hpasses.trans hmore, ?_⟩
    rw [leaves_enclose, Node.leavesOf_append, Node.leavesOf_cons, Node.leavesOf_nil,
      List.append_nil, numberDigits_append, hown, digitCount_append, digitCount_append]
    omega
  | @broken i j nodes p cause h =>
    obtain ⟨text, hpasses, hclosed, hle⟩ := h.numberDigits_le
    have hown : statementText false i.rest = text ++ statementText false j.rest := by
      rw [hpasses.rest, hclosed]
    refine ⟨_, passes_recover i nodes cause, ?_⟩
    rw [leaves_recover, numberDigits_append, numberDigits_singleton rfl, hown, digitCount_append]
    omega
  | @brokenPointer i j t text rest nodes p cause ht read h =>
    obtain ⟨more, hpasses, hclosed, hle⟩ := h.numberDigits_le
    have hrest := Lexeme.append_of_word read
    obtain ⟨front, rfl, hfront⟩ := pointer_text ht read
    have hown : statementText false i.rest = front := by rw [← hrest, statementText_pointer hfront]
    have hnext : (recover i (i.leaf (.token t) (front ++ [':']) :: nodes) cause).2.rest =
        ':' :: rest := by
      have hall := (passes_recover i (i.leaf (.token t) (front ++ [':']) :: nodes) cause).rest
      rw [hown, ← hrest, List.append_assoc] at hall
      exact (List.append_cancel_left hall).symm
    have hagain : statementText false rest = more ++ statementText false j.rest := by
      rw [show rest = more ++ j.rest from hpasses.rest, hclosed]
    refine ⟨_, passes_recover _ _ _, ?_⟩
    rw [leaves_recover, numberDigits_append, numberDigits_singleton rfl, Node.leavesOf_cons,
      numberDigits_append, numberDigits_word, hnext, List.tail_cons, hagain, digitCount_append]
    omega

theorem digitCount_tail_le (s : List Char) : digitCount s.tail ≤ digitCount s :=
  digitCount_le_of_sublist (List.tail_sublist s)

theorem statementText_skip (i : Input) :
    statementText false i.rest =
      i.rest.takeWhile Text.isGap ++ statementText false i.skip.rest := by
  rw [← closed_gaps, ← (Passes.skip i).rest]

/-- The same of all statements from a place on. Where a colon comes next, what stands behind it is
counted in advance. -/
theorem numberDigits_statementsUpTo (n : Nat) (i : Input) :
    numberDigits (Node.leavesOf (statementsUpTo n i)) + digitCount (statementText false i.rest) ≤
        2 * digitCount i.rest ∧
      (endsStatement i.rest = true →
        numberDigits (Node.leavesOf (statementsUpTo n i)) +
          digitCount (statementText false i.rest.tail) ≤ 2 * digitCount i.rest) := by
  have none_read : ∀ i : Input, 0 + digitCount (statementText false i.rest) ≤
      2 * digitCount i.rest ∧ (endsStatement i.rest = true →
        0 + digitCount (statementText false i.rest.tail) ≤ 2 * digitCount i.rest) := by
    intro i
    have hown := digitCount_statementText_le i.rest
    have htail := digitCount_tail_le i.rest
    have hnext := digitCount_statementText_le i.rest.tail
    exact ⟨by omega, fun _ => by omega⟩
  induction n, i using statementsUpTo_induction with
  | stop i => exact none_read i
  | done n i => exact none_read i
  | colon n i rest hrest ih =>
    obtain ⟨hmore, -⟩ := ih
    have hsplit : digitCount i.rest =
        digitCount (i.rest.takeWhile Text.isGap) + digitCount (':' :: rest) := by
      rw [← hrest, ← digitCount_append, ← (Passes.skip i).rest]
    have hcolon : digitCount (':' :: rest) = digitCount rest := rfl
    have hbehind : (i.skip.after [':'] rest).rest = rest := rfl
    rw [hbehind] at hmore
    rw [Node.leavesOf_cons, numberDigits_append, numberDigits_word]
    constructor
    · rw [statementText_skip, hrest, statementText_of_endsStatement rfl, List.append_nil]
      omega
    · intro hends
      rw [skip_of_endsStatement hends] at hrest
      rw [hrest, List.tail_cons]
      omega
  | statement n i node j _ hnode hbegins ih =>
    obtain ⟨text, hpasses, hle⟩ := hnode.numberDigits_le
    have hmore := ih.2 hnode.ends
    have hsplit : digitCount i.rest = digitCount (i.rest.takeWhile Text.isGap) +
        (digitCount text + digitCount j.rest) := by
      rw [← digitCount_append, ← hpasses.rest, ← digitCount_append, ← (Passes.skip i).rest]
    rw [Node.leavesOf_cons, numberDigits_append]
    constructor
    · rw [statementText_skip, digitCount_append]
      omega
    · intro hends
      rw [skip_of_endsStatement hends, hends] at hbegins
      cases hbegins

/-- The digits of the numbers of a line are at most twice the digits of the line. -/
theorem numberDigits_line_le (row : Int) (text : List Char) :
    numberDigits (line row text).leaves ≤ 2 * digitCount text := by
  unfold line
  rw [Node.leaves_inner]
  cases hnumber : Lexeme.lineNumber text with
  | none => simp [unnumbered, numberDigits, LeafKind.isNumber]
  | some pair =>
    obtain ⟨number, rest⟩ := pair
    have hfirst : numberDigits (Input.leaf ⟨row, 0, text⟩ .lineNumber number).leaves =
        digitCount number := by simp [Input.leaf, numberDigits, LeafKind.isNumber]
    have hmore : numberDigits (Node.leavesOf (statements (Input.after ⟨row, 0, text⟩ number rest)))
          + digitCount (statementText false rest) ≤ 2 * digitCount rest :=
      (numberDigits_statementsUpTo _ _).1
    have hsplit : digitCount text = digitCount number + digitCount rest := by
      rw [← digitCount_append, Lexeme.append_of_lineNumber hnumber]
    rw [Node.leavesOf_cons, numberDigits_append, hfirst]
    omega

/-- The digit behind a broken `HIMEM:` is read twice. -/
example : numberDigits (line 0 "10 HIMEM:A=5 X".toList).leaves = 4 := by decide +kernel

end Grammar

end IntegerBasic
