import IntegerBasic.Proofs.Grammar.MovedStatements
import IntegerBasic.Proofs.Grammar.WrittenLines

/-!
# Moved lines

Three ways to move a line. In another case a line has the same tree in that case, and this holds of
broken lines too. The statements behind a gap are those that stand there without it, further to the
left. And the statements on both sides of a colon are read as if each side stood alone, if those
before it are sound and none is a remark.
-/

namespace IntegerBasic

theorem caseChange_id : CaseChange id := ⟨fun _ h => h, fun _ => rfl, fun _ _ => rfl⟩

def Node.shift (k : Nat) (node : Node) : Node := node.move id k

mutual
theorem Node.move_id_zero : (node : Node) → node.move id 0 = node
  | .leaf l => by simp [Node.move, Leaf.move, Span.right, Point.right]
  | .inner label children => by
    rw [Node.move, Node.moveAll_id_zero children]
    simp [Label.move, Span.right, Point.right]
theorem Node.moveAll_id_zero : (nodes : List Node) → Node.moveAll id 0 nodes = nodes
  | [] => by simp [Node.moveAll]
  | node :: more => by rw [Node.moveAll, Node.move_id_zero node, Node.moveAll_id_zero more]
end

namespace Grammar

variable {m : Move}

/-- Where nothing comes behind the line its statements are moved and nothing else. -/
theorem statements_move (htail : m.tail = []) (i : Input) :
    statements (i.move m) = (statements i).map (Node.move m.letters m.right) := by
  have hmove := statementsUpTo_move (c := 1) (.inl htail) (.inl htail)
    (Nat.lt_succ_self i.rest.length) (Nat.lt_succ_self (i.move m).rest.length)
    (by rw [htail]; exact Nat.one_pos)
  have hnone : statementsUpTo 1 (i.lineEnd m) = [] :=
    statementsUpTo_of_nil (by rw [Input.lineEnd, htail, rest_skip, front_nil])
  rw [statements, hmove, hnone, List.append_nil, statements]

section LetterCase

variable {f : Char → Char} (hf : CaseChange f)
include hf

theorem unnumbered_map (row : Int) (s : List Char) :
    unnumbered row (s.map f) = (unnumbered row s).move f 0 := by
  have hleft : (Text.trimLeft (s.map f)).length = (Text.trimLeft s).length := by
    rw [Text.trimLeft, CaseChange.dropWhile_map hf.isBlank, List.length_map, Text.trimLeft]
  have hright : (Text.trimRight (s.map f)).length = (Text.trimRight s).length := by
    rw [trimRight_map hf, List.length_map]
  rw [unnumbered, unnumbered, hleft, hright, List.length_map, ← List.map_take, ← List.map_drop,
    Node.move_leaf]
  rfl

/-- A line in another case has the same tree in that case. -/
theorem line_map (row : Int) (s : List Char) : line row (s.map f) = (line row s).move f 0 := by
  rw [line, line, Lexeme.blind_lineNumber hf, Node.move_inner, List.length_map]
  dsimp only
  congr 1
  cases Lexeme.lineNumber s with
  | none => rw [Option.map_none, List.map_singleton, ← unnumbered_map hf]
  | some pair =>
    obtain ⟨number, rest⟩ := pair
    let m : Move := ⟨f, 0, [], hf, by rintro _ ⟨⟩⟩
    have htext : ∀ s, m.text s = s.map f := fun s => List.append_nil _
    have hleaf := leaf_move m ⟨row, 0, s⟩ .lineNumber number
    have hafter := after_move m ⟨row, 0, s⟩ number rest
    have hplace : Input.move m ⟨row, 0, s⟩ = ⟨row, 0, s.map f⟩ := by
      rw [Input.move, htext]
      rfl
    rw [hplace] at hleaf hafter
    rw [htext] at hafter
    rw [Option.map_some, List.map_cons]
    dsimp only
    rw [hleaf, hafter, statements_move rfl]

theorem numberedRows_map (text : List Char) : numberedRows (text.map f) =
    (numberedRows text).map fun (row, s) => (row, s.map f) := by
  have hblank : ∀ s : List Char, (!Text.isBlankText (s.map f)) = !Text.isBlankText s :=
    fun s => congrArg Bool.not (hf.isBlankText_map s)
  rw [numberedRows, numberedRows, hf.lines_map, List.zipIdx_map]
  simp only [List.map_map, List.filter_map, Function.comp_def, Prod.map, id_eq, hblank]

end LetterCase

section Gaps

/-- Gaps before a place make no difference to what is read behind them. -/
theorem skip_gaps {gaps : List Char} (hgaps : ∀ c ∈ gaps, Text.isGap c = true) (row : Int)
    (col : Nat) (rest : List Char) :
    Input.skip ⟨row, col, gaps ++ rest⟩ = Input.skip ⟨row, col + gaps.length, rest⟩ := by
  have htake : (gaps ++ rest).takeWhile Text.isGap = gaps ++ rest.takeWhile Text.isGap :=
    List.takeWhile_append_of_pos hgaps
  have hdrop : (gaps ++ rest).dropWhile Text.isGap = rest.dropWhile Text.isGap :=
    List.dropWhile_append_of_pos hgaps
  simp only [Input.skip, Input.after, htake, hdrop, List.length_append, Nat.add_assoc]

/-- The statements behind gaps are those that stand there. -/
theorem statements_gaps {gaps : List Char} (hgaps : ∀ c ∈ gaps, Text.isGap c = true) (row : Int)
    (col : Nat) (rest : List Char) :
    statements ⟨row, col, gaps ++ rest⟩ = statements ⟨row, col + gaps.length, rest⟩ := by
  have hlength : rest.length < (gaps ++ rest).length + 1 := by
    rw [List.length_append]
    omega
  rw [statements, statements, ← statementsUpTo_skip, skip_gaps hgaps, statementsUpTo_skip]
  exact statementsUpTo_congr hlength (Nat.lt_succ_self _)

/-- Statements further to the right. -/
theorem statements_shift (row : Int) (col k : Nat) (rest : List Char) :
    statements ⟨row, col + k, rest⟩ = (statements ⟨row, col, rest⟩).map (Node.shift k) := by
  let m : Move := ⟨id, k, [], caseChange_id, by rintro _ ⟨⟩⟩
  have hplace : Input.move m ⟨row, col, rest⟩ = ⟨row, col + k, rest⟩ := by
    simp [Input.move, Move.text, m]
  rw [← hplace, statements_move rfl]
  rfl

end Gaps

section Colon

theorem not_mem_leaf {i : Input} {kind : LeafKind} {text : List Char} {nodes : List Node}
    (h : Clean (i.leaf kind text :: nodes)) : kind.isError = false ∧ kind ≠ .token .rem :=
  h _ (by rw [Node.leavesOf_cons]; exact List.mem_cons_self)

/-- A sound statement that is no remark leaves no quote open. -/
theorem IsStatement.paired {i j : Input} {node : Node} (h : IsStatement i node j)
    (clean : Clean [node]) : ∃ text, Passes i text j ∧ Paired text := by
  have henclose : ∀ {i : Input} {nodes : List Node}, Clean [i.enclose .statement nodes] →
      Clean nodes := fun clean l hl =>
    clean l (by rw [Node.leavesOf_cons, leaves_enclose]; exact List.mem_append_left _ hl)
  induction h with
  | plain h =>
    obtain ⟨text, hpasses, hclosed⟩ := h.passes
    exact ⟨text, hpasses, paired_of_closed hclosed⟩
  | pointer _ read h =>
    obtain ⟨more, hpasses, hclosed⟩ := h.passes
    refine ⟨_, (Passes.after (Lexeme.append_of_word read).symm).trans hpasses, ?_⟩
    exact (paired_of_not_mem (Lexeme.not_mem_word read)).append (paired_of_closed hclosed)
  | remark => exact absurd rfl (not_mem_leaf (henclose clean)).2
  | conditional h _ ih =>
    obtain ⟨text, hpasses, hclosed⟩ := h.passes
    obtain ⟨more, hmore, hpaired⟩ := ih (henclose clean).right
    exact ⟨_, hpasses.trans hmore, (paired_of_closed hclosed).append hpaired⟩
  | broken =>
    have herror := hasError_of_clean clean
    rw [hasError_recover] at herror
    cases herror
  | brokenPointer =>
    have herror := hasError_of_clean clean
    rw [hasError_recover] at herror
    cases herror

/-- Sound statements leave no quote open on their line. -/
theorem paired_of_statementsUpTo {n : Nat} {i : Input} (hn : i.rest.length < n)
    (clean : Clean (statementsUpTo n i)) : Paired i.rest := by
  have hgaps : ∀ i : Input, Paired i.skip.rest → Paired i.rest := fun i h => by
    rw [(Passes.skip i).rest]
    exact (paired_of_closed (closed_gaps _)).append h
  induction n, i using statementsUpTo_induction with
  | stop => omega
  | done n i hnil => exact hgaps i ((congrArg Paired hnil).mpr rfl)
  | colon n i rest hrest ih =>
    have hle := length_skip_le i
    rw [hrest, List.length_cons] at hle
    have hmore : Paired rest := ih (show rest.length < n by omega) (clean_cons.1 clean).2
    refine hgaps i ?_
    rw [hrest]
    exact (show Paired [':'] from rfl).append hmore
  | statement n i node j _ hnode hbegins ih =>
    have hshort : j.rest.length < i.skip.rest.length := hnode.length_lt hbegins
    have hle := length_skip_le i
    obtain ⟨text, hpasses, htext⟩ := hnode.paired (clean_cons.1 clean).1
    refine hgaps i ?_
    rw [hpasses.rest]
    exact htext.append (ih (by omega) (clean_cons.1 clean).2)

/-- A colon and more text behind sound statements without a remark add the colon and the statements
behind it, and change nothing before it. -/
theorem statements_append {i : Input} (clean : Clean (statements i)) (t : List Char) :
    statements ⟨i.row, i.col, i.rest ++ ':' :: t⟩ = statements i ++
      Input.leaf ⟨i.row, i.col + i.rest.length, ':' :: t⟩ (.token .colon) [':'] ::
        statements ⟨i.row, i.col + i.rest.length + 1, t⟩ := by
  let m : Move := ⟨id, 0, ':' :: t, caseChange_id, by rintro _ ⟨⟩; rfl⟩
  have hplace : i.move m = ⟨i.row, i.col, i.rest ++ ':' :: t⟩ := by
    simp [Input.move, Move.text, m]
  have hsame : Node.move m.letters m.right = id := funext Node.move_id_zero
  have hmove := statementsUpTo_move (m := m) (i := i)
    (.inr (paired_of_statementsUpTo (Nat.lt_succ_self _) clean)) (.inr clean)
    (Nat.lt_succ_self i.rest.length) (Nat.lt_succ_self (i.move m).rest.length)
    (Nat.lt_succ_self m.tail.length)
  rw [hsame, List.map_id, hplace] at hmove
  rw [statements, hmove]
  exact congrArg (statements i ++ ·) (statementsUpTo_of_colon rfl)

theorem IsStatement.kindShown {i j : Input} {node : Node} (h : IsStatement i node j) :
    node.kindShown = "statement" := by
  cases h <;> rfl

/-- No statement and no colon is shown as the number of the line. -/
theorem kindShown_statementsUpTo (n : Nat) (i : Input) :
    ∀ node ∈ statementsUpTo n i, node.kindShown ≠ "linenum" := by
  induction n, i using statementsUpTo_induction with
  | stop => simp
  | done => simp
  | colon n i rest _ ih =>
    exact List.forall_mem_cons.2 ⟨(by decide : (LeafKind.token .colon).shown ≠ "linenum"), ih⟩
  | statement n i node j _ hnode _ ih =>
    exact List.forall_mem_cons.2 ⟨by rw [hnode.kindShown]; decide, ih⟩

/-- Digits at the beginning of a line are its number, with the digits and spaces behind them. -/
theorem lineNumber_digits {number : List Char} (hne : number ≠ [])
    (hdigits : ∀ c ∈ number, c.isDigit = true) (rest : List Char) :
    Lexeme.lineNumber (number ++ rest) = some (number ++ rest.takeWhile Lexeme.isDigitOrSpace,
        rest.dropWhile Lexeme.isDigitOrSpace) := by
  obtain ⟨c, more, rfl⟩ := List.exists_cons_of_ne_nil hne
  have hnumber : Lexeme.IsInteger (c :: more ++ rest.takeWhile Lexeme.isDigitOrSpace) := by
    refine ⟨⟨c, _, rfl, hdigits c List.mem_cons_self⟩, fun d hd => ?_⟩
    rcases List.mem_append.1 hd with hd | hd
    · rw [Lexeme.isDigitOrSpace, hdigits d hd, Bool.true_or]
    · exact List.all_eq_true.1 List.all_takeWhile d hd
  have hrest : Lexeme.EndsNumber (rest.dropWhile Lexeme.isDigitOrSpace) := by
    intro d hd
    have hhead := List.head?_dropWhile_not Lexeme.isDigitOrSpace rest
    rwa [hd] at hhead
  have happend := Lexeme.lineNumber_append (List.forall_mem_nil _) hnumber hrest
  rwa [List.append_assoc, List.takeWhile_append_dropWhile] at happend

/-- Where no digit comes behind the gaps, only gaps are taken into a number. -/
theorem isGap_of_mem_takeWhile {t : List Char}
    (h : ∀ c ∈ (t.dropWhile Text.isGap).head?, c.isDigit = false) :
    ∀ c ∈ t.takeWhile Lexeme.isDigitOrSpace, Text.isGap c = true := by
  induction t with
  | nil => simp
  | cons d t ih =>
    intro c hc
    by_cases hd : Lexeme.isDigitOrSpace d = true
    · rw [List.takeWhile_cons_of_pos hd] at hc
      cases hgap : Text.isGap d with
      | true =>
        rw [List.dropWhile_cons_of_pos hgap] at h
        rcases List.mem_cons.1 hc with rfl | hc
        · exact hgap
        · exact ih h c hc
      | false =>
        rw [List.dropWhile_cons_of_neg (by simp [hgap])] at h
        have hspace : Lexeme.isSpace d = false := Lexeme.isSpace_of_not_isGap hgap
        rw [Lexeme.isDigitOrSpace, h d rfl, ← Lexeme.isSpace, hspace] at hd
        cases hd
    · rw [List.takeWhile_cons_of_neg hd] at hc
      cases hc

/-- The statements of a line, without its number. -/
theorem filter_children_line {text number rest : List Char}
    (h : Lexeme.lineNumber text = some (number, rest)) (row : Int) :
    (line row text).children.filter (·.kindShown != "linenum") =
      statements ⟨row, number.length, rest⟩ := by
  rw [children_line h, List.filter_append]
  have hnumber : [Input.leaf ⟨row, 0, text⟩ .lineNumber number].filter
      (·.kindShown != "linenum") = [] := rfl
  rw [hnumber, List.nil_append, List.filter_eq_self.2 fun node hnode => by
    simpa using kindShown_statementsUpTo _ _ node hnode]
  simp [Input.after]

/-- Where no digit comes behind the gaps, the statements of a line are those behind its digits. -/
theorem statements_numbered (row : Int) {number t : List Char} (hne : number ≠ [])
    (hdigits : ∀ c ∈ number, c.isDigit = true)
    (noDigit : ∀ c ∈ (t.dropWhile Text.isGap).head?, c.isDigit = false) :
    (line row (number ++ ' ' :: t)).children.filter (·.kindShown != "linenum") =
      statements ⟨row, number.length + 1, t⟩ := by
  have hgaps := isGap_of_mem_takeWhile (t := ' ' :: t) noDigit
  have hsplit := List.takeWhile_append_dropWhile (p := Lexeme.isDigitOrSpace) (l := ' ' :: t)
  have hspace : statements ⟨row, number.length, ' ' :: t⟩ =
      statements ⟨row, number.length + 1, t⟩ :=
    @statements_gaps [' '] (by decide) row number.length t
  rw [filter_children_line (lineNumber_digits hne hdigits _), List.length_append,
    ← statements_gaps hgaps, hsplit]
  exact hspace

/-- The statements behind a colon are read as those of a line of their own, further to the right,
and those before it as if nothing came behind them. -/
theorem line_append (row : Int) {number s t : List Char} (hne : number ≠ [])
    (hdigits : ∀ c ∈ number, c.isDigit = true)
    (sound : (line row (number ++ ' ' :: s)).hasError = false)
    (noRemark : ∀ l ∈ (line row (number ++ ' ' :: s)).leaves, l.kind ≠ .token .rem)
    (noDigit : ∀ c ∈ (t.dropWhile Text.isGap).head?, c.isDigit = false) :
    (line row (number ++ ' ' :: s ++ ':' :: t)).children =
      (line row (number ++ ' ' :: s)).children ++
        .leaf ⟨.token .colon, [':'], ⟨⟨row, number.length + 1 + s.length⟩,
          ⟨row, number.length + 1 + s.length + 1⟩⟩⟩ ::
        ((line row (number ++ ' ' :: t)).children.filter (·.kindShown != "linenum")).map
          (Node.shift (s.length + 1)) := by
  have hs := lineNumber_digits hne hdigits (' ' :: s)
  have hst := lineNumber_digits hne hdigits (' ' :: s ++ ':' :: t)
  obtain ⟨htake, hdrop⟩ := Lexeme.span_colon (p := Lexeme.isDigitOrSpace) rfl (' ' :: s) t
  rw [htake, hdrop, ← List.append_assoc] at hst
  have hlength := congrArg List.length (Lexeme.append_of_lineNumber hs)
  generalize number ++ (' ' :: s).takeWhile Lexeme.isDigitOrSpace = numeral at hs hst hlength
  generalize (' ' :: s).dropWhile Lexeme.isDigitOrSpace = rest at hs hst hlength
  have clean : Clean (statements (Input.after ⟨row, 0, number ++ ' ' :: s⟩ numeral rest)) := by
    intro l hl
    have hmem : l ∈ (line row (number ++ ' ' :: s)).leaves := by
      rw [leaves_line hs]
      exact List.mem_cons_of_mem _ hl
    exact ⟨by simpa using List.any_eq_false.1 sound l hmem, noRemark l hmem⟩
  have hend : numeral.length + rest.length = number.length + 1 + s.length := by
    simp only [List.length_append, List.length_cons] at hlength
    omega
  have hshift := statements_shift row (number.length + 1) (s.length + 1) t
  have happend := statements_append clean t
  simp only [Input.after, Nat.zero_add, hend] at happend
  rw [children_line hst, children_line hs, statements_numbered row hne hdigits noDigit, ← hshift]
  simp only [Input.after, Nat.zero_add, happend, List.append_assoc]
  rfl

/-- A quoted colon before the one that counts, and a broken statement behind it. -/
theorem line_append_quoted_colon :
    (line 0 "10 IF A THEN PRINT \"A:B\"".toList).hasError = false ∧
      (line 0 "10 IF A THEN PRINT \"A:B\": HIMEM 5:B".toList).children =
        (line 0 "10 IF A THEN PRINT \"A:B\"".toList).children ++
          .leaf ⟨.token .colon, [':'], ⟨⟨0, 24⟩, ⟨0, 25⟩⟩⟩ ::
          ((line 0 "10  HIMEM 5:B".toList).children.filter (·.kindShown != "linenum")).map
            (Node.shift 22) := by
  have sound : (line 0 "10 IF A THEN PRINT \"A:B\"".toList).hasError = false := by decide +kernel
  have hhead : (" HIMEM 5:B".toList.dropWhile Text.isGap).head? = some 'H' := by decide +kernel
  exact ⟨sound, @line_append 0 "10".toList "IF A THEN PRINT \"A:B\"".toList " HIMEM 5:B".toList
    (by decide) (by decide) sound (by decide +kernel) fun c hc => by
      rw [hhead] at hc
      cases hc
      rfl⟩

end Colon

end Grammar

end IntegerBasic
