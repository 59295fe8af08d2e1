import IntegerBasic.Proofs.Grammar.MovedLines
import IntegerBasic.Proofs.Record.PaddedLines

/-!
# Gaps before the number of a line

Spaces and tabs before the number of a line move the whole line to the right and leave its numbers
as they are, so the line is stored as it would be without them, or refused for the same reason. One
case is different. Padding counts a tab among the characters of the number. A single tab and a
single digit are too short, zeros come before the tab, and behind it the digit is no longer part of
the number: the line is stored with the number 0, and the digit is stored as text.
-/

namespace IntegerBasic

namespace Grammar

open Lexeme

theorem leavesOf_statements_shift (row : Int) (col k : Nat) (rest : List Char) :
    Node.leavesOf (statements ⟨row, col + k, rest⟩) =
      (Node.leavesOf (statements ⟨row, col, rest⟩)).map (Leaf.move id k) := by
  rw [statements_shift, ← Node.leavesOf_moveAll, Node.moveAll_eq]
  rfl

variable {i : Input} {c : Char} {u : List Char}

theorem word_of_isDigit (hc : c.isDigit = true) (t : Token) :
    word t.spelling.toList (c :: u) = none := by
  cases hword : word t.spelling.toList (c :: u) with
  | none => rfl
  | some pair =>
    obtain ⟨d, text, hcons⟩ := List.exists_cons_of_ne_nil (ne_nil_of_word (spelling_ne_nil t) hword)
    have happend := append_of_word hword
    rw [hcons, List.cons_append] at happend
    have hdigit := isDigit_of_word hword d (by rw [hcons]; exact List.mem_cons_self)
    rw [(List.cons.inj happend).1, hc] at hdigit
    cases hdigit

theorem name_of_isDigit (hc : c.isDigit = true) : name (c :: u) = none := by
  refine if_neg fun halpha => ?_
  rw [(not_isDigit_of_isAlpha halpha).1] at hc
  cases hc

theorem bind_of_error {α β : Type} {r : Rule α} {f : α → Rule β} {nodes : List Node} {e : Mismatch}
    (h : r i = ⟨nodes, .error e⟩) : (r >>= f) i = ⟨nodes, .error e⟩ := by
  show Rule.bind r f i = _
  rw [Rule.bind, h]

theorem enclose_of_error {α : Type} {kind : α → InnerKind} {r : Rule α} {nodes : List Node}
    {e : Mismatch} (h : r i = ⟨nodes, .error e⟩) : Rule.enclose kind r i = ⟨[], .error e⟩ := by
  rw [Rule.enclose, h]

/-- Where no name comes next there is no assignment without its word. -/
theorem assignmentRule_of_name_none (hname : name i.skip.rest = none) :
    assignmentRule none i = ⟨[], .error .name⟩ := by
  have htarget : target expression i = ⟨[], .error .name⟩ := by
    have hsubscripted : Rule.ahead isSubscripted i = ⟨[], .ok (false, i.skip)⟩ := by
      rw [Rule.ahead, isSubscripted, hname]
      rfl
    rw [target, bind_of_silent hsubscripted]
    show variableName i.skip = _
    rw [variableName, skip_skip, hname]
  exact enclose_of_error (bind_of_error htarget)

/-- A statement that begins with a digit is broken from the beginning. -/
theorem statement_of_isDigit (hc : c.isDigit = true) (hrest : i.skip.rest = c :: u) :
    statement i.skip = recover i.skip [] .name := by
  have hform : Form.ofText? (c :: u) = none :=
    List.find?_eq_none.2 fun form _ => by rw [word_of_isDigit hc]; simp
  have hname : whole (assignmentRule none) i.skip = ⟨[], .error .name⟩ :=
    bind_of_error (assignmentRule_of_name_none (by rw [skip_skip, hrest, name_of_isDigit hc]))
  rw [statement, statementUpTo, statementWith, skip_skip, hrest, hform, Option.map_none, hname,
    settle]

/-- The error leaf of such a statement begins with the digit. -/
theorem leavesOf_of_isDigit {row : Int} {col : Nat} {rest : List Char} (hc : c.isDigit = true)
    (hrest : front rest = c :: u) :
    ∃ l L more, Node.leavesOf (statements ⟨row, col, rest⟩) = l :: L ∧
      l.kind = .error .name ∧ l.text = c :: more := by
  have hskip : (Input.skip ⟨row, col, rest⟩).rest = c :: u := hrest
  have hcolon : ∀ more, (Input.skip ⟨row, col, rest⟩).rest ≠ ':' :: more := by
    rintro more hmore
    rw [hskip] at hmore
    rw [(List.cons.inj hmore).1] at hc
    cases hc
  rw [statements, statementsUpTo_of_statement (by rw [hskip]; simp) hcolon,
    statement_of_isDigit hc hskip, Node.leavesOf_cons, leaves_recover]
  have hmem : c ∈ statementText false (c :: u) := by
    rw [statementText, if_neg]
    · exact List.mem_cons_self
    · simp only [Bool.not_false, Bool.and_true, beq_iff_eq]
      rintro rfl
      cases hc
  have hne : Text.trimRight (statementText false (c :: u)) ≠ [] := by
    rw [Text.trimRight, Text.dropTail, ne_eq, List.reverse_eq_nil_iff, List.dropWhile_eq_nil_iff]
    intro hblank
    have := hblank c (List.mem_reverse.2 hmem)
    rw [Text.isBlank_of_isDigit hc] at this
    cases this
  obtain ⟨k, hk⟩ := Nat.exists_eq_succ_of_ne_zero (List.length_pos_iff.2 hne).ne'
  have htext : (errorLeaf (Input.skip ⟨row, col, rest⟩) [] .name).text = c :: u.take k := by
    simp [errorLeaf, nodesStop, hskip, hk, Input.slice]
  exact ⟨_, _, _, rfl, rfl, htext⟩

end Grammar

namespace Record

open Grammar Lexeme

/-- Zeros come between a single tab before a line and its number, if this has a single digit. -/
def PartsDigit (gaps s : List Char) : Prop :=
  gaps.count '\t' = 1 ∧ digitCount (s.takeWhile isDigitOrSpace) = 1

instance (gaps s : List Char) : Decidable (PartsDigit gaps s) := inferInstanceAs (Decidable (_ ∧ _))

/-- A leaf further to the right is stored in the same bytes. -/
theorem storeLeaf_shift (k : Nat) (l : Leaf) : storeLeaf (l.move id k) = storeLeaf l := by
  simp [storeLeaf, Leaf.move]

theorem storeLeaves_shift (k : Nat) (leaves : List Leaf) :
    storeLeaves (leaves.map (Leaf.move id k)) = storeLeaves leaves := by
  rw [storeLeaves, storeLeaves, List.mapM_map]
  simp only [Function.comp_def, storeLeaf_shift]

section Gaps

variable {gaps s number rest : List Char}

theorem splice_append (front s new : List Char) (start stop : Nat) :
    splice (front ++ s) (start + front.length) (stop + front.length) new =
      front ++ splice s start stop new := by
  rw [splice, splice, Nat.add_comm start, Nat.add_comm stop, List.take_length_add_append,
    List.drop_length_add_append, List.append_assoc, List.append_assoc, List.append_assoc]

theorem padEach_append (front : List Char) (leaves : List Leaf) (s : List Char) :
    padEach (leaves.map (Leaf.move id front.length)) (front ++ s) =
      front ++ padEach leaves s := by
  induction leaves with
  | nil => rfl
  | cons l leaves ih =>
    have hmore : padEach ((l :: leaves).map (Leaf.move id front.length)) (front ++ s) =
        splice (front ++ padEach leaves s) (l.span.start.col + front.length)
          (l.span.stop.col + front.length) (padNumber (l.text.map id)) := by
      rw [← ih]
      rfl
    rw [hmore, splice_append, List.map_id]
    rfl

/-- Behind its number a line is padded in the same way with gaps before it. -/
theorem paddedRest_gaps :
    paddedRest (gaps ++ s) (gaps ++ number) rest = paddedRest s number rest := by
  have hlater : laterNumbers 0 (gaps ++ s) (gaps ++ number) rest =
      (laterNumbers 0 s number rest).map (Leaf.move id gaps.length) := by
    have hplace : Input.after ⟨0, 0, gaps ++ s⟩ (gaps ++ number) rest =
        ⟨0, 0 + number.length + gaps.length, rest⟩ := by
      simp [Input.after, Nat.add_comm]
    rw [laterNumbers, hplace, leavesOf_statements_shift, List.filter_map, laterNumbers]
    rfl
  rw [paddedRest, hlater, padEach_append, List.length_append, List.drop_length_add_append,
    paddedRest]

end Gaps

section Number

variable {s s' gaps number number' rest : List Char}

theorem storeLeaves_statements (row : Int) (col : Nat) (rest : List Char) :
    storeLeaves (Node.leavesOf (statements ⟨row, col, rest⟩)) =
      storeLeaves (Node.leavesOf (statements ⟨row, 0, rest⟩)) := by
  rw [← Nat.zero_add col, leavesOf_statements_shift, storeLeaves_shift]

theorem storeLeaves_cons_eq (l : Leaf) (leaves : List Leaf) :
    storeLeaves (l :: leaves) =
      (do
        let first ← storeLeaf l
        let more ← storeLeaves leaves
        return first ++ more) := by
  rw [storeLeaves, List.mapM_cons, storeLeaves]
  cases storeLeaf l with
  | error e => rfl
  | ok first => cases leaves.mapM storeLeaf <;> rfl

/-- Lines of the same number that go on with the same text behind it are stored alike. -/
theorem body_congr (hs : lineNumber (padNumbers s) = some (number, rest))
    (hs' : lineNumber (padNumbers s') = some (number', rest))
    (hread : Numeral.readToken number' = Numeral.readToken number) : body s' = body s := by
  have hfirst : storeLeaf (Input.leafOf ⟨0, 0, padNumbers s'⟩ .lineNumber number') =
      storeLeaf (Input.leafOf ⟨0, 0, padNumbers s⟩ .lineNumber number) := by
    simp only [storeLeaf, Input.leafOf, hread]
  rw [body, body, leaves_line hs, leaves_line hs', storeLeaves_cons_eq, storeLeaves_cons_eq, hfirst,
    Input.after, Input.after, storeLeaves_statements, storeLeaves_statements _ (_ + number.length)]

theorem withoutSpaces_of_gaps (hgaps : ∀ c ∈ gaps, Text.isGap c = true) :
    Text.withoutSpaces gaps = List.replicate (gaps.count '\t') '\t' := by
  rw [← List.filter_beq]
  refine List.filter_congr fun c hc => ?_
  have hgap := hgaps c hc
  simp only [Text.isGap, Bool.or_eq_true, beq_iff_eq] at hgap
  rcases hgap with rfl | rfl <;> decide

/-- Padding keeps the number of a line behind gaps unless it parts a digit from a tab. -/
theorem keepsNumber_iff (hgaps : ∀ c ∈ gaps, Text.isGap c = true) (hnumber : IsInteger number) :
    KeepsNumber (gaps ++ number) ↔ ¬(gaps.count '\t' = 1 ∧ digitCount number = 1) := by
  have hdigit := one_le_digitCount hnumber
  have hlength : (Text.withoutSpaces (gaps ++ number)).length =
      gaps.count '\t' + digitCount number := by
    rw [(padNumber_parts hgaps hnumber).1, withoutSpaces_of_gaps hgaps, List.length_append,
      List.length_replicate, digitCount, List.countP_eq_length_filter]
  have hmem : '\t' ∈ gaps ++ number ↔ 0 < gaps.count '\t' := by
    rw [List.count_pos_iff, List.mem_append, or_iff_left]
    intro htab
    cases hnumber.all _ htab
  rw [KeepsNumber, hmem, hlength]
  omega

theorem readToken_gaps (hgaps : ∀ c ∈ gaps, Text.isGap c = true) (number : List Char) :
    Numeral.readToken (gaps ++ number) = Numeral.readToken number := by
  have hfilter : (gaps ++ number).filter Char.isDigit = number.filter Char.isDigit := by
    rw [List.filter_append, filter_isDigit_of_gaps hgaps, List.nil_append]
  rw [Numeral.readToken, hfilter, Numeral.digitsValue, hfilter]
  rfl

theorem endsNumber_paddedRest_append (hnumber : IsInteger number) (hends : EndsNumber rest) :
    EndsNumber (paddedRest (number ++ rest) number rest) := by
  have hline := lineNumber_append (List.forall_mem_nil _) hnumber hends
  rw [List.nil_append, List.nil_append] at hline
  exact endsNumber_paddedRest hline

/-- A number that padding keeps behind gaps is the number of the padded line. -/
theorem lineNumber_padNumbers (hgaps : ∀ c ∈ gaps, Text.isGap c = true) (hnumber : IsInteger number)
    (hends : EndsNumber rest) (hkeeps : KeepsNumber (gaps ++ number)) :
    ∃ number', lineNumber (padNumbers (gaps ++ (number ++ rest))) =
        some (number', paddedRest (number ++ rest) number rest) ∧
      Numeral.readToken number' = Numeral.readToken number := by
  obtain ⟨gaps', text, hpadded, hgaps', htext, hread⟩ := exists_padNumber hgaps hnumber hkeeps
  have hpad := padNumbers_split (lineNumber_append hgaps hnumber hends)
  rw [paddedRest_gaps, hpadded, List.append_assoc] at hpad
  rw [hpad, lineNumber_append hgaps' htext (endsNumber_paddedRest_append hnumber hends)]
  exact ⟨_, rfl, by rw [← hpadded, hread, readToken_gaps hgaps]⟩

/-- Gaps before a line do not matter if padding keeps its number. -/
theorem body_gaps (hgaps : ∀ c ∈ gaps, Text.isGap c = true) (hnumber : IsInteger number)
    (hends : EndsNumber rest) (hkeeps : KeepsNumber (gaps ++ number)) :
    body (gaps ++ (number ++ rest)) = body (number ++ rest) := by
  have hnone : KeepsNumber ([] ++ number) := fun htab => by cases hnumber.all _ htab
  obtain ⟨text, hs, hread⟩ := lineNumber_padNumbers (List.forall_mem_nil _) hnumber hends hnone
  obtain ⟨text', hs', hread'⟩ := lineNumber_padNumbers hgaps hnumber hends hkeeps
  exact body_congr hs hs' (hread'.trans hread.symm)

/-- Text that begins with a digit is stored with this digit in front. -/
theorem exists_storeRaw {c : Char} (hc : c.isDigit = true) (text : List Char) :
    ∃ bytes, storeRaw (c :: text) = UInt8.ofNat c.toNat :: bytes := by
  have hupper : Text.upperChar c = [c] := by
    have hlt : c.toNat < 128 := Nat.lt_of_le_of_lt (Text.toNat_of_isDigit hc).2 (by decide)
    have key : c.isDigit = true → c.toUpper = c :=
      Text.ascii_induction (P := fun c => c.isDigit = true → c.toUpper = c) (by decide) hlt
    rw [Text.upperChar_of_ascii hlt, key hc]
  refine ⟨storeRaw text, ?_⟩
  rw [storeRaw, List.filter_cons_of_pos (by simp [Text.isBlank_of_isDigit hc]), Text.upper_cons,
    hupper]
  rfl

/-- The padded line of a digit that is parted from its tab has the number 0, and the tab and the
digit stand behind it. -/
theorem lineNumber_of_parted (hgaps : ∀ c ∈ gaps, Text.isGap c = true) (hnumber : IsInteger number)
    (hends : EndsNumber rest) (htab : gaps.count '\t' = 1) (hdigit : digitCount number = 1) :
    ∃ c ∈ number.head?, c.isDigit = true ∧ ∃ more,
      lineNumber (padNumbers (gaps ++ (number ++ rest))) =
        some (gaps ++ ['0'], '\t' :: c :: more) := by
  obtain ⟨c, text, rfl, hc⟩ := hnumber.head
  have hfilter : (c :: text).filter Char.isDigit = [c] := by
    rw [digitCount, List.countP_eq_length_filter, List.filter_cons_of_pos hc, List.length_cons,
      Nat.add_eq_right, List.length_eq_zero_iff] at hdigit
    rw [List.filter_cons_of_pos hc, hdigit]
  obtain ⟨hdigits, k, hk⟩ := padNumber_parts hgaps hnumber
  rw [hdigits, withoutSpaces_of_gaps hgaps, htab, hfilter] at hk
  have hpad := padNumbers_split (lineNumber_append hgaps hnumber hends)
  rw [paddedRest_gaps, hk] at hpad
  refine ⟨c, rfl, hc, List.replicate k ' ' ++ paddedRest (c :: text ++ rest) (c :: text) rest, ?_⟩
  have hzero : IsInteger ['0'] := ⟨⟨'0', [], rfl, rfl⟩, by decide⟩
  rw [hpad, ← lineNumber_append hgaps hzero fun d hd => by cases hd; rfl]
  simp [List.leftpad]

/-- A digit that is parted from its tab is stored as text behind the number 0. -/
theorem body_of_parted (hgaps : ∀ c ∈ gaps, Text.isGap c = true) (hnumber : IsInteger number)
    (hends : EndsNumber rest) (htab : gaps.count '\t' = 1) (hdigit : digitCount number = 1)
    {bytes : List UInt8} (hbody : body (gaps ++ (number ++ rest)) = .ok bytes) :
    ∃ c ∈ number.head?, ∃ more, bytes = 0 :: 0 :: UInt8.ofNat c.toNat :: more := by
  obtain ⟨c, hhead, hc, text, hline⟩ := lineNumber_of_parted hgaps hnumber hends htab hdigit
  have hfront : front ('\t' :: c :: text) = c :: text := by
    rw [front, List.dropWhile_cons_of_pos rfl,
      List.dropWhile_cons_of_neg (by simp [isGap_of_isDigit hc])]
  obtain ⟨l, L, read, hleaves, hkind, htext⟩ := leavesOf_of_isDigit hc hfront
  rw [body, leaves_line hline, Input.after, hleaves] at hbody
  obtain ⟨first, more, hfirst, hmore, rfl⟩ := storeLeaves_cons hbody
  obtain ⟨raw, later, hraw, -, rfl⟩ := storeLeaves_cons hmore
  obtain ⟨-, rfl⟩ := storeLeaf_lineNumber hfirst
  rw [storeLeaf, hkind] at hraw
  obtain rfl : storeRaw l.text = raw := Except.ok.inj hraw
  obtain ⟨bytes, hbytes⟩ := exists_storeRaw hc read
  have hvalue : Numeral.digitsValue (gaps ++ ['0']) = 0 := by
    rw [Numeral.digitsValue, List.filter_append, filter_isDigit_of_gaps hgaps]
    rfl
  refine ⟨c, hhead, bytes ++ later, ?_⟩
  rw [hvalue, htext, hbytes]
  rfl

end Number

/-- A line that begins with a digit is stored behind gaps as it is without them, or refused for the
same reason, unless a digit is parted from a tab. Then what is stored has the number 0. -/
theorem ofLine_gaps (row : Int) {gaps : List Char} (hgaps : ∀ c ∈ gaps, Text.isGap c = true)
    {c : Char} (hc : c.isDigit = true) (s : List Char) :
    (¬PartsDigit gaps (c :: s) → ofLine row (gaps ++ c :: s) = ofLine row (c :: s)) ∧
      (PartsDigit gaps (c :: s) → ∀ code, ofLine row (gaps ++ c :: s) = .ok code →
        ∃ length more, code = length :: 0 :: 0 :: UInt8.ofNat c.toNat :: more) := by
  have hread : integer (c :: s) =
      some ((c :: s).takeWhile isDigitOrSpace, s.dropWhile isDigitOrSpace) := by
    rw [integer, if_pos hc, List.takeWhile_cons_of_pos (by simp [isDigitOrSpace, hc])]
  obtain ⟨hsplit, hnumber, hends⟩ := integer_some hread
  have hkeeps : KeepsNumber (gaps ++ (c :: s).takeWhile isDigitOrSpace) ↔
      ¬PartsDigit gaps (c :: s) := keepsNumber_iff hgaps hnumber
  constructor
  · intro hparts
    have hbody := body_gaps hgaps hnumber hends (hkeeps.2 hparts)
    rw [← hsplit] at hbody
    rw [ofLine, hbody, ofLine]
  · rintro ⟨htab, hdigit⟩ code hcode
    obtain ⟨bytes, hstores, rfl⟩ := ofLine_ok_iff.1 hcode
    have hbody := hstores.1
    rw [hsplit] at hbody
    obtain ⟨d, hd, more, rfl⟩ := body_of_parted hgaps hnumber hends htab hdigit hbody
    rw [List.takeWhile_cons_of_pos (by simp [isDigitOrSpace, hc])] at hd
    cases hd
    exact ⟨_, _, rfl⟩

/-- One tab before one digit, and two of them. -/
theorem ofLine_gaps_tab :
    ofLine 0 "5 END".toList = .ok [0x05, 0x05, 0x00, 0x51, 0x01] ∧
      ofLine 0 " \t\t5 END".toList = ofLine 0 "5 END".toList ∧
      ofLine 0 "\t5 END".toList = .ok [0x08, 0x00, 0x00, 0x35, 0x45, 0x4E, 0x44, 0x01] ∧
      ∃ length more, [0x08, 0x00, 0x00, 0x35, 0x45, 0x4E, 0x44, 0x01] =
        length :: 0 :: 0 :: UInt8.ofNat '5'.toNat :: more := by
  have hstored : ofLine 0 "\t5 END".toList =
      .ok [0x08, 0x00, 0x00, 0x35, 0x45, 0x4E, 0x44, 0x01] := by decide +kernel
  refine ⟨by decide +kernel, ?_, hstored, ?_⟩
  · exact (@ofLine_gaps 0 [' ', '\t', '\t'] (by decide) '5' rfl " END".toList).1 (by decide)
  · exact (@ofLine_gaps 0 ['\t'] (by decide) '5' rfl " END".toList).2 (by decide) _ hstored

end Record

end IntegerBasic
