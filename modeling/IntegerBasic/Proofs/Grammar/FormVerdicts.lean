import IntegerBasic.Proofs.Grammar.WordOrName

/-!
# Statements in a run

Form by form, whether an assignment is read by the word that it happens to begin with. Most forms
need something behind their word that no assignment has. Those that end with an expression, and
`IF`, `LET` and `REM`, are settled by the letters of the run and the shape of what follows.
-/

namespace IntegerBasic.Grammar

open Rule

/-- A word has been read from the run that an assignment begins with, up to the part `v`. -/
structure Behind (tok : Token) (shape : Shape) (u v t : List Char) : Prop where
  run : Run u
  ne : u ≠ []
  suffix : v <:+ u
  assignment : Assignment expression expression shape t
  word : ∃ text, Lexeme.word tok.spelling.toList (front (u ++ t)) = some (text, v ++ t)

section Never

variable {nested : Input → Node × Input} {tok : Token} {shape : Shape} {u v t : List Char}

theorem Behind.run_rest (h : Behind tok shape u v t) : Run v :=
  fun c hc => h.run c (h.suffix.subset hc)

theorem Behind.expect (h : Behind tok shape u v t) : Reach (expect tok) (u ++ t) () (v ++ t) := by
  obtain ⟨text, hword⟩ := h.word
  exact .expect hword

/-- A verdict on an expression behind the word. -/
theorem Behind.exists_holds (h : Behind tok shape u v t) :
    ∃ verdict : Verdict, verdict.Holds expression v t := by
  obtain ⟨verdict, hverdict⟩ := exists_expression_verdict shape (Lexeme.folded v)
  exact ⟨verdict, hverdict h.run_rest rfl h.assignment⟩

theorem Behind.bare (h : Behind tok shape u v t) :
    Decides (whole (Form.rule nested (.bare tok))) (u ++ t) false :=
  h.expect.whole_false (endsStatement_append h.assignment h.run_rest)

/-- An expression that is read in a run is not followed by a comma. -/
theorem Behind.stuck_comma (h : Behind tok shape u v t) {separator : Token}
    (hcomma : separator.spelling = ",") : Stuck expression (v ++ t) ∨
      ∃ type s, Reach expression (v ++ t) type s ∧ Stuck (Rule.expect separator) s := by
  obtain ⟨verdict, hverdict⟩ := h.exists_holds
  rcases Verdict.stuck_or_comma h.assignment h.run_rest hverdict with hstuck | ⟨a, s, hreach, hnone⟩
  · exact .inl hstuck
  · exact .inr ⟨a, s, hreach, .expect (by rw [hcomma]; exact hnone)⟩

theorem Behind.pair {separator : Token} (h : Behind tok shape u v t)
    (hcomma : separator.spelling = ",") :
    Decides (whole (Form.rule nested (.pair tok separator))) (u ++ t) false := by
  apply Stuck.whole
  rcases h.stuck_comma hcomma with hstuck | ⟨type, s, hreach, hstuck⟩
  · exact .bind_right h.expect (.bind_left _ hstuck)
  · exact .bind_right h.expect (.bind_right hreach (.bind_left _ hstuck))

theorem Behind.draw {separator position : Token} (h : Behind tok shape u v t)
    (hcomma : separator.spelling = ",") :
    Decides (whole (Form.rule nested (.draw tok separator position))) (u ++ t) false := by
  apply Stuck.whole
  rcases h.stuck_comma hcomma with hstuck | ⟨type, s, hreach, hstuck⟩
  · exact .bind_right h.expect (.bind_left _ hstuck)
  · exact .bind_right h.expect (.bind_right hreach (.bind_left _ hstuck))

/-- A line number may be read from a run, but nothing ends behind it. -/
theorem Behind.lineRange {numbered : Token} {separator : Option Token}
    (h : Behind tok shape u v t) (hcomma : ∀ comma ∈ separator, comma.spelling = ",") :
    Decides (whole (Form.rule nested (.lineRange tok numbered separator))) (u ++ t) false := by
  have hread : ∃ found s w, Reach (token? Lexeme.integer .lineArgument) (v ++ t) found s ∧
      front s = front (w ++ t) ∧ Run w := by
    cases hv : v with
    | nil =>
      obtain ⟨c, hc, r, hr⟩ := h.assignment.front_mem
      have hnone : Lexeme.integer (front ([] ++ t)) = none := by
        have key : ∀ c ∈ ['$', '(', '='], c.isDigit = false := by decide
        rw [List.nil_append, hr, integer_of_not_isDigit (key c hc)]
      exact ⟨false, _, [], .token?_none _ hnone, front_front _, by simp [Run]⟩
    | cons c w =>
      have hrun : Run (c :: w) := hv ▸ h.run_rest
      have hfront := front_append_of_ne_nil hrun (List.cons_ne_nil c w) t
      by_cases hc : c.isDigit = true
      · obtain ⟨text, s, hinteger, hs⟩ :=
          exists_integer_append (h.assignment.tail (Nat.le_refl _)) hrun hc
        refine ⟨true, s, _, .token? _ (by rw [hfront, hinteger]), hs, ?_⟩
        exact fun x hx => hrun x ((List.dropWhile_suffix _).subset hx)
      · have hnone : Lexeme.integer (front (c :: w ++ t)) = none := by
          rw [hfront]
          exact integer_of_not_isDigit (by simpa using hc)
        exact ⟨false, _, c :: w, .token?_none _ hnone, front_front _, hrun⟩
  obtain ⟨found, s, w, hreach, hs, hrun⟩ := hread
  obtain ⟨text, hword⟩ := h.word
  have hends : endsStatement (front s) = false := by
    rw [hs]
    exact endsStatement_append h.assignment hrun
  have hnone : Lexeme.word [','] (front s) = none := by
    rw [hs]
    exact word_comma_append h.assignment hrun
  have hstart : Reach (wordThen tok (fun isNumbered => if isNumbered then numbered else tok)
      (token? Lexeme.integer .lineArgument)) (u ++ t) found s := .wordThen hword hreach
  have hrule : ∃ s', Reach (Form.rule nested (.lineRange tok numbered separator)) (u ++ t) () s' ∧
      front s' = front s := by
    cases found with
    | false => exact ⟨s, .bind hstart (.pure _ _), rfl⟩
    | true =>
      cases separator with
      | none => exact ⟨s, .bind hstart (.pure _ _), rfl⟩
      | some comma =>
        have hmiss : Reach (word? comma) s false (front s) :=
          .token?_none _ (by rw [hcomma comma rfl]; exact hnone)
        exact ⟨front s, .bind hstart (.bind hmiss (.pure _ _)), front_front s⟩
  obtain ⟨s', hrule, hs'⟩ := hrule
  exact hrule.whole_false (by rw [hs', hends])

/-- Behind a name the mark of the assignment comes next, and neither an end nor a comma. -/
theorem misses_of_assigned {k : List Char} (h : Assigned expression expression shape k) :
    endsStatement (front k) = false ∧ Lexeme.word [','] (front k) = none := by
  have hmark : shape.mark ≠ ':' ∧ shape.mark ≠ ',' := by
    unfold Shape.mark
    split <;> decide
  obtain ⟨r, hr⟩ := h.front
  rw [hr]
  refine ⟨by simp [endsStatement, hmark.1], ?_⟩
  rw [Lexeme.word_mark (by decide), if_neg hmark.2]

/-- A name is read behind the word, or none is there. -/
theorem Behind.name_cases (h : Behind tok shape u v t) :
    Stuck variableName (v ++ t) ∨ ∃ text k, Lexeme.name (front (v ++ t)) = some (text, k) ∧
      Reach variableName (v ++ t) (Lexeme.nameType text) k ∧
        Assigned expression expression shape k := by
  have hcases := Grammar.name_cases h.assignment h.run_rest
  split at hcases
  · obtain ⟨text, k, hname, hassigned⟩ := hcases
    exact .inr ⟨text, k, hname, .variableName hname, hassigned⟩
  · exact .inl (.variableName hcases)

theorem Behind.display {isOn : Bool} (h : Behind (Form.display isOn).token shape u v t) :
    Decides (whole (Form.rule nested (.display isOn))) (u ++ t) false := by
  obtain ⟨text, hword⟩ := h.word
  rcases h.name_cases with hstuck | ⟨text, k, -, hreach, hassigned⟩
  · apply Stuck.whole
    cases isOn with
    | false => exact .bind_left _ (.wordThen hword hstuck)
    | true => exact .bind_left _ (.wordThen hword hstuck)
  · have hrule : Reach (Form.rule nested (.display isOn)) (u ++ t) () k := by
      cases isOn with
      | false => exact .bind (.wordThen hword hreach) (.pure _ _)
      | true => exact .bind (.wordThen hword hreach) (.pure _ _)
    exact hrule.whole_false (misses_of_assigned hassigned).1

/-- The name of an integer variable, or none. -/
theorem Behind.integerName_cases (h : Behind tok shape u v t) :
    Stuck integerName (v ++ t) ∨
      ∃ k, Reach integerName (v ++ t) () k ∧ Assigned expression expression shape k := by
  rcases h.name_cases with hstuck | ⟨text, k, -, hreach, hassigned⟩
  · exact .inl (.bind_left _ hstuck)
  · cases htype : Lexeme.nameType text with
    | string =>
      rw [htype] at hreach
      exact .inl (.bind_right hreach (.stop _ _))
    | integer =>
      rw [htype] at hreach
      exact .inr ⟨k, .bind hreach (.pure _ _), hassigned⟩

theorem Behind.nextLoop (h : Behind .next shape u v t) :
    Decides (whole (Form.rule nested .nextLoop)) (u ++ t) false := by
  rcases h.integerName_cases with hstuck | ⟨k, hreach, hassigned⟩
  · apply Stuck.whole
    exact .bind_right h.expect (.bind_left _ hstuck)
  · obtain ⟨hends, hnone⟩ := misses_of_assigned hassigned
    have hrule : Reach (Form.rule nested .nextLoop) (u ++ t) () (front k) :=
      .bind h.expect (.bind hreach (.repeated_none rfl _ hnone))
    exact hrule.whole_false (by rw [front_front]; exact hends)

/-- A loop wants its limit where the value of an assignment ends. -/
theorem Behind.forLoop (h : Behind .forLoop shape u v t) :
    Decides (whole (Form.rule nested .forLoop)) (u ++ t) false := by
  apply Stuck.whole
  refine .bind_right h.expect ?_
  rcases h.integerName_cases with hstuck | ⟨k, hreach, hassigned⟩
  · exact .bind_left _ hstuck
  · refine .bind_right hreach ?_
    cases helement : shape.element with
    | true =>
      obtain ⟨s', ⟨r, a, l, hr, -⟩, -⟩ := hassigned.element helement
      have hequals : Stuck (Rule.expect .forEquals) k := by
        apply Stuck.expect
        rw [hr]
        exact (Lexeme.word_mark (by decide) '(' r).trans (if_neg (by decide))
      exact .bind_left _ hequals
    | false =>
      obtain ⟨r, hr, a, s, hvalue, hend⟩ := hassigned.bare helement
      have hequals : Reach (Rule.expect .forEquals) k () r := .expect_mark rfl (by decide) hr
      have hlimit : Stuck (Rule.expect .toLimit) s :=
        .expect (word_of_endsStatement hend (p := 'T') (by decide))
      exact .bind_right hequals (.bind_right hvalue (.bind_left _ hlimit))

theorem Behind.dimension (h : Behind (.dim .integer) shape u v t) :
    Decides (whole (Form.rule nested .dimension)) (u ++ t) false := by
  obtain ⟨text, hword⟩ := h.word
  rcases h.name_cases with hstuck | ⟨text, k, -, hreach, hassigned⟩
  · apply Stuck.whole
    exact .bind_left _ (.wordThen hword hstuck)
  · cases helement : shape.element with
    | false =>
      obtain ⟨r, hr, -⟩ := hassigned.bare helement
      have hopen : Stuck (Rule.expect (.openDim (Lexeme.nameType text))) k := by
        apply Stuck.expect
        rw [hr, show (Token.openDim (Lexeme.nameType text)).spelling = "(" from rfl]
        exact (Lexeme.word_mark (by decide) '=' r).trans (if_neg (by decide))
      apply Stuck.whole
      exact .bind_right (.wordThen hword hreach) (.bind_left _ (.bind_left _ hopen))
    | true =>
      obtain ⟨s', ⟨r, a, l, hr, harg, hclose⟩, r', hequals, -⟩ := hassigned.element helement
      have hopen : Reach (Rule.expect (.openDim (Lexeme.nameType text))) k () r :=
        .expect_mark (congrArg String.toList (show _ = "(" from rfl)) (by decide) hr
      have hextent : Reach (extent (Lexeme.nameType text)) k () s' :=
        .bind hopen (.bind harg (reach_close hclose))
      have hnone : Lexeme.word [','] (front s') = none := by
        rw [hequals, Lexeme.word_mark (by decide), if_neg (by decide)]
      have hrule : Reach (Form.rule nested .dimension) (u ++ t) () (front s') :=
        .bind (.wordThen hword hreach) (.bind hextent (.repeated_none rfl _ hnone))
      exact hrule.whole_false (by rw [front_front, hequals]; rfl)

/-- The variable of an assignment is a variable behind any word, if a letter comes next there. -/
theorem Behind.target_cases (h : Behind tok shape u v t) {s : List Char}
    (hs : front s = front (v ++ t)) :
    if (Lexeme.folded v).head?.any Char.isAlpha then
      ∃ type s', Reach (target expression) s type s' ∧ Valued expression s'
    else Stuck (target expression) s := by
  have hcases := Grammar.name_cases h.assignment h.run_rest
  rw [← hs] at hcases
  by_cases halpha : (Lexeme.folded v).head?.any Char.isAlpha = true
  · rw [if_pos halpha] at hcases ⊢
    obtain ⟨text, k, hname, hassigned⟩ := hcases
    have hname' : Lexeme.name (front (front s)) = some (text, k) := by
      rw [front_front, hname]
    cases helement : shape.element with
    | true =>
      obtain ⟨s', hbracketed, hvalued⟩ := hassigned.element helement
      refine ⟨Lexeme.nameType text, s', ?_, hvalued⟩
      exact .variableBy_subscripted hname hbracketed.opensNext
        (hbracketed.subscripted hname' rfl _ _) (hbracketed.subscripted hname' rfl _ _)
    | false =>
      have hvalued := hassigned.bare helement
      exact ⟨Lexeme.nameType text, k, .variableBy_bare hname hvalued.opensNext, hvalued⟩
  · rw [if_neg halpha] at hcases ⊢
    have hahead : Reach (ahead isSubscripted) s false (front s) := by
      have := Reach.ahead isSubscripted s
      rwa [isSubscripted, hcases] at this
    exact .bind_right hahead (.variableName (by rw [front_front]; exact hcases))

theorem Behind.inputList (h : Behind (.input .integer) shape u v t) :
    Decides (whole (Form.rule nested .inputList)) (u ++ t) false := by
  obtain ⟨text, hword⟩ := h.word
  obtain ⟨c, r, hr, hc⟩ := exists_front_append h.assignment h.run_rest
  have hquote : ¬(((front (v ++ t)).head? == some '"') = true) := by
    rw [hr]
    simpa using ne_of_alphanum_or_mark (p := '"') hc (by decide)
  have hpeek := Reach.peek (v ++ t)
  have hcases := h.target_cases (front_front (v ++ t))
  split at hcases
  · obtain ⟨type, s', htarget, r', hequals, -⟩ := hcases
    have hhead : Reach (do
        if (← peek) == some '"' then
          stringLiteral
          Rule.expect .promptComma
          return InputHead.prompt
        else return .target (← target expression)) (v ++ t) (.target type) s' := by
      refine .bind hpeek ?_
      rw [if_neg hquote]
      exact .bind htarget (.pure _ _)
    have hnone : Lexeme.word [','] (front s') = none := by
      rw [hequals, Lexeme.word_mark (by decide), if_neg (by decide)]
    have hrule : Reach (Form.rule nested .inputList) (u ++ t) () (front s') :=
      .bind (.wordThen hword hhead) (.repeated_none rfl _ hnone)
    exact hrule.whole_false (by rw [front_front, hequals]; rfl)
  · apply Stuck.whole
    refine .bind_left _ (.wordThen hword (.bind_right hpeek ?_))
    rw [if_neg hquote]
    exact .bind_left _ hcases

end Never

section Settled

variable {nested : Input → Node × Input} {tok : Token} {shape : Shape} {u v t : List Char}

/-- A word and an expression are read where the expression takes all of the assignment. -/
theorem Behind.single {verdict : Verdict} (h : Behind tok shape u v t)
    (hverdict : verdict.Holds expression v t) :
    Decides (whole (Form.rule nested (.single tok))) (u ++ t) verdict.isFinished := by
  have hholds : verdict.Holds (Form.rule nested (.single tok)) u t := by
    refine Verdict.holds_of_suffix h.suffix ?_ ?_ hverdict
    · intro hstuck
      exact .bind_right h.expect (.bind_left _ hstuck)
    · intro type s hreach
      exact ⟨(), .bind h.expect (.bind hreach (.pure _ _))⟩
  exact Verdict.decides h.assignment h.run hholds

/-- A word that ends with an equals sign takes the sign of the assignment. -/
theorem color_decides (hu : Run u) (hne : u ≠ [])
    (ht : Assignment expression expression shape t)
    (hword : (Lexeme.word Token.color.spelling.toList (u ++ t)).isSome = true) :
    Decides (whole (Form.rule nested (.single .color))) (u ++ t) true := by
  have hmark := Lexeme.word_append_mark (p := '=') (w := "COLOR".toList) (by decide) (by decide) rfl
    (by decide) (by decide) hu ht.noLetter
  rw [show Token.color.spelling.toList = "COLOR".toList ++ ['='] from rfl, hmark] at hword
  by_cases hsame : Lexeme.folded "COLOR".toList = Lexeme.folded u ∧
      (t.dropWhile Lexeme.isSpace).head? = some '='
  · rw [if_pos hsame] at hmark
    obtain ⟨rest, hrest⟩ := List.head?_eq_some_iff.1 hsame.2
    rw [hrest] at hmark
    have hexpect : Reach (expect .color) (u ++ t) () rest :=
      .expect (by rw [front_append_of_ne_nil hu hne]; exact hmark)
    have hfront : front t = '=' :: rest := by
      rw [← front_dropWhile_isSpace, hrest]
      rfl
    rcases ht.dollar_cases with ⟨-, d, s, -, hdollar, -⟩ | ⟨-, -, hassigned⟩
    · rw [hfront] at hdollar
      cases hdollar
    · have helement : shape.element = false := by
        obtain ⟨r, hr⟩ := hassigned.front
        rw [hfront, Shape.mark] at hr
        by_contra helement
        rw [if_pos (by simpa using helement)] at hr
        cases hr
      obtain ⟨r, hr, hfinishes⟩ := hassigned.bare helement
      rw [hfront] at hr
      cases hr
      have hrule : Finishes (Form.rule nested (.single .color)) (u ++ t) :=
        .bind hexpect (hfinishes.map fun _ => ())
      exact hrule.whole
  · rw [if_neg hsame] at hword
    cases hword

/-- `LET` is read where a letter follows it. -/
theorem Behind.assignmentForm (h : Behind .assign shape u v t) :
    Decides (whole (Form.rule nested .assignment)) (u ++ t)
      ((Lexeme.folded v).head?.any Char.isAlpha) := by
  have hcases := h.target_cases rfl
  by_cases halpha : (Lexeme.folded v).head?.any Char.isAlpha = true
  · rw [if_pos halpha] at hcases
    rw [halpha]
    obtain ⟨type, s', htarget, r, hr, value, s'', hvalue, hend⟩ := hcases
    have hequals : Reach (Rule.expect (.equals type)) s' () r :=
      .expect_mark (congrArg String.toList (show _ = "=" from rfl)) (by decide) hr
    have hassignment : Reach (assignmentRule (some .assign)) (u ++ t) type s'' :=
      .enclose (.bind h.expect (.bind htarget (.bind hequals (.bind hvalue (.pure _ _)))))
    have hrule : Finishes (Form.rule nested .assignment) (u ++ t) :=
      ⟨(), s'', .bind hassignment (.pure _ _), hend⟩
    exact hrule.whole
  · rw [if_neg halpha] at hcases
    rw [Bool.eq_false_iff.2 halpha]
    apply Stuck.whole
    exact .bind_left _ (.enclose (.bind_right h.expect (.bind_left _ hcases)))

theorem Behind.remarkForm (h : Behind .rem shape u v t) :
    Decides (whole (Form.rule nested .remark)) (u ++ t) true := by
  intro i hi
  obtain ⟨text, hword⟩ := h.word
  rw [← hi, ← rest_skip] at hword
  rw [whole_of_ok (remark_of_word hword) rfl]
  rfl

def Shape.front (shape : Shape) : Shape :=
  ⟨if shape.near = '$' then '$' else shape.mark, shape.element⟩

/-- Gaps before it make no difference to an assignment, but to what is near. -/
theorem assignment_front (ht : Assignment expression expression shape t) :
    Assignment expression expression shape.front (front t) := by
  rcases ht.dollar_cases with ⟨hnear, d, s, -, hfront, hassigned⟩ | ⟨hnear, -, hassigned⟩
  · refine ⟨?_, ['$'], s, ?_, hassigned⟩
    · rw [hfront, Shape.front, if_pos hnear]
      rfl
    · rw [hfront]
      rfl
  · obtain ⟨r, hr⟩ := hassigned.front
    have hmark : shape.mark = '(' ∨ shape.mark = '=' := by
      unfold Shape.mark
      split <;> simp
    have hdrop : (shape.mark :: r).dropWhile Lexeme.isSpace = shape.mark :: r := by
      rcases hmark with h | h <;> rw [h] <;> rfl
    refine ⟨?_, [], front t, ?_, ?_⟩
    · rw [hr, hdrop, Shape.front, if_neg hnear]
      rfl
    · rw [hr, Lexeme.dollar, hdrop]
      rcases hmark with h | h <;> rw [h] <;> rfl
    · cases helement : shape.element with
      | true =>
        obtain ⟨s', hbracketed, hvalued⟩ := hassigned.element helement
        rw [Assigned, show shape.front.element = true from helement, if_pos rfl]
        exact ⟨s', hbracketed.of_front, hvalued⟩
      | false =>
        obtain ⟨r', hr', hfinishes⟩ := hassigned.bare helement
        rw [Assigned, show shape.front.element = false from helement, if_neg (by simp)]
        exact ⟨r', by rw [front_front, hr'], hfinishes⟩

/-- No separator of `PRINT` comes next. -/
theorem reach_printTails {s : List Char} (hcomma : (front s).head? ≠ some ',')
    (hsemicolon : (front s).head? ≠ some ';') :
    Reach (loop (fun _ => printTail) ()) s () (front s) := by
  have htail : Reach printTail s none (front s) := by
    refine .bind (.peek s) ?_
    rw [if_neg (by simpa using hcomma), if_neg (by simpa using hsemicolon)]
    exact .pure _ _
  exact .loop_none htail

/-- `PRINT` is read where its item takes all of the assignment. -/
theorem Behind.printForm {verdict : Verdict} {shape' : Shape} {t' : List Char}
    (h : Behind (.print none) shape u v t) (hfront : front (v ++ t) = v ++ t')
    (ht' : Assignment expression expression shape' t') (hverdict : verdict.Holds expression v t') :
    Decides (whole (Form.rule nested .printList)) (u ++ t) verdict.isFinished := by
  obtain ⟨text, hword⟩ := h.word
  obtain ⟨c, r, hr, hc⟩ := exists_front_append h.assignment h.run_rest
  have hitem : Reach noItem (v ++ t) false (v ++ t') := by
    have hnone : c ≠ ':' ∧ c ≠ ',' ∧ c ≠ ';' :=
      ⟨ne_of_alphanum_or_mark hc (by decide), ne_of_alphanum_or_mark hc (by decide),
        ne_of_alphanum_or_mark hc (by decide)⟩
    have hpeek := Reach.peek (v ++ t)
    have htest : ((front (v ++ t)).head? == none || (front (v ++ t)).head? == some ':' ||
        (front (v ++ t)).head? == some ',' || (front (v ++ t)).head? == some ';') = false := by
      rw [hr]
      simp [hnone]
    have hreach : Reach noItem (v ++ t) _ (front (v ++ t)) := .bind hpeek (.pure _ _)
    rwa [htest, hfront] at hreach
  have hprint : ∀ {type s}, Reach expression (v ++ t') type s → (front s).head? ≠ some ',' →
      (front s).head? ≠ some ';' →
        Reach (Form.rule nested .printList) (u ++ t) () (front s) := by
    intro type s hreach hcomma hsemicolon
    have hprintItem : Reach printItem (v ++ t) (some type) s :=
      .bind hitem (.bind hreach (.pure _ _))
    exact .bind (.wordThen hword hprintItem) (reach_printTails hcomma hsemicolon)
  cases verdict with
  | stuck =>
    apply Stuck.whole
    have hprintItem : Stuck printItem (v ++ t) := .bind_right hitem (.bind_left _ hverdict)
    exact .bind_left _ (.wordThen hword hprintItem)
  | finished =>
    obtain ⟨type, s, hreach, hend⟩ := hverdict
    have hhead : (front s).head? ≠ some ',' ∧ (front s).head? ≠ some ';' := by
      constructor <;> intro heq <;> rw [endsStatement, heq] at hend <;> revert hend <;> decide
    have hrule : Finishes (Form.rule nested .printList) (u ++ t) :=
      ⟨(), front s, hprint hreach hhead.1 hhead.2, by rw [front_front]; exact hend⟩
    exact hrule.whole
  | before left =>
    obtain ⟨-, type, s, hreach, hs⟩ := hverdict
    have hrun : Run (v.drop (v.length - left)) := fun c hc => h.run_rest c (List.mem_of_mem_drop hc)
    obtain ⟨c', r', hr', hc'⟩ := exists_front_append ht' hrun
    have hhead : (front s).head? ≠ some ',' ∧ (front s).head? ≠ some ';' := by
      rw [hs, hr', List.head?_cons]
      constructor
      · simpa using ne_of_alphanum_or_mark (p := ',') hc' (by decide)
      · simpa using ne_of_alphanum_or_mark (p := ';') hc' (by decide)
    refine (hprint hreach hhead.1 hhead.2).whole_false ?_
    rw [front_front, hs]
    exact endsStatement_append ht' hrun

theorem front_of_endsStatement {s : List Char} (h : endsStatement s = true) : front s = s := by
  apply front_of_head
  intro c hc
  rw [endsStatement, hc] at h
  obtain rfl : c = ':' := by simpa using h
  rfl

/-- What comes next behind `THEN` in a run. -/
theorem isSome_integer_append (ht : Assignment expression expression shape t) (hv : Run v) :
    (Lexeme.integer (front (v ++ t))).isSome = (Lexeme.folded v).head?.any Char.isDigit := by
  cases v with
  | nil =>
    obtain ⟨c, hc, r, hr⟩ := ht.front_mem
    have key : ∀ c ∈ ['$', '(', '='], c.isDigit = false := by decide
    rw [List.nil_append, hr, integer_of_not_isDigit (key c hc)]
    rfl
  | cons c v =>
    have hfold := isDigit_caseFold (hv c List.mem_cons_self)
    rw [front_append_of_ne_nil hv (List.cons_ne_nil c v)]
    simp only [Lexeme.folded, List.map_cons, List.head?_cons, Option.any_some, hfold]
    cases hc : c.isDigit with
    | true =>
      rw [List.cons_append, Lexeme.integer, if_pos hc]
      rfl
    | false =>
      rw [List.cons_append, integer_of_not_isDigit hc]
      rfl

theorem word_then_append (ht : Assignment expression expression shape t) (hv : Run v) :
    Lexeme.word Token.thenStatement.spelling.toList (front (v ++ t)) =
      if (Lexeme.folded "THEN".toList).isPrefixOf (Lexeme.folded v) then
        some (v.take 4, v.drop 4 ++ t)
      else none := by
  cases v with
  | nil =>
    obtain ⟨c, hc, r, hr⟩ := ht.front_mem
    have key : ∀ c ∈ ['$', '(', '='], c.toNat < 65 := by decide
    rw [List.nil_append, hr]
    exact Lexeme.word_cons_of_ne _ _ 
      (Lexeme.sameLetter_of_lt (show 'T'.isUpper = true by decide) (key c hc))
  | cons c v =>
    rw [front_append_of_ne_nil hv (List.cons_ne_nil c v)]
    exact Lexeme.word_append (w := "THEN".toList) (by decide) (by decide) hv ht.noLetter

/-- A conditional up to `THEN`, which stands in the run behind an expression. -/
theorem Behind.conditionThen {type : DataType} {s v' : List Char} (h : Behind .condition shape u v t)
    (hreach : Reach expression (v ++ t) type s) (hs : front s = front (v' ++ t)) (hv' : Run v')
    (hthen : (Lexeme.folded "THEN".toList).isPrefixOf (Lexeme.folded v') = true) :
    Reach conditionThen (u ++ t) ((Lexeme.folded (v'.drop 4)).head?.any Char.isDigit)
      (front (v'.drop 4 ++ t)) := by
  have hword := word_then_append h.assignment hv'
  rw [if_pos hthen, ← hs] at hword
  have hahead := Reach.ahead (fun s => (Lexeme.integer s).isSome) (v'.drop 4 ++ t)
  rw [isSome_integer_append h.assignment fun c hc => hv' c (List.mem_of_mem_drop hc)] at hahead
  exact .bind h.expect (.bind hreach (.wordThen hword hahead))

/-- A conditional goes on with the statement behind `THEN`, whatever this is. -/
theorem conditional_nested {k s : List Char} (hnested : ∀ i, endsStatement (nested i).2.rest = true)
    (h : Reach conditionThen s false k) (hk : endsStatement (front k) = false) :
    Decides (whole (Form.rule nested .conditional)) s true := by
  intro i hi
  rw [conditional_rule]
  obtain ⟨nodes, j, hrun, rfl⟩ := h hi
  have hconsequence : consequence nested false j =
      ⟨[(nested j.skip).1], .ok ((), (nested j.skip).2)⟩ := by
    refine (bind_of_silent (atEnd_eq j)).trans ?_
    rw [rest_skip, hk]
    rfl
  have hend : endsStatement (front (nested j.skip).2.rest) = true := by
    rw [front_of_endsStatement (hnested _)]
    exact hnested _
  rw [whole_of_ok (bind_of_ok hrun hconsequence) hend]
  rfl

/-- `IF` is read where `THEN` stands behind its condition in the run, and if a digit follows, where
a line number takes the rest. -/
theorem exists_conditional (shape : Shape) (w : List Char) : ∃ goes : Bool,
    ∀ {nested : Input → Node × Input} {u v t : List Char},
      (∀ i, endsStatement (nested i).2.rest = true) → Behind .condition shape u v t →
        Lexeme.folded v = w → Decides (whole (Form.rule nested .conditional)) (u ++ t) goes := by
  obtain ⟨verdict, hverdict⟩ := exists_expression_verdict shape w
  cases verdict with
  | stuck =>
    refine ⟨false, fun _ h hw => ?_⟩
    rw [conditional_rule]
    apply Stuck.whole
    exact .bind_left _ (.bind_right h.expect (.bind_left _ (hverdict h.run_rest hw h.assignment)))
  | finished =>
    refine ⟨false, fun _ h hw => ?_⟩
    obtain ⟨type, s, hreach, hend⟩ := hverdict h.run_rest hw h.assignment
    rw [conditional_rule]
    apply Stuck.whole
    have hthen : Lexeme.word Token.thenStatement.spelling.toList (front s) = none :=
      word_of_endsStatement hend (p := 'T') (by decide)
    exact .bind_left _ (.bind_right h.expect (.bind_right hreach (.wordThen_none hthen)))
  | before left =>
    -- the part of the run that the condition leaves, in the run itself and in its letters
    have hbefore : ∀ {u v t : List Char}, Behind .condition shape u v t → Lexeme.folded v = w →
        ∃ type s v', Reach expression (v ++ t) type s ∧ front s = front (v' ++ t) ∧ Run v' ∧
          v' <:+ v ∧ Lexeme.folded v' = w.drop (w.length - left) := by
      intro u v t h hw
      obtain ⟨-, type, s, hreach, hs⟩ := hverdict h.run_rest hw h.assignment
      refine ⟨type, s, _, hreach, hs, fun c hc => h.run_rest c (List.mem_of_mem_drop hc),
        List.drop_suffix _ _, ?_⟩
      rw [← hw, length_folded, Lexeme.folded, List.map_drop]
      rfl
    by_cases hthen :
        (Lexeme.folded "THEN".toList).isPrefixOf (w.drop (w.length - left)) = true
    · have hrest : ∀ {v' : List Char}, Lexeme.folded v' = w.drop (w.length - left) →
          Lexeme.folded (v'.drop 4) = (w.drop (w.length - left)).drop 4 := by
        intro v' hw'
        rw [← hw', Lexeme.folded, List.map_drop]
        rfl
      cases hline : ((w.drop (w.length - left)).drop 4).head?.any Char.isDigit with
      | true =>
        obtain ⟨verdict, hverdict⟩ :=
          exists_expression_verdict shape ((w.drop (w.length - left)).drop 4)
        refine ⟨verdict.isFinished, fun _ h hw => ?_⟩
        obtain ⟨type, s, v', hreach, hs, hv', hsuffix, hw'⟩ := hbefore h hw
        have hthen := h.conditionThen hreach hs hv' (by rw [hw']; exact hthen)
        have hrun : Run (v'.drop 4) := fun c hc => hv' c (List.mem_of_mem_drop hc)
        have hne : v'.drop 4 ≠ [] := by
          intro hnil
          rw [← hrest hw', hnil] at hline
          cases hline
        rw [hrest hw', hline, front_append_of_ne_nil hrun hne] at hthen
        refine Verdict.decides h.assignment h.run (Verdict.holds_of_suffix
          (((List.drop_suffix _ _).trans hsuffix).trans h.suffix) ?_ ?_
          (hverdict hrun (hrest hw') h.assignment))
        · intro hstuck
          rw [conditional_rule]
          exact .bind_right hthen (.bind_left _ hstuck)
        · intro type s hreach
          rw [conditional_rule]
          exact ⟨(), .bind hthen (.bind hreach (.pure _ _))⟩
      | false =>
        refine ⟨true, fun hnested h hw => ?_⟩
        obtain ⟨type, s, v', hreach, hs, hv', hsuffix, hw'⟩ := hbefore h hw
        have hthen := h.conditionThen hreach hs hv' (by rw [hw']; exact hthen)
        rw [hrest hw', hline] at hthen
        apply conditional_nested hnested hthen
        rw [front_front]
        exact endsStatement_append h.assignment fun c hc => hv' c (List.mem_of_mem_drop hc)
    · refine ⟨false, fun _ h hw => ?_⟩
      obtain ⟨type, s, v', hreach, hs, hv', -, hw'⟩ := hbefore h hw
      have hword := word_then_append h.assignment hv'
      rw [if_neg (by rw [hw']; exact hthen), ← hs] at hword
      rw [conditional_rule]
      apply Stuck.whole
      exact .bind_left _ (.bind_right h.expect (.bind_right hreach (.wordThen_none hword)))

end Settled

/-- Whether an assignment is read by the word of a form is settled by the letters it begins with
and the shape of what follows. -/
def Form.Settled (form : Form) (shape : Shape) (w : List Char) (goes : Bool) : Prop :=
  ∀ ⦃nested : Input → Node × Input⦄ ⦃u t : List Char⦄,
    (∀ i, endsStatement (nested i).2.rest = true) → Run u → u ≠ [] → Lexeme.folded u = w →
      Assignment expression expression shape t →
        (Lexeme.word form.token.spelling.toList (u ++ t)).isSome = true →
          Decides (whole (form.rule nested)) (u ++ t) goes

/-- A word of letters is read from a run. -/
theorem Behind.of_word {tok : Token} (hupper : ∀ c ∈ tok.spelling.toList, c.isUpper = true)
    {shape : Shape} {u t : List Char} (hu : Run u) (hne : u ≠ [])
    (ht : Assignment expression expression shape t)
    (hword : (Lexeme.word tok.spelling.toList (u ++ t)).isSome = true) :
    Behind tok shape u (u.drop tok.spelling.toList.length) t := by
  have happend := Lexeme.word_append (spelling_ne_nil tok) hupper hu ht.noLetter
  refine ⟨hu, hne, List.drop_suffix _ _, ht, ?_⟩
  rw [front_append_of_ne_nil hu hne]
  rw [happend] at hword ⊢
  by_cases hbegins : (Lexeme.folded tok.spelling.toList).isPrefixOf (Lexeme.folded u) = true
  · exact ⟨_, if_pos hbegins⟩
  · rw [if_neg hbegins] at hword
    cases hword

/-- A word that ends with a mark other than the equals sign begins no assignment. -/
theorem not_isSome_word {tok : Token} {w : List Char} {p : Char}
    (hspelling : tok.spelling.toList = w ++ [p]) (hw : w ≠ [] ∧ ∀ c ∈ w, c.isUpper = true)
    (hp : p = ':' ∨ p = '#') {shape : Shape} {u t : List Char} (hu : Run u)
    (ht : Assignment expression expression shape t) :
    ¬(Lexeme.word tok.spelling.toList (u ++ t)).isSome = true := by
  have hlt : p.toNat < 65 ∧ p ≠ ' ' ∧ p.isAlphanum = false ∧ p ∉ ['$', '\t', '(', '='] := by
    rcases hp with rfl | rfl <;> decide
  have happend := Lexeme.word_append_mark hlt.1 hlt.2.1 hlt.2.2.1 hw.1 hw.2 hu ht.noLetter
  rw [hspelling, happend, if_neg]
  · simp
  · rintro ⟨-, hnear⟩
    rw [ht.near] at hnear
    cases hnear
    exact hlt.2.2.2 ht.near_mem

/-- Only words before a single expression have a mark at their end. -/
theorem Form.upper_or_mark {form : Form} (h : form ∈ all) :
    (∀ c ∈ form.token.spelling.toList, c.isUpper = true) ∨
      form ∈ [.single .color, .single .himem, .single .lomem, .single .prSlot, .single .inSlot] := by
  have key : ∀ form ∈ all, (∀ c ∈ form.token.spelling.toList, c.isUpper = true) ∨
      form ∈ [.single .color, .single .himem, .single .lomem, .single .prSlot,
        .single .inSlot] := by decide
  exact key form h

theorem folded_drop {u w : List Char} (h : Lexeme.folded u = w) (n : Nat) :
    Lexeme.folded (u.drop n) = w.drop n := by
  rw [← h, Lexeme.folded, List.map_drop]
  rfl

theorem exists_settled_single {tok : Token} (h : Form.single tok ∈ Form.all) (shape : Shape)
    (w : List Char) : ∃ goes, (Form.single tok).Settled shape w goes := by
  rcases Form.upper_or_mark h with hupper | hmark
  · obtain ⟨verdict, hverdict⟩ :=
      exists_expression_verdict shape (w.drop tok.spelling.toList.length)
    refine ⟨verdict.isFinished, ?_⟩
    intro nested u t _ hu hne hw ht hword
    have hbehind := Behind.of_word hupper hu hne ht hword
    apply hbehind.single
    exact hverdict hbehind.run_rest (folded_drop hw _) ht
  · refine ⟨true, ?_⟩
    intro nested u t _ hu hne hw ht hword
    simp only [List.mem_cons, Form.single.injEq, List.not_mem_nil, or_false] at hmark
    rcases hmark with rfl | rfl | rfl | rfl | rfl
    · exact color_decides hu hne ht hword
    · exact absurd hword (not_isSome_word (w := "HIMEM".toList) rfl (by decide) (.inl rfl) hu ht)
    · exact absurd hword (not_isSome_word (w := "LOMEM".toList) rfl (by decide) (.inl rfl) hu ht)
    · exact absurd hword (not_isSome_word (w := "PR".toList) rfl (by decide) (.inr rfl) hu ht)
    · exact absurd hword (not_isSome_word (w := "IN".toList) rfl (by decide) (.inr rfl) hu ht)

theorem exists_settled_print
    (hupper : ∀ c ∈ (Token.print none).spelling.toList, c.isUpper = true) (shape : Shape)
    (w : List Char) : ∃ goes, Form.printList.Settled shape w goes := by
  -- without letters the item begins behind the gaps, where it sees another shape
  have hshape : ∃ shape', ∀ {v t : List Char}, Run v →
      Lexeme.folded v = w.drop (Token.print none).spelling.toList.length →
        Assignment expression expression shape t → ∃ t', front (v ++ t) = v ++ t' ∧
          Assignment expression expression shape' t' := by
    cases hrest : w.drop (Token.print none).spelling.toList.length with
    | nil =>
      refine ⟨shape.front, fun {v t} hv hw ht => ⟨front t, ?_, assignment_front ht⟩⟩
      obtain rfl : v = [] := List.map_eq_nil_iff.1 hw
      rfl
    | cons c rest =>
      refine ⟨shape, fun {v t} hv hw ht => ⟨t, front_append_of_ne_nil hv ?_ t, ht⟩⟩
      rintro rfl
      cases hw
  obtain ⟨shape', hshape⟩ := hshape
  obtain ⟨verdict, hverdict⟩ :=
    exists_expression_verdict shape' (w.drop (Token.print none).spelling.toList.length)
  refine ⟨verdict.isFinished, fun nested u t _ hu hne hw ht hword => ?_⟩
  have hprint : Behind (.print none) shape u _ t := .of_word hupper hu hne ht hword
  obtain ⟨t', hfront, ht'⟩ := hshape hprint.run_rest (folded_drop hw _) ht
  exact hprint.printForm hfront ht' (hverdict hprint.run_rest (folded_drop hw _) ht')

def Form.Separated : Form → Prop
  | .pair _ separator | .draw _ separator _ => separator.spelling = ","
  | .lineRange _ _ separator => ∀ comma ∈ separator, comma.spelling = ","
  | _ => True

instance : DecidablePred Form.Separated
  | .bare _ | .single _ | .pair _ _ | .draw _ _ _ | .lineRange _ _ _ | .display _ | .forLoop
  | .nextLoop | .dimension | .inputList | .printList | .conditional | .remark | .assignment => by
    dsimp only [Form.Separated]
    infer_instance

theorem Form.separated_of_mem {form : Form} (h : form ∈ all) : form.Separated := by
  have key : ∀ form ∈ all, form.Separated := by decide
  exact key form h

/-- The choice between word and name is the same for all assignments with the same letters and the
same shape. -/
theorem exists_settled {form : Form} (hform : form ∈ Form.all) (shape : Shape) (w : List Char) :
    ∃ goes, form.Settled shape w goes := by
  have hseparated := Form.separated_of_mem hform
  rcases Form.upper_or_mark hform with hupper | hmark
  · have hbehind : ∀ {u t : List Char}, Run u → u ≠ [] →
        Assignment expression expression shape t →
          (Lexeme.word form.token.spelling.toList (u ++ t)).isSome = true →
            Behind form.token shape u (u.drop form.token.spelling.toList.length) t :=
      fun hu hne ht hword => .of_word hupper hu hne ht hword
    cases form with
    | bare tok => exact ⟨false, fun _ _ _ _ hu hne _ ht hword => (hbehind hu hne ht hword).bare⟩
    | single tok => exact exists_settled_single hform shape w
    | pair tok separator =>
      exact ⟨false, fun _ _ _ _ hu hne _ ht hword => (hbehind hu hne ht hword).pair hseparated⟩
    | draw tok separator position =>
      exact ⟨false, fun _ _ _ _ hu hne _ ht hword => (hbehind hu hne ht hword).draw hseparated⟩
    | lineRange tok numbered separator =>
      exact ⟨false, fun _ _ _ _ hu hne _ ht hword => (hbehind hu hne ht hword).lineRange hseparated⟩
    | display isOn =>
      exact ⟨false, fun _ _ _ _ hu hne _ ht hword => (hbehind hu hne ht hword).display⟩
    | forLoop => exact ⟨false, fun _ _ _ _ hu hne _ ht hword => (hbehind hu hne ht hword).forLoop⟩
    | nextLoop => exact ⟨false, fun _ _ _ _ hu hne _ ht hword => (hbehind hu hne ht hword).nextLoop⟩
    | dimension =>
      exact ⟨false, fun _ _ _ _ hu hne _ ht hword => (hbehind hu hne ht hword).dimension⟩
    | inputList =>
      exact ⟨false, fun _ _ _ _ hu hne _ ht hword => (hbehind hu hne ht hword).inputList⟩
    | printList => exact exists_settled_print hupper shape w
    | conditional =>
      obtain ⟨goes, hgoes⟩ :=
        exists_conditional shape (w.drop Token.condition.spelling.toList.length)
      refine ⟨goes, fun nested u t hnested hu hne hw ht hword => ?_⟩
      exact hgoes hnested (hbehind hu hne ht hword) (folded_drop hw _)
    | remark => exact ⟨true, fun _ _ _ _ hu hne _ ht hword => (hbehind hu hne ht hword).remarkForm⟩
    | assignment =>
      refine ⟨(w.drop Token.assign.spelling.toList.length).head?.any Char.isAlpha,
        fun nested u t _ hu hne hw ht hword => ?_⟩
      rw [← folded_drop hw]
      exact (hbehind hu hne ht hword).assignmentForm
  · simp only [List.mem_cons, List.not_mem_nil, or_false] at hmark
    rcases hmark with rfl | rfl | rfl | rfl | rfl <;> exact exists_settled_single hform shape w

end IntegerBasic.Grammar
