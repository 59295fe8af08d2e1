import IntegerBasic.Proofs.Grammar.Simulation

/-!
# Simulation of statements

The rules of statements go on from aligned texts alike, as those of expressions do. A statement
that is read by its word is so in every aligned text.
-/

namespace IntegerBasic.Grammar

open Rule

variable {α : Type} {M : Match} {n : Nat}

theorem follows_target_expression : Follows M n (target expression) (target expression) :=
  (follows_target (follows_expression n)).mono (Nat.le_succ n)

theorem follows_assignmentRule {word : Option Token}
    (hword : ∀ t ∈ word, t.isSpelled = true ∧ t ≠ .rem) :
    Follows M n (assignmentRule word) (assignmentRule word) := by
  have hbody : Follows M n (do
      let type ← target expression
      expect (.equals type)
      let _ ← expression
      return type) (do
      let type ← target expression
      expect (.equals type)
      let _ ← expression
      return type) :=
    .bind follows_target_expression fun _ => .bind (.expect rfl (by simp)) fun _ =>
      .bind (follows_expression n) fun _ => .pure _
  apply Follows.enclose
  cases word with
  | none => exact hbody
  | some t => exact .bind (.expect (hword t rfl).1 (hword t rfl).2) fun _ => hbody

theorem follows_integerName : Follows M n integerName integerName := by
  apply Follows.bind .variableName
  intro type
  apply Follows.ite
  · intro _
    exact .stop _ _
  · intro _
    exact .pure _

theorem follows_extent (type : DataType) : Follows M n (extent type) (extent type) :=
  .bind (.expect rfl (by simp)) fun _ => .bind (follows_expression n) fun _ =>
    .expect rfl (by simp)

theorem leaf_of_word? {t : Token} {i j : Input} {nodes : List Node}
    (h : word? t i = ⟨nodes, .ok (true, j)⟩) : Node.leavesOf nodes ≠ [] := leaf_of_token? h

theorem follows_repeated {separator : Token} (ht : separator.isSpelled = true)
    (hcomma : separator.spelling = ",") {item : Rule Unit} (h : Follows M n item item) :
    Follows M n (repeated separator item) (repeated separator item) := by
  have hrem : separator ≠ .rem := by
    rintro rfl
    revert hcomma
    decide
  apply Follows.loop
  · intro _
    apply Follows.bind (.word? ht hrem (by rw [hcomma]; decide))
    intro found
    apply Follows.ite
    · intro _
      exact .bind h fun _ => .pure _
    · intro _
      exact .pure _
  · intro s i nodes s' j h
    obtain ⟨xs, found, k, ys, hx, hy, rfl⟩ := bind_ok h
    cases found with
    | true =>
      rw [Node.leavesOf_append]
      exact List.append_ne_nil_of_left_ne_nil (leaf_of_word? hx) _
    | false => cases hy

theorem follows_noItem : Follows M n noItem noItem := by
  apply Follows.peek
  intro next next' hsame
  have hnone : (next == none) = (next' == none) := by
    rw [Bool.eq_iff_iff, beq_iff_eq, beq_iff_eq]
    exact hsame.1
  rw [hnone, Follows.sameMark_beq hsame (show ':' ∈ marks by decide),
    Follows.sameMark_beq hsame (show ',' ∈ marks by decide),
    Follows.sameMark_beq hsame (show ';' ∈ marks by decide)]
  exact .pure _

theorem follows_printItem : Follows M n printItem printItem := by
  apply Follows.bind follows_noItem
  intro isNone
  apply Follows.ite
  · intro _
    exact .pure _
  · intro _
    exact .bind (follows_expression n) fun _ => .pure _

theorem follows_printTail : Follows M n printTail printTail := by
  apply Follows.peek
  intro next next' hsame
  rw [← Follows.sameMark_beq hsame (show ',' ∈ marks by decide),
    ← Follows.sameMark_beq hsame (show ';' ∈ marks by decide)]
  apply Follows.ite
  · intro _
    exact .bind (.wordThen (fun _ => rfl) (by simp) (fun _ => rfl) follows_printItem)
      fun _ => .pure _
  · intro _
    apply Follows.ite
    · intro _
      exact .bind (.wordThen (fun _ => rfl) (by simp) (fun _ => rfl) follows_printItem)
        fun _ => .pure _
    · intro _
      exact .pure _

theorem leafy_wordThen (t : Token) (settle : α → Token) (body : Rule α) :
    Leafy (wordThen t settle body) := by
  intro i nodes a j h
  obtain ⟨text, rest, more, -, -, rfl⟩ := wordThen_ok h
  simp [Input.leaf]

theorem leaf_of_printTail {i j : Input} {nodes : List Node} {u : Unit}
    (h : printTail i = ⟨nodes, .ok (some u, j)⟩) : Node.leavesOf nodes ≠ [] := by
  obtain ⟨xs, next, k, ys, -, hy, rfl⟩ := bind_ok h
  rw [Node.leavesOf_append]
  apply List.append_ne_nil_of_right_ne_nil
  split at hy
  · exact (leafy_wordThen _ _ _).bind_left hy
  · split at hy
    · exact (leafy_wordThen _ _ _).bind_left hy
    · cases hy

theorem follows_lineArgument :
    Follows M n (token? Lexeme.integer .lineArgument) (token? Lexeme.integer .lineArgument) := by
  refine Follows.token? (by simp) Lexeme.append_of_integer (fun h => h.integer (.inr rfl)) ?_
  intro s t halike hnone
  have hsame := halike.digit
  rw [hnone] at hsame
  exact Option.isNone_iff_eq_none.1 (by simpa using hsame.symm)

/-- Statements nested in others are read alike, as long as they have less than `n` leaves. -/
def FollowsNested (M : Match) (n : Nat) (nested nested' : Input → Node × Input) : Prop :=
  ∀ ⦃i i' : Input⦄ ⦃L : List Leaf⦄, (nested i).1.leaves.length < n →
    Aligned M ((nested i).1.leaves ++ L) i.rest i'.rest →
      Similar M [(nested i).1] [(nested' i').1] ∧
        Aligned M L (nested i).2.rest (nested' i').2.rest

theorem follows_conditionThen : Follows M n conditionThen conditionThen :=
  .bind (.expect rfl (by simp)) fun _ => .bind (follows_expression n) fun _ =>
    .wordThen (by intro a; cases a <;> rfl) (by intro a; cases a <;> simp)
      (by intro a; cases a <;> rfl) (.ahead fun halike => halike.digit)

theorem follows_consequence {nested nested' : Input → Node × Input}
    (hnested : FollowsNested M n nested nested') (isLine : Bool) :
    Follows M n (consequence nested isLine) (consequence nested' isLine) := by
  apply Follows.ite
  · intro _
    exact .bind (follows_expression n) fun _ => .pure _
  · intro _
    apply Follows.bind .atEnd
    intro isEnd
    apply Follows.ite
    · intro _
      exact .stop _ _
    · intro _ i i' nodes a j L h hlt halign
      cases h
      have hleaves : Node.leavesOf [(nested i).1] = (nested i).1.leaves := by simp
      rw [hleaves] at hlt halign
      obtain ⟨hsimilar, halign⟩ := hnested hlt halign
      exact ⟨_, _, rfl, hsimilar, halign⟩

theorem commentOf_of_ne_nil (i : Input) (text : List Char) {rest : List Char} (h : rest ≠ []) :
    commentOf (i.after text rest) = [(i.after text rest).leaf .comment rest] :=
  if_neg (by simpa [Input.after] using h)

theorem remark_of_word {nested : Input → Node × Input} {i : Input} {text rest : List Char}
    (h : Lexeme.word Token.rem.spelling.toList i.skip.rest = some (text, rest)) :
    Form.remark.rule nested i =
      ⟨i.skip.leaf (.token .rem) text :: commentOf (i.skip.after text rest),
        .ok ((), (i.skip.after text rest).after rest [])⟩ := by
  refine bind_of_ok (expect_of_word h) ?_
  by_cases hrest : rest = []
  · subst hrest
    rfl
  · have hne : ¬(i.skip.after text rest).rest.isEmpty = true := by simpa [Input.after] using hrest
    rw [if_neg hne, if_neg hne]
    rfl

theorem follows_remark (nested nested' : Input → Node × Input) :
    Follows M n (Form.remark.rule nested) (Form.remark.rule nested') := by
  intro i i' nodes a j L h hlt halign
  obtain ⟨text, rest, hread, rfl, rfl⟩ := remark_ok h
  have happend : i.skip.rest = text ++ rest := (Lexeme.append_of_word hread).symm
  rw [← List.singleton_append, Node.leavesOf_append, leavesOf_leaf] at halign
  by_cases hrest : rest = []
  · subst hrest
    generalize hL : _ ++ L = L' at halign
    cases halign with
    | nil => cases hL
    | leaf ne hx hy alike same hrem _ _ =>
      rw [List.append_assoc, List.singleton_append, List.cons.injEq] at hL
      rw [← hL.1] at hrem
      exact absurd rfl hrem
    | @bareRemark l _ _ text' kind ne hx hy alike same =>
      rw [List.append_assoc, List.singleton_append, List.cons.injEq] at hL
      obtain ⟨rfl, rfl⟩ := hL
      exact ⟨_, _, remark_of_word hy, .leaf rfl same .nil, .nil rfl rfl⟩
    | @remark l c _ _ y' text' kind ne hx hy alike same comment hc hy' sameComment =>
      rw [List.append_assoc, List.singleton_append, List.cons.injEq] at hL
      rw [← hL.1, ← rest_skip, happend, List.append_cancel_left_eq] at hx
      exact absurd hx.symm hc
  · rw [commentOf_of_ne_nil _ _ hrest, leavesOf_leaf] at halign
    generalize hL : _ ++ L = L' at halign
    cases halign with
    | nil => cases hL
    | leaf ne hx hy alike same hrem _ _ =>
      rw [List.append_assoc, List.singleton_append, List.cons.injEq] at hL
      rw [← hL.1] at hrem
      exact absurd rfl hrem
    | bareRemark => simp at hL
    | @remark l c _ _ y' text' kind ne hx hy alike same comment hc hy' sameComment =>
      simp only [List.cons_append, List.nil_append, List.cons.injEq] at hL
      obtain ⟨rfl, rfl, rfl⟩ := hL
      refine ⟨_, _, remark_of_word hy, ?_, .nil rfl rfl⟩
      rw [commentOf_of_ne_nil _ _ hrest, commentOf_of_ne_nil _ _ hy']
      exact .leaf rfl same (.leaf rfl sameComment .nil)

namespace Form

/-- The words and separators of a form are read by their spelling, a separator of line numbers is
a comma, and the two tokens that a first word may be are spelled alike. -/
def Spelled : Form → Prop
  | .bare t | .single t => t.isSpelled = true ∧ t ≠ .rem
  | .pair t separator => (t.isSpelled = true ∧ t ≠ .rem) ∧ separator.isSpelled = true ∧
      separator ≠ .rem
  | .draw t separator position => (t.isSpelled = true ∧ t ≠ .rem) ∧
      (separator.isSpelled = true ∧ separator ≠ .rem) ∧ position.isSpelled = true ∧
      position ≠ .rem
  | .lineRange t numbered separator => (t.isSpelled = true ∧ t ≠ .rem) ∧
      (numbered.isSpelled = true ∧ numbered ≠ .rem) ∧ numbered.spelling = t.spelling ∧
      ∀ comma ∈ separator, (comma.isSpelled = true ∧ comma ≠ .rem) ∧ comma.spelling = ","
  | _ => True

instance : DecidablePred Spelled
  | .bare _ | .single _ | .pair _ _ | .draw _ _ _ | .lineRange _ _ _ | .display _ | .forLoop
  | .nextLoop | .dimension | .inputList | .printList | .conditional | .remark | .assignment => by
    dsimp only [Spelled]
    infer_instance

theorem spelled_of_mem {form : Form} (h : form ∈ all) : form.Spelled := by
  have key : ∀ form ∈ all, form.Spelled := by decide
  exact key form h

end Form

theorem follows_lineRange {t numbered : Token} {separator : Option Token}
    (spelled : (Form.lineRange t numbered separator).Spelled)
    (nested nested' : Input → Node × Input) :
    Follows M n ((Form.lineRange t numbered separator).rule nested)
      ((Form.lineRange t numbered separator).rule nested') := by
  obtain ⟨ht, hnumbered, hspell, hcomma⟩ := spelled
  apply Follows.bind (Follows.wordThen ?_ ?_ ?_ follows_lineArgument)
  · intro isNumbered
    apply Follows.ite
    · intro _
      cases separator with
      | none => exact .pure _
      | some comma =>
        obtain ⟨hc, hcspell⟩ := hcomma comma rfl
        apply Follows.bind (.word? hc.1 hc.2 (by rw [hcspell]; decide))
        intro found
        apply Follows.ite
        · intro _
          apply Follows.bind follows_lineArgument
          intro isThere
          apply Follows.ite
          · intro _
            exact .pure _
          · intro _
            exact .stop _ _
        · intro _
          exact .pure _
    · intro _
      exact .pure _
  · intro a
    cases a
    · exact ht.1
    · exact hnumbered.1
  · intro a
    cases a
    · exact ht.2
    · exact hnumbered.2
  · intro a
    cases a
    · rfl
    · exact hspell

theorem follows_inputList (nested nested' : Input → Node × Input) :
    Follows M n (Form.inputList.rule nested) (Form.inputList.rule nested') := by
  have htarget : Follows M n (do let _ ← target expression) (do let _ ← target expression) :=
    .bind follows_target_expression fun _ => .pure _
  have hhead : Follows M n (do
      if (← peek) == some '"' then
        stringLiteral
        expect .promptComma
        return InputHead.prompt
      else return .target (← target expression)) (do
      if (← peek) == some '"' then
        stringLiteral
        expect .promptComma
        return InputHead.prompt
      else return .target (← target expression)) := by
    apply Follows.peek
    intro next next' hsame
    rw [← Follows.sameMark_beq hsame (show '"' ∈ marks by decide)]
    apply Follows.ite
    · intro _
      exact .bind .stringLiteral fun _ => .bind (.expect rfl (by simp)) fun _ => .pure _
    · intro _
      exact .bind follows_target_expression fun _ => .pure _
  apply Follows.bind (.wordThen (by intro a; cases a <;> rfl)
    (by intro a; cases a <;> simp [InputHead.token])
    (by intro a; cases a <;> rfl) hhead)
  intro head
  have hrest : Follows M n (repeated .inputComma do let _ ← target expression)
      (repeated .inputComma do let _ ← target expression) := follows_repeated rfl rfl htarget
  apply Follows.ite
  · intro _
    exact .bind follows_target_expression fun _ => hrest
  · intro _
    exact hrest

/-- The rule of a form goes on from every text that is aligned with one from which it does. -/
theorem follows_rule {form : Form} (hform : form ∈ Form.all) {nested nested' : Input → Node × Input}
    (hnested : FollowsNested M n nested nested') :
    Follows M (n + 1) (form.rule nested) (form.rule nested') := by
  have hexpression : Follows M (n + 1) (do let _ ← expression) (do let _ ← expression) :=
    .bind (follows_expression _) fun _ => .pure _
  have spelled := Form.spelled_of_mem hform
  cases form with
  | bare t => exact .expect spelled.1 spelled.2
  | single t => exact .bind (.expect spelled.1 spelled.2) fun _ => hexpression
  | pair t separator =>
    exact .bind (.expect spelled.1.1 spelled.1.2) fun _ => .bind (follows_expression _) fun _ =>
      .bind (.expect spelled.2.1 spelled.2.2) fun _ => hexpression
  | draw t separator position =>
    obtain ⟨ht, hseparator, hposition⟩ := spelled
    exact .bind (.expect ht.1 ht.2) fun _ => .bind (follows_expression _) fun _ =>
      .bind (.expect hseparator.1 hseparator.2) fun _ => .bind (follows_expression _) fun _ =>
        .bind (.expect hposition.1 hposition.2) fun _ => hexpression
  | lineRange t numbered separator => exact follows_lineRange spelled nested nested'
  | display isOn =>
    cases isOn with
    | false =>
      exact .bind (.wordThen (fun _ => rfl) (by simp) (fun _ => rfl) .variableName)
        fun _ => .pure _
    | true =>
      exact .bind (.wordThen (fun _ => rfl) (by simp) (fun _ => rfl) .variableName)
        fun _ => .pure _
  | forLoop =>
    apply Follows.bind (.expect rfl (by simp))
    intro _
    apply Follows.bind follows_integerName
    intro _
    apply Follows.bind (.expect rfl (by simp))
    intro _
    apply Follows.bind (follows_expression _)
    intro _
    apply Follows.bind (.expect rfl (by simp))
    intro _
    apply Follows.bind (follows_expression _)
    intro _
    apply Follows.bind (.word? rfl (by simp) (by decide))
    intro found
    apply Follows.ite
    · intro _
      exact hexpression
    · intro _
      exact .pure _
  | nextLoop =>
    exact .bind (.expect rfl (by simp)) fun _ => .bind follows_integerName fun _ =>
      (follows_repeated rfl rfl follows_integerName)
  | dimension =>
    have hitem : Follows M (n + 1) (do extent (← variableName)) (do extent (← variableName)) :=
      .bind .variableName fun type => follows_extent type
    exact .bind (.wordThen (fun _ => rfl) (by simp) (fun _ => rfl) .variableName)
      fun type => .bind (follows_extent type) fun _ => (follows_repeated rfl rfl hitem)
  | inputList => exact follows_inputList nested nested'
  | printList =>
    exact .bind (.wordThen (fun _ => rfl) (by simp) (fun _ => rfl) follows_printItem)
      fun _ => (Follows.loop (fun _ => follows_printTail) leaf_of_printTail ())
  | conditional =>
    rw [conditional_rule, conditional_rule]
    exact .bind_leafy follows_conditionThen ((leafy_expect _).bind_left) (follows_consequence hnested)
  | remark => exact follows_remark nested nested'
  | assignment =>
    exact .bind (follows_assignmentRule (by rintro t ⟨⟩; exact ⟨rfl, by simp⟩)) fun _ => .pure _

theorem follows_whole {r r' : Rule α} (h : Follows M n r r') :
    Follows M n (whole r) (whole r') := by
  apply Follows.bind h
  intro _
  apply Follows.bind .atEnd
  intro isEnd
  apply Follows.ite
  · intro _
    exact .pure _
  · intro _
    exact .stop _ _

end IntegerBasic.Grammar
