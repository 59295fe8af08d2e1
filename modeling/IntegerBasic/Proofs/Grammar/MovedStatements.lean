import IntegerBasic.Proofs.Grammar.MovedRules
import IntegerBasic.Proofs.Grammar.Kinship
import IntegerBasic.Proofs.Grammar.LeafOrder
import IntegerBasic.Proofs.Grammar.LineSimulation

/-!
# Statements on a moved line

What holds of rules holds of statements, broken ones included, with two exceptions where something
comes behind the line. A remark takes all that is left of the line. And at the end of a line the
letters `HIMEM` are no word, but become one when a colon comes behind them. No sound statement ends
with these letters, so a sound statement without a remark is read as before.
-/

namespace IntegerBasic.Grammar

open Rule

variable {α β σ : Type} {m : Move} {n : Nat}

theorem hasColon_of_isPlain {t : Token} (h : t.isPlain = true) : hasColon t = false := by
  simp only [Token.isPlain, Bool.and_eq_true, bne_iff_ne, ne_eq] at h
  simp [hasColon, h]

/-- A separator and what follows it make the text shorter. -/
theorem advancing_separator {separator : Token} (plain : separator.isPlain = true)
    {item : Rule Unit} (hitem : Traced anywhere true item (fun _ => false)) :
    Advancing (σ := Unit) fun _ => do
      if ← word? separator then
        item
        return some ()
      else return none := by
  refine advancing_of_traced (K := anywhere) (q := false) (fun _ => false) (fun _ => ?_) ?_
  · apply Traced.bind (.word? plain rfl)
    intro found
    apply Traced.ite
    · intro hfound
      rw [hfound]
      exact .bind hitem fun _ => .pure _ id
    · intro _
      exact .pure _ (by simp)
  · intro s i nodes s' j h
    obtain ⟨xs, found, k, ys, hx, hy, rfl⟩ := bind_ok h
    cases found with
    | true =>
      rw [Node.leavesOf_append]
      exact List.append_ne_nil_of_left_ne_nil (leaf_of_word? hx) _
    | false => cases hy

theorem advancing_printTail : Advancing (σ := Unit) fun _ => printTail :=
  advancing_of_traced _ (fun _ => traced_printTail) leaf_of_printTail

namespace Moves

theorem assignmentRule {word : Option Token} (hword : ∀ t ∈ word, hasColon t = false) :
    Moves m n (assignmentRule word) (Grammar.assignmentRule word) := by
  apply enclose
  have hbody : Moves m n (do
      let type ← Grammar.target Grammar.expression
      Rule.expect (.equals type)
      let _ ← Grammar.expression
      return type) (do
      let type ← Grammar.target Grammar.expression
      Rule.expect (.equals type)
      let _ ← Grammar.expression
      return type) :=
    bind ((target (expression n)).mono (Nat.le_succ n)) fun _ => bind (expect (.inr rfl)) fun _ =>
      bind (expression n) fun _ => pure _
  cases word with
  | none => exact hbody
  | some t => exact bind (expect (.inr (hword t rfl))) fun _ => hbody

theorem integerName : Moves m n Grammar.integerName Grammar.integerName :=
  bind variableName fun _ => ite (stop _) (pure _)

theorem extent (type : DataType) : Moves m n (Grammar.extent type) (Grammar.extent type) :=
  bind (expect (.inr rfl)) fun _ => bind (expression n) fun _ => expect (.inr rfl)

theorem repeated {separator : Token} (plain : separator.isPlain = true) {item : Rule Unit}
    (htraced : Traced anywhere true item (fun _ => false)) (hitem : Moves m n item item) :
    Moves m n (Grammar.repeated separator item) (Grammar.repeated separator item) :=
  loop (fun _ => bind (word? (.inr (hasColon_of_isPlain plain))) fun _ =>
    ite (bind hitem fun _ => pure _) (pure _)) (advancing_separator plain htraced) _

theorem atEnd : Moves m n Rule.atEnd Rule.atEnd := by
  refine peek (fun _ => pure _) (fun c => ?_) rfl
  rw [m.isCase.some_beq_mark rfl]
  rfl

theorem printItem : Moves m n Grammar.printItem Grammar.printItem := by
  have hnone : Moves m n noItem noItem := peek (fun _ => pure _) (fun c => by
    rw [m.isCase.some_beq_mark rfl, m.isCase.some_beq_mark rfl, m.isCase.some_beq_mark rfl]
    rfl) rfl
  exact bind hnone fun _ => ite (pure _) (bind (expression n) fun _ => pure _)

theorem printTail : Moves m n Grammar.printTail Grammar.printTail := by
  refine peek (fun _ => ?_)
    (fun c => by rw [m.isCase.some_beq_mark rfl, m.isCase.some_beq_mark rfl]) rfl
  exact ite (bind (wordThen (.inr rfl) printItem) fun _ => pure _) <|
    ite (bind (wordThen (.inr rfl) printItem) fun _ => pure _) (pure _)

theorem lineArgument : Moves m n (Rule.token? Lexeme.integer .lineArgument)
    (Rule.token? Lexeme.integer .lineArgument) :=
  token? Lexeme.moves_integer _

theorem conditionThen : Moves m n Grammar.conditionThen Grammar.conditionThen :=
  bind (expect (.inr rfl)) fun _ => bind (expression n) fun _ =>
    wordThen (.inr rfl) (ahead (Move.ask (q := fun s => (Lexeme.integer s).isSome)
      (fun s => (Lexeme.blind_integer m.isCase).isSome s)
      fun s t => by rw [Lexeme.integer_followed, Option.isSome_map]))

theorem single {t : Token} (ht : m.Admits t) (nested nested' : Input → Node × Input) :
    Moves m n ((Form.single t).rule nested) ((Form.single t).rule nested') :=
  bind (expect ht) fun _ => bind (expression n) fun _ => pure _

/-- The rule of a form without nested statements that is no remark. -/
theorem form {form : Form} (plain : form.Plain) (hremark : form ≠ .remark)
    (hconditional : form ≠ .conditional) (nested nested' : Input → Node × Input) :
    Moves m n (form.rule nested) (form.rule nested') := by
  have hexpression := expression (m := m) n
  have htarget : Moves m n (Grammar.target Grammar.expression)
      (Grammar.target Grammar.expression) := (target hexpression).mono (Nat.le_succ n)
  have admits : ∀ {t : Token}, t.isPlain = true → m.Admits t :=
    fun h => .inr (hasColon_of_isPlain h)
  cases form with
  | bare t => exact expect (admits plain)
  | single t => exact single (admits plain) nested nested'
  | pair t separator =>
    exact bind (expect (admits plain.1)) fun _ => bind hexpression fun _ =>
      bind (expect (admits plain.2)) fun _ => bind hexpression fun _ => pure _
  | draw t separator position =>
    exact bind (expect (admits plain.1)) fun _ => bind hexpression fun _ =>
      bind (expect (admits plain.2.1)) fun _ => bind hexpression fun _ =>
        bind (expect (admits plain.2.2)) fun _ => bind hexpression fun _ => pure _
  | lineRange t numbered separator =>
    refine bind (wordThen (admits plain.1) lineArgument) fun _ => ite ?_ (pure _)
    cases separator with
    | none => exact pure _
    | some comma =>
      exact bind (word? (admits (plain.2.2.2 comma rfl))) fun _ =>
        ite (bind lineArgument fun _ => ite (pure _) (stop _)) (pure _)
  | display isOn =>
    exact ite (bind (wordThen (.inr rfl) variableName) fun _ => pure _)
      (bind (wordThen (.inr rfl) variableName) fun _ => pure _)
  | forLoop =>
    exact bind (expect (.inr rfl)) fun _ => bind integerName fun _ =>
      bind (expect (.inr rfl)) fun _ => bind hexpression fun _ =>
        bind (expect (.inr rfl)) fun _ => bind hexpression fun _ =>
          bind (word? (.inr rfl)) fun _ => ite (bind hexpression fun _ => pure _) (pure _)
  | nextLoop =>
    exact bind (expect (.inr rfl)) fun _ => bind integerName fun _ =>
      repeated rfl traced_integerName integerName
  | dimension =>
    have hitem : Traced anywhere true (do Grammar.extent (← Grammar.variableName))
        (fun _ => false) := .bind traced_variableName.anywhere fun type => traced_extent type
    exact bind (wordThen (.inr rfl) variableName) fun _ => bind (extent _) fun _ =>
      repeated rfl hitem (bind variableName fun _ => extent _)
  | inputList =>
    have hquote := m.isCase.some_beq_mark (m := '"') rfl
    have hitem : Traced anywhere true (do let _ ← Grammar.target Grammar.expression)
        (fun _ => false) :=
      .bind (traced_target traced_expression_only).anywhere fun _ => .pure _ (by simp)
    have hcomma : Token.inputComma.isPlain = true := rfl
    have htargets := repeated hcomma hitem (bind htarget fun _ => pure ())
    refine bind (wordThen (.inr rfl) (peek (fun _ => ?_) (fun c => by rw [hquote]) rfl)) fun _ => ?_
    · exact ite (bind stringLiteral fun _ => bind (expect (.inr rfl)) fun _ => pure _)
        (bind htarget fun _ => pure _)
    · exact ite (bind htarget fun _ => htargets) htargets
  | printList =>
    exact bind (wordThen (.inr rfl) printItem) fun _ =>
      loop (fun _ => printTail) advancing_printTail _
  | conditional => exact absurd rfl hconditional
  | remark => exact absurd rfl hremark
  | assignment => exact bind (assignmentRule (by rintro t ⟨⟩; rfl)) fun _ => pure _

end Moves

/-- The word of a statement is found as before, or only a colon behind the line completes it. Then
the text holds no word that a statement begins with, and no sign of an assignment either. -/
theorem ofText?_followed {s : List Char} (hs : Bare s) (u : List Char) :
    Form.ofText? (s ++ ':' :: u) = Form.ofText? s ∨ Form.ofText? s = none ∧ '=' ∉ s := by
  have hspaces : ∀ t : Token, ∀ c ∈ t.spelling.toList, c ≠ ' ' :=
    fun t c hc => ((Lexeme.spelled_spelling t).plain c hc).1
  have hbare : ∀ c ∈ (s ++ ':' :: u).head?, Lexeme.isSpace c = false := by
    cases s with
    | nil =>
      rintro c ⟨⟩
      rfl
    | cons c s => exact fun d hd => Lexeme.isSpace_of_not_isGap (hs d hd)
  by_cases hsame : ∀ form ∈ Form.all, Lexeme.word form.token.spelling.toList (s ++ ':' :: u) =
      (Lexeme.word form.token.spelling.toList s).map (Lexeme.followed (':' :: u))
  · refine .inl (List.find?_congr fun form hform => ?_)
    rw [hsame form hform, Option.isSome_map]
  · obtain ⟨pointer, hmem, hne⟩ : ∃ form ∈ Form.all,
        ¬Lexeme.word form.token.spelling.toList (s ++ ':' :: u) =
          (Lexeme.word form.token.spelling.toList s).map (Lexeme.followed (':' :: u)) := by
      simpa using hsame
    obtain ⟨hnone, text, rest, hword⟩ := (Lexeme.word_followed_or _ s u).resolve_left hne
    have hlong : (Lexeme.wordTail pointer.token.spelling.toList (s ++ ':' :: u)).isSome = true := by
      rw [← Lexeme.word_eq_wordTail (hspaces _) hbare, hword]
      rfl
    have hcolon : hasColon pointer.token = true := by
      by_contra hcolon
      exact hne (Lexeme.word_followed (sameLetter_colon (by simpa using hcolon)) s u)
    refine .inr ⟨List.find?_eq_none.2 fun form hform hread => ?_, fun heq => ?_⟩
    · -- a word that the text begins with is a part of the one that the colon completes
      have key : ∀ pointer ∈ Form.all, hasColon pointer.token = true → ∀ form ∈ Form.all,
          ((Lexeme.folded pointer.token.spelling.toList).isPrefixOf
            (Lexeme.folded form.token.spelling.toList) = true →
              Lexeme.folded form.token.spelling.toList =
                Lexeme.folded pointer.token.spelling.toList) ∧
          ((Lexeme.folded form.token.spelling.toList).isPrefixOf
            (Lexeme.folded pointer.token.spelling.toList) = true →
              form.token = pointer.token) := by
        decide +kernel
      obtain ⟨hshort, hpart⟩ := key pointer hmem hcolon form hform
      have hread' : (Lexeme.wordTail form.token.spelling.toList (s ++ ':' :: u)).isSome = true := by
        rw [← Lexeme.word_eq_wordTail (hspaces _) hbare]
        rcases Lexeme.word_followed_or form.token.spelling.toList s u with h | ⟨-, _, _, h⟩
        · rwa [h, Option.isSome_map]
        · rw [h]
          rfl
      rw [Lexeme.isSome_wordTail_of_begin (hspaces _) (hspaces _) hlong
        fun hprefix => hshort (List.isPrefixOf_iff_prefix.2 hprefix)] at hread'
      rw [hpart hread', hnone] at hread
      cases hread
    · have key : ∀ pointer ∈ Form.all, hasColon pointer.token = true →
          ∀ letter ∈ pointer.token.spelling.toList, Lexeme.sameLetter letter '=' = false := by
        decide +kernel
      rcases mem_word hword '=' (List.mem_append_left _ heq) with hspace | ⟨letter, hl, hsame⟩
      · cases hspace
      · rw [key pointer hmem hcolon letter hl] at hsame
        cases hsame

/-- The word of a statement is found as before if something else shows that a sound statement
begins here. -/
theorem ofText?_text {s : List Char} (hs : Bare s)
    (h : m.tail = [] ∨ Form.ofText? s ≠ none ∨ '=' ∈ s) :
    Form.ofText? (m.text s) = Form.ofText? s := by
  have hcase : Form.ofText? (s.map m.letters) = Form.ofText? s := ofText?_map m.isCase s
  rw [Move.text]
  rcases m.tail_cases with htail | ⟨u, htail⟩
  · rw [htail, List.append_nil, hcase]
  · have hbare : Bare (s.map m.letters) := by
      cases s with
      | nil => rintro c ⟨⟩
      | cons d s =>
        rintro c ⟨⟩
        rw [m.isCase.isGap, hs d rfl]
    rw [htail]
    rcases ofText?_followed hbare u with hsame | ⟨hnone, hequal⟩
    · rw [hsame, hcase]
    · rcases h with h | h | h
      · rw [htail] at h
        cases h
      · rw [hcase] at hnone
        exact absurd hnone h
      · exact absurd (List.mem_map.2 ⟨'=', h, m.isCase.other '=' rfl⟩) hequal

/-- There is a sign of an assignment in what is read as one. -/
theorem mem_of_assignmentRule {i j : Input} {nodes : List Node} {type : DataType}
    (h : assignmentRule none i = ⟨nodes, .ok (type, j)⟩) : '=' ∈ i.rest := by
  obtain ⟨inside, hbody, -⟩ := enclose_ok h
  obtain ⟨xs, type, k, ys, hx, hy, -⟩ := bind_ok hbody
  obtain ⟨zs, ⟨⟩, l, ws, hz, -, -⟩ := bind_ok hy
  obtain ⟨text, rest, hread, -, -⟩ := expect_ok hz
  obtain ⟨before, hpasses, -⟩ := ((traced_target traced_expression_only).ok hx).passes
  have hequal : '=' ∈ k.skip.rest := by
    have hspelling : (Token.equals type).spelling.toList = ['='] := by cases type <;> decide
    rw [hspelling] at hread
    cases hrest : k.skip.rest with
    | nil =>
      rw [hrest] at hread
      cases hread
    | cons c more =>
      rw [hrest, Lexeme.word_mark (by decide)] at hread
      split at hread
      · subst ‹c = '='›
        exact List.mem_cons_self
      · cases hread
  rw [hpasses.rest, (Passes.skip k).rest]
  exact List.mem_append_right _ (List.mem_append_right _ hequal)


section Recover

variable {i : Input}

theorem statementText_text {s : List Char} (h : m.Fits s) :
    statementText false (m.text s) = (statementText false s).map m.letters := by
  rw [Move.text]
  rcases m.tail_cases with htail | ⟨u, htail⟩
  · rw [htail, List.append_nil, statementText_map m.isCase]
  · have hpaired : Paired s := h.resolve_left (by simp [htail])
    have hmapped : PairedFrom false (s.map m.letters) := hpaired.map m.isCase
    rw [htail, statementText_followed hmapped, statementText_map m.isCase]

theorem length_statementText_le (quoted : Bool) (s : List Char) :
    (statementText quoted s).length ≤ s.length := by
  rw [← append_drop_statementText quoted s, List.length_append, append_drop_statementText]
  exact Nat.le_add_right _ _

theorem length_trimRight_le (s : List Char) : (Text.trimRight s).length ≤ s.length := by
  rw [Text.trimRight, Text.dropTail, List.length_reverse]
  exact (List.dropWhile_suffix _).length_le.trans (by rw [List.length_reverse])

/-- What a broken statement did not recognize lies within the line, and is the same on the moved
line. -/
theorem errorLeaf_move (hfits : m.Fits i.rest) {nodes : List Node}
    (h : ∀ node ∈ nodes, Within i node) (cause : Mismatch) :
    errorLeaf (i.move m) (nodes.map (Node.move m.letters m.right)) cause =
        (errorLeaf i nodes cause).move m.letters m.right ∧
      Within i (.leaf (errorLeaf i nodes cause)) := by
  have htext : statementText false (i.move m).rest =
      (statementText false i.rest).map m.letters := statementText_text hfits
  have hlength := length_statementText_le false i.rest
  have htrim := length_trimRight_le (statementText false i.rest)
  have hcol : (i.move m).col = i.col + m.right := rfl
  have hmoved : nodesStop (nodes.map (Node.move m.letters m.right)) (i.col + m.right) =
      nodesStop nodes i.col + m.right := by
    rw [nodesStop, nodesStop, List.getLast?_map]
    cases nodes.getLast? with
    | none => rfl
    | some node => simp [Span.right, Point.right]
  have hstart : i.col ≤ nodesStop nodes i.col ∧
      nodesStop nodes i.col ≤ i.col + i.rest.length := by
    rw [nodesStop]
    cases hlast : nodes.getLast? with
    | none => exact ⟨Nat.le_refl _, Nat.le_add_right _ _⟩
    | some node =>
      have hwithin := h node (List.mem_of_getLast? hlast)
      exact ⟨hwithin.stop, hwithin.last⟩
  simp only [errorLeaf, htext, trimRight_map m.isCase, List.length_map, hcol, hmoved]
  generalize nodesStop nodes i.col = start at hstart ⊢
  generalize hstop : max start (i.col + (Text.trimRight (statementText false i.rest)).length) = stop
  have hmax : max (start + m.right)
      (i.col + m.right + (Text.trimRight (statementText false i.rest)).length) =
      stop + m.right := by
    omega
  have hend : i.col ≤ stop ∧ stop ≤ i.col + i.rest.length := by omega
  refine ⟨?_, hstart.1, hend.1, hend.2⟩
  rw [hmax, slice_move m i hstart.1 hend.2]
  rfl

/-- A broken statement is broken in the same way on the moved line. -/
theorem recover_move (hfits : m.Fits i.rest) {nodes : List Node}
    (h : ∀ node ∈ nodes, Within i node) (cause : Mismatch) :
    recover (i.move m) (nodes.map (Node.move m.letters m.right)) cause =
        ((recover i nodes cause).1.move m.letters m.right, (recover i nodes cause).2.move m) ∧
      Within i (recover i nodes cause).1 ∧ m.Fits (recover i nodes cause).2.rest := by
  obtain ⟨herror, hwithin⟩ := errorLeaf_move hfits h cause
  have hall : ∀ node ∈ nodes ++ [.leaf (errorLeaf i nodes cause)], Within i node := by
    intro node hnode
    rcases List.mem_append.1 hnode with hnode | hnode
    · exact h node hnode
    · obtain rfl := List.mem_singleton.1 hnode
      exact hwithin
  have hplace : (recover (i.move m) (nodes.map (Node.move m.letters m.right)) cause).2 =
      (recover i nodes cause).2.move m := by
    have hlength := length_statementText_le false i.rest
    show (i.move m).after (statementText false (m.text i.rest))
      ((m.text i.rest).drop (statementText false (m.text i.rest)).length) = _
    rw [statementText_text hfits, List.length_map, Move.text,
      List.drop_append_of_le_length (by rwa [List.length_map]), ← List.map_drop]
    exact after_move m i _ _
  refine ⟨Prod.ext ?_ hplace, ?_, ?_⟩
  · rw [recover_eq, herror, recover_eq, ← enclose_move m i _ hall, List.map_append,
      List.map_singleton, Node.move_leaf]
  · rw [recover_eq]
    exact within_enclose _ hall
  · refine hfits.imp_right fun hpaired => ?_
    have hfrom : PairedFrom false i.rest := hpaired
    exact paired_drop_statementText hfrom

def nestedRule (read : Input → Node × Input) : Rule Unit := fun i =>
  ⟨[(read i).1], .ok ((), (read i).2)⟩

/-- What is made of a statement is made of it on the moved line. -/
theorem settle_move (hfits : m.Fits i.rest) {byWord : Option (Reading Unit)}
    {byName : Reading Unit} (hword : ∀ r ∈ byWord, Stays m i r) (hname : Stays m i byName) :
    settle (i.move m) (byWord.map (Reading.move m)) (byName.move m) =
        ((settle i byWord byName).1.move m.letters m.right, (settle i byWord byName).2.move m) ∧
      Stays m i (nestedRule (fun i => settle i byWord byName) i) := by
  have hwhole : ∀ {nodes : List Node} {j : Input}, Stays m i ⟨nodes, .ok ((), j)⟩ →
      ((i.move m).enclose .statement (nodes.map (Node.move m.letters m.right)), j.move m) =
          ((i.enclose .statement nodes).move m.letters m.right, j.move m) ∧
        Stays m i ⟨[i.enclose .statement nodes], .ok ((), j)⟩ := by
    intro nodes j h
    refine ⟨by rw [enclose_move m i _ h.nodes], fun node hnode => ?_, fun hplace => ?_⟩
    · obtain rfl := List.mem_singleton.1 hnode
      exact within_enclose _ h.nodes
    · cases hplace
      exact h.place rfl
  have hbroken : ∀ {nodes : List Node} {e : Mismatch},
      Stays m i (⟨nodes, .error e⟩ : Reading Unit) →
      recover (i.move m) (nodes.map (Node.move m.letters m.right)) e =
          ((recover i nodes e).1.move m.letters m.right, (recover i nodes e).2.move m) ∧
        Stays m i (nestedRule (fun i => recover i nodes e) i) := by
    intro nodes e h
    obtain ⟨hmove, hwithin, hfits'⟩ := recover_move hfits h.nodes e
    refine ⟨hmove, fun node hnode => ?_, fun hplace => ?_⟩
    · obtain rfl := List.mem_singleton.1 hnode
      exact hwithin
    · cases hplace
      exact ⟨hfits', _, passes_recover i nodes e⟩
  rcases byWord with _ | ⟨nodes, e | ⟨⟨⟩, j⟩⟩
  · rcases byName with ⟨nodes, e | ⟨⟨⟩, j⟩⟩
    · exact hbroken hname
    · exact hwhole hname
  · rcases byName with ⟨nodes', e' | ⟨⟨⟩, j⟩⟩
    · exact hbroken (hword _ rfl)
    · exact hwhole hname
  · exact hwhole (hword _ rfl)

end Recover

/-- Neither an error nor a remark is among the leaves. -/
def Clean (nodes : List Node) : Prop :=
  ∀ l ∈ Node.leavesOf nodes, l.kind.isError = false ∧ l.kind ≠ .token .rem

theorem clean_append {xs ys : List Node} : Clean (xs ++ ys) ↔ Clean xs ∧ Clean ys := by
  rw [Clean, Node.leavesOf_append, List.forall_mem_append]
  rfl

theorem Clean.right {xs ys : List Node} (h : Clean (xs ++ ys)) : Clean ys :=
  (clean_append.1 h).2

theorem clean_cons {node : Node} {nodes : List Node} :
    Clean (node :: nodes) ↔ Clean [node] ∧ Clean nodes :=
  @clean_append [node] nodes

theorem hasError_of_clean {node : Node} (h : Clean [node]) : node.hasError = false := by
  rw [Node.hasError, List.any_eq_false]
  intro l hl
  simp [(h l (by simpa using hl)).1]

/-- Wherever less than `n` characters are left, the second way to read a statement reads on the
moved line what the first reads on the line, if nothing comes behind the line or if the statement is
sound and holds no remark. -/
def MovesStatement (m : Move) (n : Nat) (read read' : Input → Node × Input) : Prop :=
  ∀ ⦃i : Input⦄, m.Fits i.rest → i.rest.length < n → (m.tail = [] ∨ Clean [(read i).1]) →
    MovesAt m (nestedRule read) (nestedRule read') i

theorem MovesAt.whole {r r' : Rule α} {i : Input} (h : MovesAt m r r' i) :
    MovesAt m (whole r) (Grammar.whole r') i := by
  refine h.bind fun nodes a j hread => ?_
  obtain ⟨hfits, -⟩ := h.2.place (congrArg Reading.outcome hread)
  have hend : Moves m (j.rest.length + 1) (do unless ← atEnd do stop .surplus)
      (do unless ← atEnd do stop .surplus) :=
    .bind .atEnd fun _ => .ite (.pure _) (.stop _)
  exact hend hfits (Nat.lt_succ_self _)

/-- A rule behind which the statement ends has read a whole statement. -/
theorem whole_of_ends {r : Rule Unit} {i j : Input} {nodes : List Node}
    (h : r i = ⟨nodes, .ok ((), j)⟩) (hend : endsStatement j.rest = true) :
    whole r i = ⟨nodes, .ok ((), j)⟩ := by
  have hatEnd : atEnd j = ⟨[], .ok (true, j)⟩ := by
    rw [atEnd_eq, skip_of_endsStatement hend, hend]
  exact (bind_of_ok h (bind_of_ok hatEnd rfl)).trans (by rw [List.nil_append, List.append_nil])

theorem consumes_conditionThen : Consumes conditionThen := by
  intro i nodes isLine j h
  have hlength := (traced_conditionThen.ok h).length_le
  have hleafy : Leafy conditionThen := (leafy_expect _).bind_left
  have hpos := List.length_pos_iff.2 (hleafy h)
  omega

section Form

variable {nested nested' : Input → Node × Input} {i : Input} {j : Input} {nodes : List Node}

/-- A remark is read as before where nothing comes behind the line. -/
theorem movesAt_remark (htail : m.tail = []) :
    MovesAt m (Form.remark.rule nested) (Form.remark.rule nested') i := by
  have hfits : ∀ s, m.Fits s := fun s => .inl htail
  refine (Moves.expect (.inr rfl) (hfits _) (Nat.lt_succ_self _)).bind fun _ _ j _ => ?_
  have htext : m.text j.rest = j.rest.map m.letters := by rw [Move.text, htail, List.append_nil]
  have hafter := after_move m j j.rest []
  rw [show m.text [] = [] by rw [Move.text, htail]; rfl] at hafter
  unfold MovesAt
  dsimp only
  rw [rest_move, htext, List.isEmpty_map, leaf_move]
  split
  · exact ⟨rfl, (MovesAt.pure (hfits _) ()).2⟩
  · refine ⟨by rw [hafter]; rfl, fun node hnode => ?_, fun hplace => ?_⟩
    · obtain rfl := List.mem_singleton.1 hnode
      exact ⟨Nat.le_refl _, Nat.le_add_right _ _, Nat.le_refl _⟩
    · cases hplace
      exact ⟨hfits _, j.rest, .after (List.append_nil _).symm⟩

/-- A conditional is read as before if the statement in it is. -/
theorem movesAt_conditional (hends : ∀ k, endsStatement (nested k).2.rest = true)
    (hnested : MovesStatement m n nested nested') (hfits : m.Fits i.rest)
    (hlt : i.rest.length < n + 1)
    (hclean : m.tail = [] ∨ ∀ nodes j,
      whole (Form.conditional.rule nested) i = ⟨nodes, .ok ((), j)⟩ → Clean nodes) :
    MovesAt m (Form.conditional.rule nested) (Form.conditional.rule nested') i := by
  have hthen : Moves m (n + 1) conditionThen conditionThen := .conditionThen
  rw [conditional_rule, conditional_rule]
  refine (hthen hfits hlt).bind fun xs isLine j hread => ?_
  have hfits' := ((hthen hfits hlt).2.place (congrArg Reading.outcome hread)).1
  have hshort := consumes_conditionThen hread
  cases isLine with
  | true =>
    exact Moves.bind (.expression n) (fun _ => .pure ()) hfits' (by omega)
  | false =>
    refine MovesAt.bind (Moves.atEnd hfits' (Nat.lt_succ_self _)) fun ys isEnd k hend => ?_
    rw [atEnd_eq] at hend
    cases hend
    cases hatEnd : endsStatement j.skip.rest with
    | true => exact ⟨rfl, .stop _⟩
    | false =>
      have hle := length_skip_le j
      refine hnested (fits_skip hfits') (by omega) (hclean.imp_right fun hclean => ?_)
      have hrule : Form.conditional.rule nested i =
          ⟨xs ++ ([] ++ [(nested j.skip).1]), .ok ((), (nested j.skip).2)⟩ := by
        rw [conditional_rule]
        exact bind_of_ok hread (bind_of_ok (by rw [atEnd_eq, hatEnd]) rfl)
      exact (hclean _ _ (whole_of_ends hrule (hends _))).right

/-- The rule of a word that comes next reads a whole statement as before. -/
theorem movesAt_whole {form : Form} (hends : ∀ k, endsStatement (nested k).2.rest = true)
    (hnested : MovesStatement m n nested nested') (hfits : m.Fits i.rest)
    (hlt : i.rest.length < n + 1) (hword : Form.ofText? i.skip.rest = some form)
    (hclean : m.tail = [] ∨ ∀ nodes j,
      whole (form.rule nested) i = ⟨nodes, .ok ((), j)⟩ → Clean nodes) :
    MovesAt m (whole (form.rule nested)) (whole (form.rule nested')) i := by
  have hread : (Lexeme.word form.token.spelling.toList i.skip.rest).isSome = true :=
    isSome_word_of_ofText? hword
  have hsingle : ∀ t, form = .single t →
      MovesAt m (whole (form.rule nested)) (whole (form.rule nested')) i := by
    rintro t rfl
    refine MovesAt.whole ((MovesAt.expect_of_isSome hfits hread).bind fun _ _ j h => ?_)
    have hfits' := ((MovesAt.expect_of_isSome hfits hread).2.place (congrArg Reading.outcome h)).1
    exact Moves.bind (.expression _) (fun _ => .pure ()) hfits' (Nat.lt_succ_self _)
  rcases Form.plain_of_mem (List.mem_of_find?_eq_some hword) with plain | hform | hform
  · by_cases hremark : form = .remark
    · subst hremark
      rcases hclean with htail | hclean
      · exact (movesAt_remark htail).whole
      · -- a remark always fits, and has the leaf that was ruled out
        obtain ⟨⟨text, rest⟩, hrem⟩ := Option.isSome_iff_exists.1 hread
        have hleaf := hclean _ _ (whole_of_ends (remark_of_word hrem) rfl)
        exact absurd rfl (hleaf _ (by rw [Node.leavesOf_cons]; exact List.mem_cons_self)).2
    · by_cases hconditional : form = .conditional
      · subst hconditional
        exact (movesAt_conditional hends hnested hfits hlt hclean).whole
      · exact (Moves.form plain hremark hconditional nested nested' hfits
          (Nat.lt_succ_self _)).whole
  · exact hsingle _ hform
  · exact hsingle _ hform

/-- The word of a sound statement is found on the moved line. -/
theorem ofText?_move (hclean : m.tail = [] ∨ Clean [(statementWith nested i).1]) :
    Form.ofText? (i.skip.move m).rest = Form.ofText? i.skip.rest := by
  refine ofText?_text (bare_front i.rest) (hclean.imp_right fun hclean => ?_)
  rcases statementWith_cases nested i (hasError_of_clean hclean) with
    ⟨form, hword, -⟩ | ⟨⟨nodes, hname, -⟩, -⟩
  · exact .inl (by simp [hword])
  · obtain ⟨type, k, hread, -⟩ := whole_ok hname
    exact .inr (mem_of_assignmentRule hread)

theorem movesStatement_statementWith (hends : ∀ k, endsStatement (nested k).2.rest = true)
    (hnested : MovesStatement m n nested nested') :
    MovesStatement m (n + 1) (statementWith nested) (statementWith nested') := by
  intro i hfits hlt hclean
  have hskipped := fits_skip hfits
  have hle := length_skip_le i
  have hname : MovesAt m (whole (assignmentRule none)) (whole (assignmentRule none)) i.skip :=
    (Moves.assignmentRule (by simp) hskipped (Nat.lt_succ_self _)).whole
  have hword : ∀ form, Form.ofText? i.skip.rest = some form →
      MovesAt m (whole (form.rule nested)) (whole (form.rule nested')) i.skip := by
    intro form hform
    refine movesAt_whole hends hnested hskipped (by omega) (by rw [skip_skip, hform])
      (hclean.imp_right fun hclean nodes j hread l hl => ?_)
    rw [statementWith_of_word hform hread] at hclean
    exact hclean l (by rw [Node.leavesOf_cons, leaves_enclose]; exact List.mem_append_left _ hl)
  have hmoved : statementWith nested' (i.move m) = settle (i.skip.move m)
      (((Form.ofText? i.skip.rest).map fun form => whole (form.rule nested) i.skip).map
        (Reading.move m)) ((whole (assignmentRule none) i.skip).move m) := by
    rw [statementWith, skip_move, ofText?_move hclean, hname.1]
    cases hform : Form.ofText? i.skip.rest with
    | none => rfl
    | some form => rw [Option.map_some, Option.map_some, Option.map_some, (hword form hform).1]
  have hreadings : ∀ r ∈ (Form.ofText? i.skip.rest).map fun form =>
      whole (form.rule nested) i.skip, Stays m i.skip r := by
    intro r hr
    obtain ⟨form, hform, rfl⟩ := Option.map_eq_some_iff.1 hr
    exact (hword form hform).2
  obtain ⟨hsettle, hstays⟩ := settle_move hskipped hreadings hname.2
  rw [← hmoved] at hsettle
  refine ⟨?_, (Stays.skip hfits ()).append hstays⟩
  rw [nestedRule, hsettle]
  rfl

/-- Statements nested deeper than there are characters make no difference on either side. -/
theorem movesStatement_statementUpTo {n a b : Nat} (ha : n ≤ a) (hb : n ≤ b) :
    MovesStatement m n (statementUpTo a) (statementUpTo b) := by
  induction n generalizing a b with
  | zero => exact fun _ _ hlt => absurd hlt (Nat.not_lt_zero _)
  | succ n ih =>
    obtain ⟨a, rfl⟩ : ∃ a', a = a' + 1 := ⟨a - 1, by omega⟩
    obtain ⟨b, rfl⟩ : ∃ b', b = b' + 1 := ⟨b - 1, by omega⟩
    exact movesStatement_statementWith (ends_statementUpTo a) (ih (by omega) (by omega))

theorem movesStatement_statement (n : Nat) : MovesStatement m n statement statement := by
  intro i hfits _ hclean
  have hlength : i.rest.length + 1 ≤ (i.move m).rest.length + 1 := by
    rw [length_move]
    omega
  have hdeep := movesStatement_statementUpTo (Nat.le_refl _) hlength hfits
    (Nat.lt_succ_self i.rest.length) hclean
  have hread : ∀ i, nestedRule statement i = nestedRule (statementUpTo (i.rest.length + 1)) i := by
    intro i
    rw [nestedRule, nestedRule, statement]
  rw [MovesAt, hread, hread]
  exact hdeep

end Form

theorem statementsUpTo_skip (n : Nat) (i : Input) :
    statementsUpTo n i.skip = statementsUpTo n i := by
  cases n with
  | zero => rfl
  | succ n => rw [statementsUpTo, statementsUpTo, skip_skip]

/-- A statement where no colon comes next makes the line shorter. -/
theorem length_statement_lt {i : Input} (hnil : front i.rest ≠ [])
    (hcolon : ∀ rest, front i.rest ≠ ':' :: rest) :
    (statement i.skip).2.rest.length < i.rest.length := by
  have hstatement := isStatement_statement i.skip
  rw [skip_skip] at hstatement
  rw [← rest_skip] at hnil hcolon
  exact Nat.lt_of_lt_of_le (hstatement.length_lt (endsStatement_eq_false hnil hcolon))
    (length_skip_le i)

/-- More rounds than there are characters make no difference. -/
theorem statementsUpTo_congr {a b : Nat} {i : Input} (ha : i.rest.length < a)
    (hb : i.rest.length < b) : statementsUpTo a i = statementsUpTo b i := by
  induction a generalizing b i with
  | zero => omega
  | succ a ih =>
    obtain ⟨b, rfl⟩ : ∃ b', b = b' + 1 := ⟨b - 1, by omega⟩
    by_cases hnil : front i.rest = []
    · rw [statementsUpTo_of_nil hnil, statementsUpTo_of_nil hnil]
    by_cases hcolon : ∃ rest, front i.rest = ':' :: rest
    · obtain ⟨rest, hrest⟩ := hcolon
      have hlength := length_front_le i.rest
      rw [hrest, List.length_cons] at hlength
      have hshort : (i.skip.after [':'] rest).rest.length < i.rest.length := hlength
      rw [statementsUpTo_of_colon hrest, statementsUpTo_of_colon hrest,
        ih (b := b) (by omega) (by omega)]
    · have hcolon : ∀ rest, front i.rest ≠ ':' :: rest := fun rest h => hcolon ⟨rest, h⟩
      have hshort := length_statement_lt hnil hcolon
      rw [statementsUpTo_of_statement hnil hcolon, statementsUpTo_of_statement hnil hcolon,
        ih (b := b) (by omega) (by omega)]

def Input.lineEnd (m : Move) (i : Input) : Input :=
  ⟨i.row, i.col + i.rest.length + m.right, m.tail⟩

theorem Passes.lineEnd {i j : Input} {text : List Char} (h : Passes i text j) :
    j.lineEnd m = i.lineEnd m := by
  have hlength := congrArg List.length h.rest
  have hcol := h.col
  rw [List.length_append] at hlength
  rw [Input.lineEnd, Input.lineEnd, h.row,
    show j.col + j.rest.length = i.col + i.rest.length by omega]

theorem move_of_nil {i : Input} (h : i.rest = []) : i.move m = i.lineEnd m := by
  simp [Input.move, Input.lineEnd, Move.text, h]

theorem front_move (i : Input) : front (i.move m).rest = m.text (front i.rest) :=
  (Move.span_text m.isCase.isGap rfl i.rest).2

theorem front_move_of_colon {i : Input} {rest : List Char} (h : front i.rest = ':' :: rest) :
    front (i.move m).rest = ':' :: m.text rest := by
  rw [front_move, h, Move.text, List.map_cons, m.isCase.other ':' rfl]
  rfl

/-- What is no colon does not become one. -/
theorem front_move_of_statement {i : Input} (hnil : front i.rest ≠ [])
    (hcolon : ∀ rest, front i.rest ≠ ':' :: rest) :
    front (i.move m).rest ≠ [] ∧ ∀ rest, front (i.move m).rest ≠ ':' :: rest := by
  obtain ⟨c, more, hcons⟩ := List.exists_cons_of_ne_nil hnil
  rw [front_move, hcons, Move.text, List.map_cons, List.cons_append]
  refine ⟨List.cons_ne_nil _ _, fun rest h => hcolon more ?_⟩
  rw [hcons, (m.isCase.eq_mark rfl c).1 (List.cons.inj h).1]

/-- A colon is read on the moved line as it is on the line. -/
theorem colon_move (i : Input) (rest : List Char) :
    (i.move m).leaf (.token .colon) [':'] =
        (i.leaf (.token .colon) [':']).move m.letters m.right ∧
      (i.move m).after [':'] (m.text rest) = (i.after [':'] rest).move m := by
  have hmark : [':'].map m.letters = [':'] := by rw [List.map_singleton, m.isCase.other ':' rfl]
  have hleaf := leaf_move m i (.token .colon) [':']
  have hafter := after_move m i [':'] rest
  rw [hmark] at hleaf hafter
  exact ⟨hleaf, hafter⟩

/-- The statements of the moved line are those of the line and those of what comes behind it. -/
theorem statementsUpTo_move {a b c : Nat} {i : Input} (hfits : m.Fits i.rest)
    (hclean : m.tail = [] ∨ Clean (statementsUpTo a i)) (ha : i.rest.length < a)
    (hb : (i.move m).rest.length < b) (hc : m.tail.length < c) :
    statementsUpTo b (i.move m) =
      (statementsUpTo a i).map (Node.move m.letters m.right) ++
        statementsUpTo c (i.lineEnd m) := by
  induction a generalizing b i with
  | zero => omega
  | succ a ih =>
    obtain ⟨b, rfl⟩ : ∃ b', b = b' + 1 := ⟨b - 1, by omega⟩
    have hskip := length_skip_le i
    have hend : i.skip.lineEnd m = i.lineEnd m := (Passes.skip i).lineEnd
    rw [length_move] at hb
    rw [← hend]
    by_cases hnil : front i.rest = []
    · -- behind the gaps comes what is put behind the line
      have hrest : i.skip.rest = [] := hnil
      rw [statementsUpTo_of_nil hnil, List.map_nil, List.nil_append, ← move_of_nil hrest,
        ← statementsUpTo_skip, skip_move]
      refine statementsUpTo_congr ?_ ?_ <;> rw [length_move, hrest, List.length_nil] <;> omega
    by_cases hcolon : ∃ rest, front i.rest = ':' :: rest
    · obtain ⟨rest, hrest⟩ := hcolon
      have hskipped : i.skip.rest = [':'] ++ rest := hrest
      have hfits' : m.Fits rest := by
        have hfits := fits_skip hfits
        rw [hskipped] at hfits
        exact hfits.right rfl
      rw [hskipped, List.length_append, List.length_singleton] at hskip
      rw [statementsUpTo_of_colon hrest] at hclean ⊢
      have hmore := ih (b := b) (i := i.skip.after [':'] rest) hfits'
        (hclean.imp_right fun h => (clean_cons.1 h).2) (show rest.length < a by omega)
        (by rw [length_move]; show rest.length + _ < b; omega)
      obtain ⟨hleaf, hafter⟩ := colon_move (m := m) i.skip rest
      rw [statementsUpTo_of_colon (front_move_of_colon hrest), skip_move, hleaf, hafter, hmore,
        (Passes.after hskipped).lineEnd]
      rfl
    · have hcolon : ∀ rest, front i.rest ≠ ':' :: rest := fun rest h => hcolon ⟨rest, h⟩
      have hshort := length_statement_lt hnil hcolon
      obtain ⟨hnil', hcolon'⟩ := front_move_of_statement (m := m) hnil hcolon
      rw [statementsUpTo_of_statement hnil hcolon] at hclean ⊢
      obtain ⟨hsame, hstays⟩ := movesStatement_statement (m := m) _ (fits_skip hfits)
        (Nat.lt_succ_self _) (hclean.imp_right fun h => (clean_cons.1 h).1)
      obtain ⟨hfits', text, hpasses⟩ := hstays.place rfl
      have hmore := ih (b := b) (i := (statement i.skip).2) hfits'
        (hclean.imp_right fun h => (clean_cons.1 h).2) (by omega)
        (by rw [length_move]; omega)
      obtain ⟨hnode, hplace⟩ : (statement (i.skip.move m)).1 =
          (statement i.skip).1.move m.letters m.right ∧
          (statement (i.skip.move m)).2 = (statement i.skip).2.move m := by
        simpa [nestedRule, Reading.move, Except.map] using hsame
      rw [statementsUpTo_of_statement hnil' hcolon', skip_move, hnode, hplace, hmore,
        hpasses.lineEnd]
      rfl

end IntegerBasic.Grammar
