import IntegerBasic.Proofs.Grammar.FormVerdicts

/-!
# Simulation of lines

Two aligned texts are read as similar lines. A statement that is read as an assignment although it
begins with a word is so in both, since the choice between word and name depends only on the
letters of the name and on the mark behind it.
-/

namespace IntegerBasic.Grammar

open Rule

variable {M : Match}

def FoldsNames (M : Match) : Prop :=
  ∀ ⦃type : DataType⦄ ⦃name text : List Char⦄ ⦃span : Span⦄, M ⟨.name type, name, span⟩ text →
    Lexeme.folded (name.takeWhile Char.isAlphanum) = Lexeme.folded (text.takeWhile Char.isAlphanum)

theorem Takes.sound {kind : LeafKind} {s text rest : List Char} (h : Takes kind s text rest) :
    kind.isError = false := by
  cases h with
  | reads h => cases h <;> rfl
  | pointer => rfl
  | colon => rfl

/-- No error leaf is aligned with anything. -/
theorem Aligned.sound {L : List Leaf} {x y : List Char} (h : Aligned M L x y) :
    ∀ l ∈ L, l.kind.isError = false := by
  induction h with
  | nil => simp
  | leaf _ _ hy _ _ _ _ _ _ ih => exact List.forall_mem_cons.2 ⟨hy.sound, ih⟩
  | bareRemark kind => simp [kind, LeafKind.isError]
  | remark kind _ _ _ _ _ comment => simp [kind, comment, LeafKind.isError]

theorem run_takeWhile (s : List Char) : Run (s.takeWhile Char.isAlphanum) :=
  fun c hc => List.all_eq_true.1 List.all_takeWhile c hc

theorem nameType_of_run {u d : List Char} (hu : Run u)
    (h : Lexeme.nameType (u ++ d) = .string) : d ≠ [] := by
  rintro rfl
  rw [List.append_nil, Lexeme.nameType] at h
  by_cases hlast : u.getLast? = some '$'
  · have := hu _ (List.mem_of_getLast? hlast)
    revert this
    decide
  · rw [if_neg hlast] at h
    cases h

/-- The mark near the letters of an assignment, as far as the name and a tab tell it. -/
theorem near_of_name {shape : Shape} {s text k : List Char}
    (h : Assignment expression expression shape (s.dropWhile Char.isAlphanum))
    (hname : Lexeme.name s = some (text, k)) :
    shape.near = if Lexeme.nameType text = .string then '$'
      else if tabNext k then '\t' else shape.mark := by
  obtain ⟨-, d, rfl, hdollar⟩ := name_parts hname
  have hrun : Run (s.takeWhile Char.isAlphanum) := run_takeWhile s
  rcases h.dollar_cases with ⟨hnear, d', s', hdollar', -, -⟩ | ⟨hnear, hdollar', -⟩
  · rw [hdollar'] at hdollar
    cases hdollar
    have hlast : d.getLast? = some '$' := by
      rcases Lexeme.dollar_cases (s.dropWhile Char.isAlphanum) with ⟨after, -, hsign⟩ | ⟨hne, -⟩
      · cases hsign.symm.trans hdollar'
        simp
      · exact absurd (h.near.trans (congrArg some hnear)) hne
    have htype : Lexeme.nameType (s.takeWhile Char.isAlphanum ++ d) = .string := by
      rw [Lexeme.nameType, List.getLast?_append, hlast]
      rfl
    rw [if_pos htype, hnear]
  · rw [hdollar'] at hdollar
    cases hdollar
    rw [if_neg fun htype => nameType_of_run hrun htype rfl, tabNext, h.near]
    rcases h.front_cases with ⟨hdollar, -⟩ | ⟨-, htab | hmark, -⟩
    · exact absurd hdollar hnear
    · simp [htab]
    · have : shape.mark ≠ '\t' := by
        unfold Shape.mark
        split <;> decide
      simp [hmark, this]

/-- The letters and digits that a name begins with are those of the text. -/
theorem takeWhile_of_name {s text k : List Char} (h : Lexeme.name s = some (text, k)) :
    text.takeWhile Char.isAlphanum = s.takeWhile Char.isAlphanum := by
  obtain ⟨-, d, rfl, hdollar⟩ := name_parts h
  have hmem : ∀ c ∈ d, c.isAlphanum = false := by
    rcases Lexeme.dollar_cases (s.dropWhile Char.isAlphanum) with ⟨after, -, hsign⟩ | ⟨-, hnone⟩
    · cases hsign.symm.trans hdollar
      intro c hc
      rcases List.mem_append.1 hc with hc | hc
      · have hspace := List.all_eq_true.1 List.all_takeWhile c hc
        obtain rfl : c = ' ' := by simpa [Lexeme.isSpace] using hspace
        rfl
      · obtain rfl : c = '$' := by simpa using hc
        rfl
    · cases hnone.symm.trans hdollar
      simp
  have hnil : d.takeWhile Char.isAlphanum = [] := by
    cases d with
    | nil => rfl
    | cons c d => exact List.takeWhile_cons_of_neg (by simp [hmem c List.mem_cons_self])
  rw [List.takeWhile_append_of_pos (run_takeWhile s), hnil, List.append_nil]

theorem named_assignmentRule : Named (assignmentRule none) :=
  Named.enclose (named_target expression).bind_left

/-- What has been read as an assignment in two aligned texts has the same shape in both. -/
theorem shapeOf_congr {i i' : Input} {nodes nodes' : List Node} {type type' : DataType}
    {j j' : Input} {L : List Leaf} (hM : FoldsNames M)
    (hi : assignmentRule none i = ⟨nodes, .ok (type, j)⟩)
    (hends : endsStatement (front j.rest) = true)
    (hi' : assignmentRule none i' = ⟨nodes', .ok (type', j')⟩)
    (hends' : endsStatement (front j'.rest) = true)
    (halign : Aligned M (Node.leavesOf nodes ++ L) i.rest i'.rest) :
    shapeOf i'.skip.rest = shapeOf i.skip.rest ∧
      Lexeme.folded (i'.skip.rest.takeWhile Char.isAlphanum) =
        Lexeme.folded (i.skip.rest.takeWhile Char.isAlphanum) := by
  obtain ⟨text, rest, span, more, hname, hleaves⟩ := named_assignmentRule hi
  rw [hleaves, List.cons_append] at halign
  generalize more ++ L = later at halign
  cases halign with
  | bareRemark kind => cases kind
  | remark kind => cases kind
  | @leaf _ _ _ x' _ y' text' _ hx hy _ same _ tab _ h =>
    have hrest : x' = rest := by
      rw [← rest_skip, ← Lexeme.append_of_name hname, List.append_cancel_left_eq] at hx
      exact hx.symm
    subst hrest
    obtain ⟨hname', htype⟩ := hy.name
    rw [← rest_skip] at hname'
    have helement : (shapeOf i'.skip.rest).element = (shapeOf i.skip.rest).element := by
      show isSubscripted _ = isSubscripted _
      rw [isSubscripted_of_name hname, isSubscripted_of_name hname', h.opensNext]
    have hnear : (shapeOf i'.skip.rest).near = (shapeOf i.skip.rest).near := by
      rw [near_of_name (assignment_of_ok hi hends) hname,
        near_of_name (assignment_of_ok hi' hends') hname', htype, tab _ rfl, Shape.mark, helement,
        Shape.mark]
    refine ⟨?_, ?_⟩
    · show (⟨_, _⟩ : Shape) = ⟨_, _⟩
      exact congr (congrArg Shape.mk hnear) helement
    · rw [← takeWhile_of_name hname, ← takeWhile_of_name hname', hM same]

theorem takeWhile_ne_nil_of_name {s text k : List Char} (h : Lexeme.name s = some (text, k)) :
    s.takeWhile Char.isAlphanum ≠ [] := by
  obtain ⟨⟨c, rest, rfl, hc⟩, -⟩ := name_parts h
  rw [List.takeWhile_cons_of_pos (by simp [Char.isAlphanum, hc])]
  exact List.cons_ne_nil _ _

theorem isSome_word_of_ofText? {s : List Char} {form : Form} (h : Form.ofText? s = some form) :
    (Lexeme.word form.token.spelling.toList s).isSome = true :=
  List.find?_some (p := fun form : Form => (Lexeme.word form.token.spelling.toList s).isSome) h

/-- A word that does not fit an assignment does not fit one that is aligned with it. -/
theorem stuck_of_aligned {i i' : Input} {nodes nodes' errors : List Node} {type type' : DataType}
    {j j' : Input} {L : List Leaf} {form : Form} {cause : Mismatch}
    {nested nested' : Input → Node × Input} (hM : FoldsNames M)
    (hnested : ∀ k, endsStatement (nested k).2.rest = true)
    (hnested' : ∀ k, endsStatement (nested' k).2.rest = true)
    (hi : assignmentRule none i = ⟨nodes, .ok (type, j)⟩)
    (hends : endsStatement (front j.rest) = true)
    (hi' : assignmentRule none i' = ⟨nodes', .ok (type', j')⟩)
    (hends' : endsStatement (front j'.rest) = true)
    (halign : Aligned M (Node.leavesOf nodes ++ L) i.rest i'.rest)
    (hform : Form.ofText? i.skip.rest = some form) (hform' : Form.ofText? i'.skip.rest = some form)
    (hword : whole (form.rule nested) i.skip = ⟨errors, .error cause⟩) :
    ∃ errors' cause', whole (form.rule nested') i'.skip = ⟨errors', .error cause'⟩ := by
  obtain ⟨hshape, hfolded⟩ := shapeOf_congr hM hi hends hi' hends' halign
  obtain ⟨text, rest, -, -, hname, -⟩ := named_assignmentRule hi
  obtain ⟨text', rest', -, -, hname', -⟩ := named_assignmentRule hi'
  obtain ⟨goes, hsettled⟩ := exists_settled (List.mem_of_find?_eq_some hform)
    (shapeOf i.skip.rest) (Lexeme.folded (i.skip.rest.takeWhile Char.isAlphanum))
  have hgoes := hsettled hnested (run_takeWhile i.skip.rest) (takeWhile_ne_nil_of_name hname) rfl
    (assignment_of_ok hi hends)
    (by rw [List.takeWhile_append_dropWhile]; exact isSome_word_of_ofText? hform)
    (i := i.skip) List.takeWhile_append_dropWhile.symm
  have hgoes' := hsettled hnested' (run_takeWhile i'.skip.rest) (takeWhile_ne_nil_of_name hname')
    hfolded (hshape ▸ assignment_of_ok hi' hends')
    (by rw [List.takeWhile_append_dropWhile]; exact isSome_word_of_ofText? hform')
    (i := i'.skip) List.takeWhile_append_dropWhile.symm
  rw [hword] at hgoes
  rw [← hgoes] at hgoes'
  rcases hwhole : whole (form.rule nested') i'.skip with ⟨errors', cause' | ⟨⟨⟩, k⟩⟩
  · exact ⟨errors', cause', rfl⟩
  · rw [hwhole] at hgoes'
    cases hgoes'

/-- A statement of which all has been read, by one of the two rules for it. -/
def ReadsAs (i : Input) (r : Rule Unit) (node : Node) (k : Input) : Prop :=
  ∃ nodes, r i.skip = ⟨nodes, .ok ((), k)⟩ ∧ node = i.skip.enclose .statement nodes

/-- How a sound statement has been read: by its word, or as an assignment because there is no word
or the word does not fit. -/
theorem statementWith_cases (nested : Input → Node × Input) (i : Input)
    (sound : (statementWith nested i).1.hasError = false) :
    (∃ form, Form.ofText? i.skip.rest = some form ∧
      ReadsAs i (whole (form.rule nested)) (statementWith nested i).1 (statementWith nested i).2) ∨
    ReadsAs i (whole (assignmentRule none)) (statementWith nested i).1 (statementWith nested i).2 ∧
      ∀ form, Form.ofText? i.skip.rest = some form →
        ∃ errors cause, whole (form.rule nested) i.skip = ⟨errors, .error cause⟩ := by
  unfold statementWith settle at sound ⊢
  cases hform : Form.ofText? i.skip.rest with
  | none =>
    rw [hform, Option.map_none] at sound
    rcases hname : whole (assignmentRule none) i.skip with ⟨nodes, e | ⟨⟨⟩, k⟩⟩
    · rw [hname, hasError_recover] at sound
      cases sound
    · exact .inr ⟨⟨nodes, hname, rfl⟩, by simp⟩
  | some form =>
    rw [hform, Option.map_some] at sound
    rw [Option.map_some]
    rcases hword : whole (form.rule nested) i.skip with ⟨errors, cause | ⟨⟨⟩, k⟩⟩
    · rcases hname : whole (assignmentRule none) i.skip with ⟨nodes, e | ⟨⟨⟩, k⟩⟩
      · rw [hword, hname, hasError_recover] at sound
        cases sound
      · refine .inr ⟨⟨nodes, hname, rfl⟩, ?_⟩
        rintro form' ⟨⟩
        exact ⟨errors, cause, hword⟩
    · exact .inl ⟨form, rfl, errors, hword, rfl⟩

/-- A statement that its word fits is read by it. -/
theorem statementWith_of_word {nested : Input → Node × Input} {i k : Input} {form : Form}
    {nodes : List Node} (hform : Form.ofText? i.skip.rest = some form)
    (h : whole (form.rule nested) i.skip = ⟨nodes, .ok ((), k)⟩) :
    statementWith nested i = (i.skip.enclose .statement nodes, k) := by
  rw [statementWith, hform, Option.map_some, h, settle]

/-- A statement that no word fits is read as an assignment. -/
theorem statementWith_of_name {nested : Input → Node × Input} {i k : Input} {nodes : List Node}
    (hform : ∀ form, Form.ofText? i.skip.rest = some form →
      ∃ errors cause, whole (form.rule nested) i.skip = ⟨errors, .error cause⟩)
    (h : whole (assignmentRule none) i.skip = ⟨nodes, .ok ((), k)⟩) :
    statementWith nested i = (i.skip.enclose .statement nodes, k) := by
  rw [statementWith]
  cases hword : Form.ofText? i.skip.rest with
  | none => rw [Option.map_none, h, settle]
  | some form =>
    obtain ⟨errors, cause, hstop⟩ := hform form hword
    rw [Option.map_some, hstop, h, settle]

/-- A statement is read alike from aligned texts, if those nested in it are. -/
theorem followsNested_statementWith (hM : FoldsNames M) {n : Nat}
    {nested nested' : Input → Node × Input}
    (hnested : ∀ k, endsStatement (nested k).2.rest = true)
    (hnested' : ∀ k, endsStatement (nested' k).2.rest = true)
    (hfollows : FollowsNested M n nested nested') :
    FollowsNested M (n + 1) (statementWith nested) (statementWith nested') := by
  intro i i' L hlt halign
  have sound : (statementWith nested i).1.hasError = false := by
    rw [Node.hasError, List.any_eq_false]
    intro l hl
    simp [halign.sound l (List.mem_append_left L hl)]
  have hform : Form.ofText? i.skip.rest = Form.ofText? i'.skip.rest := halign.alike.form
  have hskip : Aligned M ((statementWith nested i).1.leaves ++ L) i.skip.rest i'.skip.rest :=
    Aligned.front_iff.2 halign
  rcases statementWith_cases nested i sound with ⟨form, hword, nodes, hr, hnode⟩ |
      ⟨⟨nodes, hr, hnode⟩, hstop⟩
  · rw [hnode, leaves_enclose] at hlt hskip
    have hmem : form ∈ Form.all := List.mem_of_find?_eq_some hword
    obtain ⟨nodes', j', hr', hsimilar, halign'⟩ :=
      follows_whole (follows_rule hmem hfollows) hr hlt hskip
    rw [hnode, statementWith_of_word (hform.symm.trans hword) hr']
    exact ⟨.inner rfl hsimilar .nil, halign'⟩
  · rw [hnode, leaves_enclose] at hlt hskip
    obtain ⟨nodes', j', hr', hsimilar, halign'⟩ :=
      follows_whole (follows_assignmentRule (by simp)) hr hlt hskip
    obtain ⟨type, k, hname, hk, hend⟩ := whole_ok hr
    obtain ⟨type', k', hname', hk', hend'⟩ := whole_ok hr'
    have hstop' : ∀ form, Form.ofText? i'.skip.rest = some form →
        ∃ errors cause, whole (form.rule nested') i'.skip = ⟨errors, .error cause⟩ := by
      intro form hword
      obtain ⟨errors, cause, herror⟩ := hstop form (hform.trans hword)
      have hends : endsStatement (front k.rest) = true := by rwa [hk, rest_skip] at hend
      have hends' : endsStatement (front k'.rest) = true := by rwa [hk', rest_skip] at hend'
      have hfirst : Form.ofText? i.skip.skip.rest = some form := by
        rw [skip_skip, hform, hword]
      have hsecond : Form.ofText? i'.skip.skip.rest = some form := by rw [skip_skip, hword]
      rw [← skip_skip] at herror ⊢
      exact stuck_of_aligned hM hnested hnested' hname hends hname' hends' hskip hfirst hsecond
        herror
    rw [hnode, statementWith_of_name hstop' hr']
    exact ⟨.inner rfl hsimilar .nil, halign'⟩

theorem ends_statementUpTo (n : Nat) (i : Input) : endsStatement (statementUpTo n i).2.rest = true :=
  (isStatement_statementUpTo n i).ends

/-- Statements are read alike from aligned texts. -/
theorem followsNested_statementUpTo (hM : FoldsNames M) {n a b : Nat} (ha : n ≤ a) (hb : n ≤ b) :
    FollowsNested M n (statementUpTo a) (statementUpTo b) := by
  induction n generalizing a b with
  | zero =>
    intro i i' L hlt
    exact absurd hlt (Nat.not_lt_zero _)
  | succ n ih =>
    obtain ⟨a, rfl⟩ : ∃ a', a = a' + 1 := ⟨a - 1, by omega⟩
    obtain ⟨b, rfl⟩ : ∃ b', b = b' + 1 := ⟨b - 1, by omega⟩
    exact followsNested_statementWith hM (ends_statementUpTo a) (ends_statementUpTo b)
      (ih (by omega) (by omega))

theorem Takes.of_colon {s text rest : List Char} (h : Takes (.token .colon) s text rest) :
    s = ':' :: rest ∧ text = [':'] := by
  generalize hkind : LeafKind.token .colon = kind at h
  cases h with
  | reads h =>
    cases h with
    | word plain => cases hkind; cases plain
    | @operator t _ _ _ lhs first h =>
      have key : ∀ t ∈ binaryOperators, ∀ lhs ∈ [DataType.integer, DataType.string],
          LeafKind.token .colon ≠ .token (operatorAfter lhs t) := by decide
      exact absurd hkind (key t (List.mem_of_find?_eq_some first) lhs (by cases lhs <;> simp))
    | negation | integer | lineArgument | name | string => cases hkind
  | pointer ht =>
    cases hkind
    simp at ht
  | colon => exact ⟨rfl, rfl⟩

theorem Trace.leavesOf_ne_nil {K : LeafKind → Bool} {q q' : Bool} {i j : Input} {nodes : List Node}
    (h : Trace K q i nodes q' j) (ne : nodes ≠ []) : Node.leavesOf nodes ≠ [] := by
  induction h with
  | done => exact absurd rfl ne
  | skip _ ih => exact ih ne
  | leaf => simp [Input.leaf]
  | inner _ within _ ih _ =>
    rw [Node.leavesOf_cons, leaves_enclose]
    exact List.append_ne_nil_of_left_ne_nil (ih within) _

/-- A statement has at least one leaf. -/
theorem IsStatement.leaves_ne_nil {i j : Input} {node : Node} (h : IsStatement i node j) :
    node.leaves ≠ [] := by
  induction h with
  | plain h _ ne =>
    rw [leaves_enclose]
    exact h.leavesOf_ne_nil ne
  | pointer | remark => simp [Input.enclose, Input.leaf]
  | conditional _ _ ih => simp [Input.enclose, ih]
  | broken | brokenPointer => simp [recover, Input.enclose]

/-- The statements of aligned texts are similar. -/
theorem similar_statementsUpTo (hM : FoldsNames M) (n : Nat) {n' : Nat} {i i' : Input}
    (hn' : (Node.leavesOf (statementsUpTo n i)).length < n')
    (h : Aligned M (Node.leavesOf (statementsUpTo n i)) i.rest i'.rest) :
    Similar M (statementsUpTo n i) (statementsUpTo n' i') := by
  induction n generalizing n' i i' with
  | zero =>
    cases h with
    | nil _ hy =>
      rw [statementsUpTo_of_nil hy]
      exact .nil
  | succ n ih =>
    obtain ⟨n', rfl⟩ : ∃ m, n' = m + 1 := ⟨n' - 1, by omega⟩
    by_cases hnil : front i.rest = []
    · have hnil' : front i'.rest = [] := h.alike.empty.1 hnil
      rw [statementsUpTo_of_nil hnil, statementsUpTo_of_nil hnil']
      exact .nil
    have hnil' : front i'.rest ≠ [] := fun hy => hnil (h.alike.empty.2 hy)
    have hmark := h.alike.mark ':' (by decide)
    by_cases hcolon : ∃ rest, front i.rest = ':' :: rest
    · obtain ⟨rest, hrest⟩ := hcolon
      rw [statementsUpTo_of_colon hrest, Input.leaf, Node.leavesOf_cons, Node.leaves_leaf,
        List.singleton_append] at hn' h
      obtain ⟨text, rest', htakes, hsame, hmore⟩ := h.of_cons (by simp) hrest
      obtain ⟨hrest', rfl⟩ := htakes.of_colon
      rw [List.length_cons] at hn'
      rw [statementsUpTo_of_colon hrest, statementsUpTo_of_colon hrest']
      exact .leaf rfl hsame (ih (by omega) hmore)
    · have hcolon' : ∀ rest, front i'.rest ≠ ':' :: rest := by
        intro rest hrest
        rw [hrest] at hmark
        exact hcolon (List.head?_eq_some_iff.1 (hmark.2 rfl))
      rw [statementsUpTo_of_statement hnil fun rest hrest => hcolon ⟨rest, hrest⟩] at hn' h ⊢
      rw [statementsUpTo_of_statement hnil' hcolon']
      rw [Node.leavesOf_cons] at hn' h
      have hskip : Aligned M ((statement i.skip).1.leaves ++
          Node.leavesOf (statementsUpTo n (statement i.skip).2)) i.skip.rest i'.skip.rest :=
        Aligned.front_iff.2 h
      have hpos := List.length_pos_iff.2 (isStatement_statement i.skip).leaves_ne_nil
      obtain ⟨hx, hy⟩ := hskip.length_le
      rw [List.length_append] at hn' hx hy
      obtain ⟨hsimilar, hmore⟩ := followsNested_statementUpTo hM
        (n := (statement i.skip).1.leaves.length + 1)
        (a := i.skip.rest.length + 1) (b := i'.skip.rest.length + 1) (by omega) (by omega)
        (Nat.lt_succ_self _) hskip
      exact hsimilar.append (ih (by omega) hmore)

/-- Two lines are similar if their numbers match and the texts behind them are aligned. -/
theorem similar_line (hM : FoldsNames M) {row row' : Int} {s s' number number' rest rest' : List Char}
    (hs : Lexeme.lineNumber s = some (number, rest))
    (hs' : Lexeme.lineNumber s' = some (number', rest'))
    (hnumber : M ⟨.lineNumber, number, ⟨⟨row, 0⟩, ⟨row, number.length⟩⟩⟩ number')
    (h : Aligned M (Node.leavesOf (statements (Input.after ⟨row, 0, s⟩ number rest))) rest rest') :
    Similar M (line row s).children (line row' s').children := by
  rw [line, hs, line, hs', Node.children, Node.children]
  dsimp only
  have hlength := h.length_le.2
  refine .leaf rfl (by simpa [Input.point] using hnumber) (similar_statementsUpTo hM _ ?_ h)
  exact Nat.lt_succ_of_le hlength

end IntegerBasic.Grammar
