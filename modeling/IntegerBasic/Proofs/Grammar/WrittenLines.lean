import IntegerBasic.Proofs.Grammar.Kinship
import IntegerBasic.Proofs.Grammar.Tiling

/-!
# Lines as they are written

The leaves of a sound line, from a place to the end, are read one after the other where they
stand. Nothing but gaps lies between them, an operand is followed by a token or by nothing, and a
remark takes all that is left. Whatever changes a line leaf by leaf is described by induction along
these leaves.
-/

namespace IntegerBasic.Grammar

def Input.leafOf (i : Input) (kind : LeafKind) (text : List Char) : Leaf :=
  ⟨kind, text, ⟨i.point, ⟨i.row, i.col + text.length⟩⟩⟩

@[simp] theorem leaves_leaf (i : Input) (kind : LeafKind) (text : List Char) :
    (i.leaf kind text).leaves = [i.leafOf kind text] := rfl

/-- The leaves from a place to the end of the line. The flag says whether an operand may stand at
the place. -/
inductive Written : Bool → Input → List Leaf → Prop
  | done {q : Bool} {i : Input} (h : front i.rest = []) : Written q i []
  | leaf {q : Bool} {i : Input} {kind : LeafKind} {text rest : List Char} {L : List Leaf}
      (takes : Takes kind i.skip.rest text rest) (hrem : kind ≠ .token .rem)
      (allowed : kind.isOperand = true → q = true)
      (more : Written (!kind.isOperand) (i.skip.after text rest) L) :
      Written q i (i.skip.leafOf kind text :: L)
  | bareRemark {q : Bool} {i : Input} {text : List Char}
      (read : Lexeme.word Token.rem.spelling.toList i.skip.rest = some (text, [])) :
      Written q i [i.skip.leafOf (.token .rem) text]
  | remark {q : Bool} {i : Input} {text rest : List Char}
      (read : Lexeme.word Token.rem.spelling.toList i.skip.rest = some (text, rest))
      (ne : rest ≠ []) :
      Written q i
        [i.skip.leafOf (.token .rem) text, (i.skip.after text rest).leafOf .comment rest]

namespace Written

variable {q : Bool} {i j : Input} {L : List Leaf}

theorem skip (h : Written q i.skip L) : Written q i L := by
  cases h with
  | done h => exact .done (by rwa [rest_skip, front_front] at h)
  | leaf takes hrem allowed more =>
    rw [skip_skip] at takes more ⊢
    exact .leaf takes hrem allowed more
  | bareRemark read =>
    rw [skip_skip] at read ⊢
    exact .bareRemark read
  | remark read ne =>
    rw [skip_skip] at read ⊢
    exact .remark read ne

/-- What is written where no operand stands may stand anywhere. -/
theorem strengthen (h : Written false i L) : Written q i L := by
  cases h with
  | done h => exact .done h
  | leaf takes hrem allowed more =>
    exact .leaf takes hrem (fun hoperand => by cases allowed hoperand) more
  | bareRemark read => exact .bareRemark read
  | remark read ne => exact .remark read ne

/-- Nothing is written at the end of a line. -/
theorem eq_nil (h : Written q i L) (hi : i.rest = []) : L = [] := by
  have hskip : i.skip.rest = [] := by rw [rest_skip, hi, front_nil]
  cases h with
  | done => rfl
  | leaf takes =>
    have hne := takes.ne_nil
    have happend := takes.append
    rw [hskip, List.append_eq_nil_iff] at happend
    exact absurd happend.1 hne
  | bareRemark read =>
    rw [hskip] at read
    cases read
  | remark read =>
    rw [hskip] at read
    cases read

/-- One more leaf before those that follow. -/
theorem cons {kind : LeafKind} {text rest : List Char} (takes : Takes kind i.rest text rest)
    (hi : i.skip = i) (hrem : kind ≠ .token .rem) (allowed : kind.isOperand = true → q = true)
    (more : Written (!kind.isOperand) (i.after text rest) L) :
    Written q i (i.leafOf kind text :: L) := by
  have hleaf : Written q i (i.skip.leafOf kind text :: L) :=
    .leaf (by rwa [hi]) hrem allowed (by rwa [hi])
  rwa [hi] at hleaf

end Written

variable {i j : Input} {L : List Leaf} {nodes : List Node} {node : Node}

theorem Reads.ne_rem {kind : LeafKind} {s text rest : List Char} (h : Reads kind s text rest) :
    kind ≠ .token .rem := by
  cases h with
  | word plain =>
    rintro ⟨⟩
    cases plain
  | @operator t _ _ _ lhs first =>
    have key : ∀ t ∈ binaryOperators, ∀ lhs ∈ [DataType.integer, DataType.string],
        LeafKind.token (operatorAfter lhs t) ≠ .token .rem := by decide
    exact key t (List.mem_of_find?_eq_some first) lhs (by cases lhs <;> simp)
  | negation | integer | lineArgument | name | string => simp

/-- No word begins with a gap. -/
theorem bare_of_word {t : Token} {s text rest : List Char}
    (h : Lexeme.word t.spelling.toList s = some (text, rest)) : Bare s := by
  have key : ∀ c ∈ t.spelling.toList, c ≠ ' ' ∧ c ≠ '\t' := forall_spelling (by decide) t
  cases hspelling : t.spelling.toList with
  | nil => exact absurd hspelling (spelling_ne_nil t)
  | cons letter letters =>
    have hletter := key letter (by rw [hspelling]; exact List.mem_cons_self)
    rw [hspelling] at h
    cases s with
    | nil => cases h
    | cons c rest =>
      rintro _ ⟨⟩
      cases hgap : Text.isGap c with
      | false => rfl
      | true =>
        simp only [Text.isGap, Bool.or_eq_true, beq_iff_eq] at hgap
        have hne : Lexeme.sameLetter letter c = false := by
          rcases hgap with rfl | rfl
          · exact Lexeme.sameLetter_of_ne (by decide) hletter.1
          · exact Lexeme.sameLetter_of_ne (by decide) hletter.2
        rw [Lexeme.word_cons_of_ne _ _ hne] at h
        cases h

/-- No leaf begins with a gap. -/
theorem Reads.bare {kind : LeafKind} {s text rest : List Char} (h : Reads kind s text rest) :
    Bare s := by
  have hinteger : ∀ {s text rest : List Char}, Lexeme.integer s = some (text, rest) → Bare s := by
    intro s text rest h
    obtain ⟨rfl, htext, -⟩ := Lexeme.integer_some h
    obtain ⟨c, more, rfl, hc⟩ := htext.head
    rintro _ ⟨⟩
    exact Lexeme.isGap_of_isDigit hc
  cases h with
  | word _ h => exact bare_of_word h
  | operator _ _ h => exact bare_of_word h
  | negation h => exact bare_of_word (word_of_negation h)
  | integer h => exact hinteger h
  | lineArgument h => exact hinteger h
  | name h =>
    obtain ⟨c, more, tail, rfl, hc, -, -⟩ := Lexeme.name_eq_some h
    rintro _ ⟨⟩
    cases hgap : Text.isGap c with
    | false => rfl
    | true =>
      simp only [Text.isGap, Bool.or_eq_true, beq_iff_eq] at hgap
      rcases hgap with rfl | rfl <;> cases hc
  | string h =>
    obtain ⟨more, rfl, -, -⟩ := Lexeme.string_eq_some h
    rintro _ ⟨⟩
    rfl

theorem Takes.bare {kind : LeafKind} {s text rest : List Char} (h : Takes kind s text rest) :
    Bare s := by
  cases h with
  | reads h => exact h.bare
  | pointer _ h => exact bare_of_word h
  | colon =>
    rintro _ ⟨⟩
    rfl

theorem front_append {gaps : List Char} (hgaps : ∀ c ∈ gaps, Text.isGap c = true)
    (s : List Char) : front (gaps ++ s) = front s := by
  rw [front, List.dropWhile_append_of_pos hgaps, front]

/-- The gaps and the leaf that come first, and what follows them. -/
theorem rest_eq_of_takes {i : Input} {kind : LeafKind} {text rest : List Char}
    (takes : Takes kind i.skip.rest text rest) :
    i.rest = i.rest.takeWhile Text.isGap ++ (text ++ rest) := by
  rw [takes.append, rest_skip, front, List.takeWhile_append_dropWhile]

theorem skip_of_bare (h : Bare i.rest) : i.skip = i := skip_of_head h

/-- The leaves of a trace are written before those that follow it. -/
theorem Trace.written {K : LeafKind → Bool} {q q' : Bool} (h : Trace K q i nodes q' j)
    (more : Written q' j L) : Written q i (Node.leavesOf nodes ++ L) := by
  induction h generalizing L with
  | @done q q' i h =>
    cases q' with
    | true => rw [h rfl]; exact more
    | false => exact more.strengthen
  | skip _ ih => exact .skip (ih more)
  | leaf _ read allowed _ ih =>
    rw [Node.leavesOf_cons, leaves_leaf, List.singleton_append, List.cons_append]
    exact .cons (.reads read) (skip_of_bare read.bare) read.ne_rem allowed (ih more)
  | inner _ _ _ ih₁ ih₂ =>
    rw [Node.leavesOf_cons, Input.enclose, Node.leaves_inner, List.append_assoc]
    exact ih₁ (ih₂ more)

/-- The leaves of a sound statement are written before those that follow it. -/
theorem IsStatement.written (h : IsStatement i node j) (sound : node.hasError = false)
    (more : Written false j L) : Written true i (node.leaves ++ L) := by
  induction h generalizing L with
  | plain h _ _ =>
    rw [leaves_enclose]
    exact h.written more
  | pointer ht read h _ =>
    rw [leaves_enclose, Node.leavesOf_cons, leaves_leaf, List.singleton_append, List.cons_append]
    refine .cons (.pointer ht read) (skip_of_bare (bare_of_word read)) ?_ (fun _ => rfl)
      (h.written more)
    rcases ht with rfl | rfl <;> simp
  | @remark i text rest read =>
    have hskip : i.skip = i := skip_of_bare (bare_of_word read)
    rw [leaves_enclose, Node.leavesOf_cons, leaves_leaf, more.eq_nil rfl, List.append_nil]
    rw [← hskip] at read
    rw [commentOf]
    by_cases hempty : rest.isEmpty = true
    · rw [if_pos (show (i.after text rest).rest.isEmpty = true from hempty)]
      rw [List.isEmpty_iff.1 hempty] at read
      have := Written.bareRemark (q := true) read
      rwa [hskip] at this
    · rw [if_neg (show ¬(i.after text rest).rest.isEmpty = true from hempty)]
      have := Written.remark (q := true) read fun hrest => hempty (List.isEmpty_iff.2 hrest)
      rwa [hskip] at this
  | conditional h _ ih =>
    rw [leaves_enclose, Node.leavesOf_append, Node.leavesOf_cons, Node.leavesOf_nil,
      List.append_nil, List.append_assoc]
    exact h.written (ih (by simp_all [Input.enclose, Node.hasError]) more)
  | broken => rw [hasError_recover] at sound; cases sound
  | brokenPointer => rw [hasError_recover] at sound; cases sound

/-- The leaves of sound statements are written up to the end of the line. Behind a statement they
begin with a colon, if there are any. -/
theorem written_statementsUpTo (n : Nat) (i : Input) (hn : i.rest.length < n)
    (sound : ∀ node ∈ statementsUpTo n i, node.hasError = false) {q : Bool}
    (hq : q = true ∨ endsStatement i.skip.rest = true) :
    Written q i (Node.leavesOf (statementsUpTo n i)) := by
  induction n, i using statementsUpTo_induction generalizing q with
  | stop => omega
  | done n i hrest => exact .done hrest
  | colon n i rest hrest ih =>
    have hlength : rest.length < n := by
      have := length_skip_le i
      rw [hrest, List.length_cons] at this
      omega
    rw [Node.leavesOf_cons, leaves_leaf, List.singleton_append]
    have htakes : Takes (.token .colon) i.skip.rest [':'] rest := by
      rw [hrest]
      exact .colon
    exact .leaf htakes (by simp) (by simp [LeafKind.isOperand])
      (ih hlength (fun node hnode => sound node (List.mem_cons_of_mem _ hnode)) (.inl rfl))
  | statement n i node j _ hnode hbegins ih =>
    have hlength : j.rest.length < n := by
      have : j.rest.length < i.skip.rest.length := hnode.length_lt hbegins
      have := length_skip_le i
      omega
    obtain rfl : q = true := hq.resolve_right (by simp [hbegins])
    have hends : endsStatement j.skip.rest = true := by
      rw [skip_of_endsStatement hnode.ends]
      exact hnode.ends
    rw [Node.leavesOf_cons]
    exact .skip (hnode.written (sound node List.mem_cons_self)
      (ih hlength (fun node hnode => sound node (List.mem_cons_of_mem _ hnode)) (.inr hends)))

theorem leaves_line {row : Int} {s number rest : List Char}
    (hs : Lexeme.lineNumber s = some (number, rest)) :
    (line row s).leaves = Input.leafOf ⟨row, 0, s⟩ .lineNumber number ::
      Node.leavesOf (statements (Input.after ⟨row, 0, s⟩ number rest)) := by
  rw [line, hs, Node.leaves_inner, Node.leavesOf_cons, leaves_leaf]
  rfl

theorem exists_lineNumber {row : Int} {s : List Char} (sound : (line row s).hasError = false) :
    ∃ number rest, Lexeme.lineNumber s = some (number, rest) := by
  cases hs : Lexeme.lineNumber s with
  | none => simp [line, hs, unnumbered, Node.hasError, LeafKind.isError] at sound
  | some pair => exact ⟨pair.1, pair.2, rfl⟩

/-- The leaves behind the number of a sound line. -/
theorem written_line {row : Int} {s number rest : List Char}
    (hs : Lexeme.lineNumber s = some (number, rest)) (sound : (line row s).hasError = false) :
    Written true (Input.after ⟨row, 0, s⟩ number rest)
      (Node.leavesOf (statements (Input.after ⟨row, 0, s⟩ number rest))) := by
  refine written_statementsUpTo _ _ (Nat.lt_succ_self _) (fun node hnode => ?_) (.inl rfl)
  have hmem : node ∈ (line row s).children := by
    rw [children_line hs]
    exact List.mem_append_right _ hnode
  exact hasError_of_mem sound hmem

end IntegerBasic.Grammar
