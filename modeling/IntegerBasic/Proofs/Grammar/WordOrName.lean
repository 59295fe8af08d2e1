import IntegerBasic.Proofs.Grammar.StatementSimulation
import IntegerBasic.Proofs.Grammar.Verdicts

/-!
# Words and names

A statement that can be read as an assignment may begin with a word all the same. Whether it is
then read by that word does not depend on case or on gaps: it is settled by the letters and
digits it begins with and by the shape of what follows.
-/

namespace IntegerBasic.Grammar

open Rule

variable {α : Type}

section Depth

variable {n : Nat} {s s' : List Char}

/-- Whether an operand stands alone makes no difference to what is read behind it. -/
theorem loop_of_flag {e : Rule DataType} {lhs : DataType} {alone : Bool} {i j : Input}
    {nodes : List Node} {state : DataType × Bool}
    (h : loop (operatorStep e) (lhs, alone) i = ⟨nodes, .ok (state, j)⟩) (alone' : Bool) :
    ∃ state', loop (operatorStep e) (lhs, alone') i = ⟨nodes, .ok (state', j)⟩ := by
  rw [loop, rounds] at h
  obtain ⟨xs, next, k, ys, hx, hy, rfl⟩ := bind_ok h
  cases next with
  | none =>
    cases hy
    refine ⟨(lhs, alone'), ?_⟩
    rw [loop, rounds]
    exact bind_of_ok hx rfl
  | some state'' =>
    refine ⟨state, ?_⟩
    rw [loop, rounds]
    exact bind_of_ok hx hy

theorem Carries.chain (n : Nat) (alone : Bool) : Carries (chain n alone) (chain n alone) := by
  have he : Carries (Grammar.expressionUpTo n) (Grammar.expressionUpTo n) :=
    .expressionUpTo (Nat.le_refl n)
  apply Carries.bind (.operand he)
  intro first
  apply Carries.loop
  rintro ⟨lhs, alone⟩
  apply Carries.bind (.binaryOperator lhs lhs)
  intro found
  exact .ite (fun _ => .bind (.operand he) fun _ => .pure _) (fun _ => .pure _)

theorem Finishes.chain_flag {alone : Bool} (h : Finishes (chain n alone) s) (alone' : Bool) :
    Finishes (chain n alone') s := by
  obtain ⟨state, s', hreach, hend⟩ := h
  obtain ⟨nodes, j, hrun, rfl⟩ := hreach (i := ⟨0, 0, s⟩) rfl
  obtain ⟨xs, first, k, ys, hx, hy, rfl⟩ := bind_ok hrun
  obtain ⟨state', hy'⟩ := loop_of_flag hy alone'
  exact ⟨state', j.rest, (Carries.chain n alone').reach_of_ok (bind_of_ok hx hy'), hend⟩

/-- An expression is read by every rule that lets parentheses nest deep enough. -/
theorem Reach.expressionUpTo {type : DataType} (h : Reach expression s type s')
    (hn : s.length < n) : Reach (expressionUpTo n) s type s' := by
  intro i hi
  obtain ⟨nodes, j, hr, hj⟩ := h hi
  obtain ⟨nodes', j', hr', hj'⟩ :=
    Carries.expressionUpTo (show i.rest.length + 1 ≤ n by rw [hi]; exact hn) rfl hr
  exact ⟨nodes', j', hr', by rw [← hj', hj]⟩

theorem Finishes.of_expression (h : Finishes expression s) (hn : s.length ≤ n) (alone : Bool) :
    Finishes (chain n alone) s := by
  obtain ⟨type, s', hreach, hend⟩ := h
  have hoperands : Reach (operands (Grammar.expressionUpTo n)) s type s' :=
    hreach.expressionUpTo (n := n + 1) (by omega)
  rw [operands_eq_chain] at hoperands
  obtain ⟨state, k, hchain, hpure⟩ :=
    Reach.of_bind (Carries.chain n true) (fun _ => .pure _) hoperands
  obtain ⟨-, rfl⟩ := hpure.unique (.pure _ _)
  exact Finishes.chain_flag ⟨state, s', hchain, hend⟩ alone

/-- An assignment is one whose parentheses nest no deeper than it is long. -/
theorem Assignment.tail {shape : Shape} {t : List Char}
    (h : Assignment expression expression shape t) (hn : t.length ≤ n) : Tail n shape t := by
  obtain ⟨d, s, hdollar, hassigned⟩ := h.assigned
  have hs : s.length ≤ t.length := by
    have := congrArg List.length (Lexeme.append_of_dollar hdollar)
    rw [List.length_append] at this
    omega
  have hvalued : ∀ {s : List Char}, s.length ≤ t.length → Valued expression s →
      Valued (chain n false) s := by
    rintro s hs ⟨r, hr, hfinishes⟩
    have hlength := length_front_le s
    rw [hr, List.length_cons] at hlength
    exact ⟨r, hr, hfinishes.of_expression (by omega) false⟩
  refine ⟨h.near, d, s, hdollar, ?_⟩
  unfold Assigned at hassigned ⊢
  by_cases helement : shape.element = true
  · rw [if_pos helement] at hassigned ⊢
    obtain ⟨s', ⟨r, type, k, hr, hreach, hclose⟩, hvalue⟩ := hassigned
    have hlength := length_front_le s
    rw [hr, List.length_cons] at hlength
    have hk : k.length ≤ r.length := by
      obtain ⟨nodes, j, hrun, rfl⟩ := hreach (i := ⟨0, 0, r⟩) rfl
      have := (traced_expression.ok hrun).length_le
      dsimp only at this
      omega
    have hs' := length_front_le k
    rw [hclose, List.length_cons] at hs'
    exact ⟨s', ⟨r, type, k, hr, hreach.expressionUpTo (by omega), hclose⟩,
      hvalued (by omega) hvalue⟩
  · rw [if_neg helement] at hassigned ⊢
    exact hvalued hs hassigned

end Depth

section Inversion

variable {i j : Input} {nodes : List Node} {type : DataType}

theorem cons_of_word_mark {p : Char} (hp : p.toNat < 65) {s text rest : List Char}
    (h : Lexeme.word [p] s = some (text, rest)) : s = p :: rest := by
  cases s with
  | nil => cases h
  | cons c s =>
    rw [Lexeme.word_mark hp] at h
    by_cases hc : c = p
    · rw [if_pos hc] at h
      cases h
      rw [hc]
    · rw [if_neg hc] at h
      cases h

/-- What has been read of a name with a subscript. -/
theorem subscripted_ok {opener : Token} (hopener : opener.spelling = "(") {kind : InnerKind}
    (h : subscripted expression opener kind false i = ⟨nodes, .ok (type, j)⟩) :
    ∃ text k, Lexeme.name i.skip.rest = some (text, k) ∧ Bracketed expression k j.rest := by
  obtain ⟨inside, hinside, rfl⟩ := enclose_ok h
  obtain ⟨_, _, k, _, hname, hmore, -⟩ := bind_ok hinside
  obtain ⟨text, rest, hread, -, -, rfl⟩ := variableName_ok hname
  obtain ⟨_, _, l, _, hopen, hmore, -⟩ := bind_ok hmore
  obtain ⟨_, r, hparen, -, rfl⟩ := expect_ok hopen
  obtain ⟨_, arg, k, _, harg, hmore, -⟩ := bind_ok hmore
  obtain ⟨_, _, l, _, hclose, hpure, -⟩ := bind_ok hmore
  obtain ⟨_, r', hmark, -, rfl⟩ := expect_ok hclose
  cases hpure
  rw [hopener] at hparen
  refine ⟨text, rest, hread, r, arg, k.rest, cons_of_word_mark (p := '(') (by decide) hparen,
    Carries.expression.reach_of_ok harg, cons_of_word_mark (p := ')') (by decide) hmark⟩

/-- What has been read of the variable of an assignment. -/
theorem target_ok (h : target expression i = ⟨nodes, .ok (type, j)⟩) :
    ∃ text k, Lexeme.name i.skip.rest = some (text, k) ∧
      if Lexeme.opensNext k then Bracketed expression k j.rest else j.rest = k := by
  obtain ⟨_, isSub, l, _, hahead, hmore, -⟩ := bind_ok h
  cases hahead
  cases hsub : isSubscripted i.skip.rest with
  | true =>
    rw [hsub] at hmore
    have hread : ∃ text k, Lexeme.name i.skip.rest = some (text, k) ∧
        Bracketed expression k j.rest := by
      obtain ⟨_, isString, l, _, hahead, hmore, -⟩ := bind_ok hmore
      cases hahead
      rw [← skip_skip, ← skip_skip i]
      split at hmore
      · exact subscripted_ok rfl hmore
      · exact subscripted_ok rfl hmore
    obtain ⟨text, k, hname, hbracketed⟩ := hread
    rw [isSubscripted_of_name hname] at hsub
    exact ⟨text, k, hname, by rwa [if_pos hsub]⟩
  | false =>
    rw [hsub] at hmore
    obtain ⟨text, k, hname, -, -, rfl⟩ := variableName_ok hmore
    rw [skip_skip] at hname
    rw [isSubscripted_of_name hname] at hsub
    exact ⟨text, k, hname, by rw [if_neg (by simp [hsub])]; rfl⟩

def shapeOf (s : List Char) : Shape where
  near := (((s.dropWhile Char.isAlphanum).dropWhile Lexeme.isSpace).head?).getD ' '
  element := isSubscripted s

/-- A name is a run that begins with a letter, and its dollar sign. -/
theorem name_parts {s text k : List Char} (h : Lexeme.name s = some (text, k)) :
    (∃ c rest, s = c :: rest ∧ c.isAlpha = true) ∧ ∃ d, text = s.takeWhile Char.isAlphanum ++ d ∧
      Lexeme.dollar (s.dropWhile Char.isAlphanum) = some (d, k) := by
  obtain ⟨c, rest, d, rfl, hc, hdollar, rfl⟩ := Lexeme.name_eq_some h
  have hcn : c.isAlphanum = true := by simp [Char.isAlphanum, hc]
  refine ⟨⟨c, rest, rfl, hc⟩, d, ?_, ?_⟩
  · rw [List.takeWhile_cons_of_pos hcn]
  · rw [List.dropWhile_cons_of_pos hcn, hdollar]

theorem head?_of_dollar {t d k : List Char} (h : Lexeme.dollar t = some (d, k))
    (hk : front k ≠ []) : ∃ c, (t.dropWhile Lexeme.isSpace).head? = some c := by
  cases hd : t.dropWhile Lexeme.isSpace with
  | cons c rest => exact ⟨c, rfl⟩
  | nil =>
    unfold Lexeme.dollar at h
    rw [hd] at h
    cases h
    rw [← front_dropWhile_isSpace, hd] at hk
    exact absurd rfl hk

/-- A text that has been read as an assignment is a run and what makes it one. -/
theorem assignment_of_ok (h : assignmentRule none i = ⟨nodes, .ok (type, j)⟩)
    (hend : endsStatement (front j.rest) = true) :
    Assignment expression expression (shapeOf i.skip.rest)
      (i.skip.rest.dropWhile Char.isAlphanum) := by
  obtain ⟨inside, hinside, rfl⟩ := enclose_ok h
  obtain ⟨_, type, k, _, htarget, hmore, -⟩ := bind_ok hinside
  obtain ⟨_, _, l, _, hequals, hmore, -⟩ := bind_ok hmore
  obtain ⟨_, r, hmark, -, rfl⟩ := expect_ok hequals
  obtain ⟨_, value, l, _, hvalue, hpure, -⟩ := bind_ok hmore
  cases hpure
  rw [show (Token.equals type).spelling = "=" from rfl] at hmark
  have hfront : front k.rest = '=' :: r := cons_of_word_mark (p := '=') (by decide) hmark
  have hvalued : Valued expression k.rest :=
    ⟨r, hfront, value, _, Carries.expression.reach_of_ok hvalue, hend⟩
  obtain ⟨text, s, hname, hsubscript⟩ := target_ok htarget
  obtain ⟨-, d, -, hdollar⟩ := name_parts hname
  have hassigned : Assigned expression expression (shapeOf i.skip.rest) s := by
    unfold Assigned
    rw [show (shapeOf i.skip.rest).element = Lexeme.opensNext s from isSubscripted_of_name hname]
    by_cases hopens : Lexeme.opensNext s = true
    · rw [if_pos hopens] at hsubscript ⊢
      exact ⟨k.rest, hsubscript, hvalued⟩
    · rw [if_neg hopens] at hsubscript ⊢
      rw [← hsubscript]
      exact hvalued
  have hne : front s ≠ [] := by
    obtain ⟨r, hr⟩ := hassigned.front
    rw [hr]
    exact List.cons_ne_nil _ _
  obtain ⟨c, hc⟩ := head?_of_dollar hdollar hne
  exact ⟨by rw [shapeOf, hc]; rfl, d, s, hdollar, hassigned⟩

end Inversion

/-- The verdict on an expression in a run. -/
theorem exists_expression_verdict (shape : Shape) (w : List Char) : ∃ verdict : Verdict,
    ∀ ⦃v t : List Char⦄, Run v → Lexeme.folded v = w → Assignment expression expression shape t →
      verdict.Holds expression v t := by
  obtain ⟨verdict, h⟩ := exists_verdict shape w
  refine ⟨verdict, ?_⟩
  intro v t hv hw ht
  have hexpression : ∀ {i : Input}, i.rest = v ++ t → expression i =
      (chain (v ++ t).length true >>= fun state =>
        (Pure.pure (if state.2 then state.1 else .integer) : Rule DataType)) i := by
    intro i hi
    rw [← operands_eq_chain, ← hi]
    rfl
  have hchain : verdict.Holds (chain (v ++ t).length true) v t := h hv hw (ht.tail (by simp))
  refine Verdict.holds_of_suffix (r := chain (v ++ t).length true) (List.suffix_refl v) ?_ ?_ hchain
  · intro hstuck i hi
    rw [hexpression hi]
    exact hstuck.bind_left _ hi
  · intro state s hreach
    refine ⟨if state.2 then state.1 else .integer, ?_⟩
    have hbind : Reach (chain (v ++ t).length true >>= fun state =>
        (Pure.pure (if state.2 then state.1 else .integer) : Rule DataType)) (v ++ t)
          (if state.2 then state.1 else .integer) s := hreach.bind (.pure _ _)
    intro i hi
    rw [hexpression hi]
    exact hbind hi

def Decides (r : Rule α) (s : List Char) (goes : Bool) : Prop :=
  ∀ ⦃i : Input⦄, i.rest = s → (r i).value?.isSome = goes

section Decides

variable {r : Rule α} {s s' : List Char} {a : α}

theorem Stuck.whole (h : Stuck r s) : Decides (whole r) s false := by
  intro i hi
  obtain ⟨nodes, e, hr⟩ := h.bind_left _ hi
  rw [Grammar.whole, hr]
  rfl

/-- A rule that leaves something of the statement does not make the whole. -/
theorem Reach.whole_false (h : Reach r s a s') (hend : endsStatement (front s') = false) :
    Decides (Grammar.whole r) s false := by
  have hsurplus : Stuck (do unless ← atEnd do stop .surplus) s' := by
    intro i hi
    refine ⟨[], .surplus, ?_⟩
    refine (bind_of_silent (atEnd_eq i)).trans ?_
    rw [rest_skip, hi, hend]
    rfl
  intro i hi
  have hstuck : Stuck (Grammar.whole r) s := .bind_right h hsurplus
  obtain ⟨nodes, e, hr⟩ := hstuck hi
  rw [hr]
  rfl

theorem whole_of_ok {i j : Input} {nodes : List Node} (h : r i = ⟨nodes, .ok (a, j)⟩)
    (hend : endsStatement (front j.rest) = true) :
    Grammar.whole r i = ⟨nodes, .ok ((), j.skip)⟩ := by
  have hmore : (do unless ← atEnd do stop .surplus : Rule Unit) j = ⟨[], .ok ((), j.skip)⟩ := by
    refine (bind_of_silent (atEnd_eq j)).trans ?_
    rw [rest_skip, hend]
    rfl
  exact (bind_of_ok h hmore).trans (by rw [List.append_nil])

theorem Finishes.whole (h : Finishes r s) : Decides (Grammar.whole r) s true := by
  obtain ⟨a, s', hreach, hend⟩ := h
  intro i hi
  obtain ⟨nodes, j, hr, rfl⟩ := hreach hi
  rw [whole_of_ok hr hend]
  rfl

end Decides

section Openings

variable {shape : Shape} {v t s k : List Char}

/-- The marks that may come next behind a run. -/
theorem Assignment.front_mem (ht : Assignment expression expression shape t) :
    ∃ c ∈ ['$', '(', '='], ∃ r, front t = c :: r := by
  have hmark : shape.mark ∈ ['$', '(', '='] := by
    unfold Shape.mark
    split <;> simp
  rcases ht.front_cases with ⟨-, r, hr⟩ | ⟨-, -, r, hr⟩
  · exact ⟨'$', by simp, r, hr⟩
  · exact ⟨shape.mark, hmark, r, hr⟩

/-- No statement ends in a run or right behind it. -/
theorem exists_front_append (ht : Assignment expression expression shape t) (hv : Run v) :
    ∃ c r, front (v ++ t) = c :: r ∧ (c.isAlphanum = true ∨ c ∈ ['$', '(', '=']) := by
  cases v with
  | nil =>
    obtain ⟨c, hc, r, hr⟩ := ht.front_mem
    exact ⟨c, r, hr, .inr hc⟩
  | cons c v =>
    exact ⟨c, v ++ t, front_append_of_ne_nil hv (List.cons_ne_nil c v) t,
      .inl (hv c List.mem_cons_self)⟩

theorem ne_of_alphanum_or_mark {c p : Char} (hc : c.isAlphanum = true ∨ c ∈ ['$', '(', '='])
    (hp : p.isAlphanum = false ∧ p ∉ ['$', '(', '=']) : c ≠ p := by
  rintro rfl
  rcases hc with hc | hc
  · rw [hp.1] at hc
    cases hc
  · exact hp.2 hc

theorem endsStatement_append (ht : Assignment expression expression shape t) (hv : Run v) :
    endsStatement (front (v ++ t)) = false := by
  obtain ⟨c, r, hr, hc⟩ := exists_front_append ht hv
  have hcolon : c ≠ ':' := ne_of_alphanum_or_mark hc (by decide)
  simp [hr, endsStatement, hcolon]

/-- A comma comes next neither in a run nor right behind it. -/
theorem word_comma_append (ht : Assignment expression expression shape t) (hv : Run v) :
    Lexeme.word [','] (front (v ++ t)) = none := by
  obtain ⟨c, r, hr, hc⟩ := exists_front_append ht hv
  rw [hr, Lexeme.word_mark (by decide), if_neg (ne_of_alphanum_or_mark hc (by decide))]

/-- At the end of a statement no word comes next. -/
theorem word_of_endsStatement (hs : endsStatement s = true) {p : Char} {w : List Char}
    (hp : Lexeme.sameLetter p ':' = false) : Lexeme.word (p :: w) s = none := by
  cases s with
  | nil => rfl
  | cons c s =>
    obtain rfl : c = ':' := by simpa [endsStatement] using hs
    exact Lexeme.word_cons_of_ne _ _ hp

def Verdict.isFinished : Verdict → Bool
  | .finished => true
  | _ => false

/-- A whole statement is read where the verdict on its rule says so. -/
theorem Verdict.decides {r : Rule α} {verdict : Verdict}
    (ht : Assignment expression expression shape t) (hv : Run v) (h : verdict.Holds r v t) :
    Decides (whole r) (v ++ t) verdict.isFinished := by
  cases verdict with
  | stuck => exact Stuck.whole h
  | finished => exact Finishes.whole h
  | before left =>
    obtain ⟨-, a, s, hreach, hs⟩ := h
    apply hreach.whole_false
    rw [hs]
    exact endsStatement_append ht fun c hc => hv c (List.mem_of_mem_drop hc)

/-- Whatever an expression has read in a run, no comma follows it. -/
theorem Verdict.stuck_or_comma {verdict : Verdict}
    (ht : Assignment expression expression shape t) (hv : Run v)
    (h : verdict.Holds expression v t) : Stuck expression (v ++ t) ∨
      ∃ a s, Reach expression (v ++ t) a s ∧ Lexeme.word [','] (front s) = none := by
  cases verdict with
  | stuck => exact .inl h
  | finished =>
    obtain ⟨a, s, hreach, hend⟩ := h
    exact .inr ⟨a, s, hreach, word_of_endsStatement hend (by decide)⟩
  | before left =>
    obtain ⟨-, a, s, hreach, hs⟩ := h
    refine .inr ⟨a, s, hreach, ?_⟩
    rw [hs]
    exact word_comma_append ht fun c hc => hv c (List.mem_of_mem_drop hc)

theorem isAlpha_caseFold {c : Char} (hc : c.isAlphanum = true) :
    (Text.caseFold c).isAlpha = c.isAlpha :=
  Text.alphanum_induction (P := fun c => (Text.caseFold c).isAlpha = c.isAlpha) (by decide) hc

/-- A name comes next in a run where a letter does. -/
theorem name_cases (ht : Assignment expression expression shape t) (hv : Run v) :
    if (Lexeme.folded v).head?.any Char.isAlpha then
      ∃ text k, Lexeme.name (front (v ++ t)) = some (text, k) ∧
        Assigned expression expression shape k
    else Lexeme.name (front (v ++ t)) = none := by
  cases v with
  | nil =>
    obtain ⟨c, hc, r, hr⟩ := ht.front_mem
    have hname : Lexeme.name (c :: r) = none := by
      have key : ∀ c ∈ ['$', '(', '='], c.isAlpha = false := by decide
      rw [Lexeme.name, if_neg (by simp [key c hc])]
    simpa [Lexeme.folded, hr] using hname
  | cons c v =>
    have hc := hv c List.mem_cons_self
    have hfold : (Lexeme.folded (c :: v)).head?.any Char.isAlpha = c.isAlpha := by
      simpa [Lexeme.folded] using isAlpha_caseFold hc
    rw [hfold, front_append_of_ne_nil hv (List.cons_ne_nil c v)]
    by_cases halpha : c.isAlpha = true
    · rw [if_pos halpha]
      obtain ⟨d, k, hdollar, hassigned⟩ := ht.assigned
      exact ⟨_, k, name_append hv halpha (ht.tail (Nat.le_refl _)) hdollar, hassigned⟩
    · rw [if_neg halpha, List.cons_append, Lexeme.name, if_neg halpha]

theorem Reach.wordThen {tok : Token} {settle : α → Token} {body : Rule α} {text : List Char} {a : α}
    (hword : Lexeme.word tok.spelling.toList (front s) = some (text, k)) {s' : List Char}
    (hbody : Reach body k a s') : Reach (wordThen tok settle body) s a s' := by
  intro i hi
  obtain ⟨nodes, j, hrun, hj⟩ := hbody (i := i.skip.after text k) rfl
  refine ⟨i.skip.leaf (.token (settle a)) text :: nodes, j, ?_, hj⟩
  rw [Rule.wordThen, rest_skip, hi, hword]
  simp [hrun, Reading.value?]

theorem Stuck.wordThen {tok : Token} {settle : α → Token} {body : Rule α} {text : List Char}
    (hword : Lexeme.word tok.spelling.toList (front s) = some (text, k))
    (hbody : Stuck body k) : Stuck (wordThen tok settle body) s := by
  intro i hi
  obtain ⟨nodes, e, hrun⟩ := hbody (i := i.skip.after text k) rfl
  refine ⟨i.skip.leaf (.token tok) text :: nodes, e, ?_⟩
  rw [Rule.wordThen, rest_skip, hi, hword]
  simp [hrun, Reading.value?]

theorem Stuck.wordThen_none {tok : Token} {settle : α → Token} {body : Rule α}
    (hword : Lexeme.word tok.spelling.toList (front s) = none) :
    Stuck (Rule.wordThen tok settle body) s := by
  intro i hi
  refine ⟨[], .expected tok, ?_⟩
  rw [Rule.wordThen, rest_skip, hi, hword]

/-- Behind a separator nothing is repeated where none comes next. -/
theorem Reach.repeated_none {separator : Token} (hseparator : separator.spelling = ",")
    (item : Rule Unit) (hs : Lexeme.word [','] (front s) = none) :
    Reach (repeated separator item) s () (front s) := by
  apply Reach.loop_none
  have hcomma : Reach (word? separator) s false (front s) :=
    .token?_none _ (by rw [hseparator]; exact hs)
  exact .bind hcomma (.pure _ _)

end Openings

end IntegerBasic.Grammar
