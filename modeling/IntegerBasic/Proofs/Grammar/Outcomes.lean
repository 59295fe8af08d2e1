import IntegerBasic.Proofs.Grammar.Places
import IntegerBasic.Proofs.Grammar.Simulation

/-!
# Outcomes of rules

What a rule makes of a text does not depend on where the text stands, nor on how deep parentheses
may nest once it is deep enough. So one can say that a rule goes from one text to another, or that
it is stuck at a text, and say nothing of places and nodes.
-/

namespace IntegerBasic.Grammar

open Rule

variable {α β σ : Type}

/-- Wherever the first rule goes on, the second goes on from the same text to the same text. -/
def Carries (r r' : Rule α) : Prop :=
  ∀ ⦃i i' : Input⦄ ⦃nodes : List Node⦄ ⦃a : α⦄ ⦃j : Input⦄, i.rest = i'.rest →
    r i = ⟨nodes, .ok (a, j)⟩ → ∃ nodes' j', r' i' = ⟨nodes', .ok (a, j')⟩ ∧ j.rest = j'.rest

namespace Carries

theorem pure (a : α) : Carries (Pure.pure a : Rule α) (Pure.pure a) := by
  intro i i' nodes b j hi h
  cases h
  exact ⟨[], i', rfl, hi⟩

theorem stop (cause : Mismatch) (r : Rule α) : Carries (stop cause : Rule α) r := by
  intro i i' nodes b j hi h
  cases h

theorem bind {r r' : Rule α} {f f' : α → Rule β} (hr : Carries r r')
    (hf : ∀ a, Carries (f a) (f' a)) : Carries (r >>= f) (r' >>= f') := by
  intro i i' nodes b j hi h
  obtain ⟨xs, a, k, ys, hx, hy, rfl⟩ := bind_ok h
  obtain ⟨xs', k', hx', hk⟩ := hr hi hx
  obtain ⟨ys', j', hy', hj⟩ := hf a hk hy
  exact ⟨xs' ++ ys', j', bind_of_ok hx' hy', hj⟩

theorem ite {c : Prop} [Decidable c] {r r' s s' : Rule α} (hr : c → Carries r r')
    (hs : ¬c → Carries s s') : Carries (if c then r else s) (if c then r' else s') := by
  by_cases h : c
  · simpa only [if_pos h] using hr h
  · simpa only [if_neg h] using hs h

theorem rest_skip_congr {i i' : Input} (h : i.rest = i'.rest) : i.skip.rest = i'.skip.rest := by
  rw [rest_skip, rest_skip, h]

theorem peek : Carries peek peek := by
  intro i i' nodes a j hi h
  cases h
  have hskip := rest_skip_congr hi
  refine ⟨[], i'.skip, ?_, hskip⟩
  rw [Rule.peek, hskip]

theorem ahead (test : List Char → Bool) : Carries (ahead test) (ahead test) := by
  intro i i' nodes a j hi h
  cases h
  have hskip := rest_skip_congr hi
  refine ⟨[], i'.skip, ?_, hskip⟩
  rw [Rule.ahead, hskip]

theorem token? (reader : Lexeme.Reader) (kind : LeafKind) :
    Carries (token? reader kind) (token? reader kind) := by
  intro i i' nodes a j hi h
  have hskip := rest_skip_congr hi
  rcases token?_ok h with ⟨hread, rfl, rfl, rfl⟩ | ⟨text, rest, hread, rfl, rfl, rfl⟩
  · refine ⟨[], i'.skip, ?_, hskip⟩
    rw [Rule.token?, ← hskip, hread]
  · refine ⟨[i'.skip.leaf kind text], i'.skip.after text rest, ?_, rfl⟩
    rw [Rule.token?, ← hskip, hread]

theorem expect (t : Token) : Carries (expect t) (expect t) :=
  bind (token? _ _) fun _ => ite (fun _ => pure _) (fun _ => stop _ _)

theorem enclose {kind kind' : α → InnerKind} {r r' : Rule α} (h : Carries r r') :
    Carries (enclose kind r) (enclose kind' r') := by
  intro i i' nodes a j hi he
  obtain ⟨inside, hr, rfl⟩ := enclose_ok he
  obtain ⟨nodes', j', hr', hj⟩ := h hi hr
  refine ⟨[i'.enclose (kind' a) nodes'], j', ?_, hj⟩
  rw [Rule.enclose, hr']

theorem rounds {step step' : σ → Rule (Option σ)} (h : ∀ s, Carries (step s) (step' s)) (n : Nat)
    (s : σ) : Carries (rounds step n s) (rounds step' n s) := by
  induction n generalizing s with
  | zero => exact pure s
  | succ n ih =>
    apply bind (h s)
    intro next
    cases next with
    | none => exact pure s
    | some s' => exact ih s'

theorem loop {step step' : σ → Rule (Option σ)} (h : ∀ s, Carries (step s) (step' s)) (s : σ) :
    Carries (loop step s) (loop step' s) := by
  intro i i' nodes a j hi hl
  have hlength : i.rest.length = i'.rest.length := congrArg List.length hi
  rw [Rule.loop, ← hlength]
  exact rounds h _ s hi hl

theorem variableName : Carries variableName variableName := by
  intro i i' nodes a j hi h
  obtain ⟨text, rest, hread, rfl, rfl, rfl⟩ := variableName_ok h
  rw [rest_skip_congr hi] at hread
  exact ⟨_, _, variableName_of_name hread, rfl⟩

theorem stringLiteral : Carries stringLiteral stringLiteral :=
  bind (token? _ _) fun _ => ite (fun _ => pure _) (fun _ => stop _ _)

section Expression

variable {e e' : Rule DataType} (he : Carries e e')
include he

theorem subscripted (opener : Token) (kind : InnerKind) (pair : Bool) :
    Carries (subscripted e opener kind pair) (subscripted e' opener kind pair) := by
  apply enclose
  apply bind variableName
  intro type
  apply bind (expect _)
  intro _
  apply bind he
  intro _
  have hclose : Carries (do Rule.expect .close; return type) (do Rule.expect .close; return type) :=
    bind (expect _) fun _ => pure _
  apply ite
  · intro _
    apply bind (token? _ _)
    intro found
    exact ite (fun _ => bind he fun _ => hclose) (fun _ => hclose)
  · intro _
    exact hclose

omit he in
theorem variableBy {r r' s s' : Rule DataType} (hr : Carries r r') (hs : Carries s s') :
    Carries (variableBy r s) (variableBy r' s') :=
  bind (ahead _) fun _ => ite
    (fun _ => bind (ahead _) fun _ => ite (fun _ => hr) (fun _ => hs)) (fun _ => variableName)

theorem target : Carries (target e) (target e') :=
  variableBy (subscripted he _ _ _) (subscripted he _ _ _)

theorem reference : Carries (reference e) (reference e') :=
  variableBy (subscripted he _ _ _) (subscripted he _ _ _)

theorem call (f : Token) : Carries (call e f) (call e' f) := by
  apply bind (expect _)
  intro _
  have hclose : Carries (do Rule.expect .close; return DataType.integer)
      (do Rule.expect .close; return DataType.integer) := bind (expect _) fun _ => pure _
  have hbody : Carries (do
      let _ ← e
      if f == .scrn then
        Rule.expect .scrnComma
        let _ ← e
      Rule.expect .close
      return DataType.integer) (do
      let _ ← e'
      if f == .scrn then
        Rule.expect .scrnComma
        let _ ← e'
      Rule.expect .close
      return DataType.integer) :=
    bind he fun _ => ite (fun _ => bind (expect _) fun _ => bind he fun _ => hclose)
      (fun _ => hclose)
  exact ite (fun _ => hbody) (fun _ => bind (expect _) fun _ => hbody)

theorem named : Carries
    (fun i => match function? i.skip.rest with
      | some f => Grammar.call e f i
      | none =>
        if (Lexeme.name i.skip.rest).isSome then Grammar.reference e i
        else Rule.stop .expression i)
    (fun i => match function? i.skip.rest with
      | some f => Grammar.call e' f i
      | none =>
        if (Lexeme.name i.skip.rest).isSome then Grammar.reference e' i
        else Rule.stop .expression i) := by
  intro i i' nodes a j hi h
  dsimp only at h ⊢
  rw [← rest_skip_congr hi]
  cases hf : function? i.skip.rest with
  | some f =>
    rw [hf] at h
    exact call he f hi h
  | none =>
    simp only [hf] at h
    by_cases hname : (Lexeme.name i.skip.rest).isSome = true
    · rw [if_pos hname] at h
      simp only [if_pos hname]
      exact reference he hi h
    · rw [if_neg hname] at h
      cases h

theorem primary : Carries (primary e) (primary e') := by
  apply bind (token? _ _)
  intro found
  apply ite
  · intro _
    exact pure _
  · intro _
    apply bind peek
    intro next
    apply ite
    · intro _
      exact bind stringLiteral fun _ => pure _
    · intro _
      apply ite
      · intro _
        exact bind (expect _) fun _ => bind he fun _ => bind (expect _) fun _ => pure _
      · intro _
        exact named he

omit he in
theorem unaryOperator : Carries unaryOperator unaryOperator :=
  bind (token? _ _) fun _ => ite (fun _ => pure _) fun _ =>
    bind (token? _ _) fun _ => ite (fun _ => pure _) fun _ => token? _ _

theorem operand : Carries (operand e) (operand e') :=
  bind (loop (fun _ => bind unaryOperator fun _ => pure _) _) fun _ =>
    bind (primary he) fun _ => pure _

omit he in
theorem binaryOperator (lhs lhs' : DataType) :
    Carries (binaryOperator lhs) (binaryOperator lhs') := by
  intro i i' nodes a j hi h
  have hskip := rest_skip_congr hi
  rcases binaryOperator_ok h with
    ⟨hnone, rfl, rfl, rfl⟩ | ⟨t, text, rest, hfirst, hread, rfl, rfl, rfl⟩
  · refine ⟨[], i'.skip, ?_, hskip⟩
    rw [Grammar.binaryOperator, ← hskip, hnone]
  · refine ⟨[i'.skip.leaf (.token (operatorAfter lhs' t)) text], i'.skip.after text rest, ?_, rfl⟩
    rw [Grammar.binaryOperator, ← hskip, hfirst]
    simp only [Rule.token?, ← hskip, hread]

theorem operands : Carries (operands e) (operands e') := by
  apply bind (operand he)
  intro first
  apply bind
  · apply loop
    rintro ⟨lhs, alone⟩
    apply bind (binaryOperator lhs lhs)
    intro found
    exact ite (fun _ => bind (operand he) fun _ => pure _) (fun _ => pure _)
  · rintro ⟨type, alone⟩
    exact pure _

omit he in
theorem expressionUpTo {n m : Nat} (h : n ≤ m) :
    Carries (expressionUpTo n) (expressionUpTo m) := by
  induction n generalizing m with
  | zero => exact stop _ _
  | succ n ih =>
    obtain ⟨m, rfl⟩ : ∃ k, m = k + 1 := ⟨m - 1, by omega⟩
    exact operands (ih (by omega))

omit he in
theorem expression : Carries expression expression := by
  intro i i' nodes a j hi h
  exact expressionUpTo (Nat.le_of_eq (by rw [hi])) hi h

end Expression

end Carries

/-- A rule goes from a text to another with a value, wherever the text stands. -/
def Reach (r : Rule α) (s : List Char) (a : α) (s' : List Char) : Prop :=
  ∀ ⦃i : Input⦄, i.rest = s → ∃ nodes j, r i = ⟨nodes, .ok (a, j)⟩ ∧ j.rest = s'

def Stuck (r : Rule α) (s : List Char) : Prop :=
  ∀ ⦃i : Input⦄, i.rest = s → ∃ nodes e, r i = ⟨nodes, .error e⟩

theorem Carries.reach_of_ok {r r' : Rule α} (h : Carries r r') {i j : Input} {nodes : List Node}
    {a : α} (hr : r i = ⟨nodes, .ok (a, j)⟩) : Reach r' i.rest a j.rest := by
  intro i' hi
  obtain ⟨nodes', j', hr', hj⟩ := h hi.symm hr
  exact ⟨nodes', j', hr', hj.symm⟩

namespace Reach

variable {s s' : List Char}

theorem pure (a : α) (s : List Char) : Reach (Pure.pure a) s a s :=
  fun i hi => ⟨[], i, rfl, hi⟩

theorem bind {r : Rule α} {f : α → Rule β} {a : α} {b : β} {s'' : List Char}
    (hr : Reach r s a s') (hf : Reach (f a) s' b s'') : Reach (r >>= f) s b s'' := by
  intro i hi
  obtain ⟨xs, k, hx, hk⟩ := hr hi
  obtain ⟨ys, j, hy, hj⟩ := hf hk
  exact ⟨xs ++ ys, j, bind_of_ok hx hy, hj⟩

theorem peek (s : List Char) : Reach peek s (front s).head? (front s) := by
  intro i hi
  refine ⟨[], i.skip, ?_, by rw [rest_skip, hi]⟩
  rw [Rule.peek, rest_skip, hi]

theorem ahead (test : List Char → Bool) (s : List Char) :
    Reach (ahead test) s (test (front s)) (front s) := by
  intro i hi
  refine ⟨[], i.skip, ?_, by rw [rest_skip, hi]⟩
  rw [Rule.ahead, rest_skip, hi]

theorem token? {reader : Lexeme.Reader} {text : List Char} (kind : LeafKind)
    (h : reader (front s) = some (text, s')) : Reach (token? reader kind) s true s' := by
  intro i hi
  refine ⟨[i.skip.leaf kind text], i.skip.after text s', ?_, rfl⟩
  rw [Rule.token?, rest_skip, hi, h]

theorem token?_none {reader : Lexeme.Reader} (kind : LeafKind)
    (h : reader (front s) = none) : Reach (Rule.token? reader kind) s false (front s) := by
  intro i hi
  refine ⟨[], i.skip, ?_, by rw [rest_skip, hi]⟩
  rw [Rule.token?, rest_skip, hi, h]

theorem expect {t : Token} {text : List Char}
    (h : Lexeme.word t.spelling.toList (front s) = some (text, s')) :
    Reach (expect t) s () s' :=
  bind (token? _ h) (pure _ _)

theorem enclose {kind : α → InnerKind} {r : Rule α} {a : α} (h : Reach r s a s') :
    Reach (enclose kind r) s a s' := by
  intro i hi
  obtain ⟨nodes, j, hr, hj⟩ := h hi
  refine ⟨[i.enclose (kind a) nodes], j, ?_, hj⟩
  rw [Rule.enclose, hr]

theorem variableName {text : List Char} (h : Lexeme.name (front s) = some (text, s')) :
    Reach variableName s (Lexeme.nameType text) s' := by
  intro i hi
  rw [← hi, ← rest_skip] at h
  exact ⟨_, _, variableName_of_name h, rfl⟩

/-- A rule goes to one text only. -/
theorem unique {r : Rule α} {a b : α} {s'' : List Char} (h : Reach r s a s')
    (h' : Reach r s b s'') : a = b ∧ s' = s'' := by
  obtain ⟨nodes, j, hr, rfl⟩ := h (i := ⟨0, 0, s⟩) rfl
  obtain ⟨nodes', j', hr', rfl⟩ := h' (i := ⟨0, 0, s⟩) rfl
  rw [hr] at hr'
  cases hr'
  exact ⟨rfl, rfl⟩

end Reach

namespace Stuck

variable {s s' : List Char}

theorem stop (cause : Mismatch) (s : List Char) : Stuck (stop cause : Rule α) s :=
  fun _ _ => ⟨[], cause, rfl⟩

theorem bind_left {r : Rule α} (f : α → Rule β) (h : Stuck r s) : Stuck (r >>= f) s := by
  intro i hi
  obtain ⟨nodes, e, hr⟩ := h hi
  refine ⟨nodes, e, ?_⟩
  show Rule.bind r f i = _
  simp [Rule.bind, hr]

theorem bind_right {r : Rule α} {f : α → Rule β} {a : α} (hr : Reach r s a s')
    (hf : Stuck (f a) s') : Stuck (r >>= f) s := by
  intro i hi
  obtain ⟨xs, k, hx, hk⟩ := hr hi
  obtain ⟨ys, e, hy⟩ := hf hk
  refine ⟨xs ++ ys, e, ?_⟩
  show Rule.bind r f i = _
  simp [Rule.bind, hx, hy]

theorem expect {t : Token} (h : Lexeme.word t.spelling.toList (front s) = none) :
    Stuck (expect t) s :=
  bind_right (Reach.token?_none _ h) (stop _ _)

theorem enclose {kind : α → InnerKind} {r : Rule α} (h : Stuck r s) : Stuck (enclose kind r) s := by
  intro i hi
  obtain ⟨nodes, e, hr⟩ := h hi
  refine ⟨[], e, ?_⟩
  rw [Rule.enclose, hr]

theorem variableName (h : Lexeme.name (front s) = none) : Stuck variableName s := by
  intro i hi
  refine ⟨[], .name, ?_⟩
  rw [Grammar.variableName, rest_skip, hi, h]

end Stuck

def Advancing (step : σ → Rule (Option σ)) : Prop :=
  ∀ ⦃s i nodes s' j⦄, step s i = ⟨nodes, .ok (some s', j)⟩ → j.rest.length < i.rest.length

/-- More rounds make no difference to a loop whose rounds make the text shorter. -/
theorem rounds_congr {step : σ → Rule (Option σ)} (hstep : Advancing step) {n m : Nat} {s : σ}
    {i : Input} (hn : i.rest.length < n) (hm : i.rest.length < m) :
    rounds step n s i = rounds step m s i := by
  induction n generalizing m s i with
  | zero => omega
  | succ n ih =>
    obtain ⟨m, rfl⟩ : ∃ k, m = k + 1 := ⟨m - 1, by omega⟩
    rw [rounds, rounds]
    show Rule.bind (step s) _ i = Rule.bind (step s) _ i
    unfold Rule.bind
    rcases hs : step s i with ⟨nodes, e | ⟨next, j⟩⟩
    · rfl
    · cases next with
      | none => rfl
      | some s' =>
        have hlt := hstep hs
        dsimp only
        rw [ih (by omega) (show j.rest.length < m by omega)]

theorem Reach.loop_none {step : σ → Rule (Option σ)} {s : σ} {x x' : List Char}
    (h : Reach (step s) x none x') : Reach (loop step s) x s x' := by
  intro i hi
  obtain ⟨nodes, j, hs, hj⟩ := h hi
  exact ⟨nodes, j, rounds_of_none hs, hj⟩

theorem Reach.loop_some {step : σ → Rule (Option σ)} (hstep : Advancing step) {s s' a : σ}
    {x x' x'' : List Char} (h : Reach (step s) x (some s') x')
    (hmore : Reach (loop step s') x' a x'') : Reach (loop step s) x a x'' := by
  intro i hi
  obtain ⟨xs, k, hs, hk⟩ := h hi
  obtain ⟨ys, j, hl, hj⟩ := hmore hk
  have hlt := hstep hs
  rw [Rule.loop, rounds_congr hstep (Nat.lt_succ_self _) hlt] at hl
  exact ⟨xs ++ ys, j, rounds_of_some hs hl, hj⟩

theorem Stuck.loop {step : σ → Rule (Option σ)} {s : σ} {x : List Char} (h : Stuck (step s) x) :
    Stuck (loop step s) x := by
  intro i hi
  obtain ⟨nodes, e, hs⟩ := Stuck.bind_left _ h hi
  exact ⟨nodes, e, hs⟩

theorem Stuck.loop_some {step : σ → Rule (Option σ)} (hstep : Advancing step) {s s' : σ}
    {x x' : List Char} (h : Reach (step s) x (some s') x') (hmore : Stuck (Rule.loop step s') x') :
    Stuck (Rule.loop step s) x := by
  intro i hi
  obtain ⟨xs, k, hs, hk⟩ := h hi
  obtain ⟨ys, e, hl⟩ := hmore hk
  have hlt := hstep hs
  rw [Rule.loop, rounds_congr hstep (Nat.lt_succ_self _) hlt] at hl
  refine ⟨xs ++ ys, e, ?_⟩
  rw [Rule.loop, rounds]
  show Rule.bind (step s) _ i = _
  simp [Rule.bind, hs, hl]

/-- A sequence has gone through the text between its two rules. -/
theorem Reach.of_bind {r : Rule α} {f : α → Rule β} (hr : Carries r r)
    (hf : ∀ a, Carries (f a) (f a)) {s s'' : List Char} {b : β} (h : Reach (r >>= f) s b s'') :
    ∃ a s', Reach r s a s' ∧ Reach (f a) s' b s'' := by
  obtain ⟨nodes, j, hrun, rfl⟩ := h (i := ⟨0, 0, s⟩) rfl
  obtain ⟨xs, a, k, ys, hx, hy, rfl⟩ := bind_ok hrun
  exact ⟨a, k.rest, hr.reach_of_ok hx, (hf a).reach_of_ok hy⟩

theorem Trace.length_le {K : LeafKind → Bool} {q q' : Bool} {i j : Input} {nodes : List Node}
    (h : Trace K q i nodes q' j) : j.rest.length + (Node.leavesOf nodes).length ≤ i.rest.length := by
  induction h with
  | done => simp
  | @skip q q' i j nodes _ ih =>
    have := length_front_le i.rest
    rw [rest_skip] at ih
    omega
  | @leaf q q' i j kind text rest nodes _ read _ _ ih =>
    have htext := List.length_pos_iff.2 read.ne_nil
    have happend := congrArg List.length read.append
    rw [List.length_append] at happend
    simp only [Input.leaf, Node.leavesOf_cons, Node.leaves_leaf, List.length_append,
      List.length_singleton, Input.after] at ih ⊢
    omega
  | inner _ _ _ ih₁ ih₂ =>
    simp only [Input.enclose, Node.leavesOf_cons, Node.leaves_inner, List.length_append]
    omega

theorem advancing_of_traced {K : LeafKind → Bool} {q : Bool} {step : σ → Rule (Option σ)}
    (post : Option σ → Bool) (htraced : ∀ s, Traced K q (step s) post)
    (leafy : ∀ {s i nodes s' j}, step s i = ⟨nodes, .ok (some s', j)⟩ →
      Node.leavesOf nodes ≠ []) : Advancing step := by
  intro s i nodes s' j h
  have hlength := ((htraced s).ok h).length_le
  have hpos := List.length_pos_iff.2 (leafy h)
  omega

theorem advancing_signStep : Advancing signStep := by
  apply advancing_of_traced (K := inExpression) (q := true) fun _ => true
  · intro _
    exact .bind traced_unaryOperator fun _ => .pure _ id
  · intro signed i nodes signed' j h
    exact leaf_of_signStep signed h

theorem advancing_operatorStep {e : Rule DataType}
    (he : Traced inExpression true e (fun _ => false)) : Advancing (operatorStep e) := by
  apply advancing_of_traced (K := inExpression) (q := false) fun _ => false
  · intro state
    apply Traced.bind (traced_binaryOperator _)
    intro found
    apply Traced.ite
    · intro h
      rw [h]
      exact .bind (traced_operand he) fun _ => .pure _ id
    · intro h
      exact .pure _ (by simp)
  · intro state i nodes state' j h
    exact leaf_of_operatorStep h

end IntegerBasic.Grammar
