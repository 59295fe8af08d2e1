import IntegerBasic.Proofs.Grammar.MovedLines

/-!
# Recursion without bounds

The rules of the grammar call one another and repeat without a bound. Here the bounds by which they
are run are shown to bind nothing: what is computed satisfies the equation of the unbounded
recursion, and whatever is put in the place of the calls below the bound is never asked.
-/

namespace IntegerBasic

/-- What a recursion computes. It satisfies the equation of the recursion, and at an argument whose
size is less than `n` no call goes `n` deep: it does not matter what is put there. -/
structure Computes {ι α : Type} (size : ι → Nat) (body : (ι → α) → ι → α) (f : ι → α) : Prop where
  equation : body f = f
  deep : ∀ (bottom : ι → α) (n : Nat) (x : ι), size x < n → body^[n] bottom x = f x

/-- A recursion computes `f` if its body makes `f` of what agrees with `f` on smaller arguments. -/
theorem computes_of_smaller {ι α : Type} {size : ι → Nat} {body : (ι → α) → ι → α} {f : ι → α}
    (h : ∀ (g : ι → α) (x : ι), (∀ y, size y < size x → g y = f y) → body g x = f x) :
    Computes size body f := by
  refine ⟨funext fun x => h f x fun _ _ => rfl, fun bottom n => ?_⟩
  induction n with
  | zero => exact fun x hx => absurd hx (Nat.not_lt_zero _)
  | succ n ih =>
    intro x hx
    rw [Function.iterate_succ_apply']
    exact h _ x fun y hy => ih y (by omega)

def Move.same : Move := ⟨id, 0, [], caseChange_id, by rintro _ ⟨⟩⟩

namespace Grammar

open Rule

variable {α σ : Type}

theorem Input.move_same (i : Input) : i.move .same = i := by
  simp [Input.move, Move.text, Move.same]

theorem Reading.move_same (r : Reading α) : r.move .same = r := by
  have hnode : Node.move Move.same.letters Move.same.right = id := funext Node.move_id_zero
  obtain ⟨nodes, outcome⟩ := r
  cases outcome <;> simp [Reading.move, hnode, Except.map, Input.move_same]

theorem MovesAt.eq {r r' : Rule α} {i : Input} (h : MovesAt .same r r' i) : r' i = r i := by
  have hmoved := h.1
  rwa [Input.move_same, Reading.move_same] at hmoved

/-- A rule that agrees with a second one moves as that does. -/
theorem MovesAt.congr {r r' s : Rule α} {i : Input} (h : MovesAt .same r r' i) (hs : s i = r' i) :
    MovesAt .same r s i := by
  rw [MovesAt, Input.move_same] at h ⊢
  rw [hs]
  exact h

/-- The expression is what the unbounded rules for operands make of the text. -/
theorem computes_expression :
    Computes (fun i : Input => i.rest.length) operands expression := by
  refine computes_of_smaller fun g i hg => ?_
  have hmoves : Moves .same i.rest.length (expressionUpTo i.rest.length) g := by
    intro j hfits hj
    have hdeep := Moves.expressionUpTo (m := .same) (Nat.le_of_lt_succ (Nat.succ_lt_succ hj))
      (Nat.le_refl (j.rest.length + 1)) hfits (Nat.lt_succ_self _)
    exact hdeep.congr (hg j hj)
  exact (Moves.operands hmoves (traced_expressionUpTo _) (.inl rfl) (Nat.lt_succ_self _)).eq

/-- The statement is what the unbounded rules for statements make of the text. -/
theorem computes_statement :
    Computes (fun i : Input => i.rest.length) statementWith statement := by
  refine computes_of_smaller fun g i hg => ?_
  have hmoves : MovesStatement .same i.rest.length (statementUpTo i.rest.length) g := by
    intro j hfits hj hclean
    have hdeep := movesStatement_statementUpTo (m := .same)
      (Nat.le_of_lt_succ (Nat.succ_lt_succ hj)) (Nat.le_refl (j.rest.length + 1)) hfits
      (Nat.lt_succ_self _) hclean
    refine hdeep.congr ?_
    rw [nestedRule, nestedRule, hg j hj, statement]
  have hsame := (movesStatement_statementWith (ends_statementUpTo _) hmoves (.inl rfl)
    (Nat.lt_succ_self i.rest.length) (.inl rfl)).eq
  obtain ⟨hnode, hplace⟩ : (statementWith g i).1 = (statement i).1 ∧
      (statementWith g i).2 = (statement i).2 := by
    simpa [nestedRule, statement, statementUpTo] using hsame
  exact Prod.ext hnode hplace

/-- What a line does at a place: it is done, or reads a colon or a statement and goes on. -/
def statementsWith (more : Input → List Node) (i : Input) : List Node :=
  match i.skip.rest with
  | [] => []
  | ':' :: rest => i.skip.leaf (.token .colon) [':'] :: more (i.skip.after [':'] rest)
  | _ =>
    let (node, j) := statement i.skip
    node :: more j

theorem statementsUpTo_succ (n : Nat) :
    statementsUpTo (n + 1) = statementsWith (statementsUpTo n) := rfl

/-- The statements of a line are what the unbounded repetition reads. -/
theorem computes_statements :
    Computes (fun i : Input => i.rest.length) statementsWith statements := by
  refine computes_of_smaller fun g i hg => ?_
  have hlater : ∀ {j : Input}, j.rest.length < i.rest.length →
      g j = statementsUpTo i.rest.length j := fun {j} hj =>
    (hg j hj).trans (statementsUpTo_congr (Nat.lt_succ_self _) hj)
  have hle := length_skip_le i
  rw [statements, statementsUpTo_succ]
  unfold statementsWith
  by_cases hnil : i.skip.rest = []
  · rw [hnil]
  by_cases hcolon : ∃ rest, i.skip.rest = ':' :: rest
  · obtain ⟨rest, hrest⟩ := hcolon
    rw [hrest, List.length_cons] at hle
    have hmore := hlater (j := i.skip.after [':'] rest) hle
    rw [hrest]
    exact congrArg _ hmore
  · have hmore := hlater (length_statement_lt hnil fun rest hrest => hcolon ⟨rest, hrest⟩)
    split
    · rfl
    · exact absurd ⟨_, ‹_›⟩ hcolon
    · exact congrArg _ hmore

def again (step : σ → Rule (Option σ)) (more : σ × Input → Reading σ) (x : σ × Input) :
    Reading σ :=
  (do
    match ← step x.1 with
    | none => return x.1
    | some s => fun i => more (s, i) : Rule σ) x.2

/-- The loop is the unbounded repetition of its step. -/
def Repeats (step : σ → Rule (Option σ)) : Prop :=
  Computes (fun x : σ × Input => x.2.rest.length) (again step) fun x => loop step x.1 x.2

/-- A loop whose rounds make the text shorter needs no bound. -/
theorem Advancing.repeats {step : σ → Rule (Option σ)} (hstep : Advancing step) : Repeats step := by
  refine computes_of_smaller fun g x hg => ?_
  obtain ⟨s, i⟩ := x
  rw [loop, rounds]
  show Rule.bind (step s) _ i = Rule.bind (step s) _ i
  unfold Rule.bind
  rcases hs : step s i with ⟨nodes, e | ⟨next, j⟩⟩
  · rfl
  · cases next with
    | none => rfl
    | some s' =>
      have hshort := hstep hs
      have hmore : g (s', j) = rounds step i.rest.length s' j :=
        (hg (s', j) hshort).trans (rounds_congr hstep (Nat.lt_succ_self _) hshort)
      dsimp only
      rw [hmore]

/-- A separator and the item behind it, if there is one. -/
def separatorStep (separator : Token) (item : Rule Unit) (_ : Unit) : Rule (Option Unit) := do
  if ← word? separator then
    item
    return some ()
  else return none

end Grammar

end IntegerBasic
