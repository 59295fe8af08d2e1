import IntegerBasic.Proofs.Analysis.Variables
import IntegerBasic.Proofs.Renumber.BranchOperands

/-!
# What becomes of branches

A branch to a written number has one of four outcomes: it calls or jumps to a line of the table, it
is said to go to a line that may be missing because of an error around it, or to a line that does
not exist. The second pass comes to every branch, and the table of line numbers does not change any
more by then. So the outcomes can be read off the tree and the final table seat by seat, and the
places kept for the lines and the diagnostics about branches are made of them and of nothing else.
-/

namespace IntegerBasic.Analysis

open Grammar (program)
open Renumber (literalTarget?)

inductive Outcome where
  | call (number : Nat) (span : Span)
  | jump (number : Nat) (span : Span)
  /-- The line is missing, perhaps because of an error. -/
  | unsure (span : Span)
  /-- The line is missing. -/
  | dead (span : Span)
  deriving DecidableEq, Repr

namespace Outcome

def span : Outcome → Span
  | call _ span | jump _ span | unsure span | dead span => span

/-- The place from where a line is called. -/
def callOf? (number : Nat) : Outcome → Option Span
  | call n span => if n = number then some span else none
  | _ => none

/-- The place from where a line is jumped to. -/
def jumpTo? (number : Nat) : Outcome → Option Span
  | jump n span => if n = number then some span else none
  | _ => none

def diagnostic? : Outcome → Option Diagnostic
  | unsure span => some ⟨span, .unsureBranch⟩
  | dead span => some ⟨span, .deadBranch⟩
  | _ => none

end Outcome

def outcome (symbols : Symbols) (seat : Seat) (target : Leaf) : Outcome :=
  let number := Numeral.digitsValue target.text
  if symbols.knows number then
    if isToken .gosub seat.node then .call number target.span else .jump number target.span
  else if seat.familyHasError then .unsure target.span
  else .dead target.span

/-- What becomes of the branch that sits here, if its target is written as a number. -/
def outcome? (symbols : Symbols) (seat : Seat) : Option Outcome :=
  (literalTarget? seat).map (outcome symbols seat)

/-- What becomes of all branches to written numbers, in the order of the text. -/
def outcomes (symbols : Symbols) (tree : Node) : List Outcome :=
  tree.seats.filterMap (outcome? symbols)

/-- The words that the two findings about branches are told by. -/
def Diagnostic.isAboutBranch (d : Diagnostic) : Bool :=
  d.finding.message == "Maybe unanalyzed (fix line)" || d.finding.message == "Line does not exist"

theorem isAboutBranch_eq_false {d : Diagnostic}
    (h : d.finding.isAside = true ∨ ∃ cause, d.finding = .badText cause) :
    d.isAboutBranch = false := by
  obtain ⟨span, finding⟩ := d
  unfold Diagnostic.isAboutBranch
  cases finding with
  | unsureBranch => rcases h with h | ⟨_, h⟩ <;> cases h
  | deadBranch => rcases h with h | ⟨_, h⟩ <;> cases h
  | outOfRange low high =>
    have hhead : (Finding.outOfRange low high).message.toList.head? = some 'O' := by
      show List.head?
        ("Out of range (" ++ toString low ++ "," ++ toString high ++ ")").toList = some 'O'
      simp only [String.toList_append, List.append_assoc]
      rfl
    rw [beq_eq_false_of_head? (by rw [hhead]; decide),
      beq_eq_false_of_head? (by rw [hhead]; decide)]
    rfl
  | badText cause =>
    have hhead := head?_message_badText cause
    rw [beq_eq_false_of_head? (by rw [hhead]; decide),
      beq_eq_false_of_head? (by rw [hhead]; decide)]
    rfl
  | _ => dsimp only; decide +kernel

def State.branchReports (state : State) : List Diagnostic :=
  state.diagnostics.filter (·.isAboutBranch)

def Symbols.callsOf (symbols : Symbols) (number : Nat) : List Span :=
  ((symbols.findLine? number).map (·.gosubs)).getD []

def Symbols.jumpsTo (symbols : Symbols) (number : Nat) : List Span :=
  ((symbols.findLine? number).map (·.gotos)).getD []

structure Noted (outcomes : List Outcome) (state state' : State) : Prop where
  knows : ∀ n, state'.symbols.knows n = state.symbols.knows n
  calls : ∀ n, state'.symbols.callsOf n =
    state.symbols.callsOf n ++ outcomes.filterMap (Outcome.callOf? n)
  jumps : ∀ n, state'.symbols.jumpsTo n =
    state.symbols.jumpsTo n ++ outcomes.filterMap (Outcome.jumpTo? n)
  reports : state'.branchReports = state.branchReports ++ outcomes.filterMap Outcome.diagnostic?

namespace Noted

theorem nil (state : State) : Noted [] state state :=
  ⟨fun _ => rfl, fun n => by simp, fun n => by simp, by simp⟩

theorem append {xs ys : List Outcome} {s t u : State} (h₁ : Noted xs s t) (h₂ : Noted ys t u) :
    Noted (xs ++ ys) s u where
  knows n := (h₂.knows n).trans (h₁.knows n)
  calls n := by rw [h₂.calls, h₁.calls, List.filterMap_append, List.append_assoc]
  jumps n := by rw [h₂.jumps, h₁.jumps, List.filterMap_append, List.append_assoc]
  reports := by rw [h₂.reports, h₁.reports, List.filterMap_append, List.append_assoc]

/-- What is aside from branches notes no outcome. -/
theorem of_aside {state state' : State} (h : Aside state state') : Noted [] state state' := by
  obtain ⟨more, hmore, haside⟩ := h.reports
  have hnone : more.filter (·.isAboutBranch) = [] := by
    rw [List.filter_eq_nil_iff]
    intro d hd
    rw [isAboutBranch_eq_false (.inl (haside d hd))]
    exact Bool.false_ne_true
  refine ⟨h.quiet.lines, fun n => ?_, fun n => ?_, ?_⟩
  · rw [Symbols.callsOf, Symbols.findLine?, h.lines, List.filterMap_nil, List.append_nil]
    rfl
  · rw [Symbols.jumpsTo, Symbols.findLine?, h.lines, List.filterMap_nil, List.append_nil]
    rfl
  · rw [State.branchReports, hmore, List.filter_append, hnone]
    rfl

/-- Bad text is no branch. -/
theorem report_badText (state : State) (span : Span) (cause : Mismatch) :
    Noted [] state (state.report span (.badText cause)) where
  knows _ := rfl
  calls n := (List.append_nil _).symm
  jumps n := (List.append_nil _).symm
  reports := by
    have hnone : Diagnostic.isAboutBranch ⟨span, .badText cause⟩ = false :=
      isAboutBranch_eq_false (.inr ⟨cause, rfl⟩)
    simp [State.branchReports, State.report, hnone]

end Noted

theorem get?_map_entry {α : Type} (table : List (Nat × α)) (number : Nat) (change : α → α)
    (n : Nat) :
    Table.get? (table.map fun (k, a) => if k == number then (k, change a) else (k, a)) n =
      (Table.get? table n).map fun a => if n = number then change a else a := by
  induction table with
  | nil => rfl
  | cons entry table ih =>
    obtain ⟨k, a⟩ := entry
    unfold Table.get? at ih ⊢
    by_cases hk : k = n
    · subst hk
      by_cases hn : k = number <;> simp [hn]
    · by_cases hn : k = number
      · subst hn
        simpa [hk] using ih
      · simpa [hk, hn] using ih

/-- A branch to a line of the table is noted there. -/
theorem noted_branch (state : State) {number : Nat} (isGosub : Bool) (span : Span)
    (h : state.symbols.knows number = true) :
    Noted [if isGosub then .call number span else .jump number span] state
      { state with symbols := state.symbols.branch number isGosub span } := by
  obtain ⟨info, hinfo⟩ := Option.isSome_iff_exists.1 h
  have hfind : ∀ n, (state.symbols.branch number isGosub span).findLine? n =
      (state.symbols.findLine? n).map fun info =>
        if n = number then
          if isGosub then { info with gosubs := info.gosubs ++ [span] }
          else { info with gotos := info.gotos ++ [span] }
        else info :=
    fun n => get?_map_entry state.symbols.lines number (fun info =>
      if isGosub then { info with gosubs := info.gosubs ++ [span] }
      else { info with gotos := info.gotos ++ [span] }) n
  refine ⟨knows_branch _ _ _ _, fun n => ?_, fun n => ?_, ?_⟩
  · rw [Symbols.callsOf, Symbols.callsOf, hfind]
    by_cases hn : n = number
    · subst hn
      cases isGosub <;> simp [hinfo, Outcome.callOf?]
    · cases isGosub <;> simp [hn, Ne.symm hn, Outcome.callOf?]
  · rw [Symbols.jumpsTo, Symbols.jumpsTo, hfind]
    by_cases hn : n = number
    · subst hn
      cases isGosub <;> simp [hinfo, Outcome.jumpTo?]
    · cases isGosub <;> simp [hn, Ne.symm hn, Outcome.jumpTo?]
  · cases isGosub <;> simp [State.branchReports, Outcome.diagnostic?]

theorem noted_unsure (state : State) (span : Span) :
    Noted [.unsure span] state (state.report span .unsureBranch) where
  knows _ := rfl
  calls n := (List.append_nil _).symm
  jumps n := (List.append_nil _).symm
  reports := by
    have habout : Diagnostic.isAboutBranch ⟨span, .unsureBranch⟩ = true := by
      unfold Diagnostic.isAboutBranch
      dsimp only
      decide +kernel
    simp [State.branchReports, State.report, Outcome.diagnostic?, habout]

theorem noted_dead (state : State) (span : Span) :
    Noted [.dead span] state (state.report span .deadBranch) where
  knows _ := rfl
  calls n := (List.append_nil _).symm
  jumps n := (List.append_nil _).symm
  reports := by
    have habout : Diagnostic.isAboutBranch ⟨span, .deadBranch⟩ = true := by
      unfold Diagnostic.isAboutBranch
      dsimp only
      decide +kernel
    simp [State.branchReports, State.report, Outcome.diagnostic?, habout]

/-- A visit at a branch notes its outcome. -/
theorem checkBranch_noted {seat : Seat} {state state' : State} {next : Directive}
    (hbranch : Renumber.isBranch seat.node = true)
    (h : checkBranch seat (isToken .gosub seat.node) state = .ok (next, state')) :
    Noted (outcome? state.symbols seat).toList state state' := by
  rw [outcome?, literalTarget?, if_pos hbranch]
  cases branched_of_checkBranch h with
  | computed htarget =>
    rw [htarget]
    exact .nil state
  | @known target _ htarget hnumber hknown =>
    obtain rfl := Numeral.eq_digitsValue hnumber
    rw [htarget, Option.map_some, Option.toList_some, outcome,
      if_pos (show state.symbols.knows _ = true from hknown)]
    exact noted_branch state _ target.span hknown
  | @unsure target _ htarget hnumber hunknown hfamily =>
    obtain rfl := Numeral.eq_digitsValue hnumber
    have hunknown : ¬state.symbols.knows (Numeral.digitsValue target.text) = true :=
      Bool.eq_false_iff.1 hunknown
    rw [htarget, Option.map_some, Option.toList_some, outcome,
      if_neg hunknown, if_pos hfamily]
    exact noted_unsure state target.span
  | @dead target _ htarget hnumber hunknown hfamily =>
    obtain rfl := Numeral.eq_digitsValue hnumber
    have hunknown : ¬state.symbols.knows (Numeral.digitsValue target.text) = true :=
      Bool.eq_false_iff.1 hunknown
    rw [htarget, Option.map_some, Option.toList_some, outcome,
      if_neg hunknown, if_neg (Bool.eq_false_iff.1 hfamily)]
    exact noted_dead state target.span

theorem outcome?_congr {symbols symbols' : Symbols} (h : ∀ n, symbols'.knows n = symbols.knows n) :
    outcome? symbols' = outcome? symbols := by
  funext seat
  unfold outcome? outcome
  simp only [h]

theorem outcome?_of_no_branch {seat : Seat} (h : Renumber.isBranch seat.node = false)
    (symbols : Symbols) : outcome? symbols seat = none := by
  rw [outcome?, literalTarget?, h]
  rfl

theorem isBranch_of_kind {l : Leaf} {t : Token} (h : l.kind = .token t) :
    Renumber.isBranch (.leaf l) = isBranch t ∧ isToken .gosub (.leaf l) = (t == .gosub) := by
  obtain ⟨kind, text, span⟩ := l
  cases h
  refine ⟨?_, rfl⟩
  cases t <;> rfl

theorem isBranch_eq_false {l : Leaf} (h : ∀ t, l.kind ≠ .token t) :
    Renumber.isBranch (.leaf l) = false := by
  obtain ⟨kind, text, span⟩ := l
  cases kind with
  | token t => exact absurd rfl (h t)
  | _ => rfl

/-- One visit of the second pass notes the outcome of the branch that sits there, if one does. -/
theorem checkAt_noted {settings : Settings} {seat : Seat} {state state' : State} {next : Directive}
    (h : checkAt settings seat state = .ok (next, state')) :
    Noted (outcome? state.symbols seat).toList state state' := by
  have plain : ∀ {l : Leaf} {state'}, Noted [] (checkCase settings l state) state' →
      Renumber.isBranch seat.node = false →
      Noted (outcome? state.symbols seat).toList state state' := by
    intro l state' hnoted hbranch
    rw [outcome?_of_no_branch hbranch]
    exact (Noted.of_aside (.checkCase settings l state)).append hnoted
  cases checked_of_checkAt h with
  | inner hnode =>
    rw [outcome?_of_no_branch (by rw [hnode]; rfl)]
    exact .of_aside (.checkInner settings _ _ state)
  | error hnode hkind =>
    exact plain (.report_badText _ _ _) (by rw [hnode]; exact isBranch_eq_false (by simp [hkind]))
  | @branch l t next state' hnode hkind ht hok =>
    have hcase := Aside.checkCase settings l state
    obtain ⟨hbranch, hgosub⟩ := isBranch_of_kind hkind
    rw [← hgosub, ← hnode] at hok
    have hnoted := checkBranch_noted (by rw [hnode, hbranch, ht]) hok
    rw [outcome?_congr hcase.quiet.lines] at hnoted
    exact (Noted.of_aside hcase).append hnoted
  | @word l t state' hnode hkind ht hok =>
    exact plain (.of_aside (.checkOperands hok)) (by rw [hnode, (isBranch_of_kind hkind).1, ht])
  | declared hnode hkind _ =>
    exact plain (.nil _) (by rw [hnode]; exact isBranch_eq_false (by simp [hkind]))
  | name hnode hkind _ =>
    exact plain (.of_aside (.checkVariable _ _ _ _))
      (by rw [hnode]; exact isBranch_eq_false (by simp [hkind]))
  | plain hnode hword _ _ => exact plain (.nil _) (by rw [hnode]; exact isBranch_eq_false hword)

/-- The second pass notes the outcome of every branch. -/
theorem checkPass_noted (settings : Settings) (tree : Node) (state : State)
    (hread : Readable tree.children) (hlast : ErrorsLast tree.children) :
    ∃ state', checkPass settings tree state = .ok state' ∧
      Noted (outcomes state.symbols tree) state state' := by
  refine checkPass_collects (P := fun s => ∀ n, s.symbols.knows n = state.symbols.knows n)
    (C := Noted) Noted.nil Noted.append
    (fun {l} _ _ h => outcome?_of_no_branch (isBranch_eq_false ?_) _) ?_ hread hlast fun _ => rfl
  · intro t ht
    rcases h with h | h <;> simp [ht, LeafKind.isError] at h
  intro seat s next s' _ _ hknows hok
  have hnoted := checkAt_noted hok
  rw [outcome?_congr hknows] at hnoted
  exact ⟨hnoted, fun n => (hnoted.knows n).trans (hknows n)⟩

structure Untouched (state : State) : Prop where
  calls : ∀ n, state.symbols.callsOf n = []
  jumps : ∀ n, state.symbols.jumpsTo n = []
  reports : state.branchReports = []

theorem Untouched.report {state : State} (h : Untouched state) {finding : Finding}
    (hfinding : finding.isAside = true) (span : Span) : Untouched (state.report span finding) where
  calls := h.calls
  jumps := h.jumps
  reports := by
    have hnone : Diagnostic.isAboutBranch ⟨span, finding⟩ = false :=
      isAboutBranch_eq_false (.inl hfinding)
    have hreports := h.reports
    unfold State.branchReports State.report at *
    simp [hreports, hnone]

theorem Untouched.addPrimary {state : State} (h : Untouched state) (span : Span) (number : Nat)
    (statements : List Node) : Untouched (addPrimary span number statements state) := by
  unfold Analysis.addPrimary
  split
  · exact h.report rfl span
  · split
    · exact h.report rfl span
    · refine ⟨fun n => ?_, fun n => ?_, h.reports⟩
      · have := h.calls n
        unfold Symbols.callsOf Symbols.findLine? Symbols.addLine at *
        rw [Table.get?_put]
        split
        · rfl
        · exact this
      · have := h.jumps n
        unfold Symbols.jumpsTo Symbols.findLine? Symbols.addLine at *
        rw [Table.get?_put]
        split
        · rfl
        · exact this

theorem lines_foldl (change : Symbols → Variable × Span → Symbols)
    (h : ∀ symbols pair, (change symbols pair).lines = symbols.lines)
    (found : List (Variable × Span)) (symbols : Symbols) :
    (found.foldl change symbols).lines = symbols.lines := by
  induction found generalizing symbols with
  | nil => rfl
  | cons pair found ih => rw [List.foldl_cons, ih, h]

theorem lines_declareAll (found : List (Variable × Span)) (state : State) :
    (declareAll found state).symbols.lines = state.symbols.lines :=
  lines_foldl (fun symbols p => symbols.declare p.1 p.2) (fun _ _ => rfl) found _

theorem lines_defineAll (found : List (Variable × Span)) (state : State) :
    (defineAll found state).symbols.lines = state.symbols.lines :=
  lines_foldl (fun symbols p => symbols.define p.1 p.2) (fun _ _ => rfl) found _

theorem Untouched.of_lines {state state' : State} (h : Untouched state)
    (hlines : state'.symbols.lines = state.symbols.lines)
    (hreports : state'.diagnostics = state.diagnostics) : Untouched state' where
  calls n := by
    rw [Symbols.callsOf, Symbols.findLine?, hlines]
    exact h.calls n
  jumps n := by
    rw [Symbols.jumpsTo, Symbols.findLine?, hlines]
    exact h.jumps n
  reports := by
    rw [State.branchReports, hreports]
    exact h.reports

/-- One visit of the first pass touches no branch. -/
theorem declareAt_untouched {seat : Seat} {state state' : State} {next : Directive}
    (h : declareAt seat state = .ok (next, state')) (hstate : Untouched state) :
    Untouched state' := by
  cases gathered_of_declareAt h with
  | number => exact hstate.addPrimary _ _ _
  | declared => exact hstate.of_lines (lines_declareAll _ _) rfl
  | defined => exact hstate.of_lines (lines_defineAll _ _) rfl
  | passed => exact hstate

/-- The first pass touches no branch. -/
theorem declarePass_untouched {tree : Node} {state : State} (hread : Readable tree.children)
    (hstate : Untouched state) :
    ∃ state', declarePass tree state = .ok state' ∧ Untouched state' := by
  apply survey_ok (P := fun _ nodes s => Readable nodes ∧ Untouched s)
    (Q := fun _ _ _ t => Untouched t) (fun h => h.2) _ tree state ⟨hread, hstate⟩
  rintro left node right s ⟨hread, hs⟩
  obtain ⟨next, s₁, hok, hexit, -⟩ := declareAt_ok ⟨node, left, right⟩ s hread
  have hs₁ := declareAt_untouched hok hs
  refine ⟨(next, s₁), hok, ?_⟩
  cases next with
  | exit => exact hexit rfl
  | parentSibling => exact hs₁
  | sibling => exact ⟨⟨hread.right, hs₁⟩, fun _ h₂ => h₂⟩
  | child => exact ⟨⟨hread.below, hs₁⟩, fun _ h₂ => ⟨⟨hread.right, h₂⟩, fun _ h₃ => h₃⟩⟩

theorem span_outcome (symbols : Symbols) (seat : Seat) (target : Leaf) :
    (outcome symbols seat target).span = target.span := by
  unfold outcome
  dsimp only
  split
  · split <;> rfl
  · split <;> rfl

theorem map_span_outcomes (symbols : Symbols) (tree : Node) :
    (outcomes symbols tree).map Outcome.span =
      (tree.seats.filterMap literalTarget?).map Leaf.span := by
  rw [outcomes, List.map_filterMap, List.map_filterMap]
  congr 1
  funext seat
  rw [outcome?, Option.map_map]
  exact congrArg (Option.map · _) (funext fun target => span_outcome symbols seat target)

/-- The written targets of a program stand one behind the other. -/
theorem pairwise_literalTargets (text : List Char) :
    (((program text).seats.filterMap literalTarget?).map Leaf.span).Pairwise Span.Before := by
  have htargets : (program text).seats.filterMap literalTarget? =
      (program text).seats.filterMap Renumber.loneOperand? :=
    (Renumber.filterMap_loneOperand? [] _ (Grammar.errorsLast_program text)).symm
  have hsub : ((program text).seats.filterMap Renumber.loneOperand?).Sublist
      (Renumber.references [] (program text).children) := by
    refine (Renumber.sublist_loneOperand? _).trans ?_
    rw [Renumber.filterMap_operand?]
    exact List.filter_sublist
  rw [htargets]
  exact (Renumber.pairwise_references text).sublist (hsub.map _)

/-- Every branch to a written number has one outcome, which stands at this number. The places from
which a line of the table is called and jumped to are those of the outcomes that lead there, the
diagnostics about branches are those of the outcomes that lead nowhere, and all of them are in the
order of the text. -/
theorem branches_ofProgram (settings : Settings) (text : List Char)
    (h : Readable (program text).children) :
    ∃ analysis, ofProgram settings text = .ok analysis ∧
      (outcomes analysis.symbols (program text)).map Outcome.span =
        ((program text).seats.filterMap literalTarget?).map Leaf.span ∧
      ((outcomes analysis.symbols (program text)).map Outcome.span).Pairwise Span.Before ∧
      (∀ number info, analysis.symbols.findLine? number = some info →
        info.gosubs = (outcomes analysis.symbols (program text)).filterMap (Outcome.callOf? number) ∧
        info.gotos = (outcomes analysis.symbols (program text)).filterMap (Outcome.jumpTo? number)) ∧
      analysis.diagnostics.filter (·.isAboutBranch) =
        (outcomes analysis.symbols (program text)).filterMap Outcome.diagnostic? := by
  have hempty : Untouched {} := ⟨fun _ => rfl, fun _ => rfl, rfl⟩
  obtain ⟨state, hdeclare, huntouched⟩ := declarePass_untouched h hempty
  obtain ⟨state', hcheck, hnoted⟩ :=
    checkPass_noted settings (program text) state h (Grammar.errorsLast_program text)
  have houtcomes : outcomes state.symbols (program text) =
      outcomes state'.symbols (program text) := by
    rw [outcomes, outcomes, outcome?_congr hnoted.knows]
  rw [houtcomes] at hnoted
  refine ⟨⟨state'.diagnostics, state'.symbols⟩, ?_, map_span_outcomes _ _, ?_, ?_, ?_⟩
  · rw [ofProgram, hdeclare]
    exact congrArg (Except.map fun s : State => (⟨s.diagnostics, s.symbols⟩ : Analysis)) hcheck
  · rw [map_span_outcomes]
    exact pairwise_literalTargets text
  · intro number info hinfo
    have hcalls := hnoted.calls number
    have hjumps := hnoted.jumps number
    rw [huntouched.calls, List.nil_append, Symbols.callsOf, hinfo] at hcalls
    rw [huntouched.jumps, List.nil_append, Symbols.jumpsTo, hinfo] at hjumps
    exact ⟨hcalls, hjumps⟩
  · have hreports := hnoted.reports
    rw [huntouched.reports, List.nil_append] at hreports
    exact hreports

/-- A call of a line further down from a nested statement, a jump into a line that is out of order,
and a jump in a broken line. -/
theorem branches_nested :
    let text := "10 IF A THEN GOSUB 30:GOTO 5\n5 GOTO 10\n30 GOTO 7 X".toList
    ∃ analysis, ofProgram {} text = .ok analysis ∧
      (outcomes analysis.symbols (program text)).map Outcome.span =
        ((program text).seats.filterMap literalTarget?).map Leaf.span ∧
      ((outcomes analysis.symbols (program text)).map Outcome.span).Pairwise Span.Before ∧
      (∀ number info, analysis.symbols.findLine? number = some info →
        info.gosubs =
          (outcomes analysis.symbols (program text)).filterMap (Outcome.callOf? number) ∧
        info.gotos =
          (outcomes analysis.symbols (program text)).filterMap (Outcome.jumpTo? number)) ∧
      analysis.diagnostics.filter (·.isAboutBranch) =
        (outcomes analysis.symbols (program text)).filterMap Outcome.diagnostic? :=
  branches_ofProgram {} _ (by unfold Readable; decide +kernel)

/-- The four outcomes, by a table of two lines. -/
example : outcomes { lines := [(10, ⟨⟨⟨0, 0⟩, ⟨0, 3⟩⟩, [], [], []⟩),
      (30, ⟨⟨⟨2, 0⟩, ⟨2, 3⟩⟩, [], [], []⟩)] }
    (program "10 IF A THEN GOSUB 30:GOTO 5\n5 GOTO 10\n30 GOTO 7 X".toList) =
      [.call 30 ⟨⟨0, 19⟩, ⟨0, 21⟩⟩, .dead ⟨⟨0, 27⟩, ⟨0, 28⟩⟩, .jump 10 ⟨⟨1, 7⟩, ⟨1, 9⟩⟩,
        .unsure ⟨⟨2, 8⟩, ⟨2, 10⟩⟩] := by
  decide +kernel

end IntegerBasic.Analysis
