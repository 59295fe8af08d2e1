import Mathlib.Data.List.Induction
import IntegerBasic.Proofs.Analysis.Branches
import IntegerBasic.Proofs.Renumber.Primaries

/-!
# The table of lines

The first pass keeps the last number it has taken into the table and lets a number in if it is
within bounds and greater than that. What this leaves in the table is the greedy increasing
subsequence of the numbers within bounds, and each number that is left out is reported once.

The pass comes to every number: it leaves a statement early, but never a line. The second pass only
adds places to the entries, and its reports of ranges have other bounds than line numbers have.
-/

namespace IntegerBasic.Analysis

open Grammar (program Unnumbered)

/-! ### What becomes of the number of a line -/

/-- The numbers at the front of the lines of a text. -/
def leadingNumbers (text : List Char) : List Leaf := Renumber.primaryLeaves (Text.lines text) 0

/-- The values of these numbers, without those that no line may have. -/
def inRange (numbers : List Leaf) : List Nat :=
  (numbers.map fun l => Numeral.digitsValue l.text).filter (· ≤ lineNumberLimit)

def greaterThan (n : Nat) (numbers : List Nat) : List Nat := numbers.filter (n < ·)

/-- The subsequence that takes the first number, and then always the next one that is greater than
all it has. -/
def greedy : List Nat → List Nat
  | [] => []
  | n :: more => n :: greedy (greaterThan n more)
termination_by numbers => numbers.length
decreasing_by exact Nat.lt_succ_of_le (List.length_filter_le _ _)

inductive Fate where
  | registered (number : Nat) (span : Span)
  /-- The number is too large. -/
  | outOfRange (span : Span)
  /-- The number is not greater than one further up. -/
  | outOfOrder (span : Span)
  deriving DecidableEq, Repr

namespace Fate

def span : Fate → Span
  | registered _ span | outOfRange span | outOfOrder span => span

def entry? : Fate → Option (Nat × Span)
  | registered number span => some (number, span)
  | _ => none

def diagnostic? : Fate → Option Diagnostic
  | registered _ _ => none
  | outOfRange span => some ⟨span, .outOfRange 0 lineNumberLimit⟩
  | outOfOrder span => some ⟨span, .outOfOrder⟩

end Fate

def fate (above : List Leaf) (l : Leaf) : Fate :=
  let number := Numeral.digitsValue l.text
  if lineNumberLimit < number then .outOfRange l.span
  else if (greedy (inRange above)).getLast?.any (number ≤ ·) then .outOfOrder l.span
  else .registered number l.span

/-- What becomes of each of these numbers, below the lines with some others. -/
def fates (above : List Leaf) : List Leaf → List Fate
  | [] => []
  | l :: below => fate above l :: fates (above ++ [l]) below

theorem fates_concat (above numbers : List Leaf) (l : Leaf) :
    fates above (numbers ++ [l]) = fates above numbers ++ [fate (above ++ numbers) l] := by
  induction numbers generalizing above with
  | nil => simp [fates]
  | cons m numbers ih => simp [fates, ih]

/-- Each of the numbers has a fate, at its place. -/
theorem map_span_fates (above numbers : List Leaf) :
    (fates above numbers).map Fate.span = numbers.map Leaf.span := by
  induction numbers generalizing above with
  | nil => rfl
  | cons l numbers ih =>
    rw [fates, List.map_cons, List.map_cons, ih, fate]
    congr 1
    split
    · rfl
    · split <;> rfl

theorem inRange_concat (numbers : List Leaf) (l : Leaf) :
    inRange (numbers ++ [l]) = inRange numbers ++
      if Numeral.digitsValue l.text ≤ lineNumberLimit then [Numeral.digitsValue l.text]
      else [] := by
  by_cases h : Numeral.digitsValue l.text ≤ lineNumberLimit <;> simp [inRange, h]

@[elab_as_elim]
theorem greedy_induction {motive : List Nat → Prop} (nil : motive [])
    (cons : ∀ n more, motive (greaterThan n more) → motive (n :: more)) (numbers : List Nat) :
    motive numbers := by
  induction hlength : numbers.length using Nat.strongRecOn generalizing numbers with
  | ind length ih =>
    cases numbers with
    | nil => exact nil
    | cons n more =>
      refine cons n more (ih _ ?_ _ rfl)
      rw [← hlength]
      exact Nat.lt_succ_of_le (List.length_filter_le _ _)

theorem greedy_sublist (numbers : List Nat) : (greedy numbers).Sublist numbers := by
  induction numbers using greedy_induction with
  | nil => rw [greedy]
  | cons n more ih =>
    rw [greedy]
    exact (ih.trans List.filter_sublist).cons_cons n

theorem lt_of_mem_greedy_greaterThan {n k : Nat} {numbers : List Nat}
    (h : k ∈ greedy (greaterThan n numbers)) : n < k :=
  of_decide_eq_true (List.mem_filter.1 ((greedy_sublist _).mem h)).2

theorem pairwise_greedy (numbers : List Nat) : (greedy numbers).Pairwise (· < ·) := by
  induction numbers using greedy_induction with
  | nil =>
    rw [greedy]
    exact .nil
  | cons n more ih =>
    rw [greedy]
    exact .cons (fun _ => lt_of_mem_greedy_greaterThan) ih

/-- One more number is taken if it is greater than the last that was. -/
theorem greedy_concat (numbers : List Nat) (n : Nat) :
    greedy (numbers ++ [n]) =
      if (greedy numbers).getLast?.any (n ≤ ·) then greedy numbers else greedy numbers ++ [n] := by
  induction numbers using greedy_induction with
  | nil => simp [greedy, greaterThan]
  | cons m more ih =>
    rw [List.cons_append, greedy, greedy, List.getLast?_cons]
    by_cases hm : m < n
    · have hmore : greaterThan m (more ++ [n]) = greaterThan m more ++ [n] := by
        simp [greaterThan, hm]
      rw [hmore, ih]
      cases hlast : (greedy (greaterThan m more)).getLast? with
      | none => simp [Nat.not_le.2 hm]
      | some k => by_cases hk : n ≤ k <;> simp [hk]
    · have hmore : greaterThan m (more ++ [n]) = greaterThan m more := by
        simp [greaterThan, hm]
      rw [hmore, if_pos]
      cases hlast : (greedy (greaterThan m more)).getLast? with
      | none => simpa using hm
      | some k =>
        have := lt_of_mem_greedy_greaterThan (List.mem_of_getLast? hlast)
        simp
        omega

/-- The numbers that are registered are the greedy subsequence of those within bounds. -/
theorem keys_fates (numbers : List Leaf) :
    ((fates [] numbers).filterMap Fate.entry?).map (·.1) = greedy (inRange numbers) := by
  induction numbers using List.reverseRecOn with
  | nil => simp [fates, inRange, greedy]
  | append_singleton numbers l ih =>
    rw [fates_concat, List.filterMap_append, List.map_append, ih, inRange_concat, fate]
    by_cases hlimit : lineNumberLimit < Numeral.digitsValue l.text
    · simp [hlimit, Fate.entry?, Nat.not_le.2 hlimit]
    · rw [if_neg hlimit, if_pos (Nat.not_lt.1 hlimit), greedy_concat, List.nil_append]
      split <;> simp [Fate.entry?]

/-! ### The first pass -/

/-- The words that the two findings about line numbers are told by. -/
def Diagnostic.isAboutLineNumber (d : Diagnostic) : Bool :=
  d.finding.message == "Out of range (0,32767)" || d.finding.message == "Line number out of order"

def State.numberReports (state : State) : List Diagnostic :=
  state.diagnostics.filter (·.isAboutLineNumber)

/-- The numbers of a table of lines, each with its place. -/
def Symbols.primaries (symbols : Symbols) : List (Nat × Span) :=
  symbols.lines.map fun (number, info) => (number, info.primary)

structure Filed (numbers : List Leaf) (state : State) : Prop where
  primaries : state.symbols.primaries = (fates [] numbers).filterMap Fate.entry?
  reports : state.numberReports = (fates [] numbers).filterMap Fate.diagnostic?
  last : state.lastLine = (greedy (inRange numbers)).getLast?

structure SameLines (state state' : State) : Prop where
  primaries : state'.symbols.primaries = state.symbols.primaries
  reports : state'.numberReports = state.numberReports
  last : state'.lastLine = state.lastLine

namespace SameLines

theorem refl (state : State) : SameLines state state := ⟨rfl, rfl, rfl⟩

theorem trans {s t u : State} (h₁ : SameLines s t) (h₂ : SameLines t u) : SameLines s u :=
  ⟨h₂.primaries.trans h₁.primaries, h₂.reports.trans h₁.reports, h₂.last.trans h₁.last⟩

theorem filed {numbers : List Leaf} {state state' : State} (h : SameLines state state')
    (hfiled : Filed numbers state) : Filed numbers state' :=
  ⟨h.primaries.trans hfiled.primaries, h.reports.trans hfiled.reports, h.last.trans hfiled.last⟩

end SameLines

/-- A number that is reported leaves the table as it is. -/
theorem Filed.report {numbers : List Leaf} {state : State} (h : Filed numbers state) {l : Leaf}
    {f : Fate} {finding : Finding} (hfate : fate numbers l = f) (hentry : f.entry? = none)
    (hdiagnostic : f.diagnostic? = some ⟨l.span, finding⟩)
    (habout : Diagnostic.isAboutLineNumber ⟨l.span, finding⟩ = true) :
    Filed (numbers ++ [l]) (state.report l.span finding) := by
  have hentries : (fates [] (numbers ++ [l])).filterMap Fate.entry? =
      (fates [] numbers).filterMap Fate.entry? := by
    simp [fates_concat, hfate, hentry]
  refine ⟨?_, ?_, ?_⟩
  · rw [hentries]
    exact h.primaries
  · rw [fates_concat, List.filterMap_append, ← h.reports]
    simp [State.numberReports, State.report, habout, hfate, hdiagnostic]
  · rw [← keys_fates, hentries, keys_fates]
    exact h.last

/-- A number that is greater than all in the table is put at its end. -/
theorem Filed.addLine {numbers : List Leaf} {state : State} (h : Filed numbers state) {l : Leaf}
    {number : Nat} (hfate : fate numbers l = .registered number l.span) (remark : List Char) :
    Filed (numbers ++ [l]) { state with
      symbols := state.symbols.addLine number ⟨l.span, remark, [], []⟩
      lastLine := some number } := by
  have hkeys : greedy (inRange (numbers ++ [l])) = greedy (inRange numbers) ++ [number] := by
    rw [← keys_fates, ← keys_fates, fates_concat]
    simp [hfate, Fate.entry?]
  have hnew : ∀ entry ∈ state.symbols.lines, entry.1 ≠ number := by
    intro entry hentry
    have hmem : entry.1 ∈ greedy (inRange numbers) := by
      rw [← keys_fates, ← h.primaries, Symbols.primaries, List.map_map]
      exact List.mem_map_of_mem hentry
    have hsorted := pairwise_greedy (inRange (numbers ++ [l]))
    rw [hkeys, List.pairwise_append] at hsorted
    exact Nat.ne_of_lt (hsorted.2.2 _ hmem _ List.mem_cons_self)
  refine ⟨?_, ?_, ?_⟩
  · rw [fates_concat, List.filterMap_append, ← h.primaries, Symbols.primaries, Symbols.addLine,
      Table.put_of_not_mem hnew]
    simp [Symbols.primaries, hfate, Fate.entry?]
  · rw [fates_concat, List.filterMap_append, ← h.reports]
    simp [State.numberReports, hfate, Fate.diagnostic?]
  · simp [hkeys]

/-- The first pass files a number by its fate. -/
theorem Filed.addPrimary {numbers : List Leaf} {state : State} (h : Filed numbers state) (l : Leaf)
    (statements : List Node) :
    Filed (numbers ++ [l])
      (addPrimary l.span (Numeral.digitsValue l.text) statements state) := by
  have habout : ∀ {finding : Finding},
      finding = .outOfRange 0 lineNumberLimit ∨ finding = .outOfOrder →
        Diagnostic.isAboutLineNumber ⟨l.span, finding⟩ = true := by
    unfold Diagnostic.isAboutLineNumber
    rintro _ (rfl | rfl) <;> dsimp only <;> decide +kernel
  unfold Analysis.addPrimary
  rw [h.last]
  by_cases hlimit : lineNumberLimit < Numeral.digitsValue l.text
  · rw [if_pos hlimit]
    exact h.report (f := .outOfRange l.span) (if_pos hlimit) rfl rfl (habout (.inl rfl))
  · rw [if_neg hlimit]
    by_cases horder : (greedy (inRange numbers)).getLast?.any (Numeral.digitsValue l.text ≤ ·)
    · rw [if_pos horder]
      exact h.report (f := .outOfOrder l.span) ((if_neg hlimit).trans (if_pos horder)) rfl rfl
        (habout (.inr rfl))
    · rw [if_neg horder]
      exact h.addLine ((if_neg hlimit).trans (if_neg horder)) _

theorem SameLines.of_lines {state state' : State}
    (hlines : state'.symbols.lines = state.symbols.lines)
    (hreports : state'.diagnostics = state.diagnostics) (hlast : state'.lastLine = state.lastLine) :
    SameLines state state' :=
  ⟨by rw [Symbols.primaries, hlines]; rfl, by rw [State.numberReports, hreports]; rfl, hlast⟩

/-- A visit of the first pass anywhere but at the number of a line. -/
theorem declareAt_sameLines {seat : Seat} {state state' : State} {next : Directive}
    (h : declareAt seat state = .ok (next, state')) (hnode : Unnumbered [seat.node]) :
    SameLines state state' := by
  cases gathered_of_declareAt h with
  | number hseat hkind => exact absurd hkind (hnode _ (by simp [hseat]))
  | declared => exact .of_lines (lines_declareAll _ _) rfl rfl
  | defined => exact .of_lines (lines_defineAll _ _) rfl rfl
  | passed => exact .refl _

/-- Siblings without the number of a line leave the table of lines as it is, however early the
first pass leaves them. -/
theorem tour_unnumbered (left : List Node) {nodes : List Node} (hnone : Unnumbered nodes)
    (hread : Readable nodes) (state : State) :
    ∃ state', tour declareAt left nodes state = .ok (false, state') ∧ SameLines state state' := by
  apply tour_ok (P := fun _ nodes _ => Unnumbered nodes ∧ Readable nodes)
    (Q := fun _ _ s t => SameLines s t) (fun {_ s} _ => .refl s) _ left nodes state ⟨hnone, hread⟩
  rintro left node right s ⟨hnone, hread⟩
  have hnode : Unnumbered [node] := fun l hl => hnone l (by simp_all)
  have hright : Unnumbered right := fun l hl => hnone l (by simp [hl])
  have hbelow : Unnumbered node.children := by
    cases node with
    | leaf => simp [Node.children, Unnumbered]
    | inner => exact fun l hl => hnode l (by simpa [Node.children] using hl)
  obtain ⟨next, s₁, hok, hexit, -⟩ := declareAt_ok ⟨node, left, right⟩ s hread
  have hsame := declareAt_sameLines hok hnode
  refine ⟨(next, s₁), hok, ?_⟩
  cases next with
  | exit => exact hexit rfl
  | parentSibling => exact hsame
  | sibling => exact ⟨⟨hright, hread.right⟩, fun _ h₂ => hsame.trans h₂⟩
  | child =>
    exact ⟨⟨hbelow, hread.below⟩, fun _ h₂ => ⟨⟨hright, hread.right⟩,
      fun _ h₃ => hsame.trans (h₂.trans h₃)⟩⟩

/-- What follows the number of a line does not undo that it is filed. -/
theorem tour_numbered {l : Leaf} (hkind : l.kind = .lineNumber) {rest : List Node}
    (hnone : Unnumbered rest) (hread : Readable (.leaf l :: rest)) {numbers : List Leaf}
    {state : State} (hstate : Filed numbers state) :
    ∃ state', tour declareAt [] (.leaf l :: rest) state = .ok (false, state') ∧
      Filed (numbers ++ [l]) state' := by
  have hvisit : declareAt ⟨.leaf l, [], rest⟩ state =
      .ok (.sibling, addPrimary l.span (Numeral.digitsValue l.text) rest state) := by
    have hvalue := hread.readToken List.mem_cons_self (by rw [hkind]; rfl)
    obtain ⟨kind, text, span⟩ := l
    cases hkind
    simp only [declareAt, hvalue]
    rfl
  obtain ⟨state', hok, hsame⟩ := tour_unnumbered [.leaf l] hnone hread.right
    (addPrimary l.span (Numeral.digitsValue l.text) rest state)
  refine ⟨state', ?_, hsame.filed (hstate.addPrimary l rest)⟩
  rw [tour, hvisit]
  exact hok

/-- A line files its number, if it has one. -/
theorem tour_line {row : Int} {s : List Char} {numbers : List Leaf} {state : State}
    (hread : Readable (Grammar.line row s).children) (hstate : Filed numbers state) :
    ∃ state', tour declareAt [] (Grammar.line row s).children state = .ok (false, state') ∧
      Filed (numbers ++ (Renumber.primaryLeaf? row s).toList) state' := by
  unfold Grammar.line at hread ⊢
  unfold Renumber.primaryLeaf?
  cases h : Lexeme.lineNumber s with
  | none =>
    rw [h] at hread
    obtain ⟨state', hok, hsame⟩ := tour_unnumbered []
      (Grammar.unnumbered_leaf (by simp)) hread state
    exact ⟨state', hok, by simpa using hsame.filed hstate⟩
  | some pair =>
    obtain ⟨number, rest⟩ := pair
    rw [h] at hread
    simpa [Node.children, Grammar.Input.leaf, Grammar.Input.point, Grammar.statements] using
      tour_numbered rfl (Grammar.unnumbered_statementsUpTo _ _) hread hstate

/-- The lines of a program file their numbers. -/
theorem tour_lines {rows : List (Nat × List Char)} (left : List Node) {numbers : List Leaf}
    {state : State} (hread : Readable (rows.map fun (row, s) => Grammar.line row s))
    (hstate : Filed numbers state) :
    ∃ state', tour declareAt left (rows.map fun (row, s) => Grammar.line row s) state =
        .ok (false, state') ∧
      Filed (numbers ++ rows.flatMap fun (row, s) => (Renumber.primaryLeaf? row s).toList)
        state' := by
  induction rows generalizing left numbers state with
  | nil => exact ⟨state, by rw [List.map_nil, tour], by simpa using hstate⟩
  | cons pair rows ih =>
    obtain ⟨row, s⟩ := pair
    rw [List.map_cons] at hread
    obtain ⟨state₁, hline, hstate₁⟩ := tour_line hread.below hstate
    obtain ⟨state₂, hlines, hstate₂⟩ :=
      ih (Grammar.line row s :: left) hread.right hstate₁
    refine ⟨state₂, ?_, by simpa using hstate₂⟩
    have hvisit : declareAt ⟨Grammar.line row s, left, rows.map fun (row, s) => Grammar.line row s⟩
        state = .ok (.child, state) := rfl
    rw [List.map_cons, tour, hvisit]
    unfold Grammar.line at hline hlines ⊢
    dsimp only [Node.children] at hline ⊢
    rw [hline]
    exact hlines

/-- The first pass files the numbers of all lines. -/
theorem declarePass_filed {text : List Char} (hread : Readable (program text).children) :
    ∃ state, declarePass (program text) {} = .ok state ∧ Filed (leadingNumbers text) state := by
  have hempty : Filed [] {} := ⟨rfl, rfl, by simp [inRange, greedy]⟩
  obtain ⟨state, hok, hfiled⟩ := tour_lines [] hread hempty
  refine ⟨state, ?_, ?_⟩
  · rw [declarePass, survey_eq_tour]
    exact congrArg (Except.map (·.2)) hok
  · rw [leadingNumbers, ← Renumber.flatMap_primaryLeaf?]
    exact hfiled

/-! ### The second pass -/

def Finding.isOfUse : Finding → Bool
  | .outOfOrder => false
  | .outOfRange low high =>
    (low, high) == (-addressLimit, addressLimit) || (low, high) == (0, byteLimit)
  | _ => true

theorem isOfUse_of_isRemark {finding : Finding} (h : finding.isRemark = true) :
    finding.isOfUse = true := by
  cases finding with
  | outOfOrder | outOfRange => cases h
  | _ => rfl

theorem isAboutLineNumber_eq_false {finding : Finding} (h : finding.isOfUse = true) (span : Span) :
    Diagnostic.isAboutLineNumber ⟨span, finding⟩ = false := by
  unfold Diagnostic.isAboutLineNumber
  cases finding with
  | outOfOrder => cases h
  | outOfRange low high =>
    simp only [Finding.isOfUse, Bool.or_eq_true, beq_iff_eq, Prod.mk.injEq] at h
    rcases h with ⟨rfl, rfl⟩ | ⟨rfl, rfl⟩ <;> dsimp only <;> decide +kernel
  | badText cause =>
    have hhead := head?_message_badText cause
    rw [beq_eq_false_of_head? (by rw [hhead]; decide),
      beq_eq_false_of_head? (by rw [hhead]; decide)]
    rfl
  | _ => dsimp only; decide +kernel

namespace SameLines

theorem report {finding : Finding} (h : finding.isOfUse = true) (state : State) (span : Span) :
    SameLines state (state.report span finding) :=
  ⟨rfl, by simp [State.numberReports, State.report, isAboutLineNumber_eq_false h], rfl⟩

theorem of_remarked {symbols : Symbols} {state state' : State} (h : Remarked symbols state state')
    (hlines : symbols.lines = state.symbols.lines) : SameLines state state' := by
  obtain ⟨remarks, hremarks, hremark⟩ := h.reports
  have hnone : remarks.filter (·.isAboutLineNumber) = [] := by
    rw [List.filter_eq_nil_iff]
    intro d hd
    rw [isAboutLineNumber_eq_false (isOfUse_of_isRemark (hremark d hd))]
    exact Bool.false_ne_true
  refine ⟨?_, ?_, h.lastLine⟩
  · rw [Symbols.primaries, h.symbols, hlines]
    rfl
  · rw [State.numberReports, hremarks, List.filter_append, hnone, List.append_nil]
    rfl

theorem checkCase (settings : Settings) (leaf : Leaf) (state : State) :
    SameLines state (checkCase settings leaf state) :=
  of_remarked (.checkCase settings leaf state) rfl

theorem checkRange {operand : List Node} {low high : Int}
    (hbounds : (Finding.outOfRange low high).isOfUse = true) {state state' : State}
    (h : checkRange operand low high state = .ok state') : SameLines state state' := by
  cases measured_of_checkRange h with
  | computed => exact refl state
  | within => exact refl state
  | outside => exact report hbounds state _

theorem checkOperands {t : Token} {following : List Node} {state state' : State}
    (h : checkOperands t following state = .ok state') : SameLines state state' :=
  checkOperands_keeps refl trans (checkRange (by decide)) (checkRange (by decide)) h

/-- A branch is noted at the line it leads to, which keeps its place. -/
theorem branch (state : State) (number : Nat) (isGosub : Bool) (span : Span) :
    SameLines state { state with symbols := state.symbols.branch number isGosub span } := by
  refine ⟨?_, rfl, rfl⟩
  unfold Symbols.primaries Symbols.branch
  rw [List.map_map]
  apply List.map_congr_left
  rintro ⟨n, info⟩ -
  dsimp only [Function.comp]
  split
  · cases isGosub <;> rfl
  · rfl

theorem checkBranch {seat : Seat} {isGosub : Bool} {state state' : State} {next : Directive}
    (h : checkBranch seat isGosub state = .ok (next, state')) : SameLines state state' := by
  cases branched_of_checkBranch h with
  | computed => exact refl state
  | known => exact branch state _ isGosub _
  | unsure => exact report rfl state _
  | dead => exact report rfl state _

/-- A visit of the second pass. -/
theorem checkAt {settings : Settings} {seat : Seat} {state state' : State} {next : Directive}
    (h : checkAt settings seat state = .ok (next, state')) : SameLines state state' := by
  cases checked_of_checkAt h with
  | inner => exact of_remarked (.checkInner _ _ _ _) rfl
  | error => exact (checkCase _ _ _).trans (report rfl _ _)
  | branch _ _ _ hbranch => exact (checkCase _ _ _).trans (checkBranch hbranch)
  | word _ _ _ hoperands => exact (checkCase _ _ _).trans (checkOperands hoperands)
  | declared => exact checkCase _ _ _
  | name => exact (checkCase _ _ _).trans (of_remarked (.checkVariable _ _ _ _) rfl)
  | plain => exact checkCase _ _ _

end SameLines

/-- The second pass leaves the numbers of the lines as they are. -/
theorem checkPass_sameLines (settings : Settings) (tree : Node) (state : State)
    (hread : Readable tree.children) (hlast : ErrorsLast tree.children) :
    ∃ state', checkPass settings tree state = .ok state' ∧ SameLines state state' :=
  @checkPass_collects Empty (fun _ => none) (fun _ => SameLines) (fun _ => True) SameLines.refl
    SameLines.trans (fun _ _ _ => rfl) settings (fun _ _ _ hok => ⟨.checkAt hok, trivial⟩) tree
    state hread hlast trivial

/-- The numbers of the lines stand one behind the other. -/
theorem pairwise_leadingNumbers (text : List Char) :
    ((leadingNumbers text).map Leaf.span).Pairwise Span.Before := by
  have hrows : ((Text.lines text).zipIdx.map Prod.snd).Pairwise (· < ·) := by
    rw [List.zipIdx_map_snd]
    exact List.pairwise_lt_range'
  rw [leadingNumbers, Renumber.primaryLeaves, List.pairwise_map, List.pairwise_filterMap]
  refine (List.pairwise_map.1 hrows).imp ?_
  rintro ⟨s, row⟩ ⟨s', row'⟩ hlt l hl l' hl'
  left
  rw [(Renumber.inRow_primaryLeaf? hl).1, (Renumber.inRow_primaryLeaf? hl').1]
  exact Int.ofNat_lt.2 hlt

/-- The number at the front of each line has one fate, which stands at its place. The table of lines
has an entry for each that is registered, the diagnostics about line numbers are those of the
others, and all of them are in the order of the text. The keys of the table are the greedy
increasing subsequence of the numbers within bounds. -/
theorem lineTable_ofProgram (settings : Settings) (text : List Char)
    (h : Readable (program text).children) :
    ∃ analysis, ofProgram settings text = .ok analysis ∧
      (fates [] (leadingNumbers text)).map Fate.span = (leadingNumbers text).map Leaf.span ∧
      ((leadingNumbers text).map Leaf.span).Pairwise Span.Before ∧
      analysis.symbols.primaries = (fates [] (leadingNumbers text)).filterMap Fate.entry? ∧
      analysis.diagnostics.filter (·.isAboutLineNumber) =
        (fates [] (leadingNumbers text)).filterMap Fate.diagnostic? ∧
      analysis.symbols.primaries.map (·.1) = greedy (inRange (leadingNumbers text)) ∧
      (analysis.symbols.primaries.map (·.1)).Pairwise (· < ·) ∧
      ∀ entry ∈ analysis.symbols.primaries, entry.1 ≤ lineNumberLimit := by
  obtain ⟨state, hdeclare, hfiled⟩ := declarePass_filed h
  obtain ⟨state', hcheck, hsame⟩ :=
    checkPass_sameLines settings (program text) state h (Grammar.errorsLast_program text)
  obtain ⟨hprimaries, hreports, -⟩ := hsame.filed hfiled
  have hkeys : state'.symbols.primaries.map (·.1) = greedy (inRange (leadingNumbers text)) := by
    rw [hprimaries, keys_fates]
  refine ⟨⟨state'.diagnostics, state'.symbols⟩, ?_, map_span_fates _ _,
    pairwise_leadingNumbers text, hprimaries, hreports, hkeys, ?_, ?_⟩
  · rw [ofProgram, hdeclare]
    exact congrArg (Except.map fun s : State => (⟨s.diagnostics, s.symbols⟩ : Analysis)) hcheck
  · rw [hkeys]
    exact pairwise_greedy _
  · intro entry hentry
    have hmem : entry.1 ∈ greedy (inRange (leadingNumbers text)) :=
      hkeys ▸ List.mem_map_of_mem hentry
    exact of_decide_eq_true (List.mem_filter.1 ((greedy_sublist _).mem hmem)).2

/-- Lines that are broken or left in the middle, a number that comes twice, and one that is too
large. -/
theorem lineTable_broken :
    let text := "10 DIM A(5:GOTO\n 10IF A THEN 7\n40000 FOO\n20 END".toList
    ∃ analysis, ofProgram {} text = .ok analysis ∧
      (fates [] (leadingNumbers text)).map Fate.span = (leadingNumbers text).map Leaf.span ∧
      ((leadingNumbers text).map Leaf.span).Pairwise Span.Before ∧
      analysis.symbols.primaries = (fates [] (leadingNumbers text)).filterMap Fate.entry? ∧
      analysis.diagnostics.filter (·.isAboutLineNumber) =
        (fates [] (leadingNumbers text)).filterMap Fate.diagnostic? ∧
      analysis.symbols.primaries.map (·.1) = greedy (inRange (leadingNumbers text)) ∧
      (analysis.symbols.primaries.map (·.1)).Pairwise (· < ·) ∧
      ∀ entry ∈ analysis.symbols.primaries, entry.1 ≤ lineNumberLimit :=
  lineTable_ofProgram {} _ (by unfold Readable; decide +kernel)

/-- The fates of these numbers. -/
example :
    fates [] (leadingNumbers "10 DIM A(5:GOTO\n 10IF A THEN 7\n40000 FOO\n20 END".toList) =
      [.registered 10 ⟨⟨0, 0⟩, ⟨0, 3⟩⟩, .outOfOrder ⟨⟨1, 0⟩, ⟨1, 3⟩⟩,
        .outOfRange ⟨⟨2, 0⟩, ⟨2, 6⟩⟩, .registered 20 ⟨⟨3, 0⟩, ⟨3, 3⟩⟩] := by
  decide +kernel

end IntegerBasic.Analysis
