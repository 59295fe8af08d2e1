import IntegerBasic.Proofs.Document.Patches

/-!
# Edits as simultaneous substitution

Edits whose ranges lie within the rows of a text, do not overlap and begin in different places say
what is to become of the text all at once: at each position the text of the edit that begins there
comes in, and a character goes if a range covers it. The edits are carried out one after another,
though, and each changes the text behind it. Going from the end of the text to its front, an edit
meets the text in front of it as it was, so the offsets that were taken at the beginning still hold.
-/

namespace IntegerBasic.Document

/-! ### The text with all ranges replaced -/

/-- The position behind a character. -/
def Position.after (p : Position) (c : Char) : Position :=
  if c = '\n' then ⟨p.line + 1, 0⟩ else ⟨p.line, p.character + 1⟩

def newAt (edits : List Edit) (p : Position) : List Char :=
  ((edits.find? (·.range.start == p)).map (·.newText)).getD []

def isCovered (edits : List Edit) (p : Position) : Bool :=
  edits.any fun e => e.range.start.le p && !e.range.stop.le p

/-- What becomes of a text that begins at a position, with all ranges replaced at once. -/
def substituteFrom (edits : List Edit) (p : Position) : List Char → List Char
  | [] => newAt edits p
  | c :: rest =>
    newAt edits p ++ (if isCovered edits p then [] else [c]) ++
      substituteFrom edits (p.after c) rest

/-- The text with all ranges replaced at once. -/
def substitute (edits : List Edit) (text : List Char) : List Char :=
  substituteFrom edits ⟨0, 0⟩ text

/-- The position stands in a row, or right behind it. -/
def Position.IsWithin (rows : List (List Char)) (p : Position) : Prop :=
  0 ≤ p.line ∧ 0 ≤ p.character ∧
    (rows[p.line.toNat]?).any (p.character ≤ ·.length) = true

instance (rows : List (List Char)) (p : Position) : Decidable (p.IsWithin rows) :=
  inferInstanceAs (Decidable (_ ∧ _ ∧ _))

/-- Neither range reaches into the other, and they do not begin in the same place. -/
def Apart (e f : Edit) : Prop :=
  (e.range.stop.le f.range.start = true ∨ f.range.stop.le e.range.start = true) ∧
    e.range.start ≠ f.range.start

instance (e f : Edit) : Decidable (Apart e f) := inferInstanceAs (Decidable (_ ∧ _))

/-- The ranges of these edits lie within the rows of a text and are apart from one another. -/
structure Separate (text : List Char) (edits : List Edit) : Prop where
  start : ∀ e ∈ edits, e.range.start.IsWithin (Text.rows text)
  stop : ∀ e ∈ edits, e.range.stop.IsWithin (Text.rows text)
  le : ∀ e ∈ edits, e.range.start.le e.range.stop = true
  apart : edits.Pairwise Apart

/-! ### Positions along a text -/

def Position.along (p : Position) (s : List Char) : Position := s.foldl Position.after p

theorem along_append (p : Position) (s t : List Char) : p.along (s ++ t) = (p.along s).along t :=
  List.foldl_append

theorem along_of_not_mem {s : List Char} (h : '\n' ∉ s) (p : Position) :
    p.along s = ⟨p.line, p.character + s.length⟩ := by
  induction s generalizing p with
  | nil => simp [Position.along]
  | cons c s ih =>
    rw [List.mem_cons, not_or] at h
    change (p.after c).along s = _
    rw [ih h.2, Position.after, if_neg (Ne.symm h.1), List.length_cons]
    congr 1
    push_cast
    omega

theorem lt_after (p : Position) (c : Char) : p.lt (p.after c) := by
  unfold Position.after
  split
  · exact .inl (Int.lt_succ _)
  · exact .inr ⟨rfl, Int.lt_succ _⟩

theorem lt_of_lt_of_le {p q r : Position} (h₁ : p.lt q) (h₂ : q.le r = true) : p.lt r := by
  rw [le_eq_true_iff] at h₂
  unfold Position.lt at h₁ ⊢
  omega

theorem lt_of_le_of_ne {p q : Position} (hle : p.le q = true) (hne : p ≠ q) : p.lt q := by
  obtain ⟨line, character⟩ := p
  obtain ⟨line', character'⟩ := q
  rw [le_eq_true_iff] at hle
  rw [Ne, Position.mk.injEq] at hne
  dsimp only at hle
  change line < line' ∨ line = line' ∧ character < character'
  omega

theorem not_le_of_lt {p q : Position} (h : p.lt q) : q.le p = false := by
  rw [Bool.eq_false_iff, Ne, le_eq_true_iff]
  unfold Position.lt at h
  omega

theorem ne_of_lt {p q : Position} (h : p.lt q) : p ≠ q := by
  rintro rfl
  unfold Position.lt at h
  omega

theorem le_of_lt {p q : Position} (h : p.lt q) : p.le q = true :=
  (le_eq_true_iff p q).2 (h.imp_right fun h => ⟨h.1, Int.le_of_lt h.2⟩)

theorem le_along (p : Position) (s : List Char) : p.le (p.along s) = true := by
  induction s generalizing p with
  | nil => exact (le_eq_true_iff _ _).2 (.inr ⟨rfl, Int.le_refl _⟩)
  | cons c s ih => exact le_of_lt (lt_of_lt_of_le (lt_after p c) (ih (p.after c)))

theorem lt_along {s : List Char} (h : s ≠ []) (p : Position) : p.lt (p.along s) := by
  cases s with
  | nil => exact absurd rfl h
  | cons c s => exact lt_of_lt_of_le (lt_after p c) (le_along _ s)

/-- A position in a row cuts the text in two, and its offset is the length of the first part. -/
theorem exists_cut {rs : List (List Char)} (hrows : ∀ row ∈ rs, '\n' ∉ row) {row col : Nat}
    {r : List Char} (hrow : rs[row]? = some r) (hcol : col ≤ r.length) (first : Int) (start : Nat) :
    ∃ before behind base, Text.unrows rs = before ++ (r.drop col ++ behind) ∧
      Position.along ⟨first, 0⟩ before = ⟨first + row, col⟩ ∧
      (rowStarts start rs)[row]? = some base ∧ base + col = start + before.length := by
  induction rs generalizing row first start with
  | nil => simp at hrow
  | cons r' rs ih =>
    obtain ⟨hnone, hmore⟩ := List.forall_mem_cons.1 hrows
    cases row with
    | zero =>
      obtain rfl : r' = r := by simpa using hrow
      have htake : '\n' ∉ r'.take col := fun h => hnone (List.mem_of_mem_take h)
      obtain ⟨tail, htail⟩ : ∃ tail, Text.unrows (r' :: rs) = r' ++ tail := by
        by_cases hrs : rs = []
        · exact ⟨[], by rw [hrs, Text.unrows_singleton, List.append_nil]⟩
        · exact ⟨_, Text.unrows_cons hrs⟩
      refine ⟨r'.take col, tail, start, ?_, ?_, ?_, ?_⟩
      · rw [htail, ← List.append_assoc, List.take_append_drop]
      · rw [along_of_not_mem htake, List.length_take, Nat.min_eq_left hcol]
        simp
      · simp [rowStarts]
      · rw [List.length_take, Nat.min_eq_left hcol]
    | succ row =>
      have hrow' : rs[row]? = some r := by simpa using hrow
      have hrs : rs ≠ [] := by
        rintro rfl
        simp at hrow'
      obtain ⟨before, behind, base, htext, halong, hbase, hoffset⟩ :=
        ih hmore hrow' (first + 1) (start + r'.length + 1)
      refine ⟨r' ++ '\n' :: before, behind, base, ?_, ?_, ?_, ?_⟩
      · rw [Text.unrows_cons hrs, htext]
        simp
      · rw [along_append, along_of_not_mem hnone]
        change Position.along (Position.after _ '\n') before = _
        rw [Position.after, if_pos rfl, halong]
        congr 1
        push_cast
        omega
      · simpa [rowStarts] using hbase
      · rw [hoffset, List.length_append, List.length_cons]
        omega

/-- What an edit needs to know of a position in a text. -/
theorem exists_before {text : List Char} {p : Position} (h : p.IsWithin (Text.rows text)) :
    ∃ before behind, text = before ++ behind ∧ Position.along ⟨0, 0⟩ before = p ∧
      offset? (rowStarts 0 (Text.rows text)) p = some (before.length : Int) := by
  obtain ⟨hline, hcharacter, hany⟩ := h
  obtain ⟨r, hrow, hcol⟩ := (Option.any_eq_true _ _).1 hany
  obtain ⟨line, character⟩ := p
  obtain ⟨row, rfl⟩ := Int.eq_ofNat_of_zero_le hline
  obtain ⟨col, rfl⟩ := Int.eq_ofNat_of_zero_le hcharacter
  have hrow' : (Text.rows text)[row]? = some r := by simpa using hrow
  obtain ⟨before, behind, base, htext, halong, hbase, hoffset⟩ :=
    exists_cut (fun _ => Text.newline_not_mem_rows) hrow' (by simpa using hcol) 0 0
  rw [Text.unrows_rows] at htext
  refine ⟨before, _, htext, ?_, ?_⟩
  · simpa using halong
  · rw [offset?_eq hbase, hoffset, Nat.zero_add]

/-- Of two cuts of a text the one at the earlier position is the earlier one. -/
theorem exists_between {origin : Position} {before s before' s' : List Char}
    (h : before ++ s = before' ++ s')
    (hle : (origin.along before).le (origin.along before') = true) :
    ∃ between, before' = before ++ between ∧ s = between ++ s' := by
  rcases List.append_eq_append_iff.1 h with ⟨between, hbefore, hs⟩ | ⟨between, hbefore, hs⟩
  · exact ⟨between, hbefore, hs⟩
  · have hnil : between = [] := by
      by_contra hne
      rw [hbefore, along_append, not_le_of_lt (lt_along hne _)] at hle
      cases hle
    subst hnil
    exact ⟨[], by simpa using hbefore.symm, by simpa using hs.symm⟩

/-! ### What is substituted where -/

theorem newAt_cons (e : Edit) (edits : List Edit) (p : Position) :
    newAt (e :: edits) p = if e.range.start = p then e.newText else newAt edits p := by
  by_cases h : e.range.start = p <;> simp [newAt, h]

theorem newAt_of_forall_ne {edits : List Edit} {p : Position}
    (h : ∀ e ∈ edits, e.range.start ≠ p) : newAt edits p = [] := by
  have hnone : edits.find? (·.range.start == p) = none := by
    simpa using h
  rw [newAt, hnone]
  rfl

/-- In front of all edits the text stays. -/
theorem substituteFrom_append {edits : List Edit} {p : Position} {s : List Char}
    (h : ∀ e ∈ edits, (p.along s).le e.range.start = true) (t : List Char) :
    substituteFrom edits p (s ++ t) = s ++ substituteFrom edits (p.along s) t := by
  induction s generalizing p with
  | nil => rfl
  | cons c s ih =>
    have hlt : ∀ e ∈ edits, p.lt e.range.start := fun e he =>
      lt_of_lt_of_le (lt_of_lt_of_le (lt_after p c) (le_along _ s)) (h e he)
    have hnew : newAt edits p = [] := newAt_of_forall_ne fun e he => (ne_of_lt (hlt e he)).symm
    have hcovered : isCovered edits p = false := by
      rw [isCovered, List.any_eq_false]
      intro e he
      simp [not_le_of_lt (hlt e he)]
    rw [List.cons_append, substituteFrom, hnew, hcovered, ih h]
    rfl

theorem substituteFrom_congr {edits edits' : List Edit} {p : Position}
    (hnew : ∀ q, p.le q = true → newAt edits q = newAt edits' q)
    (hcovered : ∀ q, p.le q = true → isCovered edits q = isCovered edits' q) (s : List Char) :
    substituteFrom edits p s = substituteFrom edits' p s := by
  have hrefl : p.le p = true := le_along p []
  induction s generalizing p with
  | nil => exact hnew p hrefl
  | cons c s ih =>
    have hbehind : ∀ q, (p.after c).le q = true → p.le q = true := fun q hq =>
      le_of_lt (lt_of_lt_of_le (lt_after p c) hq)
    rw [substituteFrom, substituteFrom, hnew p hrefl, hcovered p hrefl,
      ih (fun q hq => hnew q (hbehind q hq)) (fun q hq => hcovered q (hbehind q hq))
        (le_along _ [])]

/-- Behind its range an edit has no say. -/
theorem substituteFrom_behind {e : Edit} (edits : List Edit) {p : Position}
    (hstart : e.range.start.lt p) (hstop : e.range.stop.le p = true) (s : List Char) :
    substituteFrom (e :: edits) p s = substituteFrom edits p s := by
  have hle : ∀ q, p.le q = true → e.range.stop.le q = true := by
    intro q hq
    rw [le_eq_true_iff] at *
    omega
  refine substituteFrom_congr (fun q hq => ?_) (fun q hq => ?_) s
  · rw [newAt_cons, if_neg (ne_of_lt (lt_of_lt_of_le hstart hq))]
  · simp [isCovered, hle q hq]

/-- Within its range an edit takes the text away. -/
theorem substituteFrom_within {e : Edit} {edits : List Edit}
    (hbehind : ∀ f ∈ edits, e.range.stop.le f.range.start = true) {p : Position} {s : List Char}
    (hstart : e.range.start.lt p) (hstop : p.along s = e.range.stop) (t : List Char) :
    substituteFrom (e :: edits) p (s ++ t) = substituteFrom (e :: edits) e.range.stop t := by
  induction s generalizing p with
  | nil =>
    obtain rfl : p = e.range.stop := hstop
    rfl
  | cons c s ih =>
    have hlt : p.lt e.range.stop := hstop ▸ lt_along (List.cons_ne_nil c s) p
    have hnew : newAt (e :: edits) p = [] := by
      rw [newAt_cons, if_neg (ne_of_lt hstart)]
      exact newAt_of_forall_ne fun f hf => (ne_of_lt (lt_of_lt_of_le hlt (hbehind f hf))).symm
    have hcovered : isCovered (e :: edits) p = true := by
      simp [isCovered, le_of_lt hstart, not_le_of_lt hlt]
    have hnext : e.range.start.lt (p.after c) :=
      lt_of_lt_of_le hstart (le_of_lt (lt_after p c))
    rw [List.cons_append, substituteFrom, hnew, hcovered, ih hnext hstop]
    rfl

/-- The first of some edits replaces its range, and the others what is behind it. -/
theorem substituteFrom_first {e : Edit} {edits : List Edit}
    (hbehind : ∀ f ∈ edits, e.range.stop.le f.range.start = true)
    (hlater : ∀ f ∈ edits, e.range.start.lt f.range.start) {s : List Char}
    (hstop : e.range.start.along s = e.range.stop) (t : List Char) :
    substituteFrom (e :: edits) e.range.start (s ++ t) =
      e.newText ++ substituteFrom edits e.range.stop t := by
  have hnew : newAt (e :: edits) e.range.start = e.newText := by
    rw [newAt_cons, if_pos rfl]
  cases s with
  | nil =>
    have hsame : e.range.stop = e.range.start := hstop.symm
    have hnone : newAt edits e.range.start = [] :=
      newAt_of_forall_ne fun f hf => (ne_of_lt (hlater f hf)).symm
    rw [hsame]
    cases t with
    | nil => simp [substituteFrom, hnew, hnone]
    | cons c t =>
      have hcovered : isCovered (e :: edits) e.range.start = isCovered edits e.range.start := by
        simp [isCovered, hsame]
      have hmore := substituteFrom_behind edits (lt_after e.range.start c)
        (hsame ▸ le_along e.range.start [c]) t
      simp [substituteFrom, hnew, hnone, hcovered, hmore]
  | cons c s =>
    have hlt : e.range.start.lt e.range.stop := hstop ▸ lt_along (List.cons_ne_nil c s) _
    have hcovered : isCovered (e :: edits) e.range.start = true := by
      have hle : e.range.start.le e.range.start = true := le_along _ []
      simp [isCovered, hle, not_le_of_lt hlt]
    rw [List.cons_append, substituteFrom, hnew, hcovered,
      substituteFrom_within hbehind (lt_after _ c) hstop,
      substituteFrom_behind edits hlt (le_along _ [])]
    simp

/-! ### One edit after another -/

theorem Separate.tail {text : List Char} {e : Edit} {edits : List Edit}
    (h : Separate text (e :: edits)) : Separate text edits where
  start f hf := h.start f (List.mem_cons_of_mem _ hf)
  stop f hf := h.stop f (List.mem_cons_of_mem _ hf)
  le f hf := h.le f (List.mem_cons_of_mem _ hf)
  apart := h.apart.tail

theorem Separate.perm {text : List Char} {edits edits' : List Edit} (h : Separate text edits)
    (hperm : edits'.Perm edits) : Separate text edits' where
  start e he := h.start e (hperm.subset he)
  stop e he := h.stop e (hperm.subset he)
  le e he := h.le e (hperm.subset he)
  apart := (hperm.pairwise_iff fun h => ⟨h.1.symm, h.2.symm⟩).2 h.apart

/-- Of two edits that are apart the one that begins first ends before the other begins. -/
theorem Separate.stop_le {text : List Char} {e : Edit} {edits : List Edit}
    (h : Separate text (e :: edits)) (hlater : ∀ f ∈ edits, e.range.start.lt f.range.start) :
    ∀ f ∈ edits, e.range.stop.le f.range.start = true := by
  intro f hf
  rcases (List.rel_of_pairwise_cons h.apart hf).1 with hle | hle
  · exact hle
  · have hf' := h.le f (List.mem_cons_of_mem _ hf)
    have hlt := hlater f hf
    unfold Position.lt at hlt
    rw [le_eq_true_iff] at *
    omega

/-- Edits that are carried out from the last to the first replace their ranges all at once, in
whatever way the text in front of them is taken off. -/
theorem foldlM_ascending {text : List Char} {edits : List Edit} (h : Separate text edits)
    (hsorted : edits.Pairwise fun e f => e.range.start.lt f.range.start) {before s : List Char}
    (htext : before ++ s = text)
    (hfront : ∀ e ∈ edits, (Position.along ⟨0, 0⟩ before).le e.range.start = true) :
    edits.reverse.foldlM (applyEdit? (rowStarts 0 (Text.rows text))) (before ++ s) =
      some (before ++ substituteFrom edits (Position.along ⟨0, 0⟩ before) s) := by
  induction edits generalizing before s with
  | nil =>
    have hall : substituteFrom [] (Position.along ⟨0, 0⟩ before) (s ++ []) = s ++ [] :=
      substituteFrom_append (by simp) []
    rw [List.append_nil] at hall
    rw [hall]
    rfl
  | cons e edits ih =>
    obtain ⟨hlater, hsorted⟩ := List.pairwise_cons.1 hsorted
    have hbehind := h.stop_le hlater
    obtain ⟨upTo, rest, hupTo, hstart, hoffset⟩ := exists_before (h.start e List.mem_cons_self)
    obtain ⟨past, behind, hpast, hstop, hoffset'⟩ := exists_before (h.stop e List.mem_cons_self)
    -- the text is what stands before the range, the range itself and what is behind it
    obtain ⟨kept, rfl, rfl⟩ := exists_between (htext.trans hupTo)
      (by rw [hstart]; exact hfront e List.mem_cons_self)
    obtain ⟨old, rfl, rfl⟩ := exists_between (hupTo.symm.trans hpast)
      (by rw [hstart, hstop]; exact h.le e List.mem_cons_self)
    have hmore := ih h.tail hsorted hpast.symm fun f hf => by rw [hstop]; exact hbehind f hf
    rw [hstop] at hmore
    have hstop' : e.range.start.along old = e.range.stop := by
      rw [← hstart, ← along_append, hstop]
    have hedit := applyEdit?_of_offsets (before ++ kept) old
      (substituteFrom edits e.range.stop behind) hoffset (by rw [hoffset', List.length_append])
    have hkept : ∀ f ∈ e :: edits,
        ((Position.along ⟨0, 0⟩ before).along kept).le f.range.start = true := by
      intro f hf
      rw [← along_append, hstart]
      rcases List.mem_cons.1 hf with rfl | hf
      · exact le_along _ []
      · exact le_of_lt (hlater f hf)
    rw [substituteFrom_append hkept, ← along_append, hstart,
      substituteFrom_first hbehind hlater hstop', List.reverse_cons, List.foldlM_append]
    simp only [List.append_assoc] at hmore hedit ⊢
    rw [hmore]
    simpa using hedit

/-- An edit brings in its text where it begins, if no other begins there. -/
theorem newAt_of_mem {edits : List Edit}
    (h : edits.Pairwise fun e f => e.range.start ≠ f.range.start) {e : Edit} (he : e ∈ edits) :
    newAt edits e.range.start = e.newText := by
  induction edits with
  | nil => cases he
  | cons f edits ih =>
    obtain ⟨hne, hmore⟩ := List.pairwise_cons.1 h
    rw [newAt_cons]
    rcases List.mem_cons.1 he with rfl | he
    · rw [if_pos rfl]
    · rw [if_neg (hne e he), ih hmore he]

/-- What replaces the ranges all at once does not depend on the order of the edits. -/
theorem substitute_perm {text : List Char} {edits edits' : List Edit} (h : Separate text edits)
    (hperm : edits'.Perm edits) : substitute edits' text = substitute edits text := by
  have hstarts : ∀ {xs : List Edit}, xs.Pairwise Apart →
      xs.Pairwise fun e f => e.range.start ≠ f.range.start := fun h => h.imp And.right
  refine substituteFrom_congr (fun q _ => ?_) (fun q _ => ?_) text
  · by_cases hq : ∃ e ∈ edits, e.range.start = q
    · obtain ⟨e, he, rfl⟩ := hq
      rw [newAt_of_mem (hstarts h.apart) he,
        newAt_of_mem (hstarts (h.perm hperm).apart) (hperm.mem_iff.2 he)]
    · have hne : ∀ e ∈ edits, e.range.start ≠ q := fun e he heq => hq ⟨e, he, heq⟩
      rw [newAt_of_forall_ne hne, newAt_of_forall_ne fun e he => hne e (hperm.subset he)]
  · rw [Bool.eq_iff_iff]
    simp only [isCovered, List.any_eq_true, hperm.mem_iff]

/-- Edits that are apart from one another replace their ranges all at once. -/
theorem applyEdits?_of_separate {text : List Char} {edits : List Edit} (h : Separate text edits) :
    applyEdits? text edits = some (substitute edits text) := by
  have hperm : (ordered edits).reverse.Perm edits :=
    (List.reverse_perm _).trans (List.mergeSort_perm _ _)
  have hseparate := h.perm hperm
  have hsorted : (ordered edits).reverse.Pairwise fun e f => e.range.start.lt f.range.start := by
    have hle := List.pairwise_reverse.2 (pairwise_ordered edits)
    exact (hle.and hseparate.apart).imp fun h => lt_of_le_of_ne h.1 h.2.2
  have hfront : ∀ e ∈ (ordered edits).reverse,
      (Position.along ⟨0, 0⟩ []).le e.range.start = true := by
    intro e he
    obtain ⟨hline, hcharacter, -⟩ := hseparate.start e he
    rw [le_eq_true_iff]
    simp only [Position.along, List.foldl_nil]
    omega
  have hall := foldlM_ascending hseparate hsorted (List.nil_append text) hfront
  rw [List.reverse_reverse] at hall
  rw [applyEdits?_eq_foldlM, ← substitute_perm h hperm]
  exact hall

/-! ### Edits of lines -/

theorem isWithin_of_le {rs : List (List Char)} {row col : Nat} {r : List Char}
    (hrow : rs[row]? = some r) (hcol : col ≤ r.length) : Position.IsWithin rs ⟨row, col⟩ := by
  refine ⟨Int.natCast_nonneg _, Int.natCast_nonneg _, ?_⟩
  rw [Int.toNat_natCast, hrow]
  simpa using hcol

/-- Edits that carry out changes of lines are apart from one another. -/
theorem LineEdits.separate {text : List Char} {changes : List (List Change)} {edits : List Edit}
    (h : LineEdits text changes edits) : Separate text edits := by
  have hrows := fits_rows h.fits
  have hplace : ∀ e ∈ rowEdits 0 changes, ∃ (row : Nat) (r : List Char) (c : Change),
      (Text.rows text)[row]? = some r ∧ e = c.edit row ∧ c.start < c.stop ∧ c.stop ≤ r.length := by
    intro e he
    obtain ⟨k, cs, hk, c, hc, rfl⟩ := mem_rowEdits.1 he
    obtain ⟨hlt, rfl⟩ := List.getElem?_eq_some_iff.1 hk
    have hrow : k < (Text.rows text).length := hrows.length_eq ▸ hlt
    have hfit := (hrows.get hrow hlt).stop_le c hc
    exact ⟨k, _, c, List.getElem?_eq_getElem hrow, by rw [Nat.zero_add], hfit⟩
  refine Separate.perm ⟨fun e he => ?_, fun e he => ?_, fun e he => ?_, ?_⟩ h.perm
  · obtain ⟨row, r, c, hr, rfl, hlt, hle⟩ := hplace e he
    exact isWithin_of_le hr (by omega)
  · obtain ⟨row, r, c, hr, rfl, hlt, hle⟩ := hplace e he
    exact isWithin_of_le hr hle
  · obtain ⟨row, r, c, hr, rfl, hlt, hle⟩ := hplace e he
    exact (le_eq_true_iff _ _).2 (.inr ⟨rfl, Int.ofNat_le.2 (Nat.le_of_lt hlt)⟩)
  · have hfits : ∀ cs ∈ changes, ∃ size, Fits 0 size cs := by
      intro cs hcs
      obtain ⟨k, hk, rfl⟩ := List.getElem_of_mem hcs
      exact ⟨_, hrows.get (hrows.length_eq ▸ hk) hk⟩
    exact (pairwise_rowEdits 0 hfits).imp fun h => ⟨.inl h.2, ne_of_lt h.1⟩

/-- A text stands in the range of another. -/
def Range.Holds (range : Range) (text old : List Char) : Prop :=
  ∃ before behind, text = before ++ (old ++ behind) ∧
    Position.along ⟨0, 0⟩ before = range.start ∧ range.start.along old = range.stop

/-- What stands in a line stands in the text. -/
theorem holds_of_line {text before old behind : List Char} {row : Nat}
    (hline : (Text.lines text)[row]? = some (before ++ (old ++ behind))) :
    Range.Holds ⟨⟨row, before.length⟩, ⟨row, (before.length + old.length : Nat)⟩⟩ text old := by
  obtain ⟨r, hrow, tail, hr⟩ := Text.exists_row_of_line hline
  have hnone : '\n' ∉ old := fun h =>
    Text.newline_not_mem_rows (List.mem_of_getElem? hrow) (by simp [← hr, h])
  have hcol : before.length ≤ r.length := by simp [← hr]
  obtain ⟨upTo, rest, base, htext, halong, -, -⟩ :=
    exists_cut (fun _ => Text.newline_not_mem_rows) hrow hcol 0 0
  rw [Text.unrows_rows, ← hr] at htext
  refine ⟨upTo, behind ++ tail ++ rest, by simpa using htext, by simpa using halong, ?_⟩
  rw [along_of_not_mem hnone]
  simp

/-- Edits that lie within the rows of a text, do not overlap and begin in different places replace
their ranges all at once, in whatever order they are given. -/
theorem applyEdits?_simultaneous (text : List Char) (edits : List Edit) (h : Separate text edits) :
    applyEdits? text edits = some (substitute edits text) ∧
      ∀ edits' : List Edit, edits'.Perm edits →
        applyEdits? text edits' = applyEdits? text edits := by
  refine ⟨applyEdits?_of_separate h, fun edits' hperm => ?_⟩
  rw [applyEdits?_of_separate h, applyEdits?_of_separate (h.perm hperm), substitute_perm h hperm]

/-- A whole row, a stretch that goes over the end of a row, and an insertion, from the end to the
front. -/
theorem applyEdits?_simultaneous_rows :
    applyEdits? "ab\ncd\nef".toList
        [⟨⟨⟨2, 0⟩, ⟨2, 2⟩⟩, ['x']⟩, ⟨⟨⟨0, 1⟩, ⟨1, 1⟩⟩, ['-']⟩, ⟨⟨⟨0, 0⟩, ⟨0, 0⟩⟩, ['#', '\n']⟩] =
      some (substitute
        [⟨⟨⟨2, 0⟩, ⟨2, 2⟩⟩, ['x']⟩, ⟨⟨⟨0, 1⟩, ⟨1, 1⟩⟩, ['-']⟩, ⟨⟨⟨0, 0⟩, ⟨0, 0⟩⟩, ['#', '\n']⟩]
        "ab\ncd\nef".toList) ∧
    ∀ edits' : List Edit, edits'.Perm
        [⟨⟨⟨2, 0⟩, ⟨2, 2⟩⟩, ['x']⟩, ⟨⟨⟨0, 1⟩, ⟨1, 1⟩⟩, ['-']⟩, ⟨⟨⟨0, 0⟩, ⟨0, 0⟩⟩, ['#', '\n']⟩] →
      applyEdits? "ab\ncd\nef".toList edits' = applyEdits? "ab\ncd\nef".toList
        [⟨⟨⟨2, 0⟩, ⟨2, 2⟩⟩, ['x']⟩, ⟨⟨⟨0, 1⟩, ⟨1, 1⟩⟩, ['-']⟩, ⟨⟨⟨0, 0⟩, ⟨0, 0⟩⟩, ['#', '\n']⟩] :=
  applyEdits?_simultaneous _ _
    ⟨by decide +kernel, by decide +kernel, by decide +kernel, by decide +kernel⟩

/-- The text that comes out. -/
example : substitute
    [⟨⟨⟨2, 0⟩, ⟨2, 2⟩⟩, ['x']⟩, ⟨⟨⟨0, 1⟩, ⟨1, 1⟩⟩, ['-']⟩, ⟨⟨⟨0, 0⟩, ⟨0, 0⟩⟩, ['#', '\n']⟩]
    "ab\ncd\nef".toList = "#\na-d\nx".toList := by
  decide +kernel

end IntegerBasic.Document
