import IntegerBasic.Proofs.Grammar.LineSimulation
import IntegerBasic.Proofs.Grammar.ReplacedNumbers
import IntegerBasic.Proofs.Renumber.Numbering

/-!
# Lines with rewritten numbers

A sound line and the line with new numbers in the places of some of its references are similar, and
their references correspond one to one.
-/

namespace IntegerBasic.Renumber

open Grammar Document Lexeme

def rewriting (new : Leaf → Option Int) (l : Leaf) : Option (List Char) :=
  (new l).map (rewritten l.text)

theorem replacements_rewriting (new : Leaf → Option Int) (leaves : List Leaf) :
    replacements (rewriting new) leaves = leaves.filterMap fun l => (new l).map (changeOf l) := by
  refine List.filterMap_congr fun l _ => ?_
  rw [rewriting, Option.map_map]
  rfl

/-- A number within the limit takes the place of a number. -/
theorem isInteger_rewriting {new : Leaf → Option Int} (hlimit : ∀ l, InLimit (new l)) {l : Leaf}
    {text : List Char} (h : rewriting new l = some text) (hl : IsInteger l.text) :
    IsInteger text := by
  obtain ⟨n, hn, rfl⟩ := Option.map_eq_some_iff.1 h
  have hin := hlimit l
  rw [hn] at hin
  obtain ⟨m, rfl, -⟩ := exists_nat_of_inLimit hin
  obtain ⟨k, hk⟩ : ∃ k, rewritten l.text m = Numeral.decimal m ++ List.replicate k ' ' :=
    @rewritten_number [] l.text (by simp) hl m
  rw [hk]
  exact isInteger_decimal m k

variable {new : Leaf → Option (List Char)}

/-- Names are left as they are. -/
theorem foldsNames_replaced (hnew : ReplacesNumbers new) : FoldsNames (Replaced new) := by
  intro type name text span h
  have hnone : new ⟨.name type, name, span⟩ = none := hnew.eq_none (by simp) (by simp)
  rw [show text = newText new ⟨.name type, name, span⟩ from h, newText_of_none hnone]

theorem isBranch_congr {l l' : Leaf} (h : l.kind = l'.kind) :
    isBranch (.leaf l) = isBranch (.leaf l') := by
  obtain ⟨kind, text, span⟩ := l
  obtain ⟨kind', text', span'⟩ := l'
  cases h
  cases kind <;> rfl

inductive Picks (R : Leaf → Leaf → Prop) : List Leaf → List Leaf → List Leaf → List Leaf → Prop
  | nil : Picks R [] [] [] []
  | pick {l l' : Leaf} {L refs L' refs' : List Leaf} (same : R l l')
      (more : Picks R L refs L' refs') : Picks R (l :: L) (l :: refs) (l' :: L') (l' :: refs')
  | pass {l l' : Leaf} {L refs L' refs' : List Leaf} (same : R l l')
      (more : Picks R L refs L' refs') : Picks R (l :: L) refs (l' :: L') refs'

namespace Picks

variable {R : Leaf → Leaf → Prop} {L refs L' refs' M ms M' ms' : List Leaf}

theorem append (h : Picks R L refs L' refs') (h' : Picks R M ms M' ms') :
    Picks R (L ++ M) (refs ++ ms) (L' ++ M') (refs' ++ ms') := by
  induction h with
  | nil => exact h'
  | pick same _ ih => exact .pick same ih
  | pass same _ ih => exact .pass same ih

theorem picked (h : Picks R L refs L' refs') : List.Forall₂ R refs refs' := by
  induction h with
  | nil => exact .nil
  | pick same _ ih => exact .cons same ih
  | pass _ _ ih => exact ih

theorem sublists (h : Picks R L refs L' refs') : refs.Sublist L ∧ refs'.Sublist L' := by
  induction h with
  | nil => exact ⟨.slnil, .slnil⟩
  | pick _ _ ih => exact ⟨ih.1.cons_cons _, ih.2.cons_cons _⟩
  | pass _ _ ih => exact ⟨ih.1.cons _, ih.2.cons _⟩

/-- Of two leaves that correspond both are picked or neither is. -/
theorem forall₂ (h : Picks R L refs L' refs') (hL : L.Nodup) (hL' : L'.Nodup) :
    List.Forall₂ (fun l l' => R l l' ∧ (l ∈ refs ↔ l' ∈ refs')) L L' := by
  induction h with
  | nil => exact .nil
  | @pick l l' L refs L' refs' same more ih =>
    obtain ⟨hl, hL⟩ := List.nodup_cons.1 hL
    obtain ⟨hl', hL'⟩ := List.nodup_cons.1 hL'
    obtain ⟨hlength, hmore⟩ := List.forall₂_iff_zip.1 (ih hL hL')
    refine .cons ⟨same, by simp⟩ (List.forall₂_iff_zip.2 ⟨hlength, fun {x y} hmem => ?_⟩)
    obtain ⟨hx, hy⟩ := List.of_mem_zip hmem
    have hxl : x ≠ l := fun heq => hl (heq ▸ hx)
    have hyl : y ≠ l' := fun heq => hl' (heq ▸ hy)
    simpa [hxl, hyl] using hmore hmem
  | @pass l l' L refs L' refs' same more ih =>
    obtain ⟨hl, hL⟩ := List.nodup_cons.1 hL
    obtain ⟨hl', hL'⟩ := List.nodup_cons.1 hL'
    refine .cons ⟨same, ?_⟩ (ih hL hL')
    exact iff_of_false (fun hmem => hl (more.sublists.1.subset hmem))
      fun hmem => hl' (more.sublists.2.subset hmem)

end Picks

/-- The references of similar trees stand at the same places. -/
theorem picks_of_similar {M : Match} {xs ys : List Node} (h : Similar M xs ys)
    {left left' : List Node} (hleft : left.head?.any isBranch = left'.head?.any isBranch) :
    Picks (fun l l' => l.kind = l'.kind ∧ M l l'.text) (Node.leavesOf xs) (references left xs)
      (Node.leavesOf ys) (references left' ys) := by
  induction h generalizing left left' with
  | nil =>
    rw [references_nil, references_nil]
    exact .nil
  | @leaf l l' xs ys kind same _ ih =>
    have hsecondary : isSecondary ⟨.leaf l, left, xs⟩ l.kind =
        isSecondary ⟨.leaf l', left', ys⟩ l'.kind := by
      rw [kind]
      cases l'.kind <;> simp [isSecondary, hleft]
    have hmore := @ih (.leaf l :: left) (.leaf l' :: left') (isBranch_congr kind)
    rw [references_leaf, references_leaf, hsecondary]
    split
    · exact .pick ⟨kind, same⟩ hmore
    · exact .pass ⟨kind, same⟩ hmore
  | @inner label label' xs ys xs' ys' kind _ _ ih₁ ih₂ =>
    rw [references_inner, references_inner, Node.leavesOf_cons, Node.leavesOf_cons,
      Node.leaves_inner, Node.leaves_inner]
    exact (ih₁ rfl).append (ih₂ rfl)

/-- The references are some of the leaves, in their order. -/
theorem sublist_references (left nodes : List Node) :
    (references left nodes).Sublist (Node.leavesOf nodes) := by
  induction nodes using siblings_induction generalizing left with
  | nil => simp
  | cons node right children_ih right_ih =>
    cases node with
    | leaf l =>
      rw [references_leaf, Node.leavesOf_cons, Node.leaves_leaf]
      refine List.Sublist.append ?_ (right_ih _)
      split
      · exact .refl _
      · exact List.nil_sublist _
    | inner label children =>
      rw [references_inner, Node.leavesOf_cons, Node.leaves_inner]
      exact (children_ih []).append (right_ih _)

/-- A reference is an integer or the argument of a command. -/
theorem kind_of_mem_references {left nodes : List Node} {l : Leaf} (h : l ∈ references left nodes) :
    l.kind = .integer ∨ l.kind = .lineArgument := by
  obtain ⟨seat, -, hseat⟩ := List.mem_filterMap.1 h
  unfold reference? at hseat
  split at hseat
  · split at hseat
    · cases hseat
      exact kind_of_isSecondary ‹_›
    · cases hseat
  · cases hseat

/-- Leaves that are written one behind the other are all different. -/
theorem nodup_of_written {q : Bool} {i : Input} {L : List Leaf} (h : Written q i L) :
    L.Nodup ∧ ∀ l ∈ L, i.col ≤ l.span.start.col := by
  induction h with
  | done => simp
  | @leaf q i kind text rest L takes _ _ _ ih =>
    have hpos := List.length_pos_iff.2 takes.ne_nil
    have hskip := le_col_skip i
    have hlater : ∀ l ∈ L, i.skip.col + text.length ≤ l.span.start.col := ih.2
    refine ⟨List.nodup_cons.2 ⟨fun hmem => ?_, ih.1⟩, fun l hl => ?_⟩
    · have hlt := hlater _ hmem
      simp only [Input.leafOf, Input.point] at hlt
      omega
    · rcases List.mem_cons.1 hl with rfl | hl
      · exact hskip
      · have := hlater l hl
        omega
  | @bareRemark q i text => simpa [Input.leafOf, Input.point] using le_col_skip i
  | @remark q i text rest =>
    have hskip := le_col_skip i
    refine ⟨by simp [Input.leafOf], fun l hl => ?_⟩
    rcases List.mem_cons.1 hl with rfl | hl
    · exact hskip
    · rw [List.mem_singleton.1 hl]
      exact Nat.le_trans hskip (Nat.le_add_right _ _)

def newAmong (refs : List Leaf) (new : Leaf → Option (List Char)) (l : Leaf) :
    Option (List Char) :=
  if l ∈ refs then new l else none

/-- Changes chosen from all leaves are those of the chosen leaves. -/
theorem replacements_newAmong {refs L : List Leaf} (hsub : refs.Sublist L) (hnodup : L.Nodup) :
    replacements (newAmong refs new) L = replacements new refs := by
  induction hsub with
  | slnil => rfl
  | @cons refs L l hsub ih =>
    obtain ⟨hl, hnodup⟩ := List.nodup_cons.1 hnodup
    have hnone : newAmong refs new l = none := if_neg fun hmem => hl (hsub.subset hmem)
    rw [replacements_cons_of_none hnone, ih hnodup]
  | @cons_cons refs L l hsub ih =>
    obtain ⟨hl, hnodup⟩ := List.nodup_cons.1 hnodup
    have htail : replacements (newAmong (l :: refs) new) L =
        replacements (newAmong refs new) L := by
      apply List.filterMap_congr
      intro l' hl'
      have hne : l' ≠ l := by
        rintro rfl
        exact hl hl'
      simp only [newAmong, List.mem_cons, hne, false_or]
    have hhead : newAmong (l :: refs) new l = new l := if_pos List.mem_cons_self
    cases hn : new l with
    | none =>
      rw [replacements_cons_of_none (hhead.trans hn), replacements_cons_of_none hn, htail,
        ih hnodup]
    | some text =>
      rw [replacements_cons_of_some (hhead.trans hn), replacements_cons_of_some hn, htail,
        ih hnodup]

theorem replacesNumbers_newAmong {left nodes : List Node}
    (hnumber : ∀ l text, new l = some text → IsInteger l.text → IsInteger text) :
    ReplacesNumbers (newAmong (references left nodes) new) := by
  constructor
  · intro l hne
    have hmem : l ∈ references left nodes := by
      by_contra hmem
      exact hne (if_neg hmem)
    exact kind_of_mem_references hmem
  · intro l text htext
    unfold newAmong at htext
    split at htext
    · exact hnumber l text htext
    · cases htext

/-- The references of a line are those behind its number. -/
theorem lineReferences_eq {row : Int} {s number rest : List Char}
    (hs : lineNumber s = some (number, rest)) :
    lineReferences row s = references [Input.leaf ⟨row, 0, s⟩ .lineNumber number]
      (statements (Input.after ⟨row, 0, s⟩ number rest)) := by
  rw [lineReferences, children_line hs, List.singleton_append, Input.leaf,
    references_leaf, if_neg (by simp [isSecondary]), List.nil_append]

theorem sublist_lineReferences {row : Int} {s number rest : List Char}
    (hs : lineNumber s = some (number, rest)) :
    (lineReferences row s).Sublist
      (Node.leavesOf (statements (Input.after ⟨row, 0, s⟩ number rest))) := by
  rw [lineReferences_eq hs]
  exact sublist_references _ _

def referenceTexts (row : Nat) (s : List Char) (new : Leaf → Option Int) :
    Leaf → Option (List Char) :=
  newAmong (lineReferences row s) (rewriting new)

section

variable {row : Nat} {s number rest : List Char} (hs : lineNumber s = some (number, rest))
  (sound : (line row s).hasError = false) {new : Leaf → Option Int}

theorem replacesNumbers_referenceTexts (hlimit : ∀ l, InLimit (new l)) :
    ReplacesNumbers (referenceTexts row s new) :=
  replacesNumbers_newAmong fun _ _ => isInteger_rewriting hlimit

include hs sound

theorem replacements_referenceTexts :
    replacements (referenceTexts row s new)
        (Node.leavesOf (statements (Input.after ⟨(row : Int), 0, s⟩ number rest))) =
      (lineReferences row s).filterMap fun l => (new l).map (changeOf l) := by
  rw [referenceTexts, replacements_newAmong (sublist_lineReferences hs)
    (nodup_of_written (written_line hs sound)).1, replacements_rewriting]

variable (hlimit : ∀ l, InLimit (new l))

include hlimit

/-- Where the references of a line are rewritten, what follows its number is read as before. -/
theorem similar_rewritten (i' : Input) (hrest : i'.rest = patch number.length rest
      ((lineReferences row s).filterMap fun l => (new l).map (changeOf l))) :
    Similar (Replaced (referenceTexts row s new))
      (statements (Input.after ⟨(row : Int), 0, s⟩ number rest)) (statements i') := by
  have hnew : ReplacesNumbers (referenceTexts row s new) := replacesNumbers_referenceTexts hlimit
  have haligned := (realigned_of_written hnew (written_line hs sound)).aligned
  rw [replacements_referenceTexts hs sound,
    show (Input.after ⟨(row : Int), 0, s⟩ number rest).col = number.length from Nat.zero_add _,
    show (Input.after ⟨(row : Int), 0, s⟩ number rest).rest = rest from rfl, ← hrest] at haligned
  exact similar_statementsUpTo (foldsNames_replaced hnew) _
    (Nat.lt_succ_of_le haligned.length_le.2) haligned

variable {s' number' rest' : List Char} (hs' : lineNumber s' = some (number', rest'))
  (hrest : rest' = patch number.length rest
    ((lineReferences row s).filterMap fun l => (new l).map (changeOf l)))

include hs' hrest

/-- The leaves behind the numbers of both lines, and the references among them. -/
theorem picks_rewritten :
    Picks (fun l l' => l.kind = l'.kind ∧ Replaced (referenceTexts row s new) l l'.text)
      (Node.leavesOf (statements (Input.after ⟨(row : Int), 0, s⟩ number rest)))
      (lineReferences row s)
      (Node.leavesOf (statements (Input.after ⟨(row : Int), 0, s'⟩ number' rest')))
      (lineReferences row s') := by
  have hsimilar := similar_rewritten hs sound hlimit (Input.after ⟨row, 0, s'⟩ number' rest') hrest
  rw [lineReferences_eq hs', lineReferences_eq hs]
  exact picks_of_similar hsimilar rfl

/-- The new line is sound. -/
theorem sound_rewritten : (line row s').hasError = false := by
  have hsimilar := similar_rewritten hs sound hlimit (Input.after ⟨row, 0, s'⟩ number' rest') hrest
  rw [Node.hasError, leaves_line hs, List.any_cons] at sound
  rw [Node.hasError, leaves_line hs', List.any_cons, ← hasError_congr hsimilar.leaves]
  exact sound

/-- The references of the new line have their new texts. -/
theorem references_rewritten :
    List.Forall₂ (fun l l' => l'.text = newText (rewriting new) l) (lineReferences row s)
      (lineReferences row s') := by
  have hpicked := (picks_rewritten hs sound hlimit hs' hrest).picked
  have hboth := (List.forall₂_and_left _ _).2 ⟨fun l hl => hl, hpicked⟩
  refine hboth.imp fun l l' hl => ?_
  obtain ⟨hmem, -, htext⟩ := hl
  have hamong : referenceTexts row s new l = rewriting new l := if_pos hmem
  rw [show l'.text = newText (referenceTexts row s new) l from htext, newText, hamong, newText]

end

end IntegerBasic.Renumber
