import IntegerBasic.Proofs.Grammar.ReplacedNumbers

/-!
# Restored numbers

A sound line whose numbers are replaced, and which is read as before, becomes the old line again if
every replaced number is given its old text back. The changes on the way back stand in other columns
than those on the way there, since the numbers may differ in length, so the two lines are followed
leaf by leaf.
-/

namespace IntegerBasic.Grammar

open Document Lexeme

variable {new back : Leaf → Option (List Char)}

structure Restores (new back : Leaf → Option (List Char)) (l l' : Leaf) : Prop where
  kind : l.kind = l'.kind
  there : l'.text = newText new l
  home : newText back l' = l.text

/-- Where no leaf can be given a new text nothing is replaced. -/
theorem replacements_of_not_number (hnew : ReplacesNumbers new) {L : List Leaf}
    (h : ∀ l ∈ L, l.kind ≠ .integer ∧ l.kind ≠ .lineArgument) : replacements new L = [] := by
  rw [replacements, List.filterMap_eq_nil_iff]
  intro l hl
  rw [hnew.eq_none (h l hl).1 (h l hl).2]
  rfl

/-- The gaps before a leaf, and what follows it, can be told from the line. -/
theorem split_of_takes {i : Input} {kind : LeafKind} {text rest gaps behind : List Char}
    (takes : Takes kind i.skip.rest text rest) (hgaps : ∀ c ∈ gaps, Text.isGap c = true)
    (h : i.rest = gaps ++ (text ++ behind)) :
    i.rest.takeWhile Text.isGap = gaps ∧ rest = behind := by
  have hbare : ∀ c ∈ (text ++ behind).head?, Text.isGap c = false := by
    intro c hc
    have hfront := takes.bare
    rw [← takes.append] at hfront
    refine hfront c ?_
    rwa [List.head?_append_of_ne_nil _ takes.ne_nil] at hc ⊢
  have hnone : (text ++ behind).takeWhile Text.isGap = [] := by
    cases htext : text ++ behind with
    | nil => rfl
    | cons c more =>
      rw [htext] at hbare
      exact List.takeWhile_cons_of_neg (by simp [hbare c rfl])
  have htake : i.rest.takeWhile Text.isGap = gaps := by
    rw [h, List.takeWhile_append_of_pos hgaps, hnone, List.append_nil]
  have hrest := rest_eq_of_takes takes
  rw [htake, h] at hrest
  exact ⟨htake, (List.append_cancel_left (List.append_cancel_left hrest)).symm⟩

/-- A line without numbers is neither changed nor restored. -/
theorem patch_restored_of_not_number (hnew : ReplacesNumbers new) (hback : ReplacesNumbers back)
    {i i' : Input} {L L' : List Leaf} (hrest : i'.rest = patch i.col i.rest (replacements new L))
    (hleaves : List.Forall₂ (Restores new back) L L')
    (hkinds : ∀ l ∈ L, l.kind ≠ .integer ∧ l.kind ≠ .lineArgument) :
    patch i'.col i'.rest (replacements back L') = i.rest := by
  have hkinds' : ∀ l' ∈ L', l'.kind ≠ .integer ∧ l'.kind ≠ .lineArgument := by
    intro l' hl'
    obtain ⟨l, hl, hrestores⟩ := exists_mem_of_forall₂ hleaves l' hl'
    rw [← hrestores.kind]
    exact hkinds l hl
  rw [replacements_of_not_number hback hkinds', patch, hrest,
    replacements_of_not_number hnew hkinds, patch]

/-- A line whose numbers are replaced and then restored is the old line. -/
theorem patch_restored (hnew : ReplacesNumbers new) (hback : ReplacesNumbers back) {q q' : Bool}
    {i i' : Input} {L L' : List Leaf} (h : Written q i L) (h' : Written q' i' L')
    (hrest : i'.rest = patch i.col i.rest (replacements new L))
    (hleaves : List.Forall₂ (Restores new back) L L') :
    patch i'.col i'.rest (replacements back L') = i.rest := by
  induction h generalizing q' i' L' with
  | done =>
    cases hleaves
    exact hrest
  | @leaf q i kind text rest L takes hrem allowed more ih =>
    cases hleaves with
    | @cons _ l' _ L' hl hmore =>
      obtain ⟨-, hpatch⟩ := patch_leaf takes (realigned_of_written hnew more).fits
      rw [hpatch] at hrest
      cases h' with
      | @leaf q' i' kind' text' rest' L' takes' hrem' allowed' more' =>
        rw [← show text' = newText new (i.skip.leafOf kind text) from hl.there] at hrest
        obtain ⟨hgaps, hbehind⟩ := split_of_takes takes'
          (fun c hc => List.all_eq_true.1 List.all_takeWhile c hc) hrest
        obtain ⟨-, hpatch'⟩ := patch_leaf takes' (realigned_of_written hback more').fits
        have hmore' : patch (i'.skip.after text' rest').col rest' (replacements back L') = rest :=
          ih more' hbehind hmore
        rw [hpatch', hgaps, hl.home, hmore']
        exact (rest_eq_of_takes takes).symm
      | bareRemark => exact absurd hl.kind hrem
      | remark => exact absurd hl.kind hrem
  | bareRemark =>
    exact patch_restored_of_not_number hnew hback hrest hleaves (by simp [Input.leafOf])
  | remark =>
    exact patch_restored_of_not_number hnew hback hrest hleaves (by simp [Input.leafOf])

end IntegerBasic.Grammar
