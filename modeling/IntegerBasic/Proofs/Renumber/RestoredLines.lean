import IntegerBasic.Proofs.Grammar.RestoredNumbers
import IntegerBasic.Proofs.Renumber.CanonicalNumbers
import IntegerBasic.Proofs.Renumber.ControlFlow

/-!
# Lines that are renumbered and renumbered back

A line gets its old text back if the second renumbering gives it its old number, and gives the
references in it the numbers that they had. Both are found by what the first renumbering has put in
their places.
-/

namespace IntegerBasic.Renumber

open Grammar Document Lexeme

structure Undoes (olds : List Reference) (assigned assigned' : List (Reference × Int)) : Prop where
  number : ∀ r ∈ olds, ∃ m : Nat,
    newNumber? assigned r.span.start.row.toNat = some (m : Int) ∧
      newNumber? assigned' r.span.start.row.toNat = some (r.number : Int)
  reference : ∀ r ∈ olds, ∃ m : Nat,
    Table.get? (mapping assigned) r.number = some (m : Int) ∧
      Table.get? (mapping assigned') m = some (r.number : Int)

structure Names (olds : List Reference) (l : Leaf) : Prop where
  canonical : Canonical l.text
  known : ∃ r ∈ olds, r.number = Numeral.digitsValue l.text

theorem isInteger_of_spread {i j : Input} {leaves : List Leaf} (h : Spread i leaves j) :
    ∀ l ∈ leaves, IsInteger l.text := by
  induction h with
  | done => simp
  | pass _ _ ih => exact ih
  | number read _ ih => exact List.forall_mem_cons.2 ⟨(integer_some read).2.1, ih⟩

theorem isInteger_lineReferences {row : Nat} {s : List Char} {l : Leaf}
    (hl : l ∈ lineReferences row s) : IsInteger l.text := by
  cases hs : lineNumber s with
  | none =>
    rw [lineReferences_of_none hs] at hl
    cases hl
  | some pair =>
    obtain ⟨j, hspread⟩ := spread_lineReferences row hs
    exact isInteger_of_spread hspread l hl

variable {olds : List Reference} {assigned assigned' : List (Reference × Int)}
  (undoes : Undoes olds assigned assigned')

include undoes

/-- A reference is given its old text back. -/
theorem newText_back {l l' : Leaf} (hl : IsInteger l.text) (names : Names olds l)
    (htext : l'.text = newText (rewriting (newReference? assigned)) l) :
    newText (rewriting (newReference? assigned')) l' = l.text := by
  obtain ⟨r, hr, hnumber⟩ := names.known
  obtain ⟨m, hthere, hhome⟩ := undoes.reference r hr
  have hnew : rewriting (newReference? assigned) l = some (rewritten l.text m) := by
    rw [rewriting, newReference?, ← hnumber, hthere]
    rfl
  rw [newText_of_some hnew] at htext
  have hback : rewriting (newReference? assigned') l' = some (rewritten l'.text r.number) := by
    rw [rewriting, newReference?, htext, digitsValue_rewritten, hhome]
    rfl
  rw [newText_of_some hback, htext, hnumber]
  exact @rewritten_back [] l.text (by simp) hl names.canonical m

variable {row : Nat} {s number rest s' number' rest' : List Char}

/-- All leaves behind the number of a line are given their old texts back. -/
theorem restores_of_picks {L L' : List Leaf} (hL : L.Nodup) (hL' : L'.Nodup)
    (names : ∀ l ∈ lineReferences row s, Names olds l)
    (h : Picks (fun l l' => l.kind = l'.kind ∧
        Replaced (referenceTexts row s (newReference? assigned)) l l'.text)
      L (lineReferences row s) L' (lineReferences row s')) :
    List.Forall₂ (Restores (referenceTexts row s (newReference? assigned))
      (referenceTexts row s' (newReference? assigned'))) L L' := by
  refine (h.forall₂ hL hL').imp fun l l' hboth => ?_
  obtain ⟨⟨hkind, hthere⟩, hmem⟩ := hboth
  refine ⟨hkind, hthere, ?_⟩
  rw [Replaced, newText, referenceTexts, newAmong] at hthere
  rw [newText, referenceTexts, newAmong]
  by_cases hl : l ∈ lineReferences row s
  · rw [if_pos hl] at hthere
    rw [if_pos (hmem.1 hl)]
    exact newText_back undoes (isInteger_lineReferences hl) (names l hl) hthere
  · rw [if_neg hl] at hthere
    rw [if_neg fun hl' => hl (hmem.2 hl')]
    exact hthere

/-- What follows the number of a line comes back. -/
theorem patch_laterChanges_back (hs : lineNumber s = some (number, rest))
    (sound : (line row s).hasError = false) (hlimit : ∀ l, InLimit (newReference? assigned l))
    (hlimit' : ∀ l, InLimit (newReference? assigned' l))
    (names : ∀ l ∈ lineReferences row s, Names olds l)
    (hs' : lineNumber s' = some (number', rest'))
    (hrest : rest' = patch number.length rest (laterChanges assigned true row s)) :
    patch number'.length rest' (laterChanges assigned' true row s') = rest := by
  have sound' := sound_rewritten hs sound hlimit hs' hrest
  have hwritten := written_line hs sound
  have hwritten' := written_line hs' sound'
  have hrestores := restores_of_picks undoes (nodup_of_written hwritten).1
    (nodup_of_written hwritten').1 names (picks_rewritten hs sound hlimit hs' hrest)
  have hcol : ∀ (s number rest : List Char),
      (Input.after ⟨(row : Int), 0, s⟩ number rest).col = number.length :=
    fun s number rest => Nat.zero_add _
  have hback := patch_restored (replacesNumbers_referenceTexts hlimit)
    (replacesNumbers_referenceTexts hlimit') hwritten hwritten'
    (by rw [replacements_referenceTexts hs sound, hcol]; exact hrest) hrestores
  rw [replacements_referenceTexts hs' sound', hcol] at hback
  exact hback

/-- A line gets its old text back. -/
theorem patch_back (hnew : ∀ row, InLimit (newNumber? assigned row))
    (hlimit : ∀ l, InLimit (newReference? assigned l))
    (hlimit' : ∀ l, InLimit (newReference? assigned' l))
    (sound : Text.isBlankText s = false → (line row s).hasError = false)
    (numbered : ∀ l, primaryLeaf? row s = some l → Canonical l.text ∧
      ∃ r ∈ olds, r.span.start.row = row ∧ r.number = Numeral.digitsValue l.text)
    (names : ∀ l ∈ lineReferences row s, Names olds l) :
    patch 0 (patch 0 s (lineChanges assigned true row s))
      (lineChanges assigned' true row (patch 0 s (lineChanges assigned true row s))) = s := by
  cases hs : lineNumber s with
  | none => rw [patch_lineChanges_of_none hs, patch_lineChanges_of_none hs]
  | some pair =>
    obtain ⟨number, rest⟩ := pair
    have hblank : Text.isBlankText s = false := by
      rw [Bool.eq_false_iff]
      intro hblank
      rw [lineNumber_of_isBlankText hblank] at hs
      cases hs
    obtain ⟨hcanonical, r, hr, hrow, hvalue⟩ := numbered _ (primaryLeaf?_eq_some row hs)
    obtain ⟨m, hthere, hhome⟩ := undoes.number r hr
    rw [hrow, Int.toNat_natCast] at hthere hhome
    have hs' := lineNumber_patch true hs (hnew row)
    obtain ⟨gaps, text, rfl, hgaps, htext, -⟩ := lineNumber_some hs
    rw [hthere] at hs'
    rw [patch_lineChanges assigned' true row hs', hhome,
      patch_laterChanges_back undoes hs (sound hblank) hlimit hlimit' names hs' rfl]
    dsimp only [Option.elim]
    rw [hvalue, rewritten_back hgaps htext hcanonical m]
    exact append_of_lineNumber hs

end IntegerBasic.Renumber
