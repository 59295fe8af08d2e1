import IntegerBasic.Proofs.Grammar.RestoredNumbers
import IntegerBasic.Proofs.Record.PaddedLines
import IntegerBasic.Proofs.Renumber.CanonicalNumbers

/-!
# The tree of a padded line

The padded text of a sound line has the tree of the line. Its numbers have the same values and at
least three digits, and all other leaves have the same text. A number of three digits is not padded
again, so the padded text stays what it is, and since no number is stored by the length of its text
both trees are stored in the same bytes.
-/

namespace IntegerBasic

namespace Grammar

open Document Lexeme

/-- What is similar to a similar tree is similar, where the matches go together. -/
theorem Similar.trans {M M' M'' : Match}
    (hM : ∀ l l' text, l.kind = l'.kind → M l l'.text → M' l' text → M'' l text)
    {xs ys zs : List Node} (h : Similar M xs ys) (h' : Similar M' ys zs) : Similar M'' xs zs := by
  induction h generalizing zs with
  | nil =>
    cases h'
    exact .nil
  | leaf kind same _ ih =>
    cases h' with
    | leaf kind' same' h' => exact .leaf (kind.trans kind') (hM _ _ _ kind same same') (ih h')
  | inner kind _ _ ih ih' =>
    cases h' with
    | inner kind' within' h' => exact .inner (kind.trans kind') (ih within') (ih' h')

/-- A line whose leaves are given their own texts stays as it is. -/
theorem patch_of_same {new : Leaf → Option (List Char)} (hnew : ReplacesNumbers new) {q : Bool}
    {i : Input} {L : List Leaf} (h : Written q i L) (hsame : ∀ l ∈ L, newText new l = l.text) :
    patch i.col i.rest (replacements new L) = i.rest := by
  have hnone : ∀ {L : List Leaf} {i : Input},
      (∀ l ∈ L, l.kind ≠ .integer ∧ l.kind ≠ .lineArgument) →
      patch i.col i.rest (replacements new L) = i.rest := fun {L i} hkinds => by
    rw [replacements_of_not_number hnew hkinds, patch]
  induction h with
  | done => exact hnone (List.forall_mem_nil _)
  | @leaf q i kind text rest L takes _ _ more ih =>
    obtain ⟨hfirst, hmore⟩ := List.forall_mem_cons.1 hsame
    obtain ⟨-, hpatch⟩ := patch_leaf takes (realigned_of_written hnew more).fits
    have hrest : patch (i.skip.after text rest).col rest (replacements new L) = rest := ih hmore
    rw [hpatch, hfirst, hrest]
    exact (rest_eq_of_takes takes).symm
  | bareRemark => exact hnone (by simp [Input.leafOf])
  | remark => exact hnone (by simp [Input.leafOf])

end Grammar

namespace Record

open Grammar Document Lexeme Renumber

/-- What stands for a leaf when its line is padded. A number has the same value, or is refused for
the same reason, it has at least three digits, and padding does not change it again. Any other leaf
has the same text. -/
structure PaddedTo (l : Leaf) (text : List Char) : Prop where
  value : l.kind.isNumber = true → Numeral.digitsValue text = Numeral.digitsValue l.text
  read : l.kind.isNumber = true → Numeral.readToken text = Numeral.readToken l.text
  digits : l.kind.isNumber = true → 3 ≤ digitCount text
  again : l.kind.isNumber = true → padNumber text = text
  other : l.kind.isNumber = false → text = l.text

section Number

/-- The digits are brought to three characters, and the spaces around them stay. -/
theorem padNumber_spaced {digits : List Char} (hdigits : ∀ c ∈ digits, c.isDigit = true)
    (hne : digits ≠ []) (leading trailing : Nat) :
    padNumber (spaced leading digits trailing) =
      spaced leading (digits.leftpad 3 '0') trailing := by
  have hgaps : ∀ n, ∀ c ∈ List.replicate n ' ', Text.isGap c = true := by
    intro n c hc
    exact isGap_of_space (List.eq_of_mem_replicate hc)
  have hnone : ∀ n, (List.replicate n ' ').filter (· != ' ') = [] := by
    intro n
    simp
  have hfront : ∀ {ds : List Char}, (∀ c ∈ ds, c.isDigit = true) → ds ≠ [] → ∀ n rest,
      (List.replicate n ' ' ++ (ds ++ rest)).takeWhile Text.isGap = List.replicate n ' ' := by
    intro ds hds hne n rest
    obtain ⟨c, more, rfl⟩ := List.exists_cons_of_ne_nil hne
    rw [List.takeWhile_append_of_pos (hgaps n), List.cons_append, List.takeWhile_cons_of_neg
      (by simp [isGap_of_isDigit (hds c List.mem_cons_self)]), List.append_nil]
  have hletters : Text.withoutSpaces (spaced leading digits trailing) = digits := by
    have hself : digits.filter (· != ' ') = digits := by
      refine List.filter_eq_self.2 fun c hc => bne_iff_ne.2 ?_
      rintro rfl
      cases hdigits _ hc
    rw [Text.withoutSpaces, spaced, List.filter_append, List.filter_append, hnone, hnone, hself]
    simp
  have hback : (spaced leading digits trailing).drop
      (Text.dropTail Text.isGap (spaced leading digits trailing)).length =
        List.replicate trailing ' ' := by
    have hreverse : (spaced leading digits trailing).reverse =
        List.replicate trailing ' ' ++ (digits.reverse ++ List.replicate leading ' ') := by
      simp [spaced]
    rw [drop_dropTail, hreverse, hfront (fun c hc => hdigits c (List.mem_reverse.1 hc))
      (by simpa using hne), List.reverse_replicate]
  rw [padNumber, hletters, hback, spaced, hfront hdigits hne, spaced, List.append_assoc]

variable {gaps text : List Char} (hgaps : ∀ c ∈ gaps, c = ' ') (htext : IsInteger text)
include hgaps htext

/-- A padded number is not padded again. -/
theorem padNumber_padNumber : padNumber (padNumber (gaps ++ text)) = padNumber (gaps ++ text) := by
  obtain ⟨k, hk⟩ := padNumber_eq hgaps htext
  have hdigit : ∀ c ∈ (text.filter Char.isDigit).leftpad 3 '0', c.isDigit = true := by
    intro c hc
    rcases List.mem_append.1 hc with hc | hc
    · rw [List.eq_of_mem_replicate hc]
      rfl
    · exact (List.mem_filter.1 hc).2
  have hlength : 3 ≤ ((text.filter Char.isDigit).leftpad 3 '0').length := by
    rw [List.length_leftpad]
    exact Nat.le_max_left _ _
  have hspaced : padNumber (gaps ++ text) =
      spaced gaps.length ((text.filter Char.isDigit).leftpad 3 '0') k := by
    rw [hk, spaced, ← List.eq_replicate_of_mem hgaps]
  have hlong : ∀ {ds : List Char}, 3 ≤ ds.length → ds.leftpad 3 '0' = ds := fun {ds} h => by
    rw [List.leftpad, Nat.sub_eq_zero_of_le h, List.replicate_zero, List.nil_append]
  rw [hspaced, padNumber_spaced hdigit (List.ne_nil_of_length_pos (by omega)), hlong hlength]

theorem PaddedTo.of_number {l : Leaf} (hl : l.text = gaps ++ text)
    (hnumber : l.kind.isNumber = true) : PaddedTo l (padNumber l.text) := by
  have hdigits := filter_padNumber hgaps htext
  rw [← hl] at hdigits
  refine ⟨fun _ => digitsValue_of_leftpad hdigits, fun _ => readToken_congr hdigits, fun _ => ?_,
    fun _ => ?_, fun h => ?_⟩
  · rw [digitCount, List.countP_eq_length_filter, hdigits, List.length_leftpad]
    exact Nat.le_max_left _ _
  · rw [hl, padNumber_padNumber hgaps htext]
  · rw [hnumber] at h
    cases h

end Number

namespace PaddedTo

variable {l : Leaf}

theorem of_not_number (h : l.kind.isNumber = false) : PaddedTo l l.text := by
  refine ⟨?_, ?_, ?_, ?_, fun _ => rfl⟩ <;> exact fun hnumber => by simp [h] at hnumber

/-- A leaf that is not the number of the line is padded as its line is. -/
theorem of_newText (hline : l.kind ≠ .lineNumber)
    (hl : l.kind.isNumber = true → IsInteger l.text) : PaddedTo l (newText padded l) := by
  by_cases hkind : l.kind = .integer ∨ l.kind = .lineArgument
  · have hnumber : l.kind.isNumber = true := by rcases hkind with h | h <;> rw [h] <;> rfl
    rw [newText_of_some (if_pos hkind)]
    exact of_number (List.forall_mem_nil _) (hl hnumber) (List.nil_append _).symm hnumber
  · rw [newText_of_none (if_neg hkind)]
    apply of_not_number
    cases h : l.kind <;> simp_all [LeafKind.isNumber]

theorem sameBytes {text : List Char} (h : PaddedTo l text) : SameBytes l text := by
  cases hnumber : l.kind.isNumber with
  | false =>
    rw [h.other hnumber]
    exact .refl l
  | true =>
    have hread := h.read hnumber
    obtain ⟨kind, read, span⟩ := l
    cases kind with
    | lineNumber | lineArgument | integer => exact ⟨by simp only [storeLeaf, hread], by simp⟩
    | _ => cases hnumber

end PaddedTo

theorem foldsNames_paddedTo : FoldsNames PaddedTo := by
  intro type name text span h
  rw [show text = name from h.other rfl]

/-- A line whose numbers are not changed by padding stays as it is. -/
theorem padNumbers_of_padded {s number rest : List Char} (hs : lineNumber s = some (number, rest))
    (sound : (line 0 s).hasError = false)
    (h : ∀ l ∈ (line 0 s).leaves, l.kind.isNumber = true → padNumber l.text = l.text) :
    padNumbers s = s := by
  rw [leaves_line hs] at h
  obtain ⟨hnumber, hlater⟩ := List.forall_mem_cons.1 h
  have hnumber : padNumber number = number := hnumber rfl
  have hsame : ∀ l ∈ Node.leavesOf (statements (Input.after ⟨0, 0, s⟩ number rest)),
      newText padded l = l.text := by
    intro l hl
    by_cases hkind : l.kind = .integer ∨ l.kind = .lineArgument
    · rw [newText_of_some (if_pos hkind)]
      exact hlater l hl (by rcases hkind with h | h <;> rw [h] <;> rfl)
    · exact newText_of_none (if_neg hkind)
  have hpatch := patch_of_same replacesNumbers_padded (written_line hs sound) hsame
  rw [show (Input.after ⟨0, 0, s⟩ number rest).col = number.length from Nat.zero_add _] at hpatch
  rw [padNumbers_eq hs sound, hnumber, show patch number.length rest _ = rest from hpatch]
  exact append_of_lineNumber hs

section Line

variable {s number rest : List Char} (hs : lineNumber s = some (number, rest))
  (htab : '\t' ∉ number) (sound : (line 0 s).hasError = false)
include hs htab sound

theorem similar_padded (row : Int) :
    (∃ rest', lineNumber (padNumbers s) = some (padNumber number, rest')) ∧
      Similar PaddedTo (line 0 s).children (line row (padNumbers s)).children := by
  obtain ⟨gaps, text, rfl, hgaps, htext, -, -⟩ := lineNumber_some hs
  have hspaces : ∀ c ∈ gaps, c = ' ' := fun c hc => List.eq_of_mem_replicate
    (spaces_of_isGap hgaps (fun hmem => htab (List.mem_append_left _ hmem)) ▸ hc)
  obtain ⟨k, hk⟩ := padNumber_eq hspaces htext
  refine similar_padNumbers foldsNames_paddedTo hs sound hgaps (isInteger_leftpad htext 3 k) hk
    (.of_number hspaces htext rfl rfl) (fun l hl => ?_) row
  exact .of_newText (ne_lineNumber_of_written (written_line hs sound) l hl) fun hnumber =>
    (standsIn_laterNumbers hs l (List.mem_filter.2 ⟨hl, hnumber⟩)).2.isInteger

/-- A padded line is not padded again. -/
theorem padNumbers_padNumbers : padNumbers (padNumbers s) = padNumbers s := by
  obtain ⟨⟨rest', hs'⟩, hsimilar⟩ := similar_padded hs htab sound 0
  have hleaves := hsimilar.leaves
  refine padNumbers_of_padded hs' ((hasError_congr hleaves).symm.trans sound) fun l hl hnumber => ?_
  obtain ⟨l', -, hkind, hpadded⟩ := exists_mem_of_forall₂ hleaves l hl
  exact hpadded.again (by rwa [hkind])

end Line

/-- Padding cannot be seen in what a sound line means: the padded line has the tree of the line with
numbers of the same values, padding it again changes nothing, and both trees are stored in the same
bytes. -/
theorem padding_invisible (row : Int) {s : List Char}
    (htab : ∀ l ∈ (line row s).leaves, l.kind = .lineNumber → '\t' ∉ l.text)
    (sound : (line row s).hasError = false) :
    Similar PaddedTo [line row s] [line row (padNumbers s)] ∧
      padNumbers (padNumbers s) = padNumbers s ∧
      storeLeaves (line row (padNumbers s)).leaves = storeLeaves (line row s).leaves := by
  obtain ⟨number, rest, hs⟩ := exists_lineNumber sound
  have hnumber : '\t' ∉ number := htab _ (by rw [leaves_line hs]; exact List.mem_cons_self) rfl
  have hrows := similar_rows sound 0
  have sound' : (line 0 s).hasError = false := by
    rw [← sound]
    exact (hasError_congr (R := fun l text => text = l.text) (forall₂_leaves_line sound 0)).symm
  have hsimilar : Similar PaddedTo (line row s).children (line row (padNumbers s)).children := by
    refine hrows.trans (fun l l' text hkind htext hpadded => ?_)
      (similar_padded hs hnumber sound' row).2
    obtain ⟨value, read, digits, again, other⟩ := hpadded
    rw [← hkind, htext] at value read other
    rw [← hkind] at digits again
    exact ⟨value, read, digits, again, other⟩
  refine ⟨.inner rfl hsimilar .nil, padNumbers_padNumbers hs hnumber sound', ?_⟩
  exact (storeLeaves_congr (hsimilar.leaves.imp fun l l' h => ⟨h.1, h.2.sameBytes⟩)).symm

/-- The digits of the name stay, those of the numbers are brought to three. -/
theorem padding_invisible_names :
    padNumbers " 1 0 B52 = 5 + 12: GOTO 7 ".toList = " 010 B52 = 005 + 012: GOTO 007 ".toList ∧
      Similar PaddedTo [line 3 " 1 0 B52 = 5 + 12: GOTO 7 ".toList]
        [line 3 " 010 B52 = 005 + 012: GOTO 007 ".toList] ∧
      storeLeaves (line 3 " 010 B52 = 005 + 012: GOTO 007 ".toList).leaves =
        storeLeaves (line 3 " 1 0 B52 = 5 + 12: GOTO 7 ".toList).leaves := by
  have hpad : padNumbers " 1 0 B52 = 5 + 12: GOTO 7 ".toList =
      " 010 B52 = 005 + 012: GOTO 007 ".toList := by decide +kernel
  have h := @padding_invisible 3 " 1 0 B52 = 5 + 12: GOTO 7 ".toList (by decide +kernel)
    (by decide +kernel)
  rw [hpad] at h
  exact ⟨hpad, h.1, h.2.2⟩

end Record

end IntegerBasic
