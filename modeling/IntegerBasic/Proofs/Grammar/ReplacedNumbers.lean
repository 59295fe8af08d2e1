import IntegerBasic.Proofs.Document.Patches
import IntegerBasic.Proofs.Grammar.Agreement

/-!
# Lines with replaced numbers

A sound line in which numbers are replaced by others is aligned with the old line: a number is read
where a number was read, and the old text agrees with the new one at every leaf.
-/

namespace IntegerBasic.Grammar

open Document Lexeme

structure ReplacesNumbers (new : Leaf → Option (List Char)) : Prop where
  kind : ∀ l, new l ≠ none → l.kind = .integer ∨ l.kind = .lineArgument
  number : ∀ l text, new l = some text → IsInteger l.text → IsInteger text

def newText (new : Leaf → Option (List Char)) (l : Leaf) : List Char := (new l).getD l.text

def Replaced (new : Leaf → Option (List Char)) : Match := fun l text => text = newText new l

def changeTo (l : Leaf) (text : List Char) : Change := ⟨l.span.start.col, l.span.stop.col, text⟩

def replacements (new : Leaf → Option (List Char)) (leaves : List Leaf) : List Change :=
  leaves.filterMap fun l => (new l).map (changeTo l)

variable {new : Leaf → Option (List Char)}

theorem replacements_cons_of_none {l : Leaf} (h : new l = none) (L : List Leaf) :
    replacements new (l :: L) = replacements new L := by
  rw [replacements, List.filterMap_cons, h]
  rfl

theorem replacements_cons_of_some {l : Leaf} {text : List Char} (h : new l = some text)
    (L : List Leaf) : replacements new (l :: L) = changeTo l text :: replacements new L := by
  rw [replacements, List.filterMap_cons, h]
  rfl

theorem newText_of_none {l : Leaf} (h : new l = none) : newText new l = l.text := by
  rw [newText, h]
  rfl

theorem newText_of_some {l : Leaf} {text : List Char} (h : new l = some text) :
    newText new l = text := by
  rw [newText, h]
  rfl

theorem ReplacesNumbers.eq_none (hnew : ReplacesNumbers new) {l : Leaf}
    (hinteger : l.kind ≠ .integer) (hargument : l.kind ≠ .lineArgument) : new l = none := by
  by_contra hne
  exact (hnew.kind l hne).elim hinteger hargument

/-- A number is read where another was, if what follows agrees. -/
theorem takes_number {kind : LeafKind} (hkind : kind = .integer ∨ kind = .lineArgument)
    {s text rest rest' text' : List Char} (h : Takes kind s text rest) (hrest : Agree rest rest')
    (htext' : IsInteger text') :
    Takes kind (text' ++ rest') text' rest' ∧ Agree (text ++ rest) (text' ++ rest') := by
  obtain ⟨-, htext, hends⟩ := integer_some (h.integer hkind)
  have hinteger := integer_append htext' (hrest.endsNumber hends)
  refine ⟨?_, ?_⟩
  · rcases hkind with rfl | rfl
    · exact .reads (.integer hinteger)
    · exact .reads (.lineArgument hinteger)
  · obtain ⟨c, more, rfl, hc⟩ := htext.head
    obtain ⟨d, more', rfl, hd⟩ := htext'.head
    exact .digit hc hd

structure Realigned (new : Leaf → Option (List Char)) (i : Input) (L : List Leaf) : Prop where
  fits : Fits i.col (i.col + i.rest.length) (replacements new L)
  agree : Agree i.rest (patch i.col i.rest (replacements new L))
  aligned : Aligned (Replaced new) L i.rest (patch i.col i.rest (replacements new L))

/-- The first leaf is put down with its new text, and behind it the rest with its changes. -/
theorem patch_leaf {i : Input} {kind : LeafKind} {text rest : List Char} {L : List Leaf}
    (takes : Takes kind i.skip.rest text rest)
    (hfits : Fits (i.skip.after text rest).col
      ((i.skip.after text rest).col + rest.length) (replacements new L)) :
    Fits i.col (i.col + i.rest.length) (replacements new (i.skip.leafOf kind text :: L)) ∧
      patch i.col i.rest (replacements new (i.skip.leafOf kind text :: L)) =
        i.rest.takeWhile Text.isGap ++ (newText new (i.skip.leafOf kind text) ++
          patch (i.skip.after text rest).col rest (replacements new L)) := by
  have hrest := rest_eq_of_takes takes
  have hpos := List.length_pos_iff.2 takes.ne_nil
  generalize hgaps : i.rest.takeWhile Text.isGap = gaps at hrest
  have hskip : i.skip.col = i.col + gaps.length := by rw [Input.skip, Input.after, hgaps]
  have hcol : (i.skip.after text rest).col = i.col + gaps.length + text.length := by
    rw [Input.after, hskip]
  have hsize : i.col + gaps.length + text.length + rest.length = i.col + i.rest.length := by
    rw [hrest, List.length_append, List.length_append]
    omega
  rw [hcol] at hfits ⊢
  rw [hsize] at hfits
  cases hn : new (i.skip.leafOf kind text) with
  | none =>
    rw [replacements_cons_of_none hn, newText_of_none hn]
    refine ⟨hfits.of_le (by omega), ?_⟩
    have hfits' : Fits (i.col + (gaps ++ text).length) (i.col + i.rest.length)
        (replacements new L) := by
      rwa [List.length_append, ← Nat.add_assoc]
    have hpatch := patch_append_left (gaps ++ text) (t := rest) hfits'
    rw [List.append_assoc, ← hrest, List.length_append, ← Nat.add_assoc,
      List.append_assoc] at hpatch
    exact hpatch
  | some text' =>
    have hstart : (changeTo (i.skip.leafOf kind text) text').start = i.col + gaps.length := hskip
    have hstop : (changeTo (i.skip.leafOf kind text) text').stop =
        i.col + gaps.length + text.length := by
      rw [← hskip]
      rfl
    rw [replacements_cons_of_some hn, newText_of_some hn]
    refine ⟨⟨by omega, by omega, by rwa [hstop]⟩, ?_⟩
    have htake : i.rest.take (i.col + gaps.length - i.col) = gaps := by
      rw [hrest, Nat.add_sub_cancel_left, List.take_left]
    have hdrop : i.rest.drop (i.col + gaps.length + text.length - i.col) = rest := by
      rw [hrest, Nat.add_assoc, Nat.add_sub_cancel_left, ← List.append_assoc, ← List.length_append,
        List.drop_left]
    rw [patch, hstart, hstop, htake, hdrop]
    rfl

theorem Realigned.leaf {i : Input} {kind : LeafKind} {text rest : List Char} {L : List Leaf}
    (hnew : ReplacesNumbers new) (takes : Takes kind i.skip.rest text rest)
    (hrem : kind ≠ .token .rem) (h : Realigned new (i.skip.after text rest) L) :
    Realigned new i (i.skip.leafOf kind text :: L) := by
  obtain ⟨hfits, hpatch⟩ := patch_leaf takes h.fits
  have hrest := rest_eq_of_takes takes
  have hagree : Agree rest (patch (i.skip.after text rest).col rest (replacements new L)) :=
    h.agree
  generalize hy : patch (i.skip.after text rest).col rest (replacements new L) = y at hpatch hagree
  -- the leaf is read from its new text, and the old text agrees with it
  have hleaf : Takes kind (newText new (i.skip.leafOf kind text) ++ y)
        (newText new (i.skip.leafOf kind text)) y ∧
      Agree (text ++ rest) (newText new (i.skip.leafOf kind text) ++ y) := by
    cases hn : new (i.skip.leafOf kind text) with
    | none =>
      rw [newText_of_none hn]
      exact ⟨takes.of_agree hagree, hagree.append_left text⟩
    | some text' =>
      have hkind : kind = .integer ∨ kind = .lineArgument :=
        hnew.kind (i.skip.leafOf kind text) (by simp [hn])
      rw [newText_of_some hn]
      exact takes_number hkind takes hagree
        (hnew.number _ _ hn (integer_some (takes.integer hkind)).2.1)
  obtain ⟨htakes, hagree'⟩ := hleaf
  have hline : Agree i.rest
      (patch i.col i.rest (replacements new (i.skip.leafOf kind text :: L))) := by
    rw [hpatch]
    nth_rewrite 1 [hrest]
    exact hagree'.append_left _
  have hread : Takes kind
      (front (patch i.col i.rest (replacements new (i.skip.leafOf kind text :: L))))
      (newText new (i.skip.leafOf kind text)) y := by
    rw [hpatch, front_append (fun c hc => List.all_eq_true.1 List.all_takeWhile c hc),
      front_of_head htakes.bare]
    exact htakes
  refine ⟨hfits, hline, .leaf takes.ne_nil takes.append.symm hread (alike_of_agree hline)
    rfl hrem (fun _ _ => tabNext_of_agree hagree) (fun _ => sameNegation_of_agree hline) ?_⟩
  rw [← hy]
  exact h.aligned

/-- Nothing changes where no leaf is given a new text. -/
theorem realigned_of_none {i : Input} {L : List Leaf} (hnone : ∀ l ∈ L, new l = none)
    (h : Aligned (Replaced new) L i.rest i.rest) : Realigned new i L := by
  have hchanges : replacements new L = [] := by
    rw [replacements, List.filterMap_eq_nil_iff]
    intro l hl
    rw [hnone l hl]
    rfl
  refine ⟨?_, ?_, ?_⟩
  · rw [hchanges]
    exact Nat.le_add_right _ _
  · rw [hchanges]
    exact .refl _
  · rw [hchanges]
    exact h

/-- A sound line with its changes is aligned with the old line. -/
theorem realigned_of_written (hnew : ReplacesNumbers new) {q : Bool} {i : Input} {L : List Leaf}
    (h : Written q i L) : Realigned new i L := by
  induction h with
  | done h => exact ⟨Nat.le_add_right _ _, .refl _, .nil h h⟩
  | leaf takes hrem _ _ ih => exact ih.leaf hnew takes hrem
  | @bareRemark q i text read =>
    have hrem : new (i.skip.leafOf (.token .rem) text) = none :=
      hnew.eq_none (by simp [Input.leafOf]) (by simp [Input.leafOf])
    refine realigned_of_none (by simpa using hrem) ?_
    refine .bareRemark rfl (ne_nil_of_word (spelling_ne_nil _) read) ?_ read .rfl
      (newText_of_none hrem).symm
    rw [← rest_skip, ← append_of_word read, List.append_nil]
    rfl
  | @remark q i text rest read ne =>
    have hrem : new (i.skip.leafOf (.token .rem) text) = none :=
      hnew.eq_none (by simp [Input.leafOf]) (by simp [Input.leafOf])
    have hcomment : new ((i.skip.after text rest).leafOf .comment rest) = none :=
      hnew.eq_none (by simp [Input.leafOf]) (by simp [Input.leafOf])
    refine realigned_of_none (by simp [hrem, hcomment]) ?_
    refine .remark rfl (ne_nil_of_word (spelling_ne_nil _) read) ?_ read .rfl
      (newText_of_none hrem).symm rfl ne ne (newText_of_none hcomment).symm
    rw [← rest_skip, ← append_of_word read]
    rfl

end IntegerBasic.Grammar
