import IntegerBasic.Proofs.Grammar.WidenedText
import IntegerBasic.Proofs.Record.Padding

/-!
# Spaces are not stored

No leaf of a line is stored by its spaces but for the text of strings and remarks. So a sound line
that is widened by spaces outside of these and of its names has the same record, or none for the
same fault.
-/

namespace IntegerBasic.Record

open Grammar Lexeme

/-- The digits of a number with other spaces in it. -/
theorem readToken_respaced {text text' : List Char}
    (h : Text.withoutSpaces text' = Text.withoutSpaces text) :
    Numeral.readToken text' = Numeral.readToken text := by
  have hdigits : ∀ s : List Char, s.filter Char.isDigit =
      (Text.withoutSpaces s).filter Char.isDigit := by
    intro s
    rw [Text.withoutSpaces, List.filter_filter]
    refine List.filter_congr fun c _ => ?_
    by_cases hc : c = ' '
    · rw [hc]
      rfl
    · simp [hc]
  rw [Numeral.readToken, Numeral.readToken, Numeral.digitsValue, Numeral.digitsValue,
    hdigits text', hdigits text, h]

/-- A leaf with other spaces is stored in the same bytes. -/
theorem sameBytes_respaced {l : Leaf} {text : List Char} (hl : l.kind.isError = false)
    (h : Respaced l text) : SameBytes l text := by
  by_cases hkind : l.kind.isContiguous = true
  · rw [h.whole hkind]
    exact .refl l
  · refine ⟨?_, fun type htype => absurd (by rw [htype]; rfl) hkind⟩
    have hread := readToken_respaced h.letters
    obtain ⟨kind, read, span⟩ := l
    cases kind with
    | token t => rfl
    | lineNumber | lineArgument | integer => simp only [storeLeaf, hread]
    | name | string | comment => exact absurd rfl hkind
    | error => cases hl

/-- A widened line has the same record, or the same fault. -/
theorem ofLine_widen {n : Nat → Nat} {s : List Char} (sound : (line 0 s).hasError = false)
    (htab : '\t' ∉ s.takeWhile Text.isGap) (hn : KeepsLeaves n s (line 0 s).leaves) (row : Int) :
    ofLine row (widen n 0 s) = ofLine row s := by
  obtain ⟨number, rest, hs⟩ := exists_lineNumber sound
  have hleaves := (similar_widen hs sound hn).leaves
  have sound' : (line 0 (widen n 0 s)).hasError = false :=
    (hasError_congr hleaves).symm.trans sound
  have htab' : '\t' ∉ (widen n 0 s).takeWhile Text.isGap := by
    intro hmem
    rcases mem_takeWhile_widen rfl hmem with hspace | hmem
    · cases hspace
    · exact htab hmem
  have hbytes : storeLeaves (line 0 s).leaves = storeLeaves (line 0 (widen n 0 s)).leaves := by
    have hnone : ∀ l ∈ (line 0 s).leaves, l.kind.isError = false := by
      rw [Node.hasError, List.any_eq_false] at sound
      simpa using sound
    refine storeLeaves_congr (((List.forall₂_and_left _ _).2 ⟨hnone, hleaves⟩).imp ?_)
    exact fun l l' h => ⟨h.2.1, sameBytes_respaced h.1 h.2.2⟩
  rw [ofLine, ofLine, body_eq htab' sound', ← hbytes, ← body_eq htab sound]

/-- Spaces before and inside the number of the line, inside words and between leaves. -/
theorem ofLine_widen_loop :
    widen (fun col => if col ∈ [0, 1, 4, 9, 12, 16, 20, 24, 29, 31] then 2 else 0) 0
        "10 FOR I=NO TO 25:PRINT \"A B\":REM C".toList =
      "  1  0 F  OR I=  NO   TO 2  5:PR  INT   \"A B\"  :R  EM C".toList ∧
    ofLine 7 "  1  0 F  OR I=  NO   TO 2  5:PR  INT   \"A B\"  :R  EM C".toList =
      ofLine 7 "10 FOR I=NO TO 25:PRINT \"A B\":REM C".toList := by
  have hwiden : widen (fun col => if col ∈ [0, 1, 4, 9, 12, 16, 20, 24, 29, 31] then 2 else 0) 0
      "10 FOR I=NO TO 25:PRINT \"A B\":REM C".toList =
        "  1  0 F  OR I=  NO   TO 2  5:PR  INT   \"A B\"  :R  EM C".toList := by decide +kernel
  refine ⟨hwiden, ?_⟩
  rw [← hwiden]
  exact ofLine_widen (by decide +kernel) (by decide +kernel) (by decide +kernel) 7

/-- A space behind the first letter of `TO` makes `NOT` of a name and that letter. -/
theorem not_ofLine_widen : ¬∀ (n : Nat → Nat) (s : List Char), (line 0 s).hasError = false →
    '\t' ∉ s.takeWhile Text.isGap →
    (∀ col, n col ≠ 0 → ∃ l ∈ (line 0 s).leaves, ∃ t, l.kind = .token t ∧
      l.span.start.col < col ∧ col < l.span.stop.col) →
    ∀ row, ofLine row (widen n 0 s) = ofLine row s := by
  intro h
  have hline := h (fun col => if col = 13 then 1 else 0) "10 FOR I=NO TO 5".toList
    (by decide +kernel) (by decide +kernel) ?_ 0
  · exact absurd hline (by decide +kernel)
  · intro col hcol
    obtain rfl : col = 13 := by simpa using hcol
    exact ⟨⟨.token .toLimit, "TO".toList, ⟨⟨0, 12⟩, ⟨0, 14⟩⟩⟩, by decide +kernel, .toLimit, rfl,
      by decide, by decide⟩

end IntegerBasic.Record
