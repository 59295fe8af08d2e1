import IntegerBasic.Proofs.Renumber.Changes

/-!
# The numbers of a renumbered text

A line of the new text has a number exactly if the line it comes from has one, and this is the
number assigned to its row, or else the old one.
-/

namespace IntegerBasic.Renumber

open Grammar Document

theorem isInteger_decimal (n k : Nat) :
    Lexeme.IsInteger (Numeral.decimal n ++ List.replicate k ' ') := by
  constructor
  · obtain ⟨c, more, hdecimal⟩ := List.exists_cons_of_ne_nil (Numeral.decimal_ne_nil n)
    refine ⟨c, more ++ List.replicate k ' ', by rw [hdecimal, List.cons_append], ?_⟩
    exact Numeral.isDigit_of_mem_decimal (n := n) (by rw [hdecimal]; exact List.mem_cons_self)
  · intro c hc
    rcases List.mem_append.1 hc with hc | hc
    · simp [Lexeme.isDigitOrSpace, Numeral.isDigit_of_mem_decimal hc]
    · simp [Lexeme.isDigitOrSpace, List.eq_of_mem_replicate hc]

/-- The new text of a number is gaps and a number again. -/
theorem rewritten_number {gaps text : List Char} (hgaps : ∀ c ∈ gaps, Text.isGap c = true)
    (htext : Lexeme.IsInteger text) (n : Nat) :
    ∃ k, rewritten (gaps ++ text) n =
      List.replicate gaps.length ' ' ++ (Numeral.decimal n ++ List.replicate k ' ') := by
  have htrim := trimLeft_append hgaps htext []
  rw [List.append_nil] at htrim
  have hlength : (gaps ++ text).length - text.length = gaps.length := by simp
  refine ⟨(gaps ++ text).length - (Text.trimRight (gaps ++ text)).length, ?_⟩
  rw [rewritten, htrim, hlength, Numeral.decimalInt_natCast, List.append_assoc]

theorem lineNumber_rewritten {s number rest rest' : List Char}
    (h : Lexeme.lineNumber s = some (number, rest)) (n : Nat) (hrest : Lexeme.EndsNumber rest') :
    Lexeme.lineNumber (rewritten number n ++ rest') = some (rewritten number n, rest') := by
  obtain ⟨gaps, text, rfl, hgaps, htext, -⟩ := Lexeme.lineNumber_some h
  obtain ⟨k, hk⟩ := rewritten_number hgaps htext n
  have hspaces : ∀ c ∈ List.replicate gaps.length ' ', Text.isGap c = true := by
    intro c hc
    rw [List.eq_of_mem_replicate hc]
    rfl
  rw [hk, List.append_assoc]
  exact Lexeme.lineNumber_append hspaces (isInteger_decimal n k) hrest

theorem filter_rewritten (text : List Char) (n : Nat) :
    (rewritten text n).filter Char.isDigit = Numeral.decimal n := by
  have hspaces : ∀ k, (List.replicate k ' ').filter Char.isDigit = [] := by
    intro k
    rw [List.filter_eq_nil_iff]
    intro c hc
    rw [List.eq_of_mem_replicate hc]
    decide
  have hdecimal : (Numeral.decimal n).filter Char.isDigit = Numeral.decimal n :=
    List.filter_eq_self.2 fun c hc => Numeral.isDigit_of_mem_decimal hc
  rw [rewritten, Numeral.decimalInt_natCast, List.filter_append, List.filter_append, hspaces,
    hspaces, hdecimal, List.nil_append, List.append_nil]

/-- A number that is written into a text has its own value. -/
theorem digitsValue_rewritten (text : List Char) (n : Nat) :
    Numeral.digitsValue (rewritten text n) = n := by
  have hvalue := Numeral.digitsValue_decimal n
  rw [Numeral.digitsValue,
    List.filter_eq_self.2 fun c hc => Numeral.isDigit_of_mem_decimal hc] at hvalue
  rw [Numeral.digitsValue, filter_rewritten, hvalue]

def InLimit (new : Option Int) : Prop := ∀ n ∈ new, 0 ≤ n ∧ n ≤ lineNumberLimit

theorem exists_nat_of_inLimit {n : Int} (h : InLimit (some n)) : ∃ m : Nat, n = m ∧ m ≤ 32767 := by
  obtain ⟨hlow, hhigh⟩ := h n rfl
  obtain ⟨m, rfl⟩ := Int.eq_ofNat_of_zero_le hlow
  rw [lineNumberLimit] at hhigh
  exact ⟨m, rfl, by omega⟩

/-- The number of a line of the new text. -/
theorem lineNumber_patch {assigned : List (Reference × Int)} (updateReferences : Bool)
    {row : Nat} {s number rest : List Char} (h : Lexeme.lineNumber s = some (number, rest))
    (hnew : InLimit (newNumber? assigned row)) :
    Lexeme.lineNumber (patch 0 s (lineChanges assigned updateReferences row s)) =
      some ((newNumber? assigned row).elim number (rewritten number),
        patch number.length rest (laterChanges assigned updateReferences row s)) := by
  have hends : Lexeme.EndsNumber
      (patch number.length rest (laterChanges assigned updateReferences row s)) := by
    obtain ⟨-, -, -, -, -, hrest, -⟩ := Lexeme.lineNumber_some h
    rw [Lexeme.EndsNumber, head?_patch_laterChanges assigned updateReferences row h]
    exact hrest
  rw [patch_lineChanges assigned updateReferences row h]
  cases hrow : newNumber? assigned row with
  | none =>
    obtain ⟨gaps, text, rfl, hgaps, htext, -⟩ := Lexeme.lineNumber_some h
    rw [Option.elim, List.append_assoc]
    exact Lexeme.lineNumber_append hgaps htext hends
  | some n =>
    rw [hrow] at hnew
    obtain ⟨m, rfl, -⟩ := exists_nat_of_inLimit hnew
    exact lineNumber_rewritten h m hends

theorem patch_lineChanges_of_none {assigned : List (Reference × Int)} {updateReferences : Bool}
    {row : Nat} {s : List Char} (h : Lexeme.lineNumber s = none) :
    patch 0 s (lineChanges assigned updateReferences row s) = s := by
  rw [lineChanges_of_none h, patch]

def Reference.place (r : Reference) : Int × Int := (r.span.start.row, r.number)

theorem exists_ofLeaf_rewritten (text : List Char) {n : Nat} (hn : n ≤ 32767) (span : Span) :
    ∃ r, Reference.ofLeaf ⟨.lineNumber, rewritten text n, span⟩ = .ok r := by
  have hlength : (Numeral.decimal n).length ≤ 5 := Numeral.length_decimal_le (by omega)
  have hread : Numeral.readToken (rewritten text n) =
      .ok (Numeral.digitsValue (rewritten text n)) := by
    rw [Numeral.readToken, filter_rewritten]
    exact if_neg (by rw [Numeral.digitLimit]; omega)
  rw [Reference.ofLeaf, hread]
  exact ⟨_, rfl⟩

/-- The reference of a line of the new text, given the one of the old text. -/
theorem exists_ofLeaf_patch {assigned : List (Reference × Int)} (updateReferences : Bool)
    {row : Nat} {s : List Char} {l : Leaf} {r : Reference} (hl : primaryLeaf? row s = some l)
    (hr : Reference.ofLeaf l = .ok r) (hnew : InLimit (newNumber? assigned row)) :
    ∃ l' r', primaryLeaf? row (patch 0 s (lineChanges assigned updateReferences row s)) = some l' ∧
      Reference.ofLeaf l' = .ok r' ∧
      r'.place = ((row : Int), (newNumber? assigned row).getD r.number) := by
  obtain ⟨⟨number, rest⟩, h, rfl⟩ := Option.map_eq_some_iff.1 hl
  have hleaf := primaryLeaf?_eq_some row (lineNumber_patch updateReferences h hnew)
  cases hrow : newNumber? assigned row with
  | none =>
    rw [hrow] at hleaf
    exact ⟨_, r, hleaf, hr, by rw [Reference.place, (ofLeaf_ok hr).2.1]; rfl⟩
  | some n =>
    rw [hrow] at hnew hleaf
    obtain ⟨m, rfl, hm⟩ := exists_nat_of_inLimit hnew
    obtain ⟨r', hr'⟩ := exists_ofLeaf_rewritten number hm _
    refine ⟨_, r', hleaf, hr', ?_⟩
    obtain ⟨hnumber, hspan, -⟩ := ofLeaf_ok hr'
    rw [Reference.place, hspan, hnumber]
    exact congrArg (Prod.mk _) (congrArg Int.ofNat (digitsValue_rewritten number m))

/-- The references of the new text, given those of the old text. -/
theorem read_patch {assigned : List (Reference × Int)} (updateReferences : Bool)
    (hnew : ∀ row, InLimit (newNumber? assigned row)) {lines : List (List Char)} {first : Nat}
    {olds : List Reference} (hread : Read (primaryLeaves lines first) olds) :
    ∃ news, Read (primaryLeaves ((lines.zipIdx first).map fun (s, row) =>
          patch 0 s (lineChanges assigned updateReferences row s)) first) news ∧
      news.map Reference.place = olds.map fun r =>
        (r.span.start.row, (newNumber? assigned r.span.start.row.toNat).getD r.number) := by
  induction lines generalizing first olds with
  | nil =>
    cases hread
    exact ⟨[], .nil, rfl⟩
  | cons s lines ih =>
    rw [primaryLeaves_cons] at hread
    rw [List.zipIdx_cons, List.map_cons, primaryLeaves_cons]
    dsimp only
    cases hleaf : primaryLeaf? first s with
    | none =>
      rw [hleaf] at hread
      have hnone : Lexeme.lineNumber s = none := Option.map_eq_none_iff.1 hleaf
      rw [patch_lineChanges_of_none hnone, hleaf]
      exact ih hread
    | some l =>
      rw [hleaf] at hread
      cases hread with
      | @cons _ r _ olds hl hmore =>
        obtain ⟨l', r', hleaf', hr', hplace⟩ := exists_ofLeaf_patch updateReferences hleaf hl
          (hnew first)
        obtain ⟨news, hnews, hplaces⟩ := ih hmore
        have hrow : r.span.start.row = first := by
          rw [(ofLeaf_ok hl).2.1, (inRow_primaryLeaf? hleaf).1]
        rw [hleaf']
        refine ⟨r' :: news, .cons hr' hnews, ?_⟩
        rw [List.map_cons, List.map_cons, hplace, hplaces, hrow]
        rfl

end IntegerBasic.Renumber
