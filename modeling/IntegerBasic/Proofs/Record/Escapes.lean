import IntegerBasic.Proofs.Grammar.NumberPlaces
import IntegerBasic.Proofs.Record.PaddedLines
import IntegerBasic.Proofs.Record.ShownText

/-!
# Escapes in a text

A text without an escape is stored as it is, and every escape makes it shorter. A line without an
escape has none when its numbers are padded either, as long as they are padded where they stand:
behind a broken `HIMEM:` or `LOMEM:` they are not.
-/

namespace IntegerBasic.Record

open Grammar Lexeme

/-- There is an escape somewhere in the text. -/
def hasEscape (s : List Char) : Bool := s.tails.any beginsEscape

theorem hasEscape_cons (c : Char) (s : List Char) :
    hasEscape (c :: s) = (beginsEscape (c :: s) || hasEscape s) := by
  rw [hasEscape, List.tails_cons, List.any_cons, hasEscape]

theorem beginsEscape_append {s : List Char} (h : beginsEscape s = true) (t : List Char) :
    beginsEscape (s ++ t) = true := by
  obtain ⟨high, low, b, rest, rfl, hb⟩ := beginsEscape_iff.1 h
  exact beginsEscape_iff.2 ⟨high, low, b, rest ++ t, rfl, hb⟩

/-- An escape in a part of a text is one in the text. -/
theorem hasEscape_of_part {s t : List Char} (h : s <:+: t) (hs : hasEscape s = true) :
    hasEscape t = true := by
  obtain ⟨front, back, rfl⟩ := h
  obtain ⟨tail, htail, hbegins⟩ := List.any_eq_true.1 hs
  obtain ⟨before, rfl⟩ := (List.mem_tails _ _).1 htail
  refine List.any_eq_true.2 ⟨tail ++ back, (List.mem_tails _ _).2 ⟨front ++ before, ?_⟩,
    beginsEscape_append hbegins back⟩
  simp only [List.append_assoc]

theorem hasEscape_part {s t : List Char} (h : s <:+: t) (ht : hasEscape t = false) :
    hasEscape s = false := by
  rw [Bool.eq_false_iff] at ht ⊢
  exact fun hs => ht (hasEscape_of_part h hs)

theorem hasEscape_append_of_forall {front : List Char} (h : ∀ c ∈ front, c ≠ '\\') (s : List Char) :
    hasEscape (front ++ s) = hasEscape s := by
  induction front with
  | nil => rfl
  | cons c front ih =>
    obtain ⟨hc, h⟩ := List.forall_mem_cons.1 h
    rw [List.cons_append, hasEscape_cons, beginsEscape_of_ne hc, Bool.false_or, ih h]

theorem isSome_escapeByte? (high low : Char) : (escapeByte? high low).isSome =
    ((Text.hexValue? high).isSome && (Text.hexValue? low).isSome) := by
  unfold escapeByte?
  cases Text.hexValue? high with
  | none => rfl
  | some h => cases Text.hexValue? low <;> rfl

/-- Another number in the place of a number makes no escape if the number does not stand behind an
`x`. -/
theorem hasEscape_replace {front old new back : List Char} (hfront : front.getLast? ≠ some 'x')
    (hold : IsInteger old) (hnew : IsInteger new) (h : hasEscape (front ++ (old ++ back)) = false) :
    hasEscape (front ++ (new ++ back)) = false := by
  have hdigit : ∀ {text : List Char}, IsInteger text →
      ∃ c more, text = c :: more ∧ c ≠ 'x' ∧ (Text.hexValue? c).isSome = true := by
    intro text htext
    obtain ⟨c, more, rfl, hc⟩ := htext.head
    refine ⟨c, more, rfl, ?_, ?_⟩
    · rintro rfl
      cases hc
    · simp [Text.hexValue?, hc]
  have hplain : ∀ c ∈ new, c ≠ '\\' := by
    rintro c hc rfl
    cases hnew.all '\\' hc
  obtain ⟨o, olds, rfl, -, ho⟩ := hdigit hold
  obtain ⟨n, news, hn, hx, hn'⟩ := hdigit hnew
  induction front with
  | nil =>
    rw [List.nil_append] at h ⊢
    rw [hasEscape_append_of_forall hplain]
    exact hasEscape_part (List.suffix_append _ _).isInfix h
  | cons c front ih =>
    rw [List.cons_append, hasEscape_cons, Bool.or_eq_false_iff] at h ⊢
    have hmore : front.getLast? ≠ some 'x' := by
      cases front with
      | nil => simp
      | cons d front => rwa [List.getLast?_cons_cons] at hfront
    refine ⟨?_, ih hmore h.2⟩
    by_cases hc : c = '\\'
    · subst hc
      -- what decides is whether the four characters of an escape reach into the number
      rcases front with _ | ⟨d, _ | ⟨e, _ | ⟨g, front⟩⟩⟩
      · rw [List.nil_append, hn]
        exact beginsEscape_of_head (by simpa using hx)
      · exact beginsEscape_of_head (by simpa using hfront)
      · by_cases hd : d = 'x'
        · subst hd
          have hhigh : (Text.hexValue? e).isSome = false := by
            have hbegins : (escapeByte? e o).isSome = false := h.1
            rwa [isSome_escapeByte?, ho, Bool.and_true] at hbegins
          rw [hn]
          show (escapeByte? e n).isSome = false
          rw [isSome_escapeByte?, hhigh, Bool.false_and]
        · exact beginsEscape_of_head (by simpa using hd)
      · by_cases hd : d = 'x'
        · subst hd
          exact h.1
        · exact beginsEscape_of_head (by simpa using hd)
    · exact beginsEscape_of_ne hc _

/-- A line whose leaves are replaced by other numbers where they stand. Up to the first of them the
line stays as it is. -/
theorem hasEscape_padEach {s : List Char} {leaves : List Leaf} {start stop : Nat}
    (hin : InOrder start leaves stop) (hstands : ∀ l ∈ leaves, l.StandsIn s 0)
    (hclear : ∀ l ∈ leaves, ClearOfX s l.span.start.col) (hs : hasEscape s = false) :
    (padEach leaves s).take start = s.take start ∧ hasEscape (padEach leaves s) = false := by
  induction leaves generalizing start with
  | nil => exact ⟨rfl, hs⟩
  | cons l leaves ih =>
    obtain ⟨hstart, hspan, hin⟩ := hin
    obtain ⟨hl, hstands⟩ := List.forall_mem_cons.1 hstands
    obtain ⟨hx, hclear⟩ := List.forall_mem_cons.1 hclear
    obtain ⟨htake, hmore⟩ := ih hin hstands hclear
    show (splice (padEach leaves s) _ _ _).take start = _ ∧
      hasEscape (splice (padEach leaves s) _ _ _) = false
    generalize padEach leaves s = line at htake hmore
    obtain ⟨c, hc, -⟩ := hl.digit
    have hlength : l.span.start.col < s.length := (List.getElem?_eq_some_iff.1 hc).1
    have hbefore : line.take l.span.start.col = s.take l.span.start.col := by
      have := congrArg (List.take l.span.start.col) htake
      rwa [List.take_take, List.take_take, Nat.min_eq_left hspan] at this
    have hleaf : s.take l.span.stop.col = s.take l.span.start.col ++ l.text := by
      nth_rewrite 1 [← Nat.add_sub_of_le hspan]
      rw [List.take_add, hl.text, stretch]
    have hline : line = s.take l.span.start.col ++ (l.text ++ line.drop l.span.stop.col) := by
      rw [← List.append_assoc, ← hleaf, ← htake, List.take_append_drop]
    rw [splice, hbefore, List.append_assoc]
    constructor
    · rw [List.take_append_of_le_length (by rw [List.length_take]; omega), List.take_take,
        Nat.min_eq_left hstart]
    · rw [hline] at hmore
      exact hasEscape_replace hx hl.isInteger (isInteger_padNumber hl.isInteger) hmore

theorem mem_padNumber {text : List Char} {c : Char} (h : c ∈ padNumber text) :
    c = '0' ∨ c ∈ text := by
  simp only [padNumber, List.leftpad, List.mem_append, List.mem_replicate] at h
  rcases h with (h | ⟨-, h⟩ | h) | h
  · exact .inr ((List.takeWhile_prefix _).subset h)
  · exact .inl h
  · exact .inr (List.mem_filter.1 h).1
  · exact .inr (List.mem_of_mem_drop h)

/-- A line without an escape has none when it is padded, unless a pointer is broken. -/
theorem hasEscape_padNumbers {s : List Char} (hs : hasEscape s = false)
    (hpointer : (line 0 s).hasBrokenPointer = false) : hasEscape (padNumbers s) = false := by
  cases hnumber : lineNumber s with
  | none =>
    rw [padNumbers, padEach, numbers_of_none hnumber]
    exact hs
  | some pair =>
    obtain ⟨number, rest⟩ := pair
    obtain ⟨stop, hin⟩ := inOrder_line hnumber hpointer
    have hstands : ∀ l ∈ laterNumbers 0 s number rest, l.StandsIn s 0 := fun l hl =>
      have hl := (standsIn_laterNumbers hnumber l hl).2
      ⟨hl.isInteger, Nat.zero_le _, hl.stop, hl.text⟩
    have hclear : ∀ l ∈ laterNumbers 0 s number rest, ClearOfX s l.span.start.col := by
      intro l hl
      obtain ⟨hl, hkind⟩ := List.mem_filter.1 hl
      exact numbersClear_line hnumber l hl hkind
    have hlater := (hasEscape_padEach (hin.filter _) hstands hclear hs).2
    have hplain : ∀ c ∈ padNumber number, c ≠ '\\' := by
      obtain ⟨gaps, text, rfl, hgaps, htext, -, -⟩ := lineNumber_some hnumber
      rintro c hc rfl
      rcases mem_padNumber hc with hc | hc
      · cases hc
      · rcases List.mem_append.1 hc with hc | hc
        · cases hgaps _ hc
        · cases htext.all _ hc
    have hsplit : padNumbers s = padNumber number ++
        (padEach (laterNumbers 0 s number rest) s).drop number.length := by
      rw [padNumbers, padEach, numbers_of_some hnumber, List.foldr_cons]
      simp [splice, padEach, Input.leafOf, Input.point]
    rw [hsplit, hasEscape_append_of_forall hplain]
    exact hasEscape_part (List.drop_suffix _ _).isInfix hlater

theorem storeChars_cons (c : Char) (s : List Char) :
    storeChars (c :: s) = storeChars [c] ++ storeChars s := by
  simp [storeChars]

/-- Text without an escape is stored as it is, and every escape makes it shorter. -/
theorem storeText_or_shorter (s : List Char) :
    hasEscape s = false ∧ storeText s = storeChars s ∨
      hasEscape s = true ∧ (storeText s).length < (storeChars s).length := by
  induction s using text_induction with
  | nil => exact .inl ⟨rfl, rfl⟩
  | escape high low b rest hbyte ih =>
    refine .inr ⟨?_, ?_⟩
    · rw [hasEscape_cons, beginsEscape, hbyte]
      rfl
    · have hrest : (storeText rest).length ≤ (storeChars rest).length := by
        rcases ih with ⟨-, hstore⟩ | ⟨-, hlength⟩
        · rw [hstore]
        · exact hlength.le
      have hlength : (storeChars ('\\' :: 'x' :: high :: low :: rest)).length =
          2 + ((storeChars [high]).length + ((storeChars [low]).length +
            (storeChars rest).length)) := by
        rw [storeChars_cons, storeChars_cons 'x', storeChars_cons high, storeChars_cons low]
        simp only [List.length_append]
        rw [← Nat.add_assoc]
        rfl
      have hpos := length_storeChars_pos high
      rw [hlength, storeText, hbyte, List.length_cons]
      omega
  | char c rest hbegins ih =>
    -- it is stored in front of what the rest is stored as
    rw [storeText_char hbegins, hasEscape_cons, hbegins, Bool.false_or, storeChars_cons c rest,
      List.length_append, List.length_append]
    rcases ih with ⟨hplain, hstore⟩ | ⟨hescape, hlength⟩
    · exact .inl ⟨hplain, congrArg _ hstore⟩
    · exact .inr ⟨hescape, Nat.add_lt_add_left hlength _⟩

/-- The text of a leaf in which an escape counts: what stands between the quotes of a string, and a
remark. -/
def escapable (l : Leaf) : List Char :=
  match l.kind with
  | .string => l.text.tail.dropLast
  | .comment => l.text
  | _ => []

theorem escapable_part (l : Leaf) : escapable l <:+: l.text := by
  unfold escapable
  split
  · exact (List.dropLast_prefix _).isInfix.trans (List.tail_suffix _).isInfix
  · exact List.infix_rfl
  · exact List.nil_infix

end IntegerBasic.Record
