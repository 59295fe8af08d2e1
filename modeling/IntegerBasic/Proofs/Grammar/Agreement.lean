import IntegerBasic.Proofs.Grammar.WrittenLines

/-!
# Texts that differ in numbers

Two texts agree if they are the same up to a place where both have a digit. A leaf of the one is
then a leaf of the other: no reader looks further behind a leaf than to the beginning of what
follows.
-/

namespace IntegerBasic

namespace Lexeme

/-- Texts that are the same up to the first of their numbers that differ. -/
inductive Agree : List Char → List Char → Prop
  | nil : Agree [] []
  | digit {c d : Char} {x y : List Char} (hc : c.isDigit = true) (hd : d.isDigit = true) :
      Agree (c :: x) (d :: y)
  | cons {c : Char} {x y : List Char} (h : Agree x y) : Agree (c :: x) (c :: y)

namespace Agree

variable {x y : List Char}

theorem refl (x : List Char) : Agree x x := by
  induction x with
  | nil => exact .nil
  | cons c x ih => exact .cons ih

theorem symm (h : Agree x y) : Agree y x := by
  induction h with
  | nil => exact .nil
  | digit hc hd => exact .digit hd hc
  | cons _ ih => exact .cons ih

theorem append_left (h : Agree x y) (text : List Char) : Agree (text ++ x) (text ++ y) := by
  induction text with
  | nil => exact h
  | cons c text ih => exact .cons ih

theorem akin (h : Agree x y) : Akin x y := by
  induction h with
  | nil => exact .nil
  | digit hc hd => exact .digit hc hd
  | cons _ ih => exact .cons (.refl _) ih

/-- A question that all digits answer alike is answered alike by both texts. -/
theorem any_head? (h : Agree x y) {p : Char → Bool}
    (hp : ∀ c d : Char, c.isDigit = true → d.isDigit = true → p c = p d) :
    x.head?.any p = y.head?.any p := by
  cases h with
  | nil => rfl
  | digit hc hd => exact hp _ _ hc hd
  | cons => rfl

theorem dropSpaces (h : Agree x y) : Agree (x.dropWhile isSpace) (y.dropWhile isSpace) := by
  induction h with
  | nil => exact .nil
  | digit hc hd =>
    rw [List.dropWhile_cons_of_neg (by simp [isSpace_of_isDigit hc]),
      List.dropWhile_cons_of_neg (by simp [isSpace_of_isDigit hd])]
    exact .digit hc hd
  | @cons c x y h ih =>
    cases hc : isSpace c with
    | true => simpa [hc] using ih
    | false => simpa [hc] using Agree.cons h

theorem split {text rest : List Char} (h : Agree (text ++ rest) y)
    (htext : ∀ c ∈ text, c.isDigit = false) : ∃ rest', y = text ++ rest' ∧ Agree rest rest' := by
  induction text generalizing y with
  | nil => exact ⟨y, rfl, h⟩
  | cons c text ih =>
    cases h with
    | digit hc =>
      rw [htext c List.mem_cons_self] at hc
      cases hc
    | cons h =>
      obtain ⟨rest', rfl, hrest⟩ := ih h fun d hd => htext d (List.mem_cons_of_mem _ hd)
      exact ⟨rest', rfl, hrest⟩

theorem endsNumber (h : Agree x y) (hx : EndsNumber x) : EndsNumber y := by
  have hdigit : ∀ c d : Char, c.isDigit = true → d.isDigit = true →
      isDigitOrSpace c = isDigitOrSpace d := by
    intro c d hc hd
    rw [isDigitOrSpace, isDigitOrSpace, hc, hd]
    rfl
  have hhead := h.any_head? hdigit
  intro c hc
  rw [Option.mem_def.1 hc, Option.any_some] at hhead
  rw [← hhead]
  cases hx' : x.head? with
  | none => rfl
  | some d => exact hx d hx'

end Agree

/-- Later letters of a word are read from the same characters, whatever follows them. -/
theorem wordTail_append_any {w s text rest : List Char} (hw : ∀ c ∈ w, c ≠ ' ')
    (h : wordTail w s = some (text, rest)) (rest' : List Char) :
    wordTail w (text ++ rest') = some (text, rest') := by
  induction w generalizing s text with
  | nil =>
    cases h
    rfl
  | cons letter w ih =>
    have hletter := hw letter List.mem_cons_self
    obtain ⟨c, more, read, hdrop, hsame, hread, rfl⟩ := wordTail_cons_some hletter h
    have hmore := ih (fun d hd => hw d (List.mem_cons_of_mem _ hd)) hread
    have hspaces : ∀ d ∈ s.takeWhile isSpace, isSpace d = true :=
      fun d hd => List.all_eq_true.1 List.all_takeWhile d hd
    have hc : isSpace c = false := by
      have := List.head?_dropWhile_not isSpace s
      rwa [hdrop] at this
    have hdrop' : (s.takeWhile isSpace ++ c :: read ++ rest').dropWhile isSpace =
        c :: (read ++ rest') := by
      simp [List.dropWhile_append_of_pos hspaces, hc]
    rw [wordTail_cons_same hletter hdrop' hsame, hmore, Option.map_some, List.append_assoc,
      List.takeWhile_append_of_pos hspaces]
    simp [hc]

theorem spelling_ne_space (t : Token) : ∀ c ∈ t.spelling.toList, c ≠ ' ' :=
  fun c hc => ((spelled_spelling t).plain c hc).1

/-- A word that has been read has been read like the later letters of one. -/
theorem wordTail_of_word {t : Token} {s text rest : List Char}
    (h : word t.spelling.toList s = some (text, rest)) :
    wordTail t.spelling.toList s = some (text, rest) := by
  rwa [word_eq_wordTail (spelling_ne_space t) fun c hc =>
    isSpace_of_not_isGap (Grammar.bare_of_word h c hc)] at h

/-- A word is read from the same characters, whatever follows them. -/
theorem word_append_any {t : Token} {s text rest : List Char}
    (h : word t.spelling.toList s = some (text, rest)) (rest' : List Char) :
    word t.spelling.toList (text ++ rest') = some (text, rest') := by
  have hbare := Grammar.bare_of_word h
  obtain ⟨c, more, rfl⟩ := List.exists_cons_of_ne_nil
    (Grammar.ne_nil_of_word (Grammar.spelling_ne_nil t) h)
  rw [← append_of_word h] at hbare
  rw [word_eq_wordTail (s := c :: more ++ rest') (spelling_ne_space t) fun d hd =>
    isSpace_of_not_isGap (hbare d hd)]
  exact wordTail_append_any (spelling_ne_space t) (wordTail_of_word h) rest'

/-- There is no digit in a word. -/
theorem isDigit_of_word {t : Token} {s text rest : List Char}
    (h : word t.spelling.toList s = some (text, rest)) : ∀ c ∈ text, c.isDigit = false := by
  intro c hc
  rcases Grammar.mem_word h c hc with rfl | ⟨letter, hletter, hsame⟩
  · rfl
  · cases hdigit : c.isDigit with
    | false => rfl
    | true =>
      rw [sameLetter_of_isDigit ((spelled_spelling t).plain letter hletter).2 hdigit] at hsame
      cases hsame

structure EndsName (rest : List Char) : Prop where
  head : ∀ c ∈ rest.head?, c.isAlphanum = false
  dollar : (rest.dropWhile isSpace).head? ≠ some '$'

theorem EndsName.of_agree {x y : List Char} (hx : EndsName x) (h : Agree x y) : EndsName y := by
  constructor
  · have hhead := h.any_head? (p := Char.isAlphanum) (by
      intro c d hc hd
      simp [Char.isAlphanum, hc, hd])
    intro c hc
    rw [Option.mem_def.1 hc, Option.any_some] at hhead
    rw [← hhead]
    cases hx' : x.head? with
    | none => rfl
    | some d => exact hx.head d hx'
  · have hhead := h.dropSpaces.any_head? (p := (· == '$')) (by
      intro c d hc hd
      have hne : ∀ {c : Char}, c.isDigit = true → (c == '$') = false := by
        intro c hc
        rw [beq_eq_false_iff_ne]
        rintro rfl
        cases hc
      rw [hne hc, hne hd])
    intro hdollar
    rw [hdollar] at hhead
    refine hx.dollar ?_
    cases hx' : (x.dropWhile isSpace).head? with
    | none =>
      rw [hx'] at hhead
      cases hhead
    | some d =>
      rw [hx'] at hhead
      simpa using hhead

/-- A dollar sign that ends a name, or nothing if the name ends without one. -/
def EndsWith (tail rest : List Char) : Prop :=
  tail = [] ∧ EndsName rest ∨ ∃ n, tail = List.replicate n ' ' ++ ['$']

theorem dollar_append {tail rest : List Char} (h : EndsWith tail rest) :
    dollar (tail ++ rest) = some (tail, rest) := by
  rcases h with ⟨rfl, hrest⟩ | ⟨n, rfl⟩
  · exact dollar_of_ne hrest.dollar
  · have hspaces : ∀ d ∈ List.replicate n ' ', isSpace d = true := by
      intro d hd
      rw [List.eq_of_mem_replicate hd]
      rfl
    have hdrop : (List.replicate n ' ' ++ ['$'] ++ rest).dropWhile isSpace = '$' :: rest := by
      rw [List.append_assoc, List.dropWhile_append_of_pos hspaces]
      rfl
    have htake : (List.replicate n ' ' ++ ['$'] ++ rest).takeWhile isSpace =
        List.replicate n ' ' := by
      rw [List.append_assoc, List.takeWhile_append_of_pos hspaces]
      simp [isSpace]
    rw [dollar_of_sign hdrop, htake]

theorem dollar_some {s tail rest : List Char} (h : dollar s = some (tail, rest))
    (hs : ∀ c ∈ s.head?, c.isAlphanum = false) : EndsWith tail rest := by
  rcases dollar_cases s with ⟨rest, -, hdollar⟩ | ⟨hne, hdollar⟩
  · cases hdollar.symm.trans h
    right
    refine ⟨(s.takeWhile isSpace).length, ?_⟩
    rw [← List.eq_replicate_of_mem fun c hc => ?_]
    simpa [isSpace] using List.all_eq_true.1 List.all_takeWhile c hc
  · cases hdollar.symm.trans h
    exact .inl ⟨rfl, hs, hne⟩

theorem isAlphanum_head_of_endsWith {tail rest : List Char} (h : EndsWith tail rest) :
    ∀ c ∈ (tail ++ rest).head?, c.isAlphanum = false := by
  rcases h with ⟨rfl, hrest⟩ | ⟨n, rfl⟩
  · exact hrest.head
  · cases n with
    | zero =>
      rintro _ ⟨⟩
      rfl
    | succ n =>
      rintro _ ⟨⟩
      rfl

/-- A name is read from a run of letters and digits that begins with a letter, and from the dollar
sign behind it. -/
theorem name_of_parts {c : Char} {run tail rest : List Char} (hc : c.isAlpha = true)
    (hrun : ∀ d ∈ run, d.isAlphanum = true) (h : EndsWith tail rest) :
    name (c :: (run ++ (tail ++ rest))) = some (c :: run ++ tail, rest) := by
  have hhead := isAlphanum_head_of_endsWith h
  have hnone : (tail ++ rest).takeWhile Char.isAlphanum = [] := by
    cases hs : tail ++ rest with
    | nil => rfl
    | cons d more =>
      rw [hs] at hhead
      rw [List.takeWhile_cons_of_neg (by simp [hhead d rfl])]
  rw [name, if_pos hc, List.takeWhile_append_of_pos hrun, List.dropWhile_append_of_pos hrun,
    dropWhile_of_head hhead, dollar_append h, hnone, List.append_nil]
  rfl

/-- The parts of a name that has been read. -/
theorem name_some {s text rest : List Char} (h : name s = some (text, rest)) :
    ∃ c run tail, text = c :: run ++ tail ∧ c.isAlpha = true ∧
      (∀ d ∈ run, d.isAlphanum = true) ∧ EndsWith tail rest := by
  obtain ⟨c, more, tail, -, hc, hdollar, rfl⟩ := name_eq_some h
  refine ⟨c, _, tail, rfl, hc, fun d hd => List.all_eq_true.1 List.all_takeWhile d hd, ?_⟩
  refine dollar_some hdollar fun d hd => ?_
  have := List.head?_dropWhile_not Char.isAlphanum more
  rwa [hd] at this

/-- The parts of a string that has been read. -/
theorem string_some {s text rest : List Char} (h : string s = some (text, rest)) :
    ∃ inner, text = '"' :: inner ++ ['"'] ∧ '"' ∉ inner := by
  obtain ⟨more, -, -, rfl⟩ := string_eq_some h
  refine ⟨more.takeWhile (· != '"'), rfl, fun hmem => ?_⟩
  simpa using List.all_eq_true.1 List.all_takeWhile '"' hmem

/-- A string is read up to its closing quote, whatever follows it. -/
theorem string_of_parts {inner : List Char} (h : '"' ∉ inner) (rest : List Char) :
    string ('"' :: inner ++ ['"'] ++ rest) = some ('"' :: inner ++ ['"'], rest) := by
  have hbody : ∀ c ∈ inner, (c != '"') = true := by
    intro c hc
    rw [bne_iff_ne]
    rintro rfl
    exact h hc
  rw [List.append_assoc, List.cons_append, List.singleton_append, string,
    List.dropWhile_append_of_pos hbody, List.takeWhile_append_of_pos hbody]
  simp

theorem string_append_any {s text rest : List Char} (h : string s = some (text, rest))
    (rest' : List Char) : string (text ++ rest') = some (text, rest') := by
  obtain ⟨inner, rfl, hinner⟩ := string_some h
  exact string_of_parts hinner rest'

end Lexeme

namespace Grammar

open Lexeme

variable {x y : List Char}

theorem isAlphanumeric_of_isDigit {c : Char} (h : c.isDigit = true) :
    Text.isAlphanumeric c = true := by
  have hlt := (Text.toNat_of_isDigit h).2
  rw [Text.isAlphanumeric_of_ascii (by omega)]
  simp [Char.isAlphanum, h]

theorem any_isAlphanumeric_of_agree (h : Agree x y) :
    x.head?.any Text.isAlphanumeric = y.head?.any Text.isAlphanumeric :=
  h.any_head? fun c d hc hd => by
    rw [isAlphanumeric_of_isDigit hc, isAlphanumeric_of_isDigit hd]

/-- The word `NOT` is read from the same characters if what follows agrees. -/
theorem negation_of_agree_rest {s text rest rest' : List Char} (h : negation s = some (text, rest))
    (hrest : Agree rest rest') : negation (text ++ rest') = some (text, rest') := by
  obtain ⟨hword, hends⟩ := Option.filter_eq_some_iff.1 h
  dsimp only at hends
  rw [any_isAlphanumeric_of_agree hrest] at hends
  exact Option.filter_eq_some_iff.2 ⟨word_append_any hword rest', hends⟩

/-- The word `NOT` is found in both texts or in none. -/
theorem negation_of_agree (h : Agree x y) (hx : negation x = none) : negation y = none := by
  cases hy : negation y with
  | none => rfl
  | some pair =>
    obtain ⟨text, rest⟩ := pair
    have hword := word_of_negation hy
    have hsplit := h.symm
    rw [← append_of_word hword] at hsplit
    obtain ⟨rest', rfl, hagree⟩ := hsplit.split (isDigit_of_word hword)
    rw [negation_of_agree_rest hy hagree] at hx
    cases hx

theorem front_of_agree (h : Agree x y) : Agree (front x) (front y) := by
  induction h with
  | nil => exact .nil
  | digit hc hd =>
    rw [front_of_head (by rintro _ ⟨⟩; exact isGap_of_isDigit hc),
      front_of_head (by rintro _ ⟨⟩; exact isGap_of_isDigit hd)]
    exact .digit hc hd
  | @cons c x y h ih =>
    cases hc : Text.isGap c with
    | true => simpa [front, hc] using ih
    | false => simpa [front, hc] using Agree.cons h

/-- Texts that agree look alike to a rule that has to choose. -/
theorem alike_of_agree (h : Agree x y) : Alike (front x) (front y) :=
  alike_of_akin (bare_front x) (bare_front y) (front_of_agree h).akin

theorem sameNegation_of_agree (h : Agree x y) : SameNegation x y :=
  negation_of_agree (front_of_agree h)

/-- A tab comes next in both texts or in none. -/
theorem tabNext_of_agree (h : Agree x y) : tabNext x = tabNext y := by
  have hhead := h.dropSpaces.any_head? (p := (· == '\t')) (by
    intro c d hc hd
    have hne : ∀ {c : Char}, c.isDigit = true → (c == '\t') = false := by
      intro c hc
      rw [beq_eq_false_iff_ne]
      rintro rfl
      cases hc
    rw [hne hc, hne hd])
  have hnext : ∀ s : List Char, tabNext s = (s.dropWhile isSpace).head?.any (· == '\t') := by
    intro s
    rw [tabNext]
    cases (s.dropWhile isSpace).head? <;> rfl
  rw [hnext, hnext, hhead]

/-- A leaf is read from the same characters if what follows agrees. -/
theorem Takes.of_agree {kind : LeafKind} {s text rest rest' : List Char}
    (h : Takes kind s text rest) (hrest : Agree rest rest') :
    Takes kind (text ++ rest') text rest' := by
  have hinteger : Lexeme.integer s = some (text, rest) →
      Lexeme.integer (text ++ rest') = some (text, rest') := by
    intro h
    obtain ⟨-, htext, hends⟩ := integer_some h
    exact integer_append htext (hrest.endsNumber hends)
  cases h with
  | reads h =>
    cases h with
    | word plain h => exact .reads (.word plain (word_append_any h rest'))
    | @operator t _ _ _ lhs first h =>
      have hagree : Agree s (text ++ rest') := by
        rw [← append_of_word h]
        exact hrest.append_left text
      have hword := word_append_any h rest'
      rw [firstWord?_of_akin (bare_of_word h) (bare_of_word hword) hagree.akin] at first
      exact .reads (.operator lhs first hword)
    | negation h => exact .reads (.negation (negation_of_agree_rest h hrest))
    | integer h => exact .reads (.integer (hinteger h))
    | lineArgument h => exact .reads (.lineArgument (hinteger h))
    | name h =>
      obtain ⟨c, run, tail, rfl, hc, hrun, hends⟩ := name_some h
      have hends' : EndsWith tail rest' :=
        hends.imp_left fun hends => ⟨hends.1, hends.2.of_agree hrest⟩
      have hname := name_of_parts hc hrun hends'
      exact .reads (.name (by simpa using hname))
    | string h => exact .reads (.string (string_append_any h rest'))
  | pointer ht h => exact .pointer ht (word_append_any h rest')
  | colon => exact .colon

end Grammar

end IntegerBasic
