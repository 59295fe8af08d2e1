import IntegerBasic.DataType
import IntegerBasic.Text.Blank
import IntegerBasic.Text.CaseFold

/-!
# Lexemes

The shapes of single tokens. A reader takes a token off the front of a text and gives the
characters of the token and the rest, in this order and with nothing between them: the lemmas
`append_of_word` and so on say that the two make up the text. Which reader is asked at which
place is the business of the grammar: Integer BASIC has no reserved words, so the same text can
be a word in one place and a name in another.
-/

namespace IntegerBasic.Lexeme

/-- Takes a token off the front of a text, if one is there: the token and the rest. -/
abbrev Reader := List Char → Option (List Char × List Char)

def sameLetter (letter c : Char) : Bool := Text.caseFold letter == Text.caseFold c

def isSpace (c : Char) : Bool := c == ' '

def spaces : Reader := fun s =>
  if s.head? = some ' ' then some (s.takeWhile isSpace, s.dropWhile isSpace) else none

/-- The later letters of a word, each after any number of spaces. A space of the word itself has
to be there; at the end of the word it stands for a run of spaces. -/
def wordTail : List Char → Reader
  | [], s => some ([], s)
  | letter :: word, s =>
    if letter = ' ' then
      if word.isEmpty then spaces s
      else
        match s with
        | [] => none
        | c :: rest =>
          if isSpace c then (wordTail word rest).map fun (read, rest) => (c :: read, rest)
          else none
    else
      match s.dropWhile isSpace with
      | [] => none
      | c :: rest =>
        if sameLetter letter c then
          (wordTail word rest).map fun (read, rest) => (s.takeWhile isSpace ++ c :: read, rest)
        else none

/-- A word: its letters in either case, with any number of spaces between two of them. -/
def word : List Char → Reader
  | [], s => some ([], s)
  | _ :: _, [] => none
  | letter :: word, c :: rest =>
    if sameLetter letter c then (wordTail word rest).map fun (read, rest) => (c :: read, rest)
    else none

def isDigitOrSpace (c : Char) : Bool := c.isDigit || c == ' '

/-- A number: a digit, and all digits and spaces behind it. -/
def integer : Reader
  | [] => none
  | c :: rest =>
    if c.isDigit then some (c :: rest.takeWhile isDigitOrSpace, rest.dropWhile isDigitOrSpace)
    else none

/-- The number of a line: spaces and tabs, and then a number. -/
def lineNumber : Reader := fun s =>
  (integer (s.dropWhile Text.isGap)).map fun (number, rest) =>
    (s.takeWhile Text.isGap ++ number, rest)

/-- A string: everything from a quote to the next quote, both included. -/
def string : Reader
  | '"' :: rest =>
    match rest.dropWhile (· != '"') with
    | [] => none
    | close :: after => some ('"' :: rest.takeWhile (· != '"') ++ [close], after)
  | _ => none

/-- The dollar sign that makes a string name, with the spaces before it. -/
def dollar : Reader := fun s =>
  match s.dropWhile isSpace with
  | '$' :: rest => some (s.takeWhile isSpace ++ ['$'], rest)
  | _ => some ([], s)

/-- A name: a letter, the letters and digits behind it, and a dollar sign for a string. Only
ASCII letters and digits make names. -/
def name : Reader
  | [] => none
  | c :: rest =>
    if c.isAlpha then
      (dollar (rest.dropWhile Char.isAlphanum)).map fun (tail, rest') =>
        (c :: rest.takeWhile Char.isAlphanum ++ tail, rest')
    else none

def nameType (name : List Char) : DataType :=
  if name.getLast? = some '$' then .string else .integer

def opensNext (s : List Char) : Bool := (s.dropWhile Text.isGap).head? == some '('

theorem wordTail_cons {letter : Char} (h : letter ≠ ' ') (w s : List Char) :
    wordTail (letter :: w) s =
      match s.dropWhile isSpace with
      | [] => none
      | c :: rest =>
        if sameLetter letter c then
          (wordTail w rest).map fun (read, rest) => (s.takeWhile isSpace ++ c :: read, rest)
        else none := by
  rw [wordTail.eq_def]
  exact if_neg h

theorem wordTail_cons_nil {letter : Char} (h : letter ≠ ' ') {w s : List Char}
    (hs : s.dropWhile isSpace = []) : wordTail (letter :: w) s = none := by
  rw [wordTail_cons h, hs]

theorem wordTail_cons_ne {letter c : Char} (h : letter ≠ ' ') {w s rest : List Char}
    (hs : s.dropWhile isSpace = c :: rest) (hne : sameLetter letter c = false) :
    wordTail (letter :: w) s = none := by
  rw [wordTail_cons h, hs]
  dsimp only
  rw [if_neg (by simp [hne])]

theorem wordTail_cons_same {letter c : Char} (h : letter ≠ ' ') {w s rest : List Char}
    (hs : s.dropWhile isSpace = c :: rest) (hsame : sameLetter letter c = true) :
    wordTail (letter :: w) s =
      (wordTail w rest).map fun (read, rest) => (s.takeWhile isSpace ++ c :: read, rest) := by
  rw [wordTail_cons h, hs]
  dsimp only
  rw [if_pos hsame]

/-- A letter that has been read: spaces, the letter in either case, and the later letters. -/
theorem wordTail_cons_some {letter : Char} (h : letter ≠ ' ') {w s text rest : List Char}
    (hread : wordTail (letter :: w) s = some (text, rest)) :
    ∃ c more read, s.dropWhile isSpace = c :: more ∧ sameLetter letter c = true ∧
      wordTail w more = some (read, rest) ∧ text = s.takeWhile isSpace ++ c :: read := by
  cases hdrop : s.dropWhile isSpace with
  | nil =>
    rw [wordTail_cons_nil h hdrop] at hread
    cases hread
  | cons c more =>
    cases hsame : sameLetter letter c with
    | false =>
      rw [wordTail_cons_ne h hdrop hsame] at hread
      cases hread
    | true =>
      rw [wordTail_cons_same h hdrop hsame] at hread
      obtain ⟨⟨read, rest'⟩, hmore, heq⟩ := Option.map_eq_some_iff.1 hread
      obtain ⟨rfl, rfl⟩ := Prod.mk.inj heq
      exact ⟨c, more, read, rfl, hsame, hmore, rfl⟩

/-- A space of a word that has been read: the spaces at its end, or one space. -/
theorem wordTail_space_some {w s text rest : List Char}
    (h : wordTail (' ' :: w) s = some (text, rest)) :
    w = [] ∧ text = s.takeWhile isSpace ∧ rest = s.dropWhile isSpace ∨
      ∃ more read, s = ' ' :: more ∧ wordTail w more = some (read, rest) ∧ text = ' ' :: read := by
  rw [wordTail.eq_def] at h
  dsimp only at h
  rw [if_pos rfl] at h
  cases w with
  | nil =>
    by_cases hhead : s.head? = some ' '
    · rw [if_pos (by simp), spaces, if_pos hhead] at h
      cases h
      exact .inl ⟨rfl, rfl, rfl⟩
    · rw [if_pos (by simp), spaces, if_neg hhead] at h
      cases h
  | cons letter w =>
    rw [if_neg (by simp)] at h
    cases s with
    | nil => cases h
    | cons c more =>
      dsimp only at h
      by_cases hc : isSpace c = true
      · rw [if_pos hc] at h
        obtain ⟨⟨read, rest'⟩, hmore, heq⟩ := Option.map_eq_some_iff.1 h
        obtain ⟨rfl, rfl⟩ := Prod.mk.inj heq
        obtain rfl : c = ' ' := by simpa [isSpace] using hc
        exact .inr ⟨more, read, rfl, hmore, rfl⟩
      · rw [if_neg hc] at h
        cases h

theorem word_cons_some {letter : Char} {w s text rest : List Char}
    (h : word (letter :: w) s = some (text, rest)) :
    ∃ c more read, s = c :: more ∧ sameLetter letter c = true ∧
      wordTail w more = some (read, rest) ∧ text = c :: read := by
  cases s with
  | nil => cases h
  | cons c more =>
    rw [word] at h
    by_cases hsame : sameLetter letter c = true
    · rw [if_pos hsame] at h
      obtain ⟨⟨read, rest'⟩, hmore, heq⟩ := Option.map_eq_some_iff.1 h
      obtain ⟨rfl, rfl⟩ := Prod.mk.inj heq
      exact ⟨c, more, read, rfl, hsame, hmore, rfl⟩
    · rw [if_neg hsame] at h
      cases h

theorem integer_eq_some {s text rest : List Char} (h : integer s = some (text, rest)) :
    ∃ c more, s = c :: more ∧ c.isDigit = true ∧ text = c :: more.takeWhile isDigitOrSpace ∧
      rest = more.dropWhile isDigitOrSpace := by
  cases s with
  | nil => cases h
  | cons c more =>
    rw [integer] at h
    by_cases hc : c.isDigit = true
    · rw [if_pos hc] at h
      cases h
      exact ⟨c, more, rfl, hc, rfl, rfl⟩
    · rw [if_neg hc] at h
      cases h

theorem string_of_ne {c : Char} (hc : c ≠ '"') (s : List Char) : string (c :: s) = none := by
  rw [string]
  intro rest heq
  exact hc (List.cons.inj heq).1

theorem string_eq_some {s text rest : List Char} (h : string s = some (text, rest)) :
    ∃ more, s = '"' :: more ∧ more.dropWhile (· != '"') = '"' :: rest ∧
      text = '"' :: more.takeWhile (· != '"') ++ ['"'] := by
  cases s with
  | nil => cases h
  | cons c more =>
    by_cases hc : c = '"'
    · subst hc
      rw [string] at h
      cases hmore : more.dropWhile (· != '"') with
      | nil =>
        rw [hmore] at h
        cases h
      | cons close after =>
        have hclose := List.head?_dropWhile_not (· != '"') more
        rw [hmore] at h hclose
        obtain rfl : close = '"' := by simpa using hclose
        cases h
        exact ⟨more, rfl, hmore, rfl⟩
    · rw [string_of_ne hc] at h
      cases h

theorem dollar_of_sign {s rest : List Char} (h : s.dropWhile isSpace = '$' :: rest) :
    dollar s = some (s.takeWhile isSpace ++ ['$'], rest) := by
  rw [dollar, h]
  rfl

theorem dollar_of_ne {s : List Char} (h : (s.dropWhile isSpace).head? ≠ some '$') :
    dollar s = some ([], s) := by
  unfold dollar
  split
  · exact absurd (by rw [‹s.dropWhile isSpace = _›]; rfl) h
  · rfl

theorem dollar_cases (s : List Char) :
    (∃ rest, s.dropWhile isSpace = '$' :: rest ∧
      dollar s = some (s.takeWhile isSpace ++ ['$'], rest)) ∨
    (s.dropWhile isSpace).head? ≠ some '$' ∧ dollar s = some ([], s) := by
  by_cases h : (s.dropWhile isSpace).head? = some '$'
  · obtain ⟨rest, hrest⟩ := List.head?_eq_some_iff.1 h
    exact .inl ⟨rest, hrest, dollar_of_sign hrest⟩
  · exact .inr ⟨h, dollar_of_ne h⟩

theorem name_eq_some {s text rest : List Char} (h : name s = some (text, rest)) :
    ∃ c more tail, s = c :: more ∧ c.isAlpha = true ∧
      dollar (more.dropWhile Char.isAlphanum) = some (tail, rest) ∧
      text = c :: more.takeWhile Char.isAlphanum ++ tail := by
  cases s with
  | nil => cases h
  | cons c more =>
    rw [name] at h
    by_cases hc : c.isAlpha = true
    · rw [if_pos hc] at h
      obtain ⟨⟨tail, rest'⟩, hdollar, heq⟩ := Option.map_eq_some_iff.1 h
      obtain ⟨rfl, rfl⟩ := Prod.mk.inj heq
      exact ⟨c, more, tail, rfl, hc, hdollar, rfl⟩
    · rw [if_neg hc] at h
      cases h

/-- A reader loses nothing: the token and the rest make up the text. -/
theorem append_of_wordTail {letters s read rest : List Char}
    (h : wordTail letters s = some (read, rest)) : read ++ rest = s := by
  induction letters generalizing s read rest with
  | nil =>
    cases h
    rfl
  | cons letter letters ih =>
    by_cases hspace : letter = ' '
    · subst hspace
      rcases wordTail_space_some h with ⟨-, rfl, rfl⟩ | ⟨more, read, rfl, hmore, rfl⟩
      · exact List.takeWhile_append_dropWhile
      · rw [List.cons_append, ih hmore]
    · obtain ⟨c, more, read, hdrop, -, hmore, rfl⟩ := wordTail_cons_some hspace h
      rw [List.append_assoc, List.cons_append, ih hmore, ← hdrop, List.takeWhile_append_dropWhile]

theorem append_of_word {letters s read rest : List Char}
    (h : word letters s = some (read, rest)) : read ++ rest = s := by
  cases letters with
  | nil =>
    cases h
    rfl
  | cons letter letters =>
    obtain ⟨c, more, read, rfl, -, hmore, rfl⟩ := word_cons_some h
    rw [List.cons_append, append_of_wordTail hmore]

theorem append_of_integer {s read rest : List Char}
    (h : integer s = some (read, rest)) : read ++ rest = s := by
  obtain ⟨c, more, rfl, -, rfl, rfl⟩ := integer_eq_some h
  rw [List.cons_append, List.takeWhile_append_dropWhile]

theorem append_of_lineNumber {s read rest : List Char}
    (h : lineNumber s = some (read, rest)) : read ++ rest = s := by
  obtain ⟨⟨number, rest'⟩, hnumber, heq⟩ := Option.map_eq_some_iff.1 h
  simp only [Prod.mk.injEq] at heq
  obtain ⟨rfl, rfl⟩ := heq
  rw [List.append_assoc, append_of_integer hnumber, List.takeWhile_append_dropWhile]

theorem append_of_string {s read rest : List Char}
    (h : string s = some (read, rest)) : read ++ rest = s := by
  obtain ⟨more, rfl, hclose, rfl⟩ := string_eq_some h
  rw [List.cons_append, List.cons_append, List.append_assoc, List.singleton_append, ← hclose,
    List.takeWhile_append_dropWhile]

theorem append_of_dollar {s read rest : List Char}
    (h : dollar s = some (read, rest)) : read ++ rest = s := by
  rcases dollar_cases s with ⟨more, hmore, hdollar⟩ | ⟨-, hdollar⟩
  · cases hdollar.symm.trans h
    rw [List.append_assoc, List.singleton_append, ← hmore, List.takeWhile_append_dropWhile]
  · cases hdollar.symm.trans h
    rfl

theorem append_of_name {s read rest : List Char}
    (h : name s = some (read, rest)) : read ++ rest = s := by
  obtain ⟨c, more, tail, rfl, -, hdollar, rfl⟩ := name_eq_some h
  rw [List.cons_append, List.cons_append, List.append_assoc, append_of_dollar hdollar,
    List.takeWhile_append_dropWhile]

end IntegerBasic.Lexeme
