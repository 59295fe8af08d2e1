import Mathlib.Data.List.Find
import Mathlib.Data.List.TakeWhile
import IntegerBasic.Proofs.Grammar.Places
import IntegerBasic.Proofs.Text.Letters

/-!
# Text behind a colon

A colon ends every token but a string, a remark and the words that have a colon of their own. So a
reader takes the same token off a text when a colon and more text is put behind it, as long as the
text leaves no quote open.
-/

namespace IntegerBasic

/-- No quote of a text is left open. -/
def Paired (s : List Char) : Prop := s.count '"' % 2 = 0

theorem paired_of_not_mem {s : List Char} (h : '"' ∉ s) : Paired s := by
  rw [Paired, List.count_eq_zero.2 h]

theorem Paired.right {s t : List Char} (h : Paired (s ++ t)) (hs : Paired s) : Paired t := by
  rw [Paired, List.count_append] at h
  rw [Paired] at hs ⊢
  omega

theorem Paired.append {s t : List Char} (hs : Paired s) (ht : Paired t) : Paired (s ++ t) := by
  rw [Paired] at hs ht ⊢
  rw [List.count_append]
  omega

namespace Lexeme

variable {s t : List Char}

def followed (t : List Char) (pair : List Char × List Char) : List Char × List Char :=
  (pair.1, pair.2 ++ t)

/-- A colon is not what a span of the text ends for. -/
theorem span_colon {p : Char → Bool} (hp : p ':' = false) (s t : List Char) :
    (s ++ ':' :: t).takeWhile p = s.takeWhile p ∧
      (s ++ ':' :: t).dropWhile p = s.dropWhile p ++ ':' :: t :=
  Text.span_append (.inr fun c hc => by cases hc; exact hp)

theorem spaces_followed (s t : List Char) :
    spaces (s ++ ':' :: t) = (spaces s).map (followed (':' :: t)) := by
  obtain ⟨htake, hdrop⟩ := span_colon (p := isSpace) rfl s t
  cases s with
  | nil => rfl
  | cons c s =>
    rw [spaces, spaces, htake, hdrop, List.cons_append, List.head?_cons, List.head?_cons]
    split <;> rfl

/-- A word is read as before, or it is there only because it goes on beyond the colon. -/
theorem wordTail_followed (w s t : List Char) :
    wordTail w (s ++ ':' :: t) = (wordTail w s).map (followed (':' :: t)) ∨
      wordTail w s = none ∧
        ∃ text rest, wordTail w (s ++ ':' :: t) = some (s ++ ':' :: text, rest) := by
  induction w generalizing s with
  | nil => exact .inl rfl
  | cons letter w ih =>
    rw [wordTail.eq_def, wordTail.eq_def]
    dsimp only
    split
    · split
      · exact .inl (spaces_followed s t)
      · cases s with
        | nil => exact .inl rfl
        | cons c s =>
          rw [List.cons_append]
          dsimp only
          split
          · rcases ih s with h | ⟨hnone, text, rest, h⟩
            · rw [h]
              exact .inl (by simp [Function.comp_def, followed])
            · rw [h, hnone]
              exact .inr ⟨rfl, text, rest, rfl⟩
          · exact .inl rfl
    · obtain ⟨htake, hdrop⟩ := span_colon (p := isSpace) rfl s t
      rw [htake, hdrop]
      have hsplit := List.takeWhile_append_dropWhile (p := isSpace) (l := s)
      cases hs : s.dropWhile isSpace with
      | nil =>
        rw [hs, List.append_nil] at hsplit
        rw [List.nil_append]
        dsimp only
        split
        · cases wordTail w t with
          | none => exact .inl rfl
          | some pair => exact .inr ⟨rfl, pair.1, pair.2, by rw [hsplit]; rfl⟩
        · exact .inl rfl
      | cons c more =>
        rw [hs] at hsplit
        rw [List.cons_append]
        dsimp only
        split
        · rcases ih more with h | ⟨hnone, text, rest, h⟩
          · rw [h]
            exact .inl (by simp [Function.comp_def, followed])
          · rw [h, hnone]
            refine .inr ⟨rfl, text, rest, ?_⟩
            rw [Option.map_some, ← List.cons_append, ← List.append_assoc, hsplit]
        · exact .inl rfl

theorem word_followed_or (w s t : List Char) :
    word w (s ++ ':' :: t) = (word w s).map (followed (':' :: t)) ∨
      word w s = none ∧
        ∃ text rest, word w (s ++ ':' :: t) = some (s ++ ':' :: text, rest) := by
  cases w with
  | nil => exact .inl rfl
  | cons letter w =>
    cases s with
    | nil =>
      rw [List.nil_append, word.eq_def]
      dsimp only
      split
      · cases wordTail w t with
        | none => exact .inl rfl
        | some pair => exact .inr ⟨rfl, pair.1, pair.2, rfl⟩
      · exact .inl rfl
    | cons c s =>
      rw [List.cons_append, word, word]
      split
      · rcases wordTail_followed w s t with h | ⟨hnone, text, rest, h⟩
        · rw [h]
          exact .inl (by simp [Function.comp_def, followed])
        · rw [h, hnone]
          exact .inr ⟨rfl, text, rest, rfl⟩
      · exact .inl rfl

/-- A word without a colon is read as before. -/
theorem word_followed {w : List Char} (hw : ∀ letter ∈ w, sameLetter letter ':' = false)
    (s t : List Char) : word w (s ++ ':' :: t) = (word w s).map (followed (':' :: t)) := by
  refine (word_followed_or w s t).resolve_right ?_
  rintro ⟨-, text, rest, h⟩
  rcases Grammar.mem_word h ':' (by simp) with hspace | ⟨letter, hl, hsame⟩
  · cases hspace
  · rw [hw letter hl] at hsame
    cases hsame

theorem integer_followed (s t : List Char) :
    integer (s ++ ':' :: t) = (integer s).map (followed (':' :: t)) := by
  cases s with
  | nil => rfl
  | cons c s =>
    obtain ⟨htake, hdrop⟩ := span_colon (p := isDigitOrSpace) rfl s t
    rw [List.cons_append, integer, integer, htake, hdrop]
    split <;> rfl

theorem dollar_followed (s t : List Char) :
    dollar (s ++ ':' :: t) = (dollar s).map (followed (':' :: t)) := by
  obtain ⟨htake, hdrop⟩ := span_colon (p := isSpace) rfl s t
  rcases dollar_cases s with ⟨rest, hrest, hdollar⟩ | ⟨hne, hdollar⟩
  · rw [hrest, List.cons_append] at hdrop
    rw [hdollar, dollar_of_sign hdrop, htake]
    rfl
  · rw [hdollar, dollar_of_ne]
    · rfl
    · rw [hdrop]
      cases hs : s.dropWhile isSpace with
      | nil => simp
      | cons c more =>
        rw [hs] at hne
        exact hne

theorem name_followed (s t : List Char) :
    name (s ++ ':' :: t) = (name s).map (followed (':' :: t)) := by
  cases s with
  | nil => rfl
  | cons c s =>
    obtain ⟨htake, hdrop⟩ := span_colon (p := Char.isAlphanum) rfl s t
    rw [List.cons_append, name, name, htake, hdrop]
    split
    · rw [dollar_followed, Option.map_map, Option.map_map]
      rfl
    · rfl

/-- A string ends within a text that leaves no quote open. -/
theorem string_followed (h : Paired s) (t : List Char) :
    string (s ++ ':' :: t) = (string s).map (followed (':' :: t)) := by
  cases s with
  | nil => rfl
  | cons c s =>
    by_cases hc : c = '"'
    · subst hc
      have hclose : s.dropWhile (· != '"') ≠ [] := by
        intro hnil
        have hopen : '"' ∉ s := by
          rw [List.dropWhile_eq_nil_iff] at hnil
          intro hmem
          simpa using hnil _ hmem
        rw [Paired, List.count_cons_self, List.count_eq_zero.2 hopen] at h
        cases h
      obtain ⟨htake, hdrop⟩ := Text.span_append (t := ':' :: t) (.inl hclose)
      rw [List.cons_append, string, string, htake, hdrop]
      cases hs : s.dropWhile (· != '"') with
      | nil => exact absurd hs hclose
      | cons close after => rfl
    · rw [List.cons_append, string_of_ne hc, string_of_ne hc]
      rfl

theorem opensNext_followed (s t : List Char) : opensNext (s ++ ':' :: t) = opensNext s := by
  rw [opensNext, opensNext, (span_colon rfl s t).2]
  cases s.dropWhile Text.isGap <;> rfl

end Lexeme

namespace Grammar

/-- The quotes of a text and the one that was open before it leave none open. -/
def PairedFrom (quoted : Bool) (s : List Char) : Prop := (s.count '"' + quoted.toNat) % 2 = 0

theorem pairedFrom_cons {quoted : Bool} {c : Char} {s : List Char} :
    PairedFrom quoted (c :: s) ↔ PairedFrom (if c == '"' then !quoted else quoted) s := by
  rw [PairedFrom, PairedFrom]
  by_cases hc : c = '"'
  · subst hc
    rw [List.count_cons_self]
    cases quoted with
    | false => simp
    | true => simp; omega
  · rw [List.count_cons_of_ne hc]
    simp [hc]

/-- What a statement leaves over has no open quote. -/
theorem paired_drop_statementText {quoted : Bool} {s : List Char} (h : PairedFrom quoted s) :
    Paired (s.drop (statementText quoted s).length) := by
  induction s generalizing quoted with
  | nil => rfl
  | cons c s ih =>
    rw [statementText]
    by_cases hend : (c == ':' && !quoted) = true
    · rw [if_pos hend]
      have hquoted : quoted = false := by simpa using (Bool.and_eq_true_iff.1 hend).2
      rw [hquoted] at h
      exact h
    · rw [if_neg hend]
      exact ih (pairedFrom_cons.1 h)

/-- The text of a statement ends before a colon behind the line. -/
theorem statementText_followed {quoted : Bool} {s : List Char} (h : PairedFrom quoted s)
    (t : List Char) : statementText quoted (s ++ ':' :: t) = statementText quoted s := by
  induction s generalizing quoted with
  | nil =>
    cases quoted with
    | false => rfl
    | true => cases h
  | cons c s ih =>
    rw [List.cons_append, statementText, statementText,
      ih (pairedFrom_cons.1 h)]

/-- A text that is read as it stands leaves no quote open. -/
theorem paired_of_closed {text : List Char} (h : Closed text) : Paired text := by
  have key : ∀ (text : List Char) (quoted : Bool), statementText quoted (text ++ [':']) = text →
      PairedFrom quoted text := by
    intro text
    induction text with
    | nil =>
      intro quoted h
      cases quoted with
      | false => rfl
      | true => cases h
    | cons c text ih =>
      intro quoted h
      rw [List.cons_append, statementText] at h
      split at h
      · cases h
      · exact pairedFrom_cons.2 (ih _ (List.cons.inj h).2)
  have hcolon := h [':']
  rw [show statementText false [':'] = [] from rfl, List.append_nil] at hcolon
  exact key text false hcolon

theorem negation_followed (s t : List Char) :
    negation (s ++ ':' :: t) = (negation s).map (Lexeme.followed (':' :: t)) := by
  rw [negation, Lexeme.word_followed (by decide +kernel), negation, Option.filter_map]
  congr 2
  funext pair
  rcases pair with ⟨text, _ | ⟨c, rest⟩⟩
  · have hcolon : Text.isAlphanumeric ':' = false := by decide +kernel
    simp [Lexeme.followed, hcolon]
  · rfl

theorem isSubscripted_followed (s t : List Char) :
    isSubscripted (s ++ ':' :: t) = isSubscripted s := by
  rw [isSubscripted, Lexeme.name_followed, isSubscripted, Option.any_map]
  congr 1
  funext pair
  exact Lexeme.opensNext_followed _ t

theorem nextNameType_followed (s t : List Char) :
    nextNameType (s ++ ':' :: t) = nextNameType s := by
  rw [nextNameType, Lexeme.name_followed, nextNameType]
  cases Lexeme.name s <;> rfl

theorem firstWord?_followed {words : List Token} (hwords : ∀ w ∈ words, hasColon w = false)
    (s t : List Char) : firstWord? words (s ++ ':' :: t) = firstWord? words s := by
  refine List.find?_congr fun w hw => ?_
  rw [Lexeme.word_followed (sameLetter_colon (hwords w hw)), Option.isSome_map]

theorem function?_followed (s t : List Char) : function? (s ++ ':' :: t) = function? s := by
  have hcolon : ∀ w ∈ functions, hasColon w = false := by decide
  refine List.find?_congr fun w hw => ?_
  rw [Lexeme.word_followed (sameLetter_colon (hcolon w hw))]
  cases Lexeme.word w.spelling.toList s with
  | none => rfl
  | some pair =>
    rw [Option.map_some]
    dsimp only [Lexeme.followed]
    rw [Lexeme.opensNext_followed]

end Grammar

end IntegerBasic
