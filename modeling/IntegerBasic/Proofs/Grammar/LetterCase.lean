import Mathlib.Data.List.Find
import IntegerBasic.Grammar.Program
import IntegerBasic.Proofs.Text.CaseChange

/-!
# Letter case

No reader tells a letter from the same letter in the other case, and neither does a question that a
rule asks of the text before it.
-/

namespace IntegerBasic

namespace Lexeme

/-- A reader that reads the same token in another case. -/
def Blind (f : Char → Char) (reader : Reader) : Prop :=
  ∀ s, reader (s.map f) = (reader s).map fun (text, rest) => (text.map f, rest.map f)

variable {f : Char → Char}

theorem Blind.isSome {reader : Reader} (h : Blind f reader) (s : List Char) :
    (reader (s.map f)).isSome = (reader s).isSome := by
  rw [h s, Option.isSome_map]

variable (hf : CaseChange f)
include hf

theorem blind_spaces : Blind f spaces := by
  intro s
  have hhead := hf.head?_eq_mark (m := ' ') rfl s
  unfold spaces
  by_cases hs : s.head? = some ' '
  · rw [if_pos (hhead.2 hs), if_pos hs, CaseChange.takeWhile_map hf.isSpace,
      CaseChange.dropWhile_map hf.isSpace]
    rfl
  · rw [if_neg fun h => hs (hhead.1 h), if_neg hs]
    rfl

theorem blind_wordTail (w : List Char) : Blind f (wordTail w) := by
  induction w with
  | nil => exact fun _ => rfl
  | cons letter w ih =>
    intro s
    rw [wordTail.eq_def, wordTail.eq_def]
    dsimp only
    split
    · split
      · exact blind_spaces hf s
      · cases s with
        | nil => rfl
        | cons c rest =>
          rw [List.map_cons]
          dsimp only
          rw [hf.isSpace]
          split
          · rw [ih rest, Option.map_map, Option.map_map]
            rfl
          · rfl
    · rw [CaseChange.dropWhile_map hf.isSpace, CaseChange.takeWhile_map hf.isSpace]
      cases hdrop : s.dropWhile isSpace with
      | nil => rfl
      | cons c rest =>
        rw [List.map_cons]
        dsimp only
        rw [hf.sameLetter]
        split
        · rw [ih rest, Option.map_map, Option.map_map]
          congr 1
          funext pair
          simp
        · rfl

theorem blind_word (w : List Char) : Blind f (word w) := by
  intro s
  cases w with
  | nil => rfl
  | cons letter w =>
    cases s with
    | nil => rfl
    | cons c rest =>
      rw [List.map_cons, word, word, hf.sameLetter]
      split
      · rw [blind_wordTail hf w rest, Option.map_map, Option.map_map]
        rfl
      · rfl

theorem blind_integer : Blind f integer := by
  intro s
  cases s with
  | nil => rfl
  | cons c rest =>
    rw [List.map_cons, integer, integer, hf.isDigit]
    split
    · rw [CaseChange.takeWhile_map hf.isDigitOrSpace, CaseChange.dropWhile_map hf.isDigitOrSpace]
      rfl
    · rfl

theorem blind_lineNumber : Blind f lineNumber := by
  intro s
  rw [lineNumber, CaseChange.dropWhile_map hf.isGap, CaseChange.takeWhile_map hf.isGap,
    blind_integer hf, lineNumber, Option.map_map, Option.map_map]
  congr 1
  funext pair
  simp

theorem blind_string : Blind f string := by
  have hquote : ∀ c, (f c != '"') = (c != '"') := fun c => by rw [bne, bne, hf.beq_mark rfl]
  intro s
  cases s with
  | nil => rfl
  | cons c rest =>
    by_cases hc : c = '"'
    · subst hc
      rw [List.map_cons, (hf.eq_mark rfl '"').2 rfl, string, string,
        CaseChange.dropWhile_map hquote, CaseChange.takeWhile_map hquote]
      cases rest.dropWhile (· != '"') with
      | nil => rfl
      | cons close after => simp [(hf.eq_mark rfl '"').2 rfl]
    · have hne : f c ≠ '"' := fun h => hc ((hf.eq_mark rfl c).1 h)
      rw [List.map_cons, string_of_ne hne, string_of_ne hc]
      rfl

theorem blind_dollar : Blind f dollar := by
  intro s
  have hdrop := CaseChange.dropWhile_map hf.isSpace s
  rcases dollar_cases s with ⟨rest, hrest, hdollar⟩ | ⟨hne, hdollar⟩
  · rw [hrest, List.map_cons, (hf.eq_mark rfl '$').2 rfl] at hdrop
    rw [hdollar, dollar_of_sign hdrop, CaseChange.takeWhile_map hf.isSpace]
    simp [(hf.eq_mark rfl '$').2 rfl]
  · rw [hdollar, dollar_of_ne]
    · rfl
    · rw [hdrop, List.head?_map]
      intro hmap
      obtain ⟨c, hc, hsign⟩ := Option.map_eq_some_iff.1 hmap
      exact hne (hc.trans (congrArg some ((hf.eq_mark rfl c).1 hsign)))

theorem blind_name : Blind f name := by
  intro s
  cases s with
  | nil => rfl
  | cons c rest =>
    rw [List.map_cons, name, name, hf.isAlpha]
    split
    · rw [CaseChange.dropWhile_map hf.isAlphanum, CaseChange.takeWhile_map hf.isAlphanum,
        blind_dollar hf, Option.map_map, Option.map_map]
      congr 1
      funext pair
      simp
    · rfl

theorem nameType_map (text : List Char) : nameType (text.map f) = nameType text := by
  have hlast : (text.map f).getLast? = some '$' ↔ text.getLast? = some '$' := by
    rw [List.getLast?_map]
    cases text.getLast? with
    | none => simp
    | some c => simpa using hf.eq_mark rfl c
  rw [nameType, nameType]
  exact if_congr hlast rfl rfl

theorem opensNext_map (s : List Char) : opensNext (s.map f) = opensNext s := by
  rw [opensNext, opensNext, CaseChange.dropWhile_map hf.isGap, Bool.eq_iff_iff, beq_iff_eq,
    beq_iff_eq]
  exact hf.head?_eq_mark rfl _

end Lexeme

namespace Grammar

variable {f : Char → Char} (hf : CaseChange f)
include hf

theorem isSubscripted_map (s : List Char) : isSubscripted (s.map f) = isSubscripted s := by
  rw [isSubscripted, isSubscripted, Lexeme.blind_name hf, Option.any_map]
  congr 1
  funext pair
  exact Lexeme.opensNext_map hf _

theorem nextNameType_map (s : List Char) : nextNameType (s.map f) = nextNameType s := by
  rw [nextNameType, nextNameType, Lexeme.blind_name hf]
  cases Lexeme.name s with
  | none => rfl
  | some pair => exact Lexeme.nameType_map hf _

theorem firstWord?_map (words : List Token) (s : List Char) :
    firstWord? words (s.map f) = firstWord? words s := by
  unfold firstWord?
  simp only [(Lexeme.blind_word hf _).isSome]

theorem ofText?_map (s : List Char) : Form.ofText? (s.map f) = Form.ofText? s := by
  unfold Form.ofText?
  simp only [(Lexeme.blind_word hf _).isSome]

theorem function?_map (s : List Char) : function? (s.map f) = function? s := by
  refine List.find?_congr fun t _ => ?_
  rw [Lexeme.blind_word hf]
  cases Lexeme.word t.spelling.toList s with
  | none => rfl
  | some pair =>
    rw [Option.map_some]
    dsimp only
    rw [Lexeme.opensNext_map hf]

theorem blind_negation : Lexeme.Blind f negation := by
  intro s
  rw [negation, Lexeme.blind_word hf, negation, Option.filter_map]
  congr 2
  funext pair
  rw [Function.comp_apply]
  dsimp only
  rw [List.head?_map, Option.any_map]
  congr 2
  funext c
  exact hf.isAlphanumeric c

theorem statementText_map (quoted : Bool) (s : List Char) :
    statementText quoted (s.map f) = (statementText quoted s).map f := by
  induction s generalizing quoted with
  | nil => rfl
  | cons c s ih =>
    rw [List.map_cons, statementText, statementText, hf.beq_mark rfl, hf.beq_mark rfl, ih]
    split <;> rfl

theorem trimRight_map (s : List Char) : Text.trimRight (s.map f) = (Text.trimRight s).map f := by
  rw [Text.trimRight, Text.trimRight, Text.dropTail, Text.dropTail, ← List.map_reverse,
    CaseChange.dropWhile_map hf.isBlank, List.map_reverse]

end Grammar

end IntegerBasic
