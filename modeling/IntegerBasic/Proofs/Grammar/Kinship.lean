import Mathlib.Data.List.Find
import Mathlib.Data.List.Infix
import IntegerBasic.Proofs.Grammar.Alignment
import IntegerBasic.Proofs.Grammar.Numbers
import IntegerBasic.Proofs.Text.Letters

/-!
# Akin texts

Two texts are akin if they have the same letters and marks, whatever the case and whatever the
spaces between them, up to a number, a remark, a quote, a dollar sign or a closing parenthesis, of
which only the beginning counts. No word reaches beyond such a beginning. So akin texts look alike
to a rule that has to choose.
-/

namespace IntegerBasic

namespace Lexeme

/-- Characters that no reader of words tells apart. -/
def Same (c d : Char) : Prop :=
  c = d ∨ c.isAlpha = true ∧ d.isAlpha = true ∧ Text.caseFold c = Text.caseFold d

namespace Same

variable {c d : Char}

theorem refl (c : Char) : Same c c := .inl rfl

theorem sameLetter (h : Same c d) (letter : Char) :
    Lexeme.sameLetter letter c = Lexeme.sameLetter letter d := by
  rcases h with rfl | ⟨-, -, h⟩
  · rfl
  · rw [Lexeme.sameLetter, Lexeme.sameLetter, h]

/-- What is no letter is the same as itself alone. -/
theorem eq_iff (h : Same c d) {p : Char} (hp : p.isAlpha = false) : c = p ↔ d = p := by
  rcases h with rfl | ⟨hc, hd, -⟩
  · exact Iff.rfl
  · constructor
    · rintro rfl
      rw [hp] at hc
      cases hc
    · rintro rfl
      rw [hp] at hd
      cases hd

theorem isSpace (h : Same c d) : isSpace c = isSpace d := by
  rw [Lexeme.isSpace, Lexeme.isSpace, Bool.eq_iff_iff, beq_iff_eq, beq_iff_eq]
  exact h.eq_iff rfl

theorem isGap (h : Same c d) : Text.isGap c = Text.isGap d := by
  have hspace : c = ' ' ↔ d = ' ' := h.eq_iff rfl
  have htab : c = '\t' ↔ d = '\t' := h.eq_iff rfl
  rw [Text.isGap, Text.isGap, Bool.eq_iff_iff]
  simp only [Bool.or_eq_true, beq_iff_eq, hspace, htab]

theorem isDigit (h : Same c d) : c.isDigit = d.isDigit := by
  have hletter : ∀ c : Char, c.isAlpha = true → c.isDigit = false := by
    intro c hc
    have key : c.isAlpha = true → c.isDigit = false :=
      Text.ascii_induction (P := fun c => c.isAlpha = true → c.isDigit = false) (by decide)
        (Text.toNat_lt_of_isAlphanum (by simp [Char.isAlphanum, hc]))
    exact key hc
  rcases h with rfl | ⟨hc, hd, -⟩
  · rfl
  · rw [hletter c hc, hletter d hd]

end Same

def remark : List Char := Token.rem.spelling.toList

/-- The marks that no word reaches beyond. -/
def barriers : List Char := ['"', '$', ')']

/-- Akin texts: the same letters and marks up to a number, a remark or a barrier. -/
inductive Akin : List Char → List Char → Prop
  | nil : Akin [] []
  | digit {c d : Char} {x y : List Char} (hc : c.isDigit = true) (hd : d.isDigit = true) :
      Akin (c :: x) (d :: y)
  | barrier {c : Char} {x y : List Char} (hc : c ∈ barriers) : Akin (c :: x) (c :: y)
  | remark {x y : List Char} (hx : (word remark x).isSome = true)
      (hy : (word remark y).isSome = true) : Akin x y
  | cons {c d : Char} {x y : List Char} (same : Same c d) (h : Akin x y) :
      Akin (c :: x) (d :: y)
  | left {x y : List Char} (h : Akin x y) : Akin (' ' :: x) y
  | right {x y : List Char} (h : Akin x y) : Akin x (' ' :: y)

inductive Begin : List Char → List Char → Prop
  | nil : Begin [] []
  | digit {c d : Char} {x y : List Char} (hc : c.isDigit = true) (hd : d.isDigit = true) :
      Begin (c :: x) (d :: y)
  | barrier {c : Char} {x y : List Char} (hc : c ∈ barriers) : Begin (c :: x) (c :: y)
  | remark {x y : List Char} (hx : (word remark x).isSome = true)
      (hy : (word remark y).isSome = true) : Begin x y
  | cons {c d : Char} {x y : List Char} (same : Same c d) (hc : isSpace c = false)
      (h : Akin x y) : Begin (c :: x) (d :: y)

theorem isSpace_of_isDigit {c : Char} (h : c.isDigit = true) : isSpace c = false :=
  isSpace_of_isAlphanum (by simp [Char.isAlphanum, h])

theorem isGap_of_isDigit {c : Char} (h : c.isDigit = true) : Text.isGap c = false := by
  rw [Text.isGap, Bool.or_eq_false_iff]
  refine ⟨isSpace_of_isDigit h, ?_⟩
  rw [beq_eq_false_iff_ne]
  rintro rfl
  cases h

/-- A remark begins with a letter. -/
theorem exists_cons_of_remark {x : List Char} (h : (word remark x).isSome = true) :
    ∃ c rest, x = c :: rest ∧ sameLetter 'R' c = true := by
  cases x with
  | nil => cases h
  | cons c rest =>
    refine ⟨c, rest, rfl, ?_⟩
    cases hsame : sameLetter 'R' c with
    | true => rfl
    | false =>
      rw [show remark = ['R', 'E', 'M'] from rfl, word_cons_of_ne _ _ hsame] at h
      cases h

theorem not_isGap_of_sameLetter {c letter : Char} (hletter : letter.isUpper = true)
    (h : sameLetter letter c = true) : Text.isGap c = false := by
  cases hc : Text.isGap c with
  | false => rfl
  | true =>
    simp only [Text.isGap, Bool.or_eq_true, beq_iff_eq] at hc
    rw [sameLetter_of_lt hletter (by rcases hc with rfl | rfl <;> decide)] at h
    cases h

theorem isGap_head_of_remark {x : List Char} (h : (word remark x).isSome = true) :
    ∀ c ∈ x.head?, Text.isGap c = false := by
  obtain ⟨c, rest, rfl, hsame⟩ := exists_cons_of_remark h
  rintro _ ⟨⟩
  exact not_isGap_of_sameLetter (by decide) hsame

theorem isSpace_of_not_isGap {c : Char} (h : Text.isGap c = false) : isSpace c = false := by
  rw [Text.isGap, Bool.or_eq_false_iff] at h
  exact h.1

theorem dropWhile_of_head {p : Char → Bool} {x : List Char} (h : ∀ c ∈ x.head?, p c = false) :
    x.dropWhile p = x := by
  cases x with
  | nil => rfl
  | cons c x =>
    have hc : p c = false := h c rfl
    simp [hc]

theorem isGap_of_mem_barriers {c : Char} (h : c ∈ barriers) : Text.isGap c = false := by
  have key : ∀ c ∈ barriers, Text.isGap c = false := by decide
  exact key c h

theorem toNat_of_mem_barriers {c : Char} (h : c ∈ barriers) : c.toNat < 65 := by
  have key : ∀ c ∈ barriers, c.toNat < 65 := by decide
  exact key c h

namespace Akin

variable {x y : List Char}

theorem refl (x : List Char) : Akin x x := by
  induction x with
  | nil => exact .nil
  | cons c x ih => exact .cons (.refl c) ih

/-- What akin texts have behind the spaces at their front. -/
theorem dropSpaces (h : Akin x y) : Begin (x.dropWhile isSpace) (y.dropWhile isSpace) := by
  induction h with
  | nil => exact .nil
  | digit hc hd =>
    rw [List.dropWhile_cons_of_neg (by simp [isSpace_of_isDigit hc]),
      List.dropWhile_cons_of_neg (by simp [isSpace_of_isDigit hd])]
    exact .digit hc hd
  | barrier hc =>
    have hspace := isSpace_of_not_isGap (isGap_of_mem_barriers hc)
    rw [List.dropWhile_cons_of_neg (by simp [hspace]),
      List.dropWhile_cons_of_neg (by simp [hspace])]
    exact .barrier hc
  | remark hx hy =>
    rw [dropWhile_of_head fun c hc => isSpace_of_not_isGap (isGap_head_of_remark hx c hc),
      dropWhile_of_head fun c hc => isSpace_of_not_isGap (isGap_head_of_remark hy c hc)]
    exact .remark hx hy
  | @cons c d x y same h ih =>
    cases hc : isSpace c with
    | true =>
      rw [List.dropWhile_cons_of_pos hc, List.dropWhile_cons_of_pos (by rw [← same.isSpace, hc])]
      exact ih
    | false =>
      rw [List.dropWhile_cons_of_neg (by simp [hc]),
        List.dropWhile_cons_of_neg (by simp [← same.isSpace, hc])]
      exact .cons same hc h
  | left _ ih => exact ih
  | right _ ih => exact ih

/-- Texts stay akin without the gaps at their front. -/
theorem front (h : Akin x y) : Akin (Grammar.front x) (Grammar.front y) := by
  induction h with
  | nil => exact .nil
  | @digit c d x y hc hd =>
    rw [Grammar.front_of_head (by rintro _ ⟨⟩; exact isGap_of_isDigit hc),
      Grammar.front_of_head (by rintro _ ⟨⟩; exact isGap_of_isDigit hd)]
    exact .digit hc hd
  | @barrier c x y hc =>
    rw [Grammar.front_of_head (by rintro _ ⟨⟩; exact isGap_of_mem_barriers hc),
      Grammar.front_of_head (by rintro _ ⟨⟩; exact isGap_of_mem_barriers hc)]
    exact .barrier hc
  | remark hx hy =>
    rw [Grammar.front_of_head (isGap_head_of_remark hx),
      Grammar.front_of_head (isGap_head_of_remark hy)]
    exact .remark hx hy
  | @cons c d x y same h ih =>
    cases hc : Text.isGap c with
    | true =>
      have hd : Text.isGap d = true := by rw [← same.isGap, hc]
      simpa [Grammar.front, hc, hd] using ih
    | false =>
      have hd : Text.isGap d = false := by rw [← same.isGap, hc]
      simpa [Grammar.front, hc, hd] using Akin.cons same h
  | left _ ih => exact ih
  | right _ ih => exact ih

end Akin

/-- A part of a word from some letter on: there is no digit in it, and nothing follows a barrier or
the letters of a remark. -/
structure Spelled (w : List Char) : Prop where
  plain : ∀ c ∈ w, c ≠ ' ' ∧ c.isDigit = false
  barrier : ∀ c q, c :: q <:+ w → c ∈ barriers → q = []
  last : ∀ q, q <:+ w → folded remark <+: folded q → folded q = folded remark

theorem Spelled.tail {c : Char} {w : List Char} (h : Spelled (c :: w)) : Spelled w :=
  ⟨fun d hd => h.plain d (List.mem_cons_of_mem _ hd),
    fun d q hq => h.barrier d q (hq.trans (List.suffix_cons c w)),
    fun q hq => h.last q (hq.trans (List.suffix_cons c w))⟩

theorem spelled_spelling (t : Token) : Spelled t.spelling.toList := by
  have key : ∀ t ∈ Token.all, ∀ q ∈ t.spelling.toList.tails,
      (q.head?.any (· ∈ barriers) = true → q.tail = []) ∧
        ((folded remark).isPrefixOf (folded q) = true → folded q = folded remark) := by
    decide +kernel
  have htails := key t (Token.mem_all t)
  refine ⟨Grammar.forall_spelling (by decide) t, fun c q hq hc => ?_, fun q hq hle => ?_⟩
  · exact (htails _ ((List.mem_tails _ _).2 hq)).1 (by simpa using hc)
  · exact (htails q ((List.mem_tails _ _).2 hq)).2 (by simpa using hle)

/-- Where no space comes first, a word is read like the later letters of one. -/
theorem word_eq_wordTail {w s : List Char} (hw : ∀ c ∈ w, c ≠ ' ')
    (hs : ∀ c ∈ s.head?, isSpace c = false) : word w s = wordTail w s := by
  cases w with
  | nil => rfl
  | cons letter w =>
    have hletter := hw letter List.mem_cons_self
    cases s with
    | nil => rw [wordTail_cons_nil hletter rfl, word]
    | cons c rest =>
      have hc : isSpace c = false := hs c rfl
      have hdrop : (c :: rest).dropWhile isSpace = c :: rest := by simp [hc]
      cases hsame : sameLetter letter c with
      | false => rw [wordTail_cons_ne hletter hdrop hsame, word_cons_of_ne _ _ hsame]
      | true =>
        rw [wordTail_cons_same hletter hdrop hsame, word, if_pos hsame]
        simp [hc]

/-- Which words are read from a text that begins with the letters `v`, unless they are longer. -/
theorem isSome_wordTail_of_begin {v w x : List Char} (hv : ∀ c ∈ v, c ≠ ' ')
    (hw : ∀ c ∈ w, c ≠ ' ') (hx : (wordTail v x).isSome = true)
    (hle : folded v <+: folded w → folded w = folded v) :
    (wordTail w x).isSome = (folded w).isPrefixOf (folded v) := by
  induction v generalizing w x with
  | nil =>
    have hnil : folded w = folded [] := hle (List.nil_prefix)
    cases w with
    | nil => rfl
    | cons => cases hnil
  | cons a v ih =>
    cases w with
    | nil => rfl
    | cons b w =>
      have ha := hv a List.mem_cons_self
      have hb := hw b List.mem_cons_self
      have hmore : ∀ {x}, (wordTail v x).isSome = true →
          (folded v <+: folded w → folded w = folded v) →
          (wordTail w x).isSome = (folded w).isPrefixOf (folded v) :=
        ih (fun c hc => hv c (List.mem_cons_of_mem _ hc))
          (fun c hc => hw c (List.mem_cons_of_mem _ hc))
      cases hdrop : x.dropWhile isSpace with
      | nil =>
        rw [wordTail_cons_nil ha hdrop] at hx
        cases hx
      | cons c rest =>
        cases hac : sameLetter a c with
        | false =>
          rw [wordTail_cons_ne ha hdrop hac] at hx
          cases hx
        | true =>
          rw [wordTail_cons_same ha hdrop hac, Option.isSome_map] at hx
          have hfold : Text.caseFold a = Text.caseFold c := beq_iff_eq.1 hac
          have hbegin : (folded (b :: w)).isPrefixOf (folded (a :: v)) =
              (sameLetter b c && (folded w).isPrefixOf (folded v)) := by
            simp only [folded, List.map_cons, List.isPrefixOf, sameLetter, hfold]
          rw [hbegin]
          cases hbc : sameLetter b c with
          | false => rw [wordTail_cons_ne hb hdrop hbc]; rfl
          | true =>
            have hsame : Text.caseFold a = Text.caseFold b :=
              hfold.trans (beq_iff_eq.1 hbc).symm
            have hshort : folded v <+: folded w → folded w = folded v := by
              intro hvw
              have hcons : folded (a :: v) <+: folded (b :: w) := by
                simp only [folded, List.map_cons, hsame] at hvw ⊢
                exact List.cons_prefix_cons.2 ⟨rfl, hvw⟩
              exact (List.cons.inj (hle hcons)).2
            rw [wordTail_cons_same hb hdrop hbc, Option.isSome_map, hmore hx hshort, Bool.true_and]

def EndsAtBarrier (w : List Char) : Prop :=
  ∃ c q, c :: q <:+ w ∧ (c ∈ barriers ∨ (folded (c :: q)).isPrefixOf (folded remark) = true)

inductive Alongside (w : List Char) : Option (List Char × List Char) →
    Option (List Char × List Char) → Prop
  | none : Alongside w none none
  | some {text text' x y : List Char} (h : Akin x y ∨ EndsAtBarrier w) :
      Alongside w (some (text, x)) (some (text', y))

/-- A letter of a word is no mark but itself. -/
theorem sameLetter_of_ne {letter c : Char} (hc : c.toNat < 65) (hne : letter ≠ c) :
    sameLetter letter c = false := by
  rw [Bool.eq_false_iff]
  intro hsame
  have hfold := beq_iff_eq.1 hsame
  rw [caseFold_of_lt hc] at hfold
  exact hne (Text.eq_of_caseFold_eq hc hfold)

theorem sameLetter_of_isDigit {letter c : Char} (hletter : letter.isDigit = false)
    (hc : c.isDigit = true) : sameLetter letter c = false := by
  refine sameLetter_of_ne (Nat.lt_of_le_of_lt (Text.toNat_of_isDigit hc).2 (by decide)) ?_
  rintro rfl
  rw [hletter] at hc
  cases hc

theorem Alongside.map {w : List Char} {r r' : Option (List Char × List Char)}
    (h : Alongside w r r') {letter : Char} (f f' : List Char → List Char) :
    Alongside (letter :: w) (r.map fun (read, rest) => (f read, rest))
      (r'.map fun (read, rest) => (f' read, rest)) := by
  cases h with
  | none => exact .none
  | some h =>
    refine .some (h.imp_right ?_)
    rintro ⟨c, q, hq, hends⟩
    exact ⟨c, q, hq.trans (List.suffix_cons _ _), hends⟩

theorem plain_remark : ∀ c ∈ remark, c ≠ ' ' := by decide

/-- Spaces at the front do not keep the letters of a word from being read. -/
theorem isSome_wordTail_dropWhile {w : List Char} (hw : ∀ c ∈ w, c ≠ ' ') (s : List Char) :
    (wordTail w (s.dropWhile isSpace)).isSome = (wordTail w s).isSome := by
  cases w with
  | nil => rfl
  | cons letter w =>
    have hletter := hw letter List.mem_cons_self
    have hagain : (s.dropWhile isSpace).dropWhile isSpace = s.dropWhile isSpace :=
      dropWhile_of_head fun c hc => by
        have := List.head?_dropWhile_not isSpace s
        rwa [hc] at this
    cases hs : s.dropWhile isSpace with
    | nil => rw [wordTail_cons_nil hletter hs, wordTail_cons_nil hletter rfl]
    | cons c rest =>
      rw [hs] at hagain
      cases hsame : sameLetter letter c with
      | false => rw [wordTail_cons_ne hletter hs hsame, wordTail_cons_ne hletter hagain hsame]
      | true =>
        rw [wordTail_cons_same hletter hs hsame, wordTail_cons_same hletter hagain hsame,
          Option.isSome_map, Option.isSome_map]

/-- Reading the letters of a word where a remark begins. -/
theorem Alongside.of_remark {letter : Char} {w x y : List Char} (hw : Spelled (letter :: w))
    (hx : (word remark (x.dropWhile isSpace)).isSome = true)
    (hy : (word remark (y.dropWhile isSpace)).isSome = true) :
    Alongside (letter :: w) (wordTail (letter :: w) x) (wordTail (letter :: w) y) := by
  have hplain : ∀ c ∈ letter :: w, c ≠ ' ' := fun c hc => (hw.plain c hc).1
  have hread : ∀ {s : List Char}, (word remark (s.dropWhile isSpace)).isSome = true →
      (wordTail (letter :: w) s).isSome =
        (folded (letter :: w)).isPrefixOf (folded remark) := by
    intro s hs
    rw [word_eq_wordTail plain_remark fun c hc =>
      isSpace_of_not_isGap (isGap_head_of_remark hs c hc)] at hs
    rw [← isSome_wordTail_dropWhile hplain]
    exact isSome_wordTail_of_begin plain_remark hplain hs (hw.last _ List.suffix_rfl)
  have hx' := hread hx
  have hy' := hread hy
  cases hbegin : (folded (letter :: w)).isPrefixOf (folded remark) with
  | false =>
    rw [hbegin, Option.isSome_eq_false_iff, Option.isNone_iff_eq_none] at hx' hy'
    rw [hx', hy']
    exact .none
  | true =>
    rw [hbegin] at hx' hy'
    obtain ⟨⟨text, rest⟩, hx'⟩ := Option.isSome_iff_exists.1 hx'
    obtain ⟨⟨text', rest'⟩, hy'⟩ := Option.isSome_iff_exists.1 hy'
    rw [hx', hy']
    exact .some (.inr ⟨_, _, List.suffix_rfl, .inr hbegin⟩)

/-- Reading the letters of a word off akin texts. -/
theorem Akin.wordTail {w x y : List Char} (hw : Spelled w) (h : Akin x y) :
    Alongside w (Lexeme.wordTail w x) (Lexeme.wordTail w y) := by
  induction w generalizing x y with
  | nil => exact .some (.inl h)
  | cons letter w ih =>
    obtain ⟨hspace, hdigit⟩ := hw.plain letter List.mem_cons_self
    have hbegin := h.dropSpaces
    generalize hx : x.dropWhile isSpace = x' at hbegin
    generalize hy : y.dropWhile isSpace = y' at hbegin
    cases hbegin with
    | nil =>
      rw [wordTail_cons_nil hspace hx, wordTail_cons_nil hspace hy]
      exact .none
    | digit hc hd =>
      rw [wordTail_cons_ne hspace hx (sameLetter_of_isDigit hdigit hc),
        wordTail_cons_ne hspace hy (sameLetter_of_isDigit hdigit hd)]
      exact .none
    | @barrier c _ _ hc =>
      have hlt : c.toNat < 65 := toNat_of_mem_barriers hc
      by_cases hletter : letter = c
      · obtain rfl : w = [] := hw.barrier letter w List.suffix_rfl (hletter ▸ hc)
        have hsame : sameLetter letter c = true := by
          rw [hletter]
          exact beq_self_eq_true _
        rw [wordTail_cons_same hspace hx hsame, wordTail_cons_same hspace hy hsame]
        exact .some (.inr ⟨_, _, List.suffix_rfl, .inl (hletter ▸ hc)⟩)
      · rw [wordTail_cons_ne hspace hx (sameLetter_of_ne hlt hletter),
          wordTail_cons_ne hspace hy (sameLetter_of_ne hlt hletter)]
        exact .none
    | remark hr hr' =>
      rw [← hx] at hr
      rw [← hy] at hr'
      exact .of_remark hw hr hr'
    | @cons c d _ _ same hc h =>
      cases hsame : sameLetter letter c with
      | false =>
        rw [wordTail_cons_ne hspace hx hsame,
          wordTail_cons_ne hspace hy (by rw [← same.sameLetter, hsame])]
        exact .none
      | true =>
        rw [wordTail_cons_same hspace hx hsame,
          wordTail_cons_same hspace hy (by rw [← same.sameLetter, hsame])]
        exact (ih hw.tail h).map (x.takeWhile isSpace ++ c :: ·) (y.takeWhile isSpace ++ d :: ·)

theorem Alongside.isSome {w : List Char} {r r' : Option (List Char × List Char)}
    (h : Alongside w r r') : r.isSome = r'.isSome := by
  cases h <;> rfl

theorem head?_of_remark {x : List Char} (h : (word remark x).isSome = true) {p : Char}
    (hp : p.toNat < 65) : x.head? ≠ some p := by
  obtain ⟨c, rest, rfl, hsame⟩ := exists_cons_of_remark h
  rintro ⟨⟩
  rw [sameLetter_of_lt (by decide) hp] at hsame
  cases hsame

namespace Begin

variable {x y : List Char}

/-- Both texts begin with a mark or none does. -/
theorem mark (h : Begin x y) {p : Char} (hp : p.toNat < 65) (hdigit : p.isDigit = false) :
    x.head? = some p ↔ y.head? = some p := by
  have hne : ∀ {c : Char}, c.isDigit = true → c ≠ p := by
    rintro c hc rfl
    rw [hdigit] at hc
    cases hc
  cases h with
  | nil => exact Iff.rfl
  | digit hc hd => simp [hne hc, hne hd]
  | barrier => exact Iff.rfl
  | remark hx hy => exact iff_of_false (head?_of_remark hx hp) (head?_of_remark hy hp)
  | cons same =>
    have hletter : p.isAlpha = false :=
      Text.ascii_induction (P := fun p => p.toNat < 65 → p.isAlpha = false) (by decide) (by omega)
        hp
    simpa using same.eq_iff hletter

theorem eq_nil_iff (h : Begin x y) : x = [] ↔ y = [] := by
  cases h with
  | nil => exact Iff.rfl
  | remark hx hy =>
    obtain ⟨c, rest, rfl, -⟩ := exists_cons_of_remark hx
    obtain ⟨d, rest', rfl, -⟩ := exists_cons_of_remark hy
    simp
  | digit | barrier | cons => simp

/-- A number comes next in both texts or in none. -/
theorem isSome_integer (h : Begin x y) : (integer x).isSome = (integer y).isSome := by
  have hcons : ∀ (c : Char) (rest : List Char), (integer (c :: rest)).isSome = c.isDigit := by
    intro c rest
    rw [integer]
    cases c.isDigit <;> rfl
  have hremark : ∀ {x : List Char}, (word Lexeme.remark x).isSome = true →
      (integer x).isSome = false := by
    intro x hx
    obtain ⟨c, rest, rfl, hsame⟩ := exists_cons_of_remark hx
    rw [hcons]
    cases hdigit : c.isDigit with
    | false => rfl
    | true =>
      rw [sameLetter_of_isDigit (by decide) hdigit] at hsame
      cases hsame
  cases h with
  | nil => rfl
  | digit hc hd => rw [hcons, hcons, hc, hd]
  | barrier => rw [hcons, hcons]
  | remark hx hy => rw [hremark hx, hremark hy]
  | cons same => rw [hcons, hcons, same.isDigit]

end Begin

end Lexeme

namespace Grammar

open Lexeme

/-- A text that begins with no gap. -/
def Bare (x : List Char) : Prop := ∀ c ∈ x.head?, Text.isGap c = false

theorem bare_front (x : List Char) : Bare (front x) := by
  intro c hc
  have := List.head?_dropWhile_not Text.isGap x
  rw [show x.dropWhile Text.isGap = front x from rfl, hc] at this
  exact this

variable {x y : List Char}

theorem Bare.begin (hx : Bare x) (hy : Bare y) (h : Akin x y) : Begin x y := by
  have hbegin := h.dropSpaces
  rwa [dropWhile_of_head fun c hc => isSpace_of_not_isGap (hx c hc),
    dropWhile_of_head fun c hc => isSpace_of_not_isGap (hy c hc)] at hbegin

theorem Bare.word (hx : Bare x) (hy : Bare y) (h : Akin x y) {w : List Char} (hw : Spelled w) :
    Alongside w (Lexeme.word w x) (Lexeme.word w y) := by
  have hplain : ∀ c ∈ w, c ≠ ' ' := fun c hc => (hw.plain c hc).1
  rw [word_eq_wordTail hplain fun c hc => isSpace_of_not_isGap (hx c hc),
    word_eq_wordTail hplain fun c hc => isSpace_of_not_isGap (hy c hc)]
  exact h.wordTail hw

/-- A parenthesis comes next in both texts or in none. -/
theorem opensNext_of_akin (h : Akin x y) : opensNext x = opensNext y := by
  have hbegin := (bare_front x).begin (bare_front y) h.front
  rw [opensNext, opensNext, Bool.eq_iff_iff, beq_iff_eq, beq_iff_eq]
  exact hbegin.mark (by decide) (by decide)

/-- No function ends at a barrier. -/
theorem not_endsAtBarrier {f : Token} (hf : f ∈ functions) : ¬EndsAtBarrier f.spelling.toList := by
  have key : ∀ f ∈ functions, ∀ q ∈ f.spelling.toList.tails, q ≠ [] →
      q.head?.any (· ∈ barriers) = false ∧
        (folded q).isPrefixOf (folded remark) = false := by decide
  rintro ⟨c, q, hq, hends⟩
  obtain ⟨hbarrier, hremark⟩ := key f hf _ ((List.mem_tails _ _).2 hq) (List.cons_ne_nil _ _)
  rcases hends with hc | hbegin
  · simp [hc] at hbarrier
  · rw [hremark] at hbegin
    cases hbegin

section Alike

variable (hx : Bare x) (hy : Bare y) (h : Akin x y)
include hx hy h

theorem isSome_word_of_akin (t : Token) :
    (Lexeme.word t.spelling.toList x).isSome = (Lexeme.word t.spelling.toList y).isSome :=
  (hx.word hy h (spelled_spelling t)).isSome

theorem firstWord?_of_akin (words : List Token) : firstWord? words x = firstWord? words y := by
  unfold firstWord?
  simp only [isSome_word_of_akin hx hy h]

theorem ofText?_of_akin : Form.ofText? x = Form.ofText? y := by
  unfold Form.ofText?
  simp only [isSome_word_of_akin hx hy h]

theorem function?_of_akin : function? x = function? y := by
  refine List.find?_congr fun f hf => ?_
  have hread := hx.word hy h (spelled_spelling f)
  generalize Lexeme.word f.spelling.toList x = r at hread
  generalize Lexeme.word f.spelling.toList y = r' at hread
  cases hread with
  | none => rfl
  | some hrest =>
    rcases hrest with hrest | hends
    · simp only [opensNext_of_akin hrest]
    · exact absurd hends (not_endsAtBarrier hf)

/-- Akin texts look alike to a rule that has to choose. Only the word `NOT` asks whether it ends
where it is read. -/
theorem alike_of_akin : Alike x y := by
  have hbegin := hx.begin hy h
  refine ⟨hbegin.eq_nil_iff, hbegin.isSome_integer, fun c hc => ?_, fun w hw => ?_,
    function?_of_akin hx hy h, ?_, ofText?_of_akin hx hy h⟩
  · have key : ∀ c ∈ marks, c.toNat < 65 ∧ c.isDigit = false := by decide
    exact hbegin.mark (key c hc).1 (key c hc).2
  · have key : ∀ w ∈ optionalWords, ∃ t ∈ Token.all, w = t.spelling := by decide
    obtain ⟨t, -, rfl⟩ := key w hw
    exact isSome_word_of_akin hx hy h t
  · rw [firstWord?_of_akin hx hy h]
    exact id

end Alike

end Grammar

end IntegerBasic
