import IntegerBasic.Proofs.Grammar.Agreement

/-!
# Words as they are spelled

A word in its own spelling is read whole, whatever follows it, and a text with a word in any
spelling is akin to the text with the word in its own. What stands behind an operand in a text of
spelled words is a word or nothing, so that no name or number runs on, and `NOT` is read only where
it is meant.
-/

namespace IntegerBasic

namespace Lexeme

/-- A word is read from its letters in either case. -/
theorem wordTail_of_folded {w run : List Char} (hw : ∀ c ∈ w, c ≠ ' ') (hrun : ∀ c ∈ run, c ≠ ' ')
    (h : folded run = folded w) (s : List Char) : wordTail w (run ++ s) = some (run, s) := by
  induction w generalizing run with
  | nil =>
    obtain rfl : run = [] := List.map_eq_nil_iff.1 h
    rfl
  | cons letter w ih =>
    cases run with
    | nil => cases h
    | cons c run =>
      obtain ⟨hletter, hw⟩ := List.forall_mem_cons.1 hw
      obtain ⟨hc, hrun⟩ := List.forall_mem_cons.1 hrun
      obtain ⟨hsame, hmore⟩ := List.cons.inj h
      have hspace : isSpace c = false := by simpa [isSpace] using hc
      have hdrop : (c :: run ++ s).dropWhile isSpace = c :: (run ++ s) := by simp [hspace]
      rw [wordTail_cons_same hletter hdrop (beq_iff_eq.2 hsame.symm), ih hw hrun hmore]
      simp [hspace]

theorem wordTail_append_self {w : List Char} (hw : ∀ c ∈ w, c ≠ ' ') (s : List Char) :
    wordTail w (w ++ s) = some (w, s) :=
  wordTail_of_folded hw hw rfl s

/-- A word in its own spelling is read whole. -/
theorem word_spelling (t : Token) (s : List Char) :
    word t.spelling.toList (t.spelling.toList ++ s) = some (t.spelling.toList, s) := by
  rw [word_eq_wordTail (spelling_ne_space t)]
  · exact wordTail_append_self (spelling_ne_space t) s
  · intro c hc
    cases hspelling : t.spelling.toList with
    | nil => exact absurd hspelling (Grammar.spelling_ne_nil t)
    | cons letter w =>
      obtain rfl : letter = c := by simpa [hspelling] using hc
      have := spelling_ne_space t letter (by rw [hspelling]; exact List.mem_cons_self)
      simpa [isSpace] using this

theorem Same.symm {c d : Char} (h : Same c d) : Same d c :=
  h.imp Eq.symm fun h => ⟨h.2.1, h.1, h.2.2.symm⟩

theorem Same.trans {c d e : Char} (h : Same c d) (h' : Same d e) : Same c e := by
  rcases h with rfl | ⟨hc, hd, h⟩
  · exact h'
  · rcases h' with rfl | ⟨-, he, h'⟩
    · exact .inr ⟨hc, hd, h⟩
    · exact .inr ⟨hc, he, h.trans h'⟩

/-- ASCII characters that differ in case alone. -/
theorem same_of_caseFold {c d : Char} (hc : c.toNat < 128) (hd : d.toNat < 128)
    (h : Text.caseFold c = Text.caseFold d) : Same c d := by
  have key : ∀ {c : Char}, c.toNat < 128 → Same c (Text.caseFold c) := by
    intro c hc
    have hlower : c = c.toLower ∨ c.isAlpha = true ∧ c.toLower.isAlpha = true ∧
        c.toLower = c.toLower.toLower ∧ c.toLower.toNat < 128 :=
      Text.ascii_induction (P := fun c => c = c.toLower ∨ c.isAlpha = true ∧
        c.toLower.isAlpha = true ∧ c.toLower = c.toLower.toLower ∧ c.toLower.toNat < 128)
        (by decide +kernel) hc
    rw [Text.caseFold_of_ascii hc]
    refine hlower.imp_right fun ⟨hletter, hletter', hagain, hlt⟩ => ⟨hletter, hletter', ?_⟩
    rw [Text.caseFold_of_ascii hc, Text.caseFold_of_ascii hlt, ← hagain]
  exact (key hc).trans (h ▸ (key hd).symm)

namespace Akin

variable {x y : List Char}

theorem spaces_left (h : Akin x y) {gaps : List Char} (hgaps : ∀ c ∈ gaps, c = ' ') :
    Akin (gaps ++ x) y := by
  induction gaps with
  | nil => exact h
  | cons c gaps ih =>
    obtain ⟨rfl, hmore⟩ := List.forall_mem_cons.1 hgaps
    exact .left (ih hmore)

theorem spaces_right (h : Akin x y) {gaps : List Char} (hgaps : ∀ c ∈ gaps, c = ' ') :
    Akin x (gaps ++ y) := by
  induction gaps with
  | nil => exact h
  | cons c gaps ih =>
    obtain ⟨rfl, hmore⟩ := List.forall_mem_cons.1 hgaps
    exact .right (ih hmore)

/-- The letters of a word in any spelling are akin to its own. -/
theorem of_wordTail {w s text rest : List Char} (hw : ∀ c ∈ w, c ≠ ' ' ∧ c.toNat < 128)
    (hs : ∀ c ∈ s, c.toNat < 128) (h : Lexeme.wordTail w s = some (text, rest))
    (hrest : Akin rest y) : Akin s (w ++ y) := by
  induction w generalizing s text with
  | nil =>
    cases h
    exact hrest
  | cons letter w ih =>
    obtain ⟨⟨hletter, hascii⟩, hmore⟩ := List.forall_mem_cons.1 hw
    obtain ⟨c, more, read, hdrop, hsame, hread, -⟩ := wordTail_cons_some hletter h
    have hsplit : s.takeWhile isSpace ++ c :: more = s := by
      rw [← hdrop, List.takeWhile_append_dropWhile]
    have htail : ∀ d ∈ c :: more, d.toNat < 128 := fun d hd =>
      hs d (by rw [← hsplit]; exact List.mem_append_right _ hd)
    have hletters : Same c letter :=
      same_of_caseFold (htail c List.mem_cons_self) hascii (beq_iff_eq.1 hsame).symm
    rw [← hsplit]
    refine spaces_left (.cons hletters (ih hmore ?_ hread)) ?_
    · exact fun d hd => htail d (List.mem_cons_of_mem _ hd)
    · exact fun d hd => by simpa [isSpace] using List.all_eq_true.1 List.all_takeWhile d hd

theorem of_word {t : Token} {s text rest : List Char} (hs : ∀ c ∈ s, c.toNat < 128)
    (h : Lexeme.word t.spelling.toList s = some (text, rest)) (hrest : Akin rest y) :
    Akin s (t.spelling.toList ++ y) :=
  of_wordTail (Grammar.forall_spelling (by decide) t) hs (wordTail_of_word h) hrest

/-- A run of letters and digits is akin to the run in upper case. -/
theorem of_run {run : List Char} (hrun : ∀ c ∈ run, c.isAlphanum = true) (h : Akin x y) :
    Akin (run ++ x) (run.map Char.toUpper ++ y) := by
  have key : ∀ c : Char, c.isAlphanum = true → c.isDigit = true ∧ c.toUpper.isDigit = true ∨
      Same c c.toUpper := by
    intro c hc
    have hsame : c.isDigit = true ∧ c.toUpper.isDigit = true ∨
        c.isAlpha = true ∧ c.toUpper.isAlpha = true ∧ c.toLower = c.toUpper.toLower ∧
          c.toUpper.toNat < 128 :=
      Text.alphanum_induction (P := fun c => c.isDigit = true ∧ c.toUpper.isDigit = true ∨
        c.isAlpha = true ∧ c.toUpper.isAlpha = true ∧ c.toLower = c.toUpper.toLower ∧
          c.toUpper.toNat < 128) (by decide +kernel) hc
    refine hsame.imp_right fun ⟨hc', hupper, hlower, hlt⟩ => .inr ⟨hc', hupper, ?_⟩
    rwa [Text.caseFold_of_ascii (Text.toNat_lt_of_isAlphanum hc), Text.caseFold_of_ascii hlt]
  induction run with
  | nil => exact h
  | cons c run ih =>
    obtain ⟨hc, hmore⟩ := List.forall_mem_cons.1 hrun
    rcases key c hc with ⟨hdigit, hdigit'⟩ | hsame
    · exact .digit hdigit hdigit'
    · exact .cons hsame (ih hmore)

end Akin

/-- What stands behind an operand: a word, set off by spaces if it could run on, or nothing. -/
def Separated (y : List Char) : Prop :=
  y = [] ∨ ∃ (t : Token) (n : Nat) (s : List Char),
    y = List.replicate n ' ' ++ (t.spelling.toList ++ s) ∧
      (n = 0 → ∀ c ∈ t.spelling.toList.head?, c.isAlphanum = false)

/-- The first letter of a word, and the letters behind it. -/
theorem exists_spelling (t : Token) : ∃ c w, t.spelling.toList = c :: w ∧
    isDigitOrSpace c = false ∧ c ≠ '$' ∧ c ≠ '\t' := by
  have key : ∀ c ∈ t.spelling.toList, isDigitOrSpace c = false ∧ c ≠ '$' ∧ c ≠ '\t' :=
    Grammar.forall_spelling (by decide) t
  obtain ⟨c, w, hspelling⟩ := List.exists_cons_of_ne_nil (Grammar.spelling_ne_nil t)
  exact ⟨c, w, hspelling, key c (by rw [hspelling]; exact List.mem_cons_self)⟩

theorem dropWhile_replicate {p : Char → Bool} (n : Nat) {c : Char} {s : List Char}
    (hspace : p ' ' = true) (hc : p c = false) :
    (List.replicate n ' ' ++ c :: s).dropWhile p = c :: s := by
  rw [List.dropWhile_append_of_pos fun d hd => by rw [List.eq_of_mem_replicate hd, hspace],
    List.dropWhile_cons_of_neg (by simp [hc])]

namespace Separated

variable {y : List Char}

/-- The first character behind the spaces. -/
theorem head_dropSpaces (h : Separated y) : ∀ c ∈ (y.dropWhile isSpace).head?,
    isDigitOrSpace c = false ∧ c ≠ '$' ∧ c ≠ '\t' := by
  rcases h with rfl | ⟨t, n, s, rfl, -⟩
  · simp
  · obtain ⟨c, w, hspelling, hc⟩ := exists_spelling t
    have hspace : isSpace c = false := (Bool.or_eq_false_iff.1 hc.1).2
    rw [hspelling, List.cons_append, dropWhile_replicate n rfl hspace]
    rintro _ ⟨⟩
    exact hc

theorem endsName (h : Separated y) : EndsName y := by
  refine ⟨?_, fun hdollar => (h.head_dropSpaces '$' hdollar).2.1 rfl⟩
  rcases h with rfl | ⟨t, n, s, rfl, hn⟩
  · simp
  · cases n with
    | zero =>
      obtain ⟨c, w, hspelling, -⟩ := exists_spelling t
      rw [hspelling] at hn ⊢
      rintro _ ⟨⟩
      exact hn rfl c rfl
    | succ n =>
      rintro _ ⟨⟩
      rfl

theorem tabNext (h : Separated y) : Grammar.tabNext y = false := by
  rw [Grammar.tabNext, beq_eq_false_iff_ne]
  exact fun htab => (h.head_dropSpaces '\t' htab).2.2 rfl

theorem endsNumber (h : Separated y) : EndsNumber (y.dropWhile isSpace) :=
  fun c hc => (h.head_dropSpaces c hc).1

/-- The word that comes next behind the spaces. -/
theorem dropSpaces (h : Separated y) {c : Char} {rest : List Char}
    (hy : y.dropWhile isSpace = c :: rest) :
    ∃ (t : Token) (w s : List Char), t.spelling.toList = c :: w ∧ rest = w ++ s := by
  rcases h with rfl | ⟨t, n, s, rfl, -⟩
  · cases hy
  · obtain ⟨d, w, hspelling, hd, -⟩ := exists_spelling t
    have hspace : isSpace d = false := (Bool.or_eq_false_iff.1 hd).2
    rw [hspelling, List.cons_append, dropWhile_replicate n rfl hspace] at hy
    obtain ⟨rfl, rfl⟩ := List.cons.inj hy
    exact ⟨t, w, s, hspelling, rfl⟩

end Separated

end Lexeme

namespace Grammar

open Lexeme

/-- Where `NOT` is read, no letter or digit follows. -/
theorem negation_eq_none {s text rest : List Char} {c : Char}
    (h : Lexeme.word Token.negation.spelling.toList s = some (text, c :: rest))
    (hc : c.isAlphanum = true) : negation s = none := by
  have hletter : Text.isAlphanumeric c = true := by
    rw [Text.isAlphanumeric_of_ascii (Text.toNat_lt_of_isAlphanum hc), hc]
  rw [negation, h]
  simp [Option.filter, hletter]

theorem negation_of_word {s : List Char}
    (h : Lexeme.word Token.negation.spelling.toList s = none) : negation s = none := by
  rw [negation, h]
  rfl

/-- No other word is read where `NOT` is read, but for `NOTRACE`. -/
theorem negation_of_other {t : Token} (ht : t ≠ .negation) (hnotrace : t ≠ .notrace)
    {s text rest : List Char} (h : Lexeme.word t.spelling.toList s = some (text, rest)) :
    negation s = none := by
  have key : ∀ t ∈ Token.all, t ≠ .negation → t ≠ .notrace →
      (folded Token.negation.spelling.toList).isPrefixOf (folded t.spelling.toList) = false ∧
        ¬(folded t.spelling.toList).isPrefixOf (folded Token.negation.spelling.toList) := by
    decide +kernel
  obtain ⟨hbegin, hshort⟩ := key t (Token.mem_all t) ht hnotrace
  have hread := isSome_wordTail_of_begin (spelling_ne_space t) (spelling_ne_space .negation)
    (by rw [wordTail_of_word h]; rfl) (fun hle => absurd (List.isPrefixOf_iff_prefix.2 hle) hshort)
  rw [hbegin, Option.isSome_eq_false_iff, Option.isNone_iff_eq_none,
    ← word_eq_wordTail (spelling_ne_space _)] at hread
  · exact negation_of_word hread
  · exact fun c hc => isSpace_of_not_isGap (bare_of_word h c hc)

/-- No other word is taken for `NOT`. -/
theorem negation_spelling {t : Token} (ht : t ≠ .negation) (s : List Char) :
    negation (t.spelling.toList ++ s) = none := by
  by_cases hnotrace : t = .notrace
  · subst hnotrace
    have hread : Lexeme.word Token.negation.spelling.toList (Token.notrace.spelling.toList ++ s) =
        some ("NOT".toList, 'R' :: ("ACE".toList ++ s)) :=
      word_spelling .negation ("RACE".toList ++ s)
    exact negation_eq_none hread rfl
  · exact negation_of_other ht hnotrace (word_spelling t s)

theorem negation_cons {c : Char} (h : sameLetter 'N' c = false) (s : List Char) :
    negation (c :: s) = none :=
  negation_of_word (word_cons_of_ne ['O', 'T'] s h)

/-- Where another token is read, `NOT` is not. -/
theorem negation_of_takes {t : Token} (ht : t ≠ .negation) (hnotrace : t ≠ .notrace)
    {s text rest : List Char} (h : Takes (.token t) s text rest) : negation s = none := by
  have key : ∀ u ∈ binaryOperators, u ≠ .negation ∧ u ≠ .notrace := by decide
  generalize hkind : LeafKind.token t = kind at h
  cases h with
  | reads h =>
    cases h with
    | word plain h =>
      cases hkind
      exact negation_of_other ht hnotrace h
    | @operator u _ _ _ lhs first h =>
      obtain ⟨hu, hu'⟩ := key u (List.mem_of_find?_eq_some first)
      exact negation_of_other hu hu' h
    | negation =>
      cases hkind
      exact absurd rfl ht
    | integer | lineArgument | name | string => cases hkind
  | pointer _ h =>
    cases hkind
    exact negation_of_other ht hnotrace h
  | colon => exact negation_cons (by decide) _

/-- The letters of `NOT` where they have been read. -/
theorem negation_letters {s text rest : List Char}
    (h : Lexeme.word Token.negation.spelling.toList s = some (text, rest)) :
    ∃ n o t s₁ s₂, s.dropWhile isSpace = n :: s₁ ∧ sameLetter 'N' n = true ∧
      s₁.dropWhile isSpace = o :: s₂ ∧ sameLetter 'O' o = true ∧
      s₂.dropWhile isSpace = t :: rest ∧ sameLetter 'T' t = true := by
  have hword : wordTail ['N', 'O', 'T'] s = some (text, rest) := wordTail_of_word h
  obtain ⟨n, s₁, read₁, hn, hsame₁, hword, -⟩ := wordTail_cons_some (by decide) hword
  obtain ⟨o, s₂, read₂, ho, hsame₂, hword, -⟩ := wordTail_cons_some (by decide) hword
  obtain ⟨t, s₃, read₃, ht, hsame₃, hword, -⟩ := wordTail_cons_some (by decide) hword
  cases hword
  exact ⟨n, o, t, s₁, s₂, hn, hsame₁, ho, hsame₂, ht, hsame₃⟩

/-- The words that a name could run on with to become `NOT`. -/
theorem spelling_of_letter {t : Token} {c : Char} {w : List Char}
    (h : t.spelling.toList = c :: w) :
    (sameLetter 'O' c = true → w = ['R']) ∧
      (sameLetter 'T' c = true → ∃ d v, w = d :: v ∧ d.isAlphanum = true) := by
  have key : ∀ t ∈ Token.all, (t.spelling.toList.head?.any (sameLetter 'O') = true →
      t.spelling.toList.tail = ['R']) ∧ (t.spelling.toList.head?.any (sameLetter 'T') = true →
        t.spelling.toList.tail.head?.any Char.isAlphanum = true) := by decide +kernel
  obtain ⟨ho, ht⟩ := key t (Token.mem_all t)
  rw [h] at ho ht
  refine ⟨ho, fun hsame => ?_⟩
  cases w with
  | nil => cases ht hsame
  | cons d v => exact ⟨d, v, rfl, ht hsame⟩

/-- `NOT` is not read from a name and what follows it, unless it is the whole name. -/
theorem negation_name {run sign y : List Char} (hrun : ∀ c ∈ run, c.isAlphanum = true)
    (hne : run ≠ []) (hsign : sign = [] ∧ Separated y ∨ sign = ['$'])
    (hname : folded run ≠ folded Token.negation.spelling.toList) :
    negation (run ++ (sign ++ y)) = none := by
  cases hread : Lexeme.word Token.negation.spelling.toList (run ++ (sign ++ y)) with
  | none => exact negation_of_word hread
  | some pair =>
    obtain ⟨text, rest⟩ := pair
    have hdrop : ∀ {c : Char} (s : List Char), c.isAlphanum = true →
        (c :: s).dropWhile isSpace = c :: s := fun s hc => by simp [isSpace_of_isAlphanum hc]
    obtain ⟨n, o, t, s₁, s₂, hn, hsame₁, ho, hsame₂, ht, hsame₃⟩ := negation_letters hread
    -- the letters are read from the name as far as it goes, then from what follows it
    rcases run with _ | ⟨a, run⟩
    · exact absurd rfl hne
    obtain ⟨ha, hrun⟩ := List.forall_mem_cons.1 hrun
    rw [List.cons_append, hdrop _ ha] at hn
    obtain ⟨rfl, rfl⟩ := List.cons.inj hn
    rcases run with _ | ⟨b, run⟩
    · rcases hsign with ⟨rfl, hy⟩ | rfl
      · obtain ⟨t', w, s, hspelling, rfl⟩ := hy.dropSpaces ho
        rw [(spelling_of_letter hspelling).1 hsame₂] at ht
        obtain ⟨rfl, -⟩ := List.cons.inj ht
        exact absurd hsame₃ (by decide)
      · obtain ⟨rfl, -⟩ := List.cons.inj ho
        exact absurd hsame₂ (by decide)
    obtain ⟨hb, hrun⟩ := List.forall_mem_cons.1 hrun
    rw [List.cons_append, hdrop _ hb] at ho
    obtain ⟨rfl, rfl⟩ := List.cons.inj ho
    rcases run with _ | ⟨c, run⟩
    · rcases hsign with ⟨rfl, hy⟩ | rfl
      · obtain ⟨t', w, s, hspelling, rfl⟩ := hy.dropSpaces ht
        obtain ⟨d, v, rfl, hd⟩ := (spelling_of_letter hspelling).2 hsame₃
        exact negation_eq_none hread hd
      · obtain ⟨rfl, -⟩ := List.cons.inj ht
        exact absurd hsame₃ (by decide)
    obtain ⟨hc, hrun⟩ := List.forall_mem_cons.1 hrun
    rw [List.cons_append, hdrop _ hc] at ht
    obtain ⟨rfl, rfl⟩ := List.cons.inj ht
    rcases run with _ | ⟨d, run⟩
    · refine absurd ?_ hname
      simp only [sameLetter, beq_iff_eq] at hsame₁ hsame₂ hsame₃
      show [Text.caseFold a, Text.caseFold b, Text.caseFold c] =
        [Text.caseFold 'N', Text.caseFold 'O', Text.caseFold 'T']
      rw [hsame₁, hsame₂, hsame₃]
    · exact negation_eq_none hread (hrun d List.mem_cons_self)

end Grammar

end IntegerBasic
