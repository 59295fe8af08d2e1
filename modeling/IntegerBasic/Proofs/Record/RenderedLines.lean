import IntegerBasic.Proofs.Grammar.Spelling
import IntegerBasic.Proofs.Grammar.StringComparisons
import IntegerBasic.Proofs.Record.ListedLeaves
import IntegerBasic.Proofs.Record.Padding
import IntegerBasic.Proofs.Text.CaseChange

/-!
# Listed lines read back

What is listed for the leaves of a sound line is aligned with the line, and every leaf is stored in
the same bytes. The listed text is akin to the line at every leaf but one: the inequality of strings
is always listed in one of its two spellings. The barrier before it keeps the difference from the
words that are read there.
-/

namespace IntegerBasic.Record

open Grammar Lexeme

theorem toNat_lt_of_isPrintable {c : Char} (h : isPrintable c = true) : c.toNat < 128 := by
  simp only [isPrintable, Bool.and_eq_true, decide_eq_true_eq] at h
  omega

def trail (w : List Char) : List Char :=
  if isWide w && !(w.getLast? == some '(' || w.getLast? == some '=') then [' '] else []

/-- A listed word: a space, the word, and a space. -/
theorem spacedWord_eq (w : List Char) (spaced : Bool) :
    (spacedWord w spaced).1 = (if isWide w then lead spaced else []) ++ (w ++ trail w) := by
  unfold spacedWord trail lead
  cases isWide w <;> cases w.getLast? == some '(' <;> cases w.getLast? == some '=' <;> simp

theorem eq_space_of_mem_trail {w : List Char} {c : Char} (h : c ∈ trail w) : c = ' ' := by
  unfold trail at h
  split at h
  · simpa using h
  · cases h

theorem eq_space_of_mem_lead {spaced : Bool} {c : Char} (h : c ∈ lead spaced) : c = ' ' := by
  cases spaced with
  | true => cases h
  | false => simpa [lead] using h

/-- Behind an operand comes a word or nothing. -/
theorem separated_of_rendered {i : Input} {L : List Leaf} {y : List Char}
    (h : Written false i L) (hy : Rendered false L y) : Separated y := by
  have key : ∀ t ∈ Token.all, isWide t.spelling.toList = false →
      t.spelling.toList.head?.any Char.isAlphanum = false := by decide +kernel
  have hoperand : ∀ {l : Leaf} {L : List Leaf}, Written false i (l :: L) →
      l.kind.isOperand = false := by
    intro l L h
    cases h with
    | leaf takes _ allowed => exact Bool.eq_false_iff.2 fun hkind => by cases allowed hkind
    | bareRemark => rfl
    | remark => rfl
  cases hy with
  | nil => exact .inl rfl
  | @token _ t l L y kind =>
    right
    rw [spacedWord_eq]
    cases hwide : isWide t.spelling.toList with
    | true => exact ⟨t, 1, trail t.spelling.toList ++ y, by simp [lead], by simp⟩
    | false =>
      have hmark := (Option.any_eq_false _ _).1 (key t (Token.mem_all t) hwide)
      exact ⟨t, 0, trail t.spelling.toList ++ y, by simp, fun _ => hmark⟩
  | name kind =>
    have := hoperand h
    rw [kind] at this
    cases this
  | number kind =>
    have := hoperand h
    rcases kind with kind | kind <;> rw [kind] at this <;> cases this
  | string kind =>
    have := hoperand h
    rw [kind] at this
    cases this
  | bareRemark => exact .inr ⟨.rem, 1, [], by simp [lead], by simp⟩
  | @remark _ _ _ text => exact .inr ⟨.rem, 1, text, by simp [lead], by simp⟩

/-- An operator is spelled alike behind all operands, but for the inequality of strings. -/
theorem spelling_operatorAfter {lhs : DataType} {u : Token} (hu : u ∈ binaryOperators)
    (h : operatorAfter lhs u ≠ .unequalString) :
    (operatorAfter lhs u).spelling = u.spelling := by
  have key : ∀ u ∈ binaryOperators, ∀ lhs ∈ [DataType.integer, DataType.string],
      operatorAfter lhs u ≠ .unequalString → (operatorAfter lhs u).spelling = u.spelling := by
    decide
  exact key u hu lhs (by cases lhs <;> simp) h

/-- A token has been read by its spelling, but for the inequality of strings. -/
theorem takes_word {t : Token} (ht : t ≠ .unequalString) {s text rest : List Char}
    (h : Takes (.token t) s text rest) :
    Lexeme.word t.spelling.toList s = some (text, rest) := by
  generalize hkind : LeafKind.token t = kind at h
  cases h with
  | reads h =>
    cases h with
    | word plain h =>
      cases hkind
      exact h
    | operator lhs first h =>
      cases hkind
      rwa [spelling_operatorAfter (List.mem_of_find?_eq_some first) ht]
    | negation h =>
      cases hkind
      exact word_of_negation h
    | integer | lineArgument | name | string => cases hkind
  | pointer _ h =>
    cases hkind
    exact h
  | @colon rest =>
    cases hkind
    exact word_spelling .colon rest

/-- What is listed for some leaves reads back as them. Whether it is akin to what was written is
left open where it begins with an inequality of strings. -/
structure ReadsBack (L : List Leaf) (x y : List Char) : Prop where
  aligned : Aligned SameBytes L x y
  akin : (∀ l ∈ L.head?, l.kind ≠ .token .unequalString) → Akin x y

/-- Spaces before what is listed make no difference. -/
theorem ReadsBack.spaces {L : List Leaf} {x y : List Char} (h : ReadsBack L x y)
    {gaps : List Char} (hgaps : ∀ c ∈ gaps, c = ' ') : ReadsBack L x (gaps ++ y) := by
  refine ⟨?_, fun hhead => (h.akin hhead).spaces_right hgaps⟩
  have hfront : front (gaps ++ y) = front y :=
    front_append (fun c hc => by rw [hgaps c hc]; rfl) y
  rw [← Aligned.front_iff, hfront, Aligned.front_iff]
  exact h.aligned

/-- The gaps of a printable text are spaces. -/
theorem eq_space_of_isPrintable {c : Char} (h : isPrintable c = true)
    (hgap : Text.isGap c = true) : c = ' ' := by
  simp only [Text.isGap, Bool.or_eq_true, beq_iff_eq] at hgap
  rcases hgap with rfl | rfl
  · rfl
  · cases h

section Leaf

variable {i : Input} {kind : LeafKind} {text rest : List Char} {L : List Leaf}
  (takes : Takes kind i.skip.rest text rest) (hprint : ∀ c ∈ i.rest, isPrintable c = true)
include takes hprint

theorem isPrintable_of_takes : ∀ c ∈ text ++ rest, isPrintable c = true := by
  intro c hc
  refine hprint c ?_
  rw [rest_eq_of_takes takes]
  exact List.mem_append_right _ hc

/-- A leaf and what is listed for it. -/
theorem ReadsBack.leaf (hrem : kind ≠ .token .rem) {text' y : List Char}
    (takes' : Takes kind (text' ++ y) text' y) (alike : Alike (text ++ rest) (text' ++ y))
    (hnegation : negation (text ++ rest) = none → negation (text' ++ y) = none)
    (same : SameBytes (i.skip.leafOf kind text) text')
    (tab : ∀ type, kind = .name type → tabNext y = false)
    (akin : kind ≠ .token .unequalString → Akin (text ++ rest) (text' ++ y))
    (h : Aligned SameBytes L rest y) :
    ReadsBack (i.skip.leafOf kind text :: L) i.rest (text' ++ y) := by
  have hfront : front i.rest = text ++ rest := takes.append.symm
  have hfront' : front (text' ++ y) = text' ++ y := front_of_head takes'.bare
  have hprint' := isPrintable_of_takes takes hprint
  constructor
  · refine .leaf takes.ne_nil hfront (by rwa [hfront']) (by rwa [hfront, hfront']) same hrem ?_
      (fun _ => by rwa [SameNegation, hfront, hfront']) h
    intro type htype
    rw [tab type htype, tabNext, beq_eq_false_iff_ne]
    intro htab
    have hmem : '\t' ∈ rest :=
      (List.dropWhile_suffix isSpace).subset (List.mem_of_mem_head? htab)
    cases hprint' '\t' (List.mem_append_right _ hmem)
  · intro hhead
    rw [rest_eq_of_takes takes]
    refine (akin (hhead _ rfl)).spaces_left fun c hc => ?_
    exact eq_space_of_isPrintable (hprint c ((List.takeWhile_prefix _).subset hc))
      (List.all_eq_true.1 List.all_takeWhile c hc)

/-- A leaf and what is listed for it, where the texts are akin. -/
theorem ReadsBack.leaf_of_akin (hrem : kind ≠ .token .rem) {text' y : List Char}
    (takes' : Takes kind (text' ++ y) text' y) (akin : Akin (text ++ rest) (text' ++ y))
    (hnegation : negation (text ++ rest) = none → negation (text' ++ y) = none)
    (same : SameBytes (i.skip.leafOf kind text) text')
    (tab : ∀ type, kind = .name type → tabNext y = false) (h : Aligned SameBytes L rest y) :
    ReadsBack (i.skip.leafOf kind text :: L) i.rest (text' ++ y) := by
  have hbare : Bare (text ++ rest) := takes.append ▸ takes.bare
  exact .leaf takes hprint hrem takes' (alike_of_akin hbare takes'.bare akin) hnegation same tab
    (fun _ => akin) h

end Leaf

/-- A token is read from its own spelling where it was read. -/
theorem takes_spelling {t : Token} (ht : t ≠ .unequalString) {s text rest z : List Char}
    (h : Takes (.token t) s text rest) (akin : Akin s (t.spelling.toList ++ z))
    (hz : t = .negation → ∀ c ∈ z.head?, Text.isAlphanumeric c = false) :
    Takes (.token t) (t.spelling.toList ++ z) t.spelling.toList z := by
  have hword := word_spelling t z
  generalize hkind : LeafKind.token t = kind at h
  cases h with
  | reads h =>
    cases h with
    | word plain h =>
      cases hkind
      exact .reads (.word plain hword)
    | @operator u _ _ _ lhs first h =>
      cases hkind
      rw [spelling_operatorAfter (List.mem_of_find?_eq_some first) ht] at hword akin ⊢
      rw [firstWord?_of_akin (bare_of_word h) (bare_of_word hword) akin] at first
      exact .reads (.operator lhs first hword)
    | negation h =>
      cases hkind
      refine .reads (.negation (Option.filter_eq_some_iff.2 ⟨hword, ?_⟩))
      cases hhead : z.head? with
      | none => simp [hhead]
      | some c => simp [hhead, hz rfl c hhead]
    | integer | lineArgument | name | string => cases hkind
  | pointer ht h =>
    cases hkind
    exact .pointer ht hword
  | colon =>
    cases hkind
    exact .colon

/-- A token in any spelling is akin to its own. Nothing is asked of what follows a closing
parenthesis. -/
theorem akin_spelling {t : Token} (ht : t ≠ .unequalString) {s text rest z : List Char}
    (h : Takes (.token t) s text rest) (hs : ∀ c ∈ s, c.toNat < 128)
    (hrest : t ≠ .close → Akin rest z) : Akin s (t.spelling.toList ++ z) := by
  have hword := takes_word ht h
  by_cases hclose : t = .close
  · subst hclose
    cases s with
    | nil => cases hword
    | cons c s =>
      rw [show Token.close.spelling.toList = [')'] from rfl, word_mark (by decide)] at hword
      by_cases hc : c = ')'
      · rw [hc]
        exact .barrier (by decide)
      · rw [if_neg hc] at hword
        cases hword
  · exact .of_word hs hword (hrest hclose)

theorem endsString_token {t : Token} (h : t ≠ .close) :
    (LeafKind.token t).endsString = false := by
  rw [LeafKind.endsString]
  · exact fun hkind => by cases hkind
  · exact fun hkind => by cases hkind
  · exact fun hkind => h (by cases hkind; rfl)

/-- A number as it is listed, with spaces behind it. -/
theorem isInteger_decimal (n : Nat) {gaps : List Char} (hgaps : ∀ c ∈ gaps, c = ' ') :
    IsInteger (Numeral.decimal n ++ gaps) := by
  have hdigit : ∀ c ∈ Numeral.decimal n, c.isDigit = true :=
    fun c hc => Numeral.isDigit_of_mem_decimal hc
  constructor
  · obtain ⟨c, more, hdecimal⟩ := List.exists_cons_of_ne_nil (Numeral.decimal_ne_nil n)
    rw [hdecimal] at hdigit ⊢
    exact ⟨c, more ++ gaps, rfl, hdigit c List.mem_cons_self⟩
  · intro c hc
    rcases List.mem_append.1 hc with hc | hc
    · simp [isDigitOrSpace, hdigit c hc]
    · simp [isDigitOrSpace, hgaps c hc]

theorem readToken_decimal {n : Nat} (h : n ≤ 65535) {gaps : List Char}
    (hgaps : ∀ c ∈ gaps, c = ' ') : Numeral.readToken (Numeral.decimal n ++ gaps) = .ok n := by
  have hnone : ∀ c ∈ gaps, c.isDigit = false := fun c hc => by rw [hgaps c hc]; rfl
  have hlength := Numeral.length_decimal_le (n := n) (by omega)
  have hfilter : gaps.filter Char.isDigit = [] :=
    List.filter_eq_nil_iff.2 fun c hc => by simp [hnone c hc]
  have hcount : ((Numeral.decimal n ++ gaps).filter Char.isDigit).length ≤ 5 := by
    rw [List.filter_append, hfilter, List.append_nil]
    exact (List.length_filter_le _ _).trans hlength
  have hlimit : Numeral.digitLimit = 4300 := rfl
  unfold Numeral.readToken
  dsimp only
  rw [if_neg (by omega), Numeral.digitsValue_append_right hnone, Numeral.digitsValue_decimal]

theorem sign_sign (tail : List Char) : sign (sign tail) = sign tail := by simp [sign]

theorem nameType_parts {run tail rest : List Char} (hrun : ∀ c ∈ run, c.isAlphanum = true)
    (h : EndsWith tail rest) :
    nameType (run ++ tail) = if sign tail = [] then .integer else .string := by
  rcases h with ⟨rfl, -⟩ | ⟨n, rfl⟩
  · have hlast : run.getLast? ≠ some '$' := by
      intro hlast
      cases hrun '$' (List.mem_of_getLast? hlast)
    rw [nameType, List.append_nil, if_neg hlast]
    rfl
  · rw [nameType, if_pos (by simp), if_neg (by simp [sign])]

theorem takeWhile_parts {run tail rest : List Char} (hrun : ∀ c ∈ run, c.isAlphanum = true)
    (h : EndsWith tail rest) : (run ++ tail).takeWhile Char.isAlphanum = run := by
  rw [List.takeWhile_append_of_pos hrun]
  rcases h with ⟨rfl, -⟩ | ⟨n, rfl⟩
  · simp
  · cases n with
    | zero => simp [show '$'.isAlphanum = false from rfl]
    | succ n => simp [List.replicate_succ, show ' '.isAlphanum = false from rfl]

theorem folded_toUpper (run : List Char) : folded (run.map Char.toUpper) = folded run := by
  rw [folded, folded, List.map_map]
  exact List.map_congr_left fun c _ => caseChange_toUpper.fold c

theorem map_toUpper_toUpper {run : List Char} (h : ∀ c ∈ run, c.isAlphanum = true) :
    (run.map Char.toUpper).map Char.toUpper = run.map Char.toUpper := by
  rw [List.map_map]
  exact List.map_congr_left fun c hc =>
    Text.alphanum_induction (P := fun c => c.toUpper.toUpper = c.toUpper) (by decide +kernel)
      (h c hc)

/-- A name that is spelled like `NOT` is taken for it. -/
theorem negation_of_folded {run rest : List Char} (hrun : ∀ c ∈ run, c.isAlphanum = true)
    (h : folded run = folded Token.negation.spelling.toList)
    (hrest : ∀ c ∈ rest.head?, c.isAlphanum = false) (hascii : ∀ c ∈ rest, c.toNat < 128) :
    negation (run ++ rest) = some (run, rest) := by
  have hspace : ∀ c ∈ run, isSpace c = false := fun c hc => isSpace_of_isAlphanum (hrun c hc)
  have hread : wordTail Token.negation.spelling.toList (run ++ rest) = some (run, rest) := by
    refine wordTail_of_folded (spelling_ne_space _) (fun c hc => ?_) h rest
    simpa [isSpace] using hspace c hc
  rw [← word_eq_wordTail (spelling_ne_space _)] at hread
  · refine Option.filter_eq_some_iff.2 ⟨hread, ?_⟩
    cases hhead : rest.head? with
    | none => simp [hhead]
    | some c =>
      have hc := hrest c hhead
      rw [← Text.isAlphanumeric_of_ascii (hascii c (List.mem_of_mem_head? hhead))] at hc
      simp [hhead, hc]
  · cases run with
    | nil => cases h
    | cons c run =>
      rintro _ ⟨⟩
      exact hspace c List.mem_cons_self

def inequality : List Char := ['<', '#']

theorem word_inequality {w : List Char} (hne : w ≠ []) (hw : ∀ c ∈ inequality, w.head? ≠ some c)
    {c : Char} (hc : c ∈ inequality) (s : List Char) : Lexeme.word w (c :: s) = none := by
  have key : ∀ c ∈ inequality, c.toNat < 65 := by decide
  cases w with
  | nil => exact absurd rfl hne
  | cons letter w =>
    refine word_cons_of_ne _ _ (sameLetter_of_ne (key c hc) ?_)
    simpa using hw c hc

/-- Texts that begin with an inequality look alike to a rule that has to choose. -/
theorem alike_of_inequality {c d : Char} {x y : List Char} (hc : c ∈ inequality)
    (hd : d ∈ inequality) (hx : firstWord? binaryOperators (c :: x) ≠ none) :
    Alike (c :: x) (d :: y) := by
  have hdigit : ∀ {c : Char} (s : List Char), c ∈ inequality → integer (c :: s) = none := by
    intro c s hc
    have key : ∀ c ∈ inequality, c.isDigit = false := by decide
    rw [integer, if_neg (by simp [key c hc])]
  have hmark : ∀ c ∈ inequality, ∀ m ∈ marks, c ≠ m := by decide
  have hword : ∀ w ∈ optionalWords, w.toList ≠ [] ∧ ∀ c ∈ inequality, w.toList.head? ≠ some c := by
    decide
  have hfunction : ∀ {c : Char} (s : List Char), c ∈ inequality → function? (c :: s) = none := by
    intro c s hc
    have key : ∀ f ∈ functions, ∀ c ∈ inequality, f.spelling.toList.head? ≠ some c := by decide
    refine List.find?_eq_none.2 fun f hf => ?_
    simp [word_inequality (spelling_ne_nil f) (key f hf) hc]
  have hform : ∀ {c : Char} (s : List Char), c ∈ inequality → Form.ofText? (c :: s) = none := by
    intro c s hc
    have key : ∀ form ∈ Form.all, ∀ c ∈ inequality,
        form.token.spelling.toList.head? ≠ some c := by decide
    refine List.find?_eq_none.2 fun form hform => ?_
    simp [word_inequality (spelling_ne_nil form.token) (key form hform) hc]
  refine ⟨by simp, by rw [hdigit _ hc, hdigit _ hd], fun m hm => ?_, fun w hw => ?_,
    by rw [hfunction _ hc, hfunction _ hd], fun hnone => absurd hnone hx,
    by rw [hform _ hc, hform _ hd]⟩
  · simp [hmark c hc m hm, hmark d hd m hm]
  · rw [word_inequality (hword w hw).1 (hword w hw).2 hc,
      word_inequality (hword w hw).1 (hword w hw).2 hd]

/-- What the operators begin with that are stored as an inequality of strings. -/
theorem exists_cons_of_inequality {u : Token} (hu : operatorAfter .string u = .unequalString)
    {s text rest : List Char} (h : Lexeme.word u.spelling.toList s = some (text, rest)) :
    ∃ c more, s = c :: more ∧ c ∈ inequality := by
  have key : ∀ u ∈ Token.all, operatorAfter .string u = .unequalString →
      ∃ p ∈ inequality, u.spelling.toList.head? = some p ∧ p.toNat < 65 := by decide +kernel
  obtain ⟨p, hp, hhead, hlt⟩ := key u (Token.mem_all u) hu
  obtain ⟨w, hw⟩ := List.head?_eq_some_iff.1 hhead
  rw [hw] at h
  cases s with
  | nil => cases h
  | cons c more =>
    refine ⟨c, more, rfl, ?_⟩
    cases hsame : sameLetter p c with
    | true =>
      rw [sameLetter_mark hlt, beq_iff_eq] at hsame
      rwa [hsame]
    | false =>
      rw [word_cons_of_ne _ _ hsame] at h
      cases h

section Leaf

variable {i : Input} {text rest y : List Char} {L : List Leaf}

theorem ReadsBack.token {t : Token} (takes : Takes (.token t) i.skip.rest text rest)
    (hprint : ∀ c ∈ i.rest, isPrintable c = true) (hrem : t ≠ .rem) (ht : t ≠ .unequalString)
    (hfounded : (i.skip.leafOf (.token t) text :: L).IsChain Founds) (h : ReadsBack L rest y)
    (spaced : Bool) :
    ReadsBack (i.skip.leafOf (.token t) text :: L) i.rest
      ((spacedWord t.spelling.toList spaced).1 ++ y) := by
  have hmore : ReadsBack L rest (trail t.spelling.toList ++ y) :=
    h.spaces fun c hc => eq_space_of_mem_trail hc
  have hascii : ∀ c ∈ text ++ rest, c.toNat < 128 := fun c hc =>
    toNat_lt_of_isPrintable (isPrintable_of_takes takes hprint c hc)
  rw [takes.append] at hascii
  have hakin : Akin i.skip.rest (t.spelling.toList ++ (trail t.spelling.toList ++ y)) :=
    akin_spelling ht takes hascii fun hclose =>
      hmore.akin (ne_unequalString_of_chain hfounded (endsString_token hclose))
  have htakes : Takes (.token t) (t.spelling.toList ++ (trail t.spelling.toList ++ y))
      t.spelling.toList (trail t.spelling.toList ++ y) := by
    refine takes_spelling ht takes hakin ?_
    rintro rfl _ ⟨⟩
    decide
  have hnegation : negation (text ++ rest) = none →
      negation (t.spelling.toList ++ (trail t.spelling.toList ++ y)) = none := by
    intro hnone
    refine negation_spelling ?_ _
    rintro rfl
    rw [takes.append, takes.negation] at hnone
    cases hnone
  rw [spacedWord_eq, List.append_assoc, List.append_assoc]
  refine ReadsBack.spaces ?_ ?_
  · exact .leaf_of_akin takes hprint (by simpa using hrem) htakes (takes.append ▸ hakin) hnegation
      ⟨rfl, by simp [Input.leafOf]⟩ (by simp) hmore.aligned
  · intro c hc
    split at hc
    · exact eq_space_of_mem_lead hc
    · cases hc

/-- Behind a number only spaces belong to it that stand before the next word. -/
theorem ReadsBack.number {kind : LeafKind} (takes : Takes kind i.skip.rest text rest)
    (hprint : ∀ c ∈ i.rest, isPrintable c = true)
    (hkind : kind = .integer ∨ kind = .lineArgument) {n : Nat}
    (hread : Numeral.readToken text = .ok n) (hlimit : n ≤ 65535) (hy : Separated y)
    (h : ReadsBack L rest y) :
    ReadsBack (i.skip.leafOf kind text :: L) i.rest (Numeral.decimal n ++ y) := by
  have hspaces : ∀ c ∈ y.takeWhile isSpace, c = ' ' := fun c hc => by
    simpa [isSpace] using List.all_eq_true.1 List.all_takeWhile c hc
  rw [← List.takeWhile_append_dropWhile (p := isSpace) (l := y), ← List.append_assoc]
  generalize hnumber : Numeral.decimal n ++ y.takeWhile isSpace = number
  have hinteger : IsInteger number := hnumber ▸ isInteger_decimal n hspaces
  obtain ⟨c, more, htext, hc⟩ := (integer_some (takes.integer hkind)).2.1.head
  obtain ⟨d, more', hd, hdigit⟩ := hinteger.head
  have htakes : Takes kind (number ++ y.dropWhile isSpace) number (y.dropWhile isSpace) := by
    have := integer_append hinteger hy.endsNumber
    rcases hkind with rfl | rfl
    · exact .reads (.integer this)
    · exact .reads (.lineArgument this)
  refine .leaf_of_akin takes hprint (by rcases hkind with rfl | rfl <;> simp) htakes ?_ ?_ ?_
    (by rcases hkind with rfl | rfl <;> simp) h.aligned.dropSpaces
  · rw [htext, hd]
    exact .digit hc hdigit
  · intro _
    rw [hd]
    exact negation_cons (sameLetter_of_isDigit (by decide) hdigit) _
  · have hsame : Numeral.readToken number = Numeral.readToken text := by
      rw [hread, ← hnumber, readToken_decimal hlimit hspaces]
    rcases hkind with rfl | rfl
    · exact ⟨by simp only [storeLeaf, Input.leafOf, hsame], by simp [Input.leafOf]⟩
    · exact ⟨by simp only [storeLeaf, Input.leafOf, hsame], by simp [Input.leafOf]⟩

theorem ReadsBack.name {type : DataType} (takes : Takes (.name type) i.skip.rest text rest)
    (hprint : ∀ c ∈ i.rest, isPrintable c = true)
    (hfounded : (i.skip.leafOf (.name type) text :: L).IsChain Founds) (hy : Separated y)
    (h : ReadsBack L rest y) :
    ReadsBack (i.skip.leafOf (.name type) text :: L) i.rest (listedName text ++ y) := by
  obtain ⟨hname, htype⟩ := takes.name
  obtain ⟨c, run, tail, rfl, hc, hrun, hends⟩ := name_some hname
  have hall : ∀ d ∈ c :: run, d.isAlphanum = true :=
    List.forall_mem_cons.2 ⟨by simp [Char.isAlphanum, hc], hrun⟩
  have hupper : ∀ d ∈ (c :: run).map Char.toUpper, d.isAlphanum = true := by
    intro d hd
    obtain ⟨e, he, rfl⟩ := List.mem_map.1 hd
    exact (toUpper_of_isAlphanum (hall e he)).1
  have hends' : EndsWith (sign tail) y := by
    rcases sign_of_endsWith hends with ⟨-, -, hsign⟩ | ⟨-, hsign⟩
    · exact .inl ⟨hsign, hy.endsName⟩
    · exact .inr ⟨0, hsign⟩
  rw [listedName_parts hall hends]
  have htakes : Takes (.name type) ((c :: run).map Char.toUpper ++ sign tail ++ y)
      ((c :: run).map Char.toUpper ++ sign tail) y := by
    have hletter : c.toUpper.isAlpha = true := by
      rw [(toUpper_of_isAlphanum (hall c List.mem_cons_self)).2.1, hc]
    have hread := name_of_parts hletter (fun d hd => hupper d (List.mem_cons_of_mem _ hd)) hends'
    have htype' : nameType ((c :: run).map Char.toUpper ++ sign tail) = type := by
      rw [nameType_parts hupper hends', sign_sign, ← nameType_parts hall hends, htype]
    rw [← htype', List.append_assoc]
    exact .reads (.name hread)
  have hakin : Akin (c :: run ++ tail ++ rest) ((c :: run).map Char.toUpper ++ sign tail ++ y) := by
    rw [List.append_assoc, List.append_assoc]
    refine .of_run hall ?_
    rcases hends with ⟨rfl, hrest⟩ | ⟨n, rfl⟩
    · refine h.akin (ne_unequalString_of_chain hfounded ?_)
      have hinteger := nameType_parts hall (.inl ⟨rfl, hrest⟩)
      rw [htype] at hinteger
      rw [hinteger]
      rfl
    · have hsign : sign (List.replicate n ' ' ++ ['$']) = ['$'] := by simp [sign]
      rw [hsign, List.append_assoc]
      refine .spaces_left (.barrier (by decide)) fun d hd => List.eq_of_mem_replicate hd
  have hascii : ∀ d ∈ tail ++ rest, d.toNat < 128 := fun d hd =>
    toNat_lt_of_isPrintable (isPrintable_of_takes takes hprint d
      (by rw [List.append_assoc]; exact List.mem_append_right _ hd))
  refine .leaf_of_akin takes hprint (by simp) htakes hakin (fun hnone => ?_) ⟨?_, fun _ _ => ?_⟩
    (fun _ _ => hy.tabNext) h.aligned
  · rw [List.append_assoc] at hnone ⊢
    refine negation_name hupper (by simp) ?_ fun hname => ?_
    · rcases sign_of_endsWith hends with ⟨-, -, hsign⟩ | ⟨-, hsign⟩
      · exact .inl ⟨hsign, hy⟩
      · exact .inr hsign
    · rw [folded_toUpper] at hname
      rw [negation_of_folded hall hname (isAlphanum_head_of_endsWith hends) hascii] at hnone
      cases hnone
  · show Except.ok _ = Except.ok _
    rw [Input.leafOf, storeName_parts hupper hends', storeName_parts hall hends, sign_sign,
      map_toUpper_toUpper hall]
  · rw [Input.leafOf, takeWhile_parts hall hends, takeWhile_parts hupper hends',
      folded_toUpper]

/-- A string is read up to its closing quote. -/
theorem ReadsBack.string (takes : Takes .string i.skip.rest text rest)
    (hprint : ∀ c ∈ i.rest, isPrintable c = true) {shown : List Char}
    (hshows : Shows shown (storeText text.tail.dropLast)) (hquote : '"' ∉ shown)
    (h : ReadsBack L rest y) :
    ReadsBack (i.skip.leafOf .string text :: L) i.rest ('"' :: shown ++ '"' :: y) := by
  obtain ⟨inner, rfl, -⟩ := string_some takes.string
  have hparts : '"' :: shown ++ '"' :: y = '"' :: shown ++ ['"'] ++ y := by simp
  rw [hparts]
  refine .leaf_of_akin takes hprint (by simp) (.reads (.string (string_of_parts hquote y)))
    (.barrier (by decide)) (fun _ => negation_cons (by decide) _) ⟨?_, by simp [Input.leafOf]⟩
    (by simp) h.aligned
  have hstored : storeText shown = storeText inner := by simpa using hshows.store
  simp [storeLeaf, Input.leafOf, hstored]

/-- The inequality of strings in either spelling. -/
theorem ReadsBack.unequalString (takes : Takes (.token .unequalString) i.skip.rest text rest)
    (hprint : ∀ c ∈ i.rest, isPrintable c = true) (h : ReadsBack L rest y) :
    ReadsBack (i.skip.leafOf (.token .unequalString) text :: L) i.rest ('#' :: y) := by
  have hoperator : Takes (.token (operatorAfter .string .unequal)) i.skip.rest text rest := takes
  obtain ⟨u, first, hword, hu⟩ := hoperator.operator (by decide)
  obtain ⟨c, more, hskip, hc⟩ := exists_cons_of_inequality hu hword
  have hsome : firstWord? binaryOperators (c :: more) ≠ none := by
    rw [← hskip, first]
    simp
  have hfirst : firstWord? binaryOperators ('#' :: y) = some .hash := rfl
  have htakes : Takes (.token .unequalString) (['#'] ++ y) ['#'] y :=
    .reads (.operator .string hfirst (word_spelling .hash y))
  have halike : Alike (text ++ rest) (['#'] ++ y) := by
    rw [takes.append, hskip]
    exact alike_of_inequality hc (by decide) hsome
  exact .leaf takes hprint (by simp) htakes halike (fun _ => negation_cons (by decide) _)
    ⟨rfl, by simp [Input.leafOf]⟩ (by simp) (fun hne => absurd rfl hne) h.aligned

/-- A remark and what is listed for it. -/
theorem akin_remark {read : List Char × List Char}
    (hread : Lexeme.word Token.rem.spelling.toList i.skip.rest = some read)
    (hprint : ∀ c ∈ i.rest, isPrintable c = true) (spaced : Bool) (shown : List Char) :
    front (lead spaced ++ Token.rem.spelling.toList ++ shown) =
        Token.rem.spelling.toList ++ shown ∧
      Alike (front i.rest) (Token.rem.spelling.toList ++ shown) ∧
      Akin i.rest (lead spaced ++ Token.rem.spelling.toList ++ shown) := by
  have hlead : ∀ c ∈ lead spaced, Text.isGap c = true := fun c hc => by
    rw [eq_space_of_mem_lead hc]
    rfl
  have hword := word_spelling .rem shown
  have hbare : Bare (Token.rem.spelling.toList ++ shown) := bare_of_word hword
  have hakin : Akin (front i.rest) (Token.rem.spelling.toList ++ shown) :=
    .remark (by rw [remark, ← rest_skip, hread]; rfl) (by rw [remark, hword]; rfl)
  refine ⟨?_, ?_, ?_⟩
  · rw [List.append_assoc, front_append hlead, front_of_head hbare]
  · exact alike_of_akin (bare_front _) hbare hakin
  · rw [List.append_assoc]
    refine .spaces_right ?_ fun c hc => eq_space_of_mem_lead hc
    rw [← List.takeWhile_append_dropWhile (p := Text.isGap) (l := i.rest)]
    refine hakin.spaces_left fun c hc => ?_
    exact eq_space_of_isPrintable (hprint c ((List.takeWhile_prefix _).subset hc))
      (List.all_eq_true.1 List.all_takeWhile c hc)

/-- A remark with nothing behind its word. -/
theorem ReadsBack.bareRemark
    (read : Lexeme.word Token.rem.spelling.toList i.skip.rest = some (text, []))
    (hprint : ∀ c ∈ i.rest, isPrintable c = true) (spaced : Bool) :
    ReadsBack [i.skip.leafOf (.token .rem) text] i.rest
      (lead spaced ++ Token.rem.spelling.toList) := by
  obtain ⟨hfront, halike, hakin⟩ := akin_remark read hprint spaced []
  simp only [List.append_nil] at hfront halike hakin
  have hword : SameBytes (i.skip.leafOf (.token .rem) text) Token.rem.spelling.toList :=
    ⟨rfl, by simp [Input.leafOf]⟩
  refine ⟨.bareRemark rfl (ne_nil_of_word (spelling_ne_nil _) read) ?_ ?_ ?_ hword,
    fun _ => hakin⟩
  · rw [← rest_skip, ← append_of_word read, List.append_nil]
    rfl
  · rw [hfront]
    exact word_spelling .rem []
  · rwa [hfront]

theorem ReadsBack.remark
    (read : Lexeme.word Token.rem.spelling.toList i.skip.rest = some (text, rest))
    (ne : rest ≠ []) (hprint : ∀ c ∈ i.rest, isPrintable c = true) (spaced : Bool)
    {shown : List Char} (hshows : Shows shown (storeText rest)) :
    ReadsBack [i.skip.leafOf (.token .rem) text, (i.skip.after text rest).leafOf .comment rest]
      i.rest (lead spaced ++ Token.rem.spelling.toList ++ shown) := by
  obtain ⟨hfront, halike, hakin⟩ := akin_remark read hprint spaced shown
  have hshown : shown ≠ [] := by
    rintro rfl
    exact storeText_ne_nil ne hshows.store.symm
  have hword : SameBytes (i.skip.leafOf (.token .rem) text) Token.rem.spelling.toList :=
    ⟨rfl, by simp [Input.leafOf]⟩
  have hcomment : SameBytes ((i.skip.after text rest).leafOf .comment rest) shown :=
    ⟨congrArg Except.ok hshows.store, by simp [Input.leafOf]⟩
  refine ⟨.remark rfl (ne_nil_of_word (spelling_ne_nil _) read) ?_ ?_ ?_ hword rfl ne hshown
    hcomment, fun _ => hakin⟩
  · rw [← rest_skip, ← append_of_word read]
    rfl
  · rw [hfront]
    exact word_spelling .rem shown
  · rwa [hfront]

end Leaf

/-- At the end of a line there may be spaces. -/
theorem ReadsBack.nil {i : Input} (hnil : front i.rest = [])
    (hprint : ∀ c ∈ i.rest, isPrintable c = true) : ReadsBack [] i.rest [] := by
  refine ⟨.nil hnil rfl, fun _ => ?_⟩
  rw [← List.takeWhile_append_dropWhile (p := Text.isGap) (l := i.rest), ← front, hnil]
  refine Akin.nil.spaces_left fun c hc => ?_
  exact eq_space_of_isPrintable (hprint c ((List.takeWhile_prefix _).subset hc))
    (List.all_eq_true.1 List.all_takeWhile c hc)

/-- The word of a remark is listed with the rest of the line. -/
theorem Rendered.of_rem {spaced : Bool} {l : Leaf} {L : List Leaf} {y : List Char}
    (kind : l.kind = .token .rem) (h : Rendered spaced (l :: L) y) :
    (L = [] ∧ y = lead spaced ++ Token.rem.spelling.toList) ∨
      ∃ c text, L = [c] ∧ Shows text (storeText c.text) ∧
        y = lead spaced ++ Token.rem.spelling.toList ++ text := by
  cases h with
  | token hkind ht =>
    rw [kind] at hkind
    cases hkind
    exact absurd rfl ht
  | name hkind => rw [kind] at hkind; cases hkind
  | number hkind => rw [kind] at hkind; rcases hkind with hkind | hkind <;> cases hkind
  | string hkind => rw [kind] at hkind; cases hkind
  | bareRemark => exact .inl ⟨rfl, rfl⟩
  | remark _ _ hshows => exact .inr ⟨_, _, rfl, hshows, rfl⟩

/-- What is listed for the leaves of a line reads back as them. The induction is along the leaves
as they are written; which of the ways to list it applies to a leaf is told by its kind. -/
theorem readsBack_of_written {q : Bool} {i : Input} {L : List Leaf} (h : Written q i L)
    (hprint : ∀ c ∈ i.rest, isPrintable c = true) (hfounded : L.IsChain Founds) {spaced : Bool}
    {y : List Char} (hy : Rendered spaced L y) : ReadsBack L i.rest y := by
  induction h generalizing spaced y with
  | done hnil =>
    cases hy
    exact .nil hnil hprint
  | @leaf q i kind text rest L takes hrem allowed more ih =>
    have hrest : ∀ c ∈ rest, isPrintable c = true := fun c hc =>
      isPrintable_of_takes takes hprint c (List.mem_append_right _ hc)
    have hmore : ∀ {spaced y}, Rendered spaced L y → ReadsBack L rest y :=
      fun hy => ih hrest hfounded.tail hy
    cases hy with
    | @token _ t _ _ y hkind ht hy =>
      obtain rfl : kind = .token t := hkind
      by_cases hunequal : t = .unequalString
      · subst hunequal
        exact .unequalString takes hprint (hmore hy)
      · exact .token takes hprint ht hunequal hfounded (hmore hy) spaced
    | @name _ type _ _ y hkind _ hy =>
      obtain rfl : kind = .name type := hkind
      exact .name takes hprint hfounded (separated_of_rendered more hy) (hmore hy)
    | @number _ n _ _ y hkind hread hlimit hy =>
      have hoperand : kind.isOperand = true := by
        rcases hkind with hkind | hkind <;> obtain rfl := hkind <;> rfl
      rw [hoperand] at more
      exact .number takes hprint hkind hread hlimit (separated_of_rendered more hy) (hmore hy)
    | string hkind hshows hquote hy =>
      obtain rfl : kind = .string := hkind
      exact .string takes hprint hshows hquote (hmore hy)
    | bareRemark hkind => exact absurd hkind hrem
    | remark hkind => exact absurd hkind hrem
  | bareRemark read =>
    obtain ⟨-, rfl⟩ | ⟨c, shown, hnil, -⟩ := hy.of_rem rfl
    · exact .bareRemark read hprint spaced
    · cases hnil
  | remark read ne =>
    obtain ⟨hnil, -⟩ | ⟨c, shown, hmore, hshows, rfl⟩ := hy.of_rem rfl
    · cases hnil
    · cases hmore
      exact .remark read ne hprint spaced hshows

end IntegerBasic.Record
