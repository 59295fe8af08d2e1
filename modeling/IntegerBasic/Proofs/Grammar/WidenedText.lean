import IntegerBasic.Proofs.Grammar.LineSimulation
import IntegerBasic.Proofs.Grammar.Phrases
import IntegerBasic.Proofs.Grammar.Spelling

/-!
# Texts with more spaces

A text is widened by spaces before some of its characters. The reader of a word skips spaces before
each letter, so that it reads the widened text of the word and stops where it stopped before. A
sound line that is widened anywhere but inside its names, strings and remarks is then read alike,
leaf by leaf, as long as no `NOT` comes to be set off from the letters behind it.
-/

namespace IntegerBasic

/-- Names, strings and remarks are read character by character, spaces included. -/
def LeafKind.isContiguous : LeafKind → Bool
  | .name _ | .string | .comment => true
  | _ => false

namespace Lexeme

/-- A text with `n col` more spaces before the character in each column `col`, where the text begins
in column `start`. -/
def widen (n : Nat → Nat) (start : Nat) : List Char → List Char
  | [] => []
  | c :: s => List.replicate (n start) ' ' ++ c :: widen n (start + 1) s

def widenTail (n : Nat → Nat) (start : Nat) : List Char → List Char
  | [] => []
  | c :: s => c :: widen n (start + 1) s

variable {n : Nat → Nat} {start : Nat} {s text rest : List Char}

theorem widen_append (n : Nat → Nat) (start : Nat) (s t : List Char) :
    widen n start (s ++ t) = widen n start s ++ widen n (start + s.length) t := by
  induction s generalizing start with
  | nil => rfl
  | cons c s ih =>
    have hcol : start + 1 + s.length = start + (c :: s).length := by
      rw [List.length_cons]
      omega
    rw [List.cons_append, widen, widen, ih, hcol, List.append_assoc, List.cons_append]

theorem widenTail_append (hs : s ≠ []) (t : List Char) :
    widenTail n start (s ++ t) = widenTail n start s ++ widen n (start + s.length) t := by
  obtain ⟨c, s, rfl⟩ := List.exists_cons_of_ne_nil hs
  have hcol : start + 1 + s.length = start + (c :: s).length := by
    rw [List.length_cons]
    omega
  rw [List.cons_append, widenTail, widenTail, widen_append, hcol, List.cons_append]

theorem widen_eq (hs : s ≠ []) :
    widen n start s = List.replicate (n start) ' ' ++ widenTail n start s := by
  obtain ⟨c, s, rfl⟩ := List.exists_cons_of_ne_nil hs
  rfl

@[simp] theorem head?_widenTail (n : Nat → Nat) (start : Nat) (s : List Char) :
    (widenTail n start s).head? = s.head? := by
  cases s <;> rfl

/-- A text that is not widened anywhere. -/
theorem widen_of_zero (h : ∀ k < s.length, n (start + k) = 0) : widen n start s = s := by
  induction s generalizing start with
  | nil => rfl
  | cons c s ih =>
    have hmore : widen n (start + 1) s = s := ih fun k hk => by
      have := h (k + 1) (Nat.succ_lt_succ hk)
      rwa [show start + 1 + k = start + (k + 1) by omega]
    have hstart : n start = 0 := h 0 (Nat.succ_pos _)
    rw [widen, hmore, hstart, List.replicate_zero, List.nil_append]

theorem widenTail_of_zero (h : ∀ k, 0 < k → k < s.length → n (start + k) = 0) :
    widenTail n start s = s := by
  cases s with
  | nil => rfl
  | cons c s =>
    refine congrArg (c :: ·) (widen_of_zero fun k hk => ?_)
    have := h (k + 1) (Nat.succ_pos k) (Nat.succ_lt_succ hk)
    rwa [show start + 1 + k = start + (k + 1) by omega]

theorem mem_widen {c : Char} (h : c ∈ widen n start s) : c = ' ' ∨ c ∈ s := by
  induction s generalizing start with
  | nil => cases h
  | cons d s ih =>
    rcases List.mem_append.1 h with h | h
    · exact .inl (List.eq_of_mem_replicate h)
    · rcases List.mem_cons.1 h with rfl | h
      · exact .inr List.mem_cons_self
      · exact (ih h).imp_right (List.mem_cons_of_mem _)

theorem filter_widen {p : Char → Bool} (hp : p ' ' = false) (n : Nat → Nat) (start : Nat)
    (s : List Char) : (widen n start s).filter p = s.filter p := by
  induction s generalizing start with
  | nil => rfl
  | cons c s ih =>
    have hspaces : (List.replicate (n start) ' ').filter p = [] :=
      List.filter_eq_nil_iff.2 fun d hd => by simp [List.eq_of_mem_replicate hd, hp]
    rw [widen, List.filter_append, hspaces, List.nil_append, List.filter_cons, List.filter_cons, ih]

theorem filter_widenTail {p : Char → Bool} (hp : p ' ' = false) (n : Nat → Nat) (start : Nat)
    (s : List Char) : (widenTail n start s).filter p = s.filter p := by
  cases s with
  | nil => rfl
  | cons c s => rw [widenTail, List.filter_cons, List.filter_cons, filter_widen hp]

/-- What is at the front of a widened text, and what comes behind it. -/
theorem span_widen (p : Char → Bool) (n : Nat → Nat) (start : Nat) (s : List Char) :
    ∃ k, widen n start s = widen n start (s.takeWhile p) ++ List.replicate k ' ' ++
      widenTail n (start + (s.takeWhile p).length) (s.dropWhile p) := by
  have hwiden := widen_append n start (s.takeWhile p) (s.dropWhile p)
  rw [List.takeWhile_append_dropWhile] at hwiden
  by_cases hdrop : s.dropWhile p = []
  · refine ⟨0, ?_⟩
    rw [hwiden, hdrop, List.replicate_zero, List.append_nil]
    rfl
  · exact ⟨_, by rw [hwiden, widen_eq hdrop, List.append_assoc]⟩

theorem of_mem_front {p : Char → Bool} (hp : p ' ' = true) {c : Char} {k : Nat}
    (h : c ∈ widen n start (s.takeWhile p) ++ List.replicate k ' ') :
    p c = true ∧ (c = ' ' ∨ c ∈ s.takeWhile p) := by
  rcases List.mem_append.1 h with h | h
  · rcases mem_widen h with rfl | h
    · exact ⟨hp, .inl rfl⟩
    · exact ⟨List.all_eq_true.1 List.all_takeWhile c h, .inr h⟩
  · rw [List.eq_of_mem_replicate h]
    exact ⟨hp, .inl rfl⟩

theorem head_widenTail_dropWhile {p : Char → Bool} (n : Nat → Nat) (start : Nat) (s : List Char) :
    ∀ c ∈ (widenTail n start (s.dropWhile p)).head?, p c = false := by
  intro c hc
  rw [head?_widenTail] at hc
  have := List.head?_dropWhile_not p s
  rwa [hc] at this

theorem dropWhile_widen {p : Char → Bool} (hp : p ' ' = true) (n : Nat → Nat) (start : Nat)
    (s : List Char) : (widen n start s).dropWhile p =
      widenTail n (start + (s.takeWhile p).length) (s.dropWhile p) := by
  obtain ⟨k, hwiden⟩ := span_widen p n start s
  rw [hwiden, List.dropWhile_append_of_pos fun c hc => (of_mem_front hp hc).1]
  exact dropWhile_of_head (head_widenTail_dropWhile n _ s)

theorem mem_takeWhile_widen {p : Char → Bool} (hp : p ' ' = true) {c : Char}
    (h : c ∈ (widen n start s).takeWhile p) : c = ' ' ∨ c ∈ s.takeWhile p := by
  obtain ⟨k, hwiden⟩ := span_widen p n start s
  have hsplit := List.takeWhile_append_dropWhile (p := p) (l := widen n start s)
  rw [dropWhile_widen hp] at hsplit
  rw [hwiden, List.append_left_inj, ← hwiden] at hsplit
  exact (of_mem_front hp (hsplit ▸ h)).2

/-- A widened text is akin to the text. -/
theorem akin_widen (n : Nat → Nat) (start : Nat) (s : List Char) : Akin s (widen n start s) := by
  induction s generalizing start with
  | nil => exact .nil
  | cons c s ih =>
    exact Akin.spaces_right (.cons (.refl c) (ih _)) fun d hd => List.eq_of_mem_replicate hd

theorem akin_widenTail (n : Nat → Nat) (start : Nat) (s : List Char) :
    Akin s (widenTail n start s) := by
  cases s with
  | nil => exact .nil
  | cons c s => exact .cons (.refl c) (akin_widen n _ s)

/-- The later letters of a word are read from the widened text of the word. -/
theorem wordTail_widen {w : List Char} (hw : ∀ c ∈ w, c ≠ ' ')
    (h : wordTail w s = some (text, rest)) :
    wordTail w (widen n start s) =
      some (widen n start text, widen n (start + text.length) rest) := by
  induction w generalizing s start text with
  | nil =>
    cases h
    rfl
  | cons letter w ih =>
    obtain ⟨hletter, hw⟩ := List.forall_mem_cons.1 hw
    obtain ⟨c, more, read, hdrop, hsame, hread, rfl⟩ := wordTail_cons_some hletter h
    generalize hspaces : s.takeWhile isSpace = spaces
    have hs : s = spaces ++ c :: more := by
      rw [← hspaces, ← hdrop, List.takeWhile_append_dropWhile]
    -- the spaces before the letter are taken with it, the new ones too
    have hdrop' : (widen n start s).dropWhile isSpace =
        c :: widen n (start + spaces.length + 1) more := by
      rw [dropWhile_widen rfl, hdrop, hspaces]
      rfl
    have htake : (widen n start s).takeWhile isSpace ++
        c :: widen n (start + spaces.length + 1) more = widen n start s := by
      rw [← hdrop', List.takeWhile_append_dropWhile]
    have hsplit : widen n start s = widen n start spaces ++
        List.replicate (n (start + spaces.length)) ' ' ++
          c :: widen n (start + spaces.length + 1) more := by
      rw [hs, widen_append, widen, List.append_assoc]
    rw [hsplit, List.append_left_inj] at htake
    have hcol : start + spaces.length + 1 + read.length =
        start + (spaces ++ c :: read).length := by
      rw [List.length_append, List.length_cons]
      omega
    rw [wordTail_cons_same hletter hdrop' hsame, ih hw hread, Option.map_some, hsplit, htake, hcol,
      widen_append, widen, ← List.append_assoc]

/-- A word is read from its widened text. -/
theorem word_widenTail {t : Token} (h : word t.spelling.toList s = some (text, rest)) :
    word t.spelling.toList (widenTail n start s) =
      some (widenTail n start text, widen n (start + text.length) rest) := by
  have hplain := spelling_ne_space t
  cases hspelling : t.spelling.toList with
  | nil => exact absurd hspelling (Grammar.spelling_ne_nil t)
  | cons letter w =>
    rw [hspelling] at h hplain
    obtain ⟨c, more, read, rfl, hsame, hread, rfl⟩ := word_cons_some h
    have hmore := @wordTail_widen n (start + 1) _ _ _ _
      (fun d hd => hplain d (List.mem_cons_of_mem _ hd)) hread
    have hcol : start + 1 + read.length = start + (c :: read).length := by
      rw [List.length_cons]
      omega
    rw [widenTail, word, if_pos hsame, hmore, Option.map_some, hcol]
    rfl

theorem head?_widen {c : Char} (h : (widen n start s).head? = some c) :
    c = ' ' ∨ s.head? = some c := by
  cases s with
  | nil => cases h
  | cons d s =>
    rw [widen] at h
    cases hn : n start with
    | zero =>
      rw [hn] at h
      exact .inr h
    | succ m =>
      rw [hn] at h
      exact .inl (Option.some.inj h).symm

theorem head?_dropSpaces_widen (n : Nat → Nat) (start : Nat) (s : List Char) :
    ((widen n start s).dropWhile isSpace).head? = (s.dropWhile isSpace).head? := by
  rw [dropWhile_widen rfl, head?_widenTail]

theorem EndsName.widen (h : EndsName rest) : EndsName (widen n start rest) := by
  refine ⟨fun c hc => ?_, by rw [head?_dropSpaces_widen]; exact h.dollar⟩
  rcases head?_widen hc with rfl | hc
  · rfl
  · exact h.head c hc

/-- Only spaces come between a number and what ends it. -/
theorem endsNumber_widen (h : EndsNumber rest) :
    EndsNumber ((Lexeme.widen n start rest).dropWhile isSpace) := by
  intro c hc
  rw [head?_dropSpaces_widen, dropWhile_of_head] at hc
  · exact h c hc
  · intro d hd
    have := h d hd
    rw [isDigitOrSpace, Bool.or_eq_false_iff] at this
    exact this.2

theorem isInteger_widenTail (h : IsInteger text) {gaps : List Char} (hgaps : ∀ c ∈ gaps, c = ' ') :
    IsInteger (widenTail n start text ++ gaps) := by
  obtain ⟨c, more, rfl, hc⟩ := h.head
  refine ⟨⟨c, _, rfl, hc⟩, fun d hd => ?_⟩
  rcases List.mem_append.1 hd with hd | hd
  · rcases List.mem_cons.1 hd with rfl | hd
    · exact h.all _ List.mem_cons_self
    · rcases mem_widen hd with rfl | hd
      · rfl
      · exact h.all d (List.mem_cons_of_mem _ hd)
  · rw [hgaps d hd]
    rfl

end Lexeme

namespace Grammar

open Lexeme

variable {n : Nat → Nat}

structure Respaced (l : Leaf) (text : List Char) : Prop where
  letters : Text.withoutSpaces text = Text.withoutSpaces l.text
  whole : l.kind.isContiguous = true → text = l.text

theorem foldsNames_respaced : FoldsNames Respaced := by
  intro type name text span h
  rw [h.whole rfl]

/-- New spaces that leave a line as it is read: they stand neither inside a name, a string or a
remark nor at the beginning of a remark, which would take them in, and they do not set off a `NOT`
from a letter or digit behind it that has kept it from being read where a name stands. -/
structure KeepsLeaves (n : Nat → Nat) (s : List Char) (L : List Leaf) : Prop where
  inside : ∀ l ∈ L, l.kind.isContiguous = true →
    ∀ col, l.span.start.col < col → col < l.span.stop.col → n col = 0
  comment : ∀ l ∈ L, l.kind = .comment → n l.span.start.col = 0
  negation : ∀ l ∈ L, l.kind.isName = true →
    ∀ read ∈ Lexeme.word Token.negation.spelling.toList (s.drop l.span.start.col),
      read.2.head?.any Text.isAlphanumeric = true → n (l.span.start.col + read.1.length) = 0

instance (n : Nat → Nat) (s : List Char) (L : List Leaf) : Decidable (KeepsLeaves n s L) :=
  have (P : Nat → Prop) [DecidablePred P] (start stop : Nat) :
      Decidable (∀ col, start < col → col < stop → P col) :=
    Nat.decidableLoHi (start + 1) stop P
  decidable_of_iff
    ((∀ l ∈ L, l.kind.isContiguous = true →
        ∀ col, l.span.start.col < col → col < l.span.stop.col → n col = 0) ∧
      (∀ l ∈ L, l.kind = .comment → n l.span.start.col = 0) ∧
      ∀ l ∈ L, l.kind.isName = true →
        ∀ read ∈ Lexeme.word Token.negation.spelling.toList (s.drop l.span.start.col),
          read.2.head?.any Text.isAlphanumeric = true → n (l.span.start.col + read.1.length) = 0)
    ⟨fun h => ⟨h.1, h.2.1, h.2.2⟩, fun h => ⟨h.inside, h.comment, h.negation⟩⟩

theorem tabNext_widen (n : Nat → Nat) (start : Nat) (s : List Char) :
    tabNext (widen n start s) = tabNext s := by
  rw [tabNext, head?_dropSpaces_widen, tabNext]

/-- What comes next in a widened text. -/
theorem front_widen (i : Input) : front (widen n i.col i.rest) = widenTail n i.skip.col i.skip.rest :=
  dropWhile_widen rfl n i.col i.rest

/-- A leaf other than a number is read from its widened text. -/
theorem Takes.widen {kind : LeafKind} {s text rest : List Char} {start : Nat}
    (h : Takes kind s text rest) (hinteger : kind ≠ .integer) (hargument : kind ≠ .lineArgument)
    (hwhole : kind.isContiguous = true → widenTail n start text = text) :
    Takes kind (widenTail n start s) (widenTail n start text)
      (Lexeme.widen n (start + text.length) rest) := by
  have hs : widenTail n start s =
      widenTail n start text ++ Lexeme.widen n (start + text.length) rest := by
    rw [← h.append, widenTail_append h.ne_nil]
  cases h with
  | reads h =>
    cases h with
    | word plain h => exact .reads (.word plain (word_widenTail h))
    | operator lhs first h =>
      have hword := @word_widenTail n start _ _ _ _ h
      rw [firstWord?_of_akin (bare_of_word h) (bare_of_word hword) (akin_widenTail n start s)] at first
      exact .reads (.operator lhs first hword)
    | negation h =>
      obtain ⟨hword, hends⟩ := Option.filter_eq_some_iff.1 h
      refine .reads (.negation (Option.filter_eq_some_iff.2 ⟨word_widenTail hword, ?_⟩))
      dsimp only at hends ⊢
      cases hhead : (Lexeme.widen n (start + text.length) rest).head? with
      | none => rfl
      | some c =>
        rcases head?_widen hhead with rfl | hc
        · decide
        · rwa [hc] at hends
    | integer => exact absurd rfl hinteger
    | lineArgument => exact absurd rfl hargument
    | name h =>
      obtain ⟨c, run, tail, htext, hc, hrun, hends⟩ := name_some h
      have hends' : EndsWith tail (Lexeme.widen n (start + text.length) rest) :=
        hends.imp_left fun hends => ⟨hends.1, hends.2.widen⟩
      have hname := name_of_parts hc hrun hends'
      rw [hs, hwhole rfl]
      exact .reads (.name (by simpa [htext] using hname))
    | string h =>
      rw [hs, hwhole rfl]
      exact .reads (.string (string_append_any h _))
  | pointer ht h => exact .pointer ht (word_widenTail h)
  | colon => exact .colon

/-- A number takes in the spaces behind it. -/
theorem takes_widen_number {kind : LeafKind} (hkind : kind = .integer ∨ kind = .lineArgument)
    {s text rest : List Char} {start : Nat} (h : Takes kind s text rest) :
    ∃ gaps, (∀ c ∈ gaps, c = ' ') ∧ Takes kind (widenTail n start s) (widenTail n start text ++ gaps)
      ((Lexeme.widen n (start + text.length) rest).dropWhile isSpace) := by
  obtain ⟨-, htext, hends⟩ := integer_some (h.integer hkind)
  generalize hy : Lexeme.widen n (start + text.length) rest = y
  have hspaces : ∀ c ∈ y.takeWhile isSpace, c = ' ' := fun c hc => by
    simpa [isSpace] using List.all_eq_true.1 List.all_takeWhile c hc
  have hs : widenTail n start s =
      widenTail n start text ++ y.takeWhile isSpace ++ y.dropWhile isSpace := by
    rw [← h.append, widenTail_append h.ne_nil, hy, List.append_assoc,
      List.takeWhile_append_dropWhile]
  have hread := integer_append (@isInteger_widenTail n start _ htext _ hspaces)
    (hy ▸ endsNumber_widen hends)
  refine ⟨_, hspaces, ?_⟩
  rw [hs]
  rcases hkind with rfl | rfl
  · exact .reads (.integer hread)
  · exact .reads (.lineArgument hread)

theorem letters_number {gaps : List Char} (hgaps : ∀ c ∈ gaps, c = ' ') (start : Nat)
    (text : List Char) :
    Text.withoutSpaces (widenTail n start text ++ gaps) = Text.withoutSpaces text := by
  have hnone : gaps.filter (· != ' ') = [] :=
    List.filter_eq_nil_iff.2 fun c hc => by simp [hgaps c hc]
  rw [Text.withoutSpaces, List.filter_append, filter_widenTail rfl, hnone, List.append_nil]
  rfl

namespace KeepsLeaves

variable {s : List Char} {L : List Leaf}

theorem tail {l : Leaf} (h : KeepsLeaves n s (l :: L)) : KeepsLeaves n s L :=
  ⟨fun l hl => h.inside l (List.mem_cons_of_mem _ hl),
    fun l hl => h.comment l (List.mem_cons_of_mem _ hl),
    fun l hl => h.negation l (List.mem_cons_of_mem _ hl)⟩

/-- What has to be contiguous is not widened. -/
theorem widenTail_eq {i : Input} {kind : LeafKind} {text : List Char}
    (h : KeepsLeaves n s (i.leafOf kind text :: L)) (hkind : kind.isContiguous = true) :
    widenTail n i.col text = text :=
  widenTail_of_zero fun k hk hlt => h.inside _ List.mem_cons_self hkind (i.col + k)
    (Nat.lt_add_of_pos_right hk) (Nat.add_lt_add_left hlt _)

end KeepsLeaves

/-- `NOT` is not read from a widened text if it is read where it was not, and the letter or digit
behind it still follows. -/
theorem negation_widen {x : List Char} {start : Nat} (hx : Bare x)
    (hkeeps : ∀ read ∈ Lexeme.word Token.negation.spelling.toList x,
      read.2.head?.any Text.isAlphanumeric = true → n (start + read.1.length) = 0)
    (h : negation x = none) : negation (widenTail n start x) = none := by
  cases hword : Lexeme.word Token.negation.spelling.toList x with
  | none =>
    have hy : Bare (widenTail n start x) := fun c hc => hx c (by rwa [head?_widenTail] at hc)
    have hsame := isSome_word_of_akin hx hy (akin_widenTail n start x) .negation
    rw [hword, Option.isSome_none, eq_comm, Option.isSome_eq_false_iff,
      Option.isNone_iff_eq_none] at hsame
    exact negation_of_word hsame
  | some pair =>
    obtain ⟨text, rest⟩ := pair
    rw [negation, hword] at h
    rw [negation, word_widenTail hword]
    cases rest with
    | nil => simp [Option.filter] at h
    | cons c rest =>
      have hc : Text.isAlphanumeric c = true := by simpa [Option.filter] using h
      have hzero := hkeeps (text, c :: rest) hword hc
      simp [Option.filter, widen, hzero, hc]

/-- Whether `NOT` comes next is not changed by spaces that keep the leaves. -/
theorem sameNegation_widen {s text rest text' rest' : List Char} {L : List Leaf} {row : Int}
    {i : Input} {kind : LeafKind} (hi : i.skip.On row s)
    (h : KeepsLeaves n s (i.skip.leafOf kind text :: L)) (hnotrace : kind ≠ .token .notrace)
    (takes : Takes kind i.skip.rest text rest)
    (takes' : Takes kind (widenTail n i.skip.col i.skip.rest) text' rest') :
    SameNegation i.rest (widen n i.col i.rest) := by
  rw [SameNegation, front_widen]
  show negation i.skip.rest = none → _
  intro hnone
  cases kind with
  | token t =>
    refine negation_of_takes ?_ (by simpa using hnotrace) takes'
    rintro rfl
    rw [takes.negation] at hnone
    cases hnone
  | name type =>
    refine negation_widen takes.bare (fun read hread => ?_) hnone
    rw [hi.rest] at hread
    exact h.negation _ List.mem_cons_self rfl read hread
  | integer | lineArgument =>
    obtain ⟨c, more, htext, hc⟩ := (integer_some (takes'.integer (by simp))).2.1.head
    rw [← takes'.append, htext]
    exact negation_cons (sameLetter_of_isDigit (by decide) hc) _
  | string =>
    obtain ⟨inner, htext, -⟩ := string_some takes'.string
    rw [← takes'.append, htext]
    exact negation_cons (by decide) _
  | lineNumber | comment | error => rcases takes with ⟨⟨⟩⟩

/-- A sound line is aligned with itself where it is widened by spaces that keep its leaves. -/
theorem aligned_widen {s : List Char} {row : Int} {q : Bool} {i : Input} {L : List Leaf}
    (h : Written q i L) (hi : i.On row s) (hn : KeepsLeaves n s L) :
    Aligned Respaced L i.rest (widen n i.col i.rest) := by
  have halike : ∀ (i : Input), Alike (front i.rest) (front (widen n i.col i.rest)) := fun i =>
    alike_of_akin (bare_front _) (bare_front _) (akin_widen n i.col i.rest).front
  have hletters := filter_widenTail (p := (· != ' ')) rfl n
  induction h with
  | @done q i h =>
    refine .nil h ?_
    rw [front_widen, rest_skip, h]
    rfl
  | @leaf q i kind text rest L takes hrem allowed more ih =>
    have hmore := ih (hi.skip.after takes.append) hn.tail
    by_cases hkind : kind = .integer ∨ kind = .lineArgument
    · obtain ⟨gaps, hgaps, takes'⟩ := @takes_widen_number n _ hkind _ _ _ i.skip.col takes
      refine .leaf takes.ne_nil takes.append.symm (by rwa [front_widen]) (halike i) ⟨?_, ?_⟩ hrem
        (by rintro type rfl; simp at hkind)
        (fun hnotrace => sameNegation_widen hi.skip hn hnotrace takes takes')
        hmore.dropSpaces
      · exact letters_number hgaps i.skip.col text
      · rcases hkind with rfl | rfl <;> simp [Input.leafOf, LeafKind.isContiguous]
    · obtain ⟨hinteger, hargument⟩ := not_or.1 hkind
      have takes' := takes.widen hinteger hargument hn.widenTail_eq
      refine .leaf takes.ne_nil takes.append.symm (by rwa [front_widen]) (halike i)
        ⟨hletters _ _, hn.widenTail_eq⟩ hrem
        (fun _ _ => (tabNext_widen n _ _).symm)
        (fun hnotrace => sameNegation_widen hi.skip hn hnotrace takes takes') hmore
  | @bareRemark q i text read =>
    have read' := @word_widenTail n i.skip.col _ _ _ _ read
    refine .bareRemark rfl (ne_nil_of_word (spelling_ne_nil _) read) ?_ (by rwa [front_widen])
      (halike i) ⟨hletters _ _, by simp [Input.leafOf, LeafKind.isContiguous]⟩
    rw [← rest_skip, ← append_of_word read, List.append_nil]
    rfl
  | @remark q i text rest read ne =>
    have read' := @word_widenTail n i.skip.col _ _ _ _ read
    have hmem : (i.skip.after text rest).leafOf .comment rest ∈
        [i.skip.leafOf (.token .rem) text, (i.skip.after text rest).leafOf .comment rest] := by simp
    have hcomment : widen n (i.skip.col + text.length) rest = rest := by
      refine widen_of_zero fun k hk => ?_
      rcases Nat.eq_zero_or_pos k with rfl | hpos
      · exact hn.comment _ hmem rfl
      · exact hn.inside _ hmem rfl _ (Nat.lt_add_of_pos_right hpos) (Nat.add_lt_add_left hk _)
    rw [hcomment] at read'
    refine .remark rfl (ne_nil_of_word (spelling_ne_nil _) read) ?_ (by rwa [front_widen])
      (halike i) ⟨hletters _ _, by simp [Input.leafOf, LeafKind.isContiguous]⟩ rfl ne ne
      ⟨rfl, fun _ => rfl⟩
    rw [← rest_skip, ← append_of_word read]
    rfl

/-- The number of a widened line. -/
theorem lineNumber_widen {s number rest : List Char} (h : lineNumber s = some (number, rest)) :
    ∃ number', lineNumber (widen n 0 s) =
        some (number', (widen n number.length rest).dropWhile isSpace) ∧
      Text.withoutSpaces number' = Text.withoutSpaces number := by
  obtain ⟨gaps, text, rfl, hgaps, htext, hends, rfl⟩ := lineNumber_some h
  have hbare : Bare (text ++ rest) := by
    obtain ⟨c, more, rfl, hc⟩ := htext.head
    rintro _ ⟨⟩
    exact isGap_of_isDigit hc
  have htake : (gaps ++ text ++ rest).takeWhile Text.isGap = gaps := by
    rw [List.append_assoc, List.takeWhile_append_of_pos hgaps]
    cases hs : text ++ rest with
    | nil => simp
    | cons c s =>
      rw [hs] at hbare
      simp [hbare c rfl]
  have hdrop : (gaps ++ text ++ rest).dropWhile Text.isGap = text ++ rest := by
    rw [List.append_assoc, List.dropWhile_append_of_pos hgaps, dropWhile_of_head hbare]
  have hne : text ≠ [] := by
    obtain ⟨c, more, rfl, -⟩ := htext.head
    exact List.cons_ne_nil c more
  obtain ⟨k, hwiden⟩ := span_widen Text.isGap n 0 (gaps ++ text ++ rest)
  have hfront : ∀ c ∈ widen n 0 gaps ++ List.replicate k ' ', Text.isGap c = true := by
    intro c hc
    rw [← htake] at hc
    exact (of_mem_front rfl hc).1
  have hends' := @endsNumber_widen n (gaps ++ text).length _ hends
  rw [htake, hdrop, Nat.zero_add, widenTail_append hne, ← List.length_append] at hwiden
  generalize widen n (gaps ++ text).length rest = y at hwiden hends'
  have hspaces : ∀ c ∈ y.takeWhile isSpace, c = ' ' := fun c hc => by
    simpa [isSpace] using List.all_eq_true.1 List.all_takeWhile c hc
  have hnumber := lineNumber_append hfront (@isInteger_widenTail n gaps.length _ htext _ hspaces)
    hends'
  rw [List.append_assoc (widenTail n gaps.length text), List.takeWhile_append_dropWhile,
    ← hwiden] at hnumber
  refine ⟨_, hnumber, ?_⟩
  have hzero : (List.replicate k ' ').filter (· != ' ') = [] :=
    List.filter_eq_nil_iff.2 fun c hc => by simp [List.eq_of_mem_replicate hc]
  have hdigits := @letters_number n _ hspaces gaps.length text
  rw [Text.withoutSpaces] at hdigits ⊢
  rw [List.filter_append, hdigits, List.filter_append, filter_widen rfl, hzero, List.append_nil]
  exact (List.filter_append ..).symm

/-- A sound line that is widened by spaces that keep its leaves is read alike. -/
theorem similar_widen {row : Int} {s number rest : List Char}
    (hs : lineNumber s = some (number, rest)) (sound : (line row s).hasError = false)
    (hn : KeepsLeaves n s (line row s).leaves) :
    Similar Respaced (line row s).children (line row (widen n 0 s)).children := by
  obtain ⟨number', hs', hnumber⟩ := @lineNumber_widen n _ _ _ hs
  have hplace : (Input.after ⟨row, 0, s⟩ number rest).On row s :=
    @Input.On.after row s ⟨row, 0, s⟩ ⟨rfl, Nat.zero_le _, rfl⟩ _ _ (append_of_lineNumber hs)
  have hcol : (Input.after ⟨row, 0, s⟩ number rest).col = number.length := Nat.zero_add _
  rw [leaves_line hs] at hn
  have haligned := aligned_widen (written_line hs sound) hplace hn.tail
  rw [hcol] at haligned
  exact similar_line foldsNames_respaced hs hs' ⟨hnumber, by simp [LeafKind.isContiguous]⟩
    haligned.dropSpaces

end Grammar

end IntegerBasic
