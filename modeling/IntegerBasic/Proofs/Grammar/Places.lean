import IntegerBasic.Proofs.Grammar.StatementTraces

/-!
# What a trace passes

A trace passes over a stretch of the line and loses none of it. No colon in this stretch ends a
statement: where a colon stands in it at all, it stands between quotes. So a broken statement goes
on at least as far as what was recognized of it.
-/

namespace IntegerBasic.Grammar

structure Passes (i : Input) (text : List Char) (j : Input) : Prop where
  rest : i.rest = text ++ j.rest
  place : j = i.after text j.rest

namespace Passes

theorem refl (i : Input) : Passes i [] i := ⟨rfl, rfl⟩

theorem after {i : Input} {text rest : List Char} (h : i.rest = text ++ rest) :
    Passes i text (i.after text rest) := ⟨h, rfl⟩

theorem trans {i k j : Input} {xs ys : List Char} (hx : Passes i xs k) (hy : Passes k ys j) :
    Passes i (xs ++ ys) j := by
  refine ⟨by rw [hx.rest, hy.rest, List.append_assoc], ?_⟩
  rw [hy.place, hx.place]
  simp [Input.after, Nat.add_assoc]

/-- The rest of the way, once its first part has been passed. -/
theorem remaining {i k j : Input} {xs ys : List Char} (h : Passes i (xs ++ ys) j)
    (hx : Passes i xs k) : Passes k ys j := by
  constructor
  · have := hx.rest.symm.trans h.rest
    rwa [List.append_assoc, List.append_cancel_left_eq] at this
  · rw [h.place, hx.place]
    simp [Input.after, Nat.add_assoc]

theorem skip (i : Input) : Passes i (i.rest.takeWhile Text.isGap) i.skip :=
  after List.takeWhile_append_dropWhile.symm

theorem row {i j : Input} {text : List Char} (h : Passes i text j) : j.row = i.row := by
  rw [h.place]
  rfl

theorem col {i j : Input} {text : List Char} (h : Passes i text j) :
    j.col = i.col + text.length := by
  rw [h.place]
  rfl

end Passes

/-- A text in which no colon ends a statement and which has no open quote. -/
def Closed (text : List Char) : Prop :=
  ∀ rest, statementText false (text ++ rest) = text ++ statementText false rest

theorem append_drop_statementText (quoted : Bool) (s : List Char) :
    statementText quoted s ++ s.drop (statementText quoted s).length = s := by
  induction s generalizing quoted with
  | nil => rfl
  | cons c rest ih =>
    rw [statementText]
    split
    · rfl
    · rw [List.length_cons, List.drop_succ_cons, List.cons_append, ih]

/-- A broken statement reaches as far as the text of the statement. -/
theorem passes_recover (i : Input) (nodes : List Node) (cause : Mismatch) :
    Passes i (statementText false i.rest) (recover i nodes cause).2 :=
  .after (append_drop_statementText false i.rest).symm

theorem closed_nil : Closed [] := fun _ => rfl

theorem closed_append {xs ys : List Char} (hx : Closed xs) (hy : Closed ys) :
    Closed (xs ++ ys) := by
  intro rest
  rw [List.append_assoc, hx, hy, List.append_assoc]

/-- Without colons and quotes there is nothing to end a statement. -/
theorem closed_of_forall {text : List Char} (h : ∀ c ∈ text, c ≠ ':' ∧ c ≠ '"') :
    Closed text := by
  intro rest
  induction text with
  | nil => rfl
  | cons c text ih =>
    obtain ⟨hcolon, hquote⟩ := h c List.mem_cons_self
    have hmore := ih fun d hd => h d (List.mem_cons_of_mem _ hd)
    rw [List.cons_append, statementText, if_neg (by simp [hcolon]), if_neg (by simp [hquote]), hmore]
    rfl

theorem statementText_quoted {body : List Char} (h : '"' ∉ body) (rest : List Char) :
    statementText true (body ++ '"' :: rest) = body ++ '"' :: statementText false rest := by
  induction body with
  | nil => simp [statementText]
  | cons c body ih =>
    rw [List.mem_cons, not_or] at h
    rw [List.cons_append, statementText, if_neg (by simp), if_neg (by simp [Ne.symm h.1]),
      ih h.2]
    rfl

theorem of_mem_takeWhile {p : Char → Bool} {s : List Char} {c : Char} (h : c ∈ s.takeWhile p) :
    p c = true :=
  List.all_eq_true.1 List.all_takeWhile c h

theorem closed_string {s text rest : List Char} (h : Lexeme.string s = some (text, rest)) :
    Closed text := by
  obtain ⟨more, -, -, rfl⟩ := Lexeme.string_eq_some h
  have hbody : '"' ∉ more.takeWhile (· != '"') := by
    intro hmem
    simpa using of_mem_takeWhile hmem
  intro rest'
  simp only [List.cons_append, List.append_assoc]
  rw [statementText, if_neg (by simp), if_pos (by simp)]
  simp [statementText_quoted hbody]

/-- A word holds spaces and its letters. -/
theorem mem_wordTail {letters s text rest : List Char}
    (h : Lexeme.wordTail letters s = some (text, rest)) :
    ∀ c ∈ text, c = ' ' ∨ ∃ letter ∈ letters, Lexeme.sameLetter letter c = true := by
  have ofSpace : ∀ {c}, Lexeme.isSpace c = true → c = ' ' := by
    intro c hc
    simpa [Lexeme.isSpace] using hc
  induction letters generalizing s text rest with
  | nil =>
    cases h
    simp
  | cons letter letters ih =>
    have later : ∀ {c}, (c = ' ' ∨ ∃ l ∈ letters, Lexeme.sameLetter l c = true) →
        c = ' ' ∨ ∃ l ∈ letter :: letters, Lexeme.sameLetter l c = true := by
      rintro c (hc | ⟨l, hl, hc⟩)
      · exact .inl hc
      · exact .inr ⟨l, List.mem_cons_of_mem _ hl, hc⟩
    intro c hc
    by_cases hspace : letter = ' '
    · subst hspace
      rcases Lexeme.wordTail_space_some h with ⟨-, rfl, -⟩ | ⟨more, read, -, hmore, rfl⟩
      · exact .inl (ofSpace (of_mem_takeWhile hc))
      · rcases List.mem_cons.1 hc with rfl | hc
        · exact .inl rfl
        · exact later (ih hmore c hc)
    · obtain ⟨d, more, read, -, hletter, hmore, rfl⟩ := Lexeme.wordTail_cons_some hspace h
      rcases List.mem_append.1 hc with hc | hc
      · exact .inl (ofSpace (of_mem_takeWhile hc))
      · rcases List.mem_cons.1 hc with rfl | hc
        · exact .inr ⟨letter, List.mem_cons_self, hletter⟩
        · exact later (ih hmore c hc)

theorem mem_word {letters s text rest : List Char} (h : Lexeme.word letters s = some (text, rest)) :
    ∀ c ∈ text, c = ' ' ∨ ∃ letter ∈ letters, Lexeme.sameLetter letter c = true := by
  cases letters with
  | nil =>
    cases h
    simp
  | cons letter letters =>
    obtain ⟨d, more, read, -, hletter, htail, rfl⟩ := Lexeme.word_cons_some h
    intro c hc
    rcases List.mem_cons.1 hc with rfl | hc
    · exact .inr ⟨letter, List.mem_cons_self, hletter⟩
    · rcases mem_wordTail htail c hc with hc | ⟨l, hl, hc⟩
      · exact .inl hc
      · exact .inr ⟨l, List.mem_cons_of_mem _ hl, hc⟩

def hasColon (t : Token) : Bool := t == .himem || t == .lomem || t == .colon

theorem sameLetter_colon {t : Token} (ht : hasColon t = false) :
    ∀ letter ∈ t.spelling.toList, Lexeme.sameLetter letter ':' = false := by
  have key : ∀ t ∈ Token.all, hasColon t = false → ∀ letter ∈ t.spelling.toList,
      Lexeme.sameLetter letter ':' = false := by
    decide +kernel
  exact key t (Token.mem_all t) ht

theorem closed_word {t : Token} (ht : hasColon t = false) {s text rest : List Char}
    (h : Lexeme.word t.spelling.toList s = some (text, rest)) : Closed text := by
  apply closed_of_forall
  intro c hc
  rcases mem_word h c hc with rfl | ⟨letter, hl, hsame⟩
  · decide
  · constructor
    · rintro rfl
      rw [sameLetter_colon ht letter hl] at hsame
      cases hsame
    · rintro rfl
      rw [sameLetter_quote t letter hl] at hsame
      cases hsame

theorem closed_integer {s text rest : List Char} (h : Lexeme.integer s = some (text, rest)) :
    Closed text := by
  have plain : ∀ {c}, Lexeme.isDigitOrSpace c = true → c ≠ ':' ∧ c ≠ '"' := by
    intro c hc
    constructor <;> rintro rfl <;> revert hc <;> decide
  apply closed_of_forall
  intro c hc
  obtain ⟨d, more, -, hd, rfl, -⟩ := Lexeme.integer_eq_some h
  rcases List.mem_cons.1 hc with rfl | hc
  · exact plain (by simp [Lexeme.isDigitOrSpace, hd])
  · exact plain (of_mem_takeWhile hc)

theorem closed_name {s text rest : List Char} (h : Lexeme.name s = some (text, rest)) :
    Closed text := by
  have plain : ∀ {c : Char}, c.isAlphanum = true → c ≠ ':' ∧ c ≠ '"' := by
    intro c hc
    constructor <;> rintro rfl <;> revert hc <;> decide
  apply closed_of_forall
  intro c hc
  obtain ⟨d, more, tail, -, hd, hdollar, rfl⟩ := Lexeme.name_eq_some h
  rcases List.mem_cons.1 hc with rfl | hc
  · exact plain (by simp [Char.isAlphanum, hd])
  rcases List.mem_append.1 hc with hc | hc
  · exact plain (of_mem_takeWhile hc)
  rcases Lexeme.dollar_cases (more.dropWhile Char.isAlphanum) with ⟨after, -, hsign⟩ | ⟨-, hnone⟩
  · cases hsign.symm.trans hdollar
    rcases List.mem_append.1 hc with hc | hc
    · have : c = ' ' := by simpa [Lexeme.isSpace] using of_mem_takeWhile hc
      subst this
      decide
    · have : c = '$' := by simpa using hc
      subst this
      decide
  · cases hnone.symm.trans hdollar
    cases hc

theorem Reads.closed {kind : LeafKind} {s text rest : List Char} (h : Reads kind s text rest) :
    Closed text := by
  cases h with
  | @word t _ _ _ plain h =>
    apply closed_word _ h
    simp only [Token.isPlain, Bool.and_eq_true, bne_iff_ne, ne_eq] at plain
    simp [hasColon, plain]
  | @operator t _ _ _ lhs first h =>
    have key : ∀ t ∈ binaryOperators, hasColon t = false := by decide
    exact closed_word (key t (List.mem_of_find?_eq_some first)) h
  | negation h => exact closed_word rfl (word_of_negation h)
  | integer h => exact closed_integer h
  | lineArgument h => exact closed_integer h
  | name h => exact closed_name h
  | string h => exact closed_string h

theorem closed_gaps (s : List Char) : Closed (s.takeWhile Text.isGap) := by
  apply closed_of_forall
  intro c hc
  have hgap := of_mem_takeWhile hc
  constructor <;> rintro rfl <;> revert hgap <;> decide

/-- A trace passes over a closed text. -/
theorem Trace.passes {K : LeafKind → Bool} {q q' : Bool} {i j : Input} {nodes : List Node}
    (h : Trace K q i nodes q' j) :
    ∃ text, Passes i text j ∧ Closed text := by
  induction h with
  | done => exact ⟨[], .refl _, closed_nil⟩
  | skip _ ih =>
    obtain ⟨text, hpasses, hclosed⟩ := ih
    exact ⟨_, (Passes.skip _).trans hpasses, closed_append (closed_gaps _) hclosed⟩
  | leaf _ read _ _ ih =>
    obtain ⟨text, hpasses, hclosed⟩ := ih
    exact ⟨_, (Passes.after read.append.symm).trans hpasses, closed_append read.closed hclosed⟩
  | inner _ _ _ ih₁ ih₂ =>
    obtain ⟨xs, hx, hclosedx⟩ := ih₁
    obtain ⟨ys, hy, hclosedy⟩ := ih₂
    exact ⟨_, hx.trans hy, closed_append hclosedx hclosedy⟩

/-- A statement passes over its text. -/
theorem IsStatement.passes {i j : Input} {node : Node} (h : IsStatement i node j) :
    ∃ text, Passes i text j := by
  induction h with
  | plain h =>
    obtain ⟨text, hpasses, -⟩ := h.passes
    exact ⟨text, hpasses⟩
  | pointer _ read h =>
    obtain ⟨more, hpasses, -⟩ := h.passes
    exact ⟨_, (Passes.after (Lexeme.append_of_word read).symm).trans hpasses⟩
  | remark read =>
    exact ⟨_, (Passes.after (Lexeme.append_of_word read).symm).trans
      (.after (List.append_nil _).symm)⟩
  | conditional h _ ih =>
    obtain ⟨text, hpasses, -⟩ := h.passes
    obtain ⟨more, hmore⟩ := ih
    exact ⟨_, hpasses.trans hmore⟩
  | broken => exact ⟨_, passes_recover _ _ _⟩
  | brokenPointer => exact ⟨_, passes_recover _ _ _⟩

theorem length_skip_le (i : Input) : i.skip.rest.length ≤ i.rest.length := by
  rw [(Passes.skip i).rest, List.length_append]
  exact Nat.le_add_left _ _

/-- A statement does not end where something else than a colon follows. -/
theorem endsStatement_eq_false {s : List Char} (hnil : s ≠ []) (hcolon : ∀ rest, s ≠ ':' :: rest) :
    endsStatement s = false := by
  cases s with
  | nil => exact absurd rfl hnil
  | cons c rest =>
    have hc : c ≠ ':' := fun hc => hcolon rest (by rw [hc])
    simpa [endsStatement] using hc

/-- A statement that begins at all is not empty. -/
theorem IsStatement.length_lt {i j : Input} {node : Node} (h : IsStatement i node j)
    (begins : endsStatement i.rest = false) : j.rest.length < i.rest.length := by
  obtain ⟨text, hpasses⟩ := h.passes
  have hne : text ≠ [] := by
    rintro rfl
    rw [hpasses.rest, List.nil_append, h.ends] at begins
    cases begins
  have := List.length_pos_iff.2 hne
  rw [hpasses.rest, List.length_append]
  omega

/-- What was recognized of a broken statement lies within its text. -/
theorem Trace.passes_recover {K : LeafKind → Bool} {q q' : Bool} {i j : Input} {nodes : List Node}
    (h : Trace K q i nodes q' j) (more : List Node) (cause : Mismatch) :
    ∃ text, Passes j text (recover i more cause).2 := by
  obtain ⟨text, hpasses, hclosed⟩ := h.passes
  have hall := Grammar.passes_recover i more cause
  rw [hpasses.rest, hclosed] at hall
  exact ⟨_, hall.remaining hpasses⟩

end IntegerBasic.Grammar
