import IntegerBasic.Grammar.Lexeme

/-!
# Letters and marks

Words are compared letter by letter, whatever the case. A mark below the letters is the same as
nothing but itself, and a letter of a word is the same as no mark.
-/

namespace IntegerBasic

namespace Text

-- A statement about the characters of a text is decided along the text, before the decision
-- procedure is tried that goes through every character there is.
instance (priority := 2000) decidableForallMem {p : Char → Prop} [DecidablePred p]
    (s : List Char) : Decidable (∀ c ∈ s, p c) := List.decidableBAll p s

instance (priority := 2000) decidableExistsMem {p : Char → Prop} [DecidablePred p]
    (s : List Char) : Decidable (∃ c ∈ s, p c) := List.decidableBEx p s

/-- Case folds beyond ASCII are no marks: none of them comes before the small letters. -/
theorem foldRuns_ge : ∀ run ∈ foldRuns, 97 ≤ run.2.2.2 ∧
    (run.2.2.2 + (run.2.1 - run.1) < 0xD800 ∨
      0xDFFF < run.2.2.2 ∧ run.2.2.2 + (run.2.1 - run.1) < 0x110000) := by
  decide +kernel

/-- What holds of the characters of ASCII one by one. -/
theorem ascii_induction {P : Char → Prop} (h : ∀ n < 128, P (Char.ofNat n)) {c : Char}
    (hc : c.toNat < 128) : P c := by
  have := h c.toNat hc
  rwa [Char.ofNat_toNat] at this

/-- A run ends where it ended before, whatever is put behind the text. -/
theorem span_append {α : Type} {p : α → Bool} {s t : List α}
    (h : s.dropWhile p ≠ [] ∨ ∀ c ∈ t.head?, p c = false) :
    (s ++ t).takeWhile p = s.takeWhile p ∧ (s ++ t).dropWhile p = s.dropWhile p ++ t := by
  induction s with
  | nil =>
    rcases h with h | h
    · exact absurd rfl h
    · cases t with
      | nil => exact ⟨rfl, rfl⟩
      | cons c t => simp [h c rfl]
  | cons c s ih =>
    cases hc : p c with
    | true =>
      simp only [List.dropWhile_cons_of_pos hc] at h
      obtain ⟨htake, hdrop⟩ := ih h
      simp [hc, htake, hdrop]
    | false => simp [hc]

theorem toNat_lt_of_isAlphanum {c : Char} (h : c.isAlphanum = true) : c.toNat < 128 := by
  have hlast : c.val ≤ 'Z'.val ∨ c.val ≤ 'z'.val ∨ c.val ≤ '9'.val := by
    rcases Bool.or_eq_true_iff.1 h with halpha | hdigit
    · rcases Bool.or_eq_true_iff.1 halpha with hupper | hlower
      · exact .inl (of_decide_eq_true hupper).2
      · exact .inr (.inl (of_decide_eq_true (Bool.and_eq_true_iff.1 hlower).2))
    · exact .inr (.inr (of_decide_eq_true (Bool.and_eq_true_iff.1 hdigit).2))
  simp only [UInt32.le_iff_toNat_le] at hlast
  have hz : 'Z'.val.toNat = 90 ∧ 'z'.val.toNat = 122 ∧ '9'.val.toNat = 57 := by decide
  have hval : c.toNat = c.val.toNat := rfl
  omega

/-- What holds of the letters and digits one by one. -/
theorem alphanum_induction {P : Char → Prop}
    (h : ∀ n < 128, (Char.ofNat n).isAlphanum = true → P (Char.ofNat n)) {c : Char}
    (hc : c.isAlphanum = true) : P c :=
  ascii_induction (P := fun c => c.isAlphanum = true → P c) h (toNat_lt_of_isAlphanum hc) hc

theorem toNat_ofNat_of_valid {n : Nat} (h : n.isValidChar) : (Char.ofNat n).toNat = n := by
  rw [Char.ofNat, dif_pos h]
  rfl

theorem le_caseFold_of_not_ascii {c : Char} (h : 128 ≤ c.toNat) : 97 ≤ (caseFold c).toNat := by
  unfold caseFold
  dsimp only
  rw [if_neg (by omega)]
  generalize hrun : foldRuns.find? _ = found
  cases found with
  | none =>
    dsimp only
    omega
  | some run =>
    obtain ⟨first, last, step, foldFirst⟩ := run
    obtain ⟨hge, hvalid⟩ := foldRuns_ge _ (List.mem_of_find?_eq_some hrun)
    dsimp only at hge hvalid
    have hin := List.find?_some hrun
    simp only [Bool.and_eq_true, decide_eq_true_eq, beq_iff_eq] at hin
    dsimp only
    rw [toNat_ofNat_of_valid]
    · omega
    · rcases hvalid with hlow | ⟨hhigh, hlimit⟩
      · exact .inl (by omega)
      · exact .inr ⟨by omega, by omega⟩

/-- A mark that comes before the letters is the same letter as nothing else. -/
theorem eq_of_caseFold_eq {c p : Char} (hp : p.toNat < 65) (h : caseFold c = p) : c = p := by
  by_cases hc : c.toNat < 128
  · rw [caseFold_of_ascii hc] at h
    have key : c.toLower.toNat < 65 → c.toLower = c :=
      ascii_induction (P := fun c => c.toLower.toNat < 65 → c.toLower = c) (by decide) hc
    rw [← h, key (by rw [h]; exact hp)]
  · have := le_caseFold_of_not_ascii (c := c) (by omega)
    rw [h] at this
    omega

end Text

namespace Lexeme

theorem caseFold_of_lt {p : Char} (hp : p.toNat < 65) : Text.caseFold p = p := by
  rw [Text.caseFold_of_ascii (by omega)]
  have key : p.toNat < 65 → p.toLower = p :=
    Text.ascii_induction (P := fun c => c.toNat < 65 → c.toLower = c) (by decide) (by omega)
  exact key hp

/-- A mark is matched by itself alone. -/
theorem sameLetter_mark {p : Char} (hp : p.toNat < 65) (c : Char) :
    sameLetter p c = (c == p) := by
  rw [sameLetter, caseFold_of_lt hp, Bool.eq_iff_iff, beq_iff_eq, beq_iff_eq]
  constructor
  · intro h
    exact Text.eq_of_caseFold_eq hp h.symm
  · rintro rfl
    exact (caseFold_of_lt hp).symm

theorem toNat_of_isUpper {c : Char} (h : c.isUpper = true) : 65 ≤ c.toNat :=
  UInt32.le_iff_toNat_le.1 (of_decide_eq_true h).1

/-- A letter of a word is no mark. -/
theorem sameLetter_of_lt {letter c : Char} (hletter : letter.isUpper = true) (hc : c.toNat < 65) :
    sameLetter letter c = false := by
  have hsame := sameLetter_mark hc letter
  have hne : (letter == c) = false := by
    rw [beq_eq_false_iff_ne]
    rintro rfl
    have := toNat_of_isUpper hletter
    omega
  rw [hne, sameLetter] at hsame
  rw [sameLetter, ← hsame, Bool.eq_iff_iff, beq_iff_eq, beq_iff_eq]
  exact eq_comm

theorem word_cons_of_ne {letter c : Char} (letters rest : List Char)
    (h : sameLetter letter c = false) : word (letter :: letters) (c :: rest) = none := by
  rw [word, if_neg (by simp [h])]

/-- A mark as a word. -/
theorem word_mark {p : Char} (hp : p.toNat < 65) (c : Char) (rest : List Char) :
    word [p] (c :: rest) = if c = p then some ([c], rest) else none := by
  rw [word, sameLetter_mark hp]
  by_cases h : c = p
  · simp [h, wordTail]
  · simp [h]

def folded (s : List Char) : List Char := s.map Text.caseFold

/-- A mark, a blank or nothing comes next behind the spaces. -/
def NoLetter (t : List Char) : Prop := ∀ c ∈ (t.dropWhile isSpace).head?, c.toNat < 65

theorem isSpace_of_isAlphanum {c : Char} (h : c.isAlphanum = true) : isSpace c = false := by
  rw [isSpace, beq_eq_false_iff_ne]
  rintro rfl
  revert h
  decide

/-- The later letters of a word are read from a run of letters and digits if they come first in
it. -/
theorem wordTail_append {w run t : List Char} (hw : ∀ l ∈ w, l.isUpper = true)
    (hrun : ∀ c ∈ run, c.isAlphanum = true) (ht : NoLetter t) :
    wordTail w (run ++ t) =
      if (folded w).isPrefixOf (folded run) then some (run.take w.length, run.drop w.length ++ t)
      else none := by
  induction w generalizing run with
  | nil => simp [wordTail, folded]
  | cons l w ih =>
    have hl : l.isUpper = true := hw l List.mem_cons_self
    have hne : l ≠ ' ' := by
      rintro rfl
      revert hl
      decide
    rw [wordTail.eq_def]
    dsimp only
    rw [if_neg hne]
    cases run with
    | nil =>
      rw [List.nil_append]
      cases hd : t.dropWhile isSpace with
      | nil => simp [folded]
      | cons c rest =>
        have hc : c.toNat < 65 := ht c (by rw [hd]; rfl)
        simp [folded, sameLetter_of_lt hl hc]
    | cons c run =>
      have hspace := isSpace_of_isAlphanum (hrun c List.mem_cons_self)
      have hmore := ih (fun x hx => hw x (List.mem_cons_of_mem _ hx))
        (fun x hx => hrun x (List.mem_cons_of_mem _ hx))
      rw [List.cons_append, List.dropWhile_cons_of_neg (by simp [hspace]),
        List.takeWhile_cons_of_neg (by simp [hspace])]
      dsimp only
      rw [hmore]
      simp only [folded, List.map_cons, List.isPrefixOf, sameLetter]
      by_cases hsame : Text.caseFold l = Text.caseFold c
      · by_cases hbegins : (folded w).isPrefixOf (folded run) = true
        · simp_all [folded]
        · simp_all [folded]
      · simp [hsame]

theorem word_append {w run t : List Char} (hne : w ≠ []) (hw : ∀ l ∈ w, l.isUpper = true)
    (hrun : ∀ c ∈ run, c.isAlphanum = true) (ht : NoLetter t) :
    word w (run ++ t) =
      if (folded w).isPrefixOf (folded run) then some (run.take w.length, run.drop w.length ++ t)
      else none := by
  cases w with
  | nil => exact absurd rfl hne
  | cons l w =>
    have hl : l.isUpper = true := hw l List.mem_cons_self
    cases run with
    | nil =>
      cases t with
      | nil => simp [word, folded]
      | cons c t =>
        have hc : c.toNat < 65 := by
          by_cases hspace : isSpace c = true
          · rw [show c = ' ' by simpa [isSpace] using hspace]
            decide
          · exact ht c (by rw [List.dropWhile_cons_of_neg hspace]; rfl)
        rw [List.nil_append, word_cons_of_ne _ _ (sameLetter_of_lt hl hc)]
        simp [folded]
    | cons c run =>
      have hmore := wordTail_append (fun x hx => hw x (List.mem_cons_of_mem _ hx))
        (fun x hx => hrun x (List.mem_cons_of_mem _ hx)) ht
      rw [List.cons_append, word, hmore]
      simp only [folded, List.map_cons, List.isPrefixOf, sameLetter]
      by_cases hsame : Text.caseFold l = Text.caseFold c
      · by_cases hbegins : (folded w).isPrefixOf (folded run) = true
        · simp_all [folded]
        · simp_all [folded]
      · simp [hsame]

theorem wordTail_append_mark {p : Char} (hp : p.toNat < 65) (hspace : p ≠ ' ')
    (hmark : p.isAlphanum = false) {w run t : List Char} (hw : ∀ l ∈ w, l.isUpper = true)
    (hrun : ∀ c ∈ run, c.isAlphanum = true) (ht : NoLetter t) :
    wordTail (w ++ [p]) (run ++ t) =
      if folded w = folded run ∧ (t.dropWhile isSpace).head? = some p then
        some (run ++ t.takeWhile isSpace ++ [p], (t.dropWhile isSpace).tail)
      else none := by
  induction w generalizing run with
  | nil =>
    rw [List.nil_append, wordTail.eq_def]
    dsimp only
    rw [if_neg hspace]
    cases run with
    | nil =>
      rw [List.nil_append]
      cases hd : t.dropWhile isSpace with
      | nil => simp
      | cons c rest =>
        dsimp only
        rw [sameLetter_mark hp]
        by_cases hc : c = p
        · simp [hc, wordTail, folded]
        · simp [hc]
    | cons c run =>
      have hc := hrun c List.mem_cons_self
      have hne : c ≠ p := by
        rintro rfl
        rw [hmark] at hc
        cases hc
      rw [List.cons_append, List.dropWhile_cons_of_neg (by simp [isSpace_of_isAlphanum hc])]
      dsimp only
      rw [sameLetter_mark hp, if_neg (by simpa using hne)]
      simp [folded]
  | cons l w ih =>
    have hl : l.isUpper = true := hw l List.mem_cons_self
    have hne : l ≠ ' ' := by
      rintro rfl
      revert hl
      decide
    rw [List.cons_append, wordTail.eq_def]
    dsimp only
    rw [if_neg hne]
    cases run with
    | nil =>
      rw [List.nil_append]
      cases hd : t.dropWhile isSpace with
      | nil => simp
      | cons c rest =>
        have hc : c.toNat < 65 := ht c (by rw [hd]; rfl)
        simp [folded, sameLetter_of_lt hl hc]
    | cons c run =>
      have hspace := isSpace_of_isAlphanum (hrun c List.mem_cons_self)
      have hmore := ih (fun x hx => hw x (List.mem_cons_of_mem _ hx))
        (fun x hx => hrun x (List.mem_cons_of_mem _ hx))
      rw [List.cons_append, List.dropWhile_cons_of_neg (by simp [hspace]),
        List.takeWhile_cons_of_neg (by simp [hspace])]
      dsimp only
      rw [hmore]
      simp only [folded, List.map_cons, List.cons.injEq, sameLetter]
      by_cases hsame : Text.caseFold l = Text.caseFold c
      · by_cases hrest : folded w = folded run ∧ (t.dropWhile isSpace).head? = some p
        · simp_all [folded]
        · simp_all [folded]
      · simp [hsame]

/-- A word that ends with a mark is read if its letters are the whole run and the mark comes
next. -/
theorem word_append_mark {p : Char} (hp : p.toNat < 65) (hspace : p ≠ ' ')
    (hmark : p.isAlphanum = false) {w run t : List Char} (hne : w ≠ [])
    (hw : ∀ l ∈ w, l.isUpper = true) (hrun : ∀ c ∈ run, c.isAlphanum = true)
    (ht : NoLetter t) :
    word (w ++ [p]) (run ++ t) =
      if folded w = folded run ∧ (t.dropWhile isSpace).head? = some p then
        some (run ++ t.takeWhile isSpace ++ [p], (t.dropWhile isSpace).tail)
      else none := by
  cases w with
  | nil => exact absurd rfl hne
  | cons l w =>
    have hl : l.isUpper = true := hw l List.mem_cons_self
    cases run with
    | nil =>
      cases t with
      | nil => simp [word, folded]
      | cons c t =>
        have hc : c.toNat < 65 := by
          by_cases hspace : isSpace c = true
          · rw [show c = ' ' by simpa [isSpace] using hspace]
            decide
          · exact ht c (by rw [List.dropWhile_cons_of_neg hspace]; rfl)
        rw [List.nil_append, List.cons_append, word_cons_of_ne _ _ (sameLetter_of_lt hl hc)]
        simp [folded]
    | cons c run =>
      have hmore := wordTail_append_mark hp hspace hmark
        (fun x hx => hw x (List.mem_cons_of_mem _ hx))
        (fun x hx => hrun x (List.mem_cons_of_mem _ hx)) ht
      rw [List.cons_append, List.cons_append, word, hmore]
      simp only [folded, List.map_cons, List.cons.injEq, sameLetter]
      by_cases hsame : Text.caseFold l = Text.caseFold c
      · by_cases hrest : folded w = folded run ∧ (t.dropWhile isSpace).head? = some p
        · simp_all [folded]
        · simp_all [folded]
      · simp [hsame]

end Lexeme

end IntegerBasic
