import IntegerBasic.Proofs.Record.Padding
import IntegerBasic.Proofs.Record.ShownText
import IntegerBasic.Record.Listing

/-!
# Leaves as they are listed

The lister sees bytes and writes text. If the bytes are those of the leaves of a sound line, it
writes leaf by leaf: words with spaces around them, names in upper case, numbers in decimal digits,
and strings and remarks as their bytes are shown. Two operands are never neighbours, which is what
keeps the bytes of a name apart from those that follow.
-/

namespace IntegerBasic.Record

open Grammar Lexeme

def lead (spaced : Bool) : List Char := if spaced then [] else [' ']

def listedName (text : List Char) : List Char := Text.upper (text.filter (!Text.isBlank ·))

/-- What is listed for the leaves up to the end of a line, given whether a space stands before. -/
inductive Rendered : Bool → List Leaf → List Char → Prop
  | nil {spaced : Bool} : Rendered spaced [] []
  | token {spaced : Bool} {t : Token} {l : Leaf} {L : List Leaf} {y : List Char}
      (kind : l.kind = .token t) (hrem : t ≠ .rem)
      (more : Rendered (spacedWord t.spelling.toList spaced).2 L y) :
      Rendered spaced (l :: L) ((spacedWord t.spelling.toList spaced).1 ++ y)
  | name {spaced : Bool} {type : DataType} {l : Leaf} {L : List Leaf} {y : List Char}
      (kind : l.kind = .name type)
      (plain : ∀ c ∈ listedName l.text, c.isAlphanum = true ∨ c = '$')
      (more : Rendered false L y) :
      Rendered spaced (l :: L) (listedName l.text ++ y)
  | number {spaced : Bool} {n : Nat} {l : Leaf} {L : List Leaf} {y : List Char}
      (kind : l.kind = .integer ∨ l.kind = .lineArgument) (read : Numeral.readToken l.text = .ok n)
      (limit : n ≤ 65535) (more : Rendered false L y) :
      Rendered spaced (l :: L) (Numeral.decimal n ++ y)
  | string {spaced : Bool} {l : Leaf} {L : List Leaf} {text y : List Char}
      (kind : l.kind = .string) (shows : Shows text (storeText l.text.tail.dropLast))
      (quote : '"' ∉ text) (more : Rendered false L y) :
      Rendered spaced (l :: L) ('"' :: text ++ '"' :: y)
  | bareRemark {spaced : Bool} {l : Leaf} (kind : l.kind = .token .rem) :
      Rendered spaced [l] (lead spaced ++ Token.rem.spelling.toList)
  | remark {spaced : Bool} {l c : Leaf} {text : List Char} (kind : l.kind = .token .rem)
      (comment : c.kind = .comment) (shows : Shows text (storeText c.text)) :
      Rendered spaced [l, c] (lead spaced ++ Token.rem.spelling.toList ++ text)

theorem storeLeaves_cons {l : Leaf} {L : List Leaf} {bytes : List UInt8}
    (h : storeLeaves (l :: L) = .ok bytes) :
    ∃ first more, storeLeaf l = .ok first ∧ storeLeaves L = .ok more ∧ bytes = first ++ more := by
  unfold storeLeaves at h ⊢
  cases hmapM : (l :: L).mapM storeLeaf with
  | error e =>
    rw [hmapM] at h
    cases h
  | ok parts =>
    rw [hmapM] at h
    cases h
    obtain ⟨first, more, hfirst, hmore, rfl⟩ := List.forall₂_cons_left_iff.1 (mapM_ok_iff.1 hmapM)
    rw [mapM_ok_iff.2 hmore]
    exact ⟨first, more.flatten, hfirst, rfl, rfl⟩

theorem storeLeaves_nil {bytes : List UInt8} (h : storeLeaves [] = .ok bytes) : bytes = [] := by
  cases h
  rfl

def behind (text : List Char) (listed : Option (List Char) × List UInt8) :
    Option (List Char) × List UInt8 :=
  (listed.1.map (text ++ ·), listed.2)

theorem tokenWord_byte (t : Token) : tokenWord t.byte = t.spelling.toList := by
  have hne : t.spelling.isEmpty = false := by
    simpa [Bool.eq_false_iff, String.isEmpty_iff] using spelling_ne_nil t
  rw [tokenWord, Token.listingWord_byte, hne]
  rfl

variable {escapes : List Int}

/-- A byte that is written by its listing word. -/
theorem listTokens_word {b : UInt8} (hlow : b < 128) (hend : b ≠ endOfLine) (hopen : b ≠ openQuote)
    (hrem : b ≠ remToken) (spaced : Bool) (bytes : List UInt8) :
    listTokens escapes spaced (b :: bytes) =
      behind (spacedWord (tokenWord b) spaced).1
        (listTokens escapes (spacedWord (tokenWord b) spaced).2 bytes) := by
  rw [listTokens.eq_def]
  dsimp only
  rw [if_neg (by simpa using hend), if_neg (by simpa using hopen),
    if_neg (by simpa using hrem), if_pos hlow]
  rfl

theorem listTokens_token {t : Token} (ht : t ≠ .rem) (spaced : Bool) (bytes : List UInt8) :
    listTokens escapes spaced (t.byte :: bytes) =
      behind (spacedWord t.spelling.toList spaced).1
        (listTokens escapes (spacedWord t.spelling.toList spaced).2 bytes) := by
  have key : ∀ t ∈ Token.all, t.byte < 128 ∧ t.byte ≠ endOfLine ∧ t.byte ≠ openQuote := by
    decide +kernel
  obtain ⟨hlow, hend, hopen⟩ := key t (Token.mem_all t)
  have hrem : t.byte ≠ remToken := fun h => ht (Token.byte_injective (t := .rem) h)
  rw [listTokens_word hlow hend hopen hrem, tokenWord_byte]

theorem listTokens_end (spaced : Bool) (tail : List UInt8) :
    listTokens escapes spaced (endOfLine :: tail) = (some [], endOfLine :: tail) := by
  rw [listTokens.eq_def]
  rfl

/-- The byte of an ASCII character has the high bit set, and it is a digit byte if the character is
a digit. -/
theorem highByte_of_ascii {c : Char} (h : c.toNat < 128) :
    isHigh (highByte c) = true ∧ isDigitByte (highByte c) = c.isDigit ∧
      Char.ofNat ((highByte c).toNat - 128) = c :=
  Text.ascii_induction (P := fun c => isHigh (highByte c) = true ∧
    isDigitByte (highByte c) = c.isDigit ∧ Char.ofNat ((highByte c).toNat - 128) = c)
    (by decide +kernel) h

/-- A byte with the high bit set is neither a token nor a mark. -/
theorem no_mark_of_isHigh {b : UInt8} (h : isHigh b = true) :
    ¬(b == endOfLine) = true ∧ ¬(b == openQuote) = true ∧ ¬(b == remToken) = true ∧ ¬b < 128 := by
  have hhigh : 128 ≤ b := by simpa [isHigh] using h
  have hne : ∀ m : UInt8, m < 128 → ¬(b == m) = true := by
    intro m hm heq
    rw [beq_iff_eq] at heq
    exact absurd hm (by simpa [heq] using hhigh)
  exact ⟨hne _ (by decide), hne _ (by decide), hne _ (by decide), by simpa using hhigh⟩

theorem listTokens_high {b : UInt8} (h : isHigh b = true) (spaced : Bool) (bytes : List UInt8) :
    listTokens escapes spaced (b :: bytes) =
      if isDigitByte b then
        match bytes with
        | low :: high :: after =>
          behind (Numeral.decimal (wordValue low high)) (listTokens escapes false after)
        | _ => (none, b :: bytes)
      else
        behind (nameText (b :: bytes.takeWhile isHigh))
          (listTokens escapes (endsSpaced false (nameText (b :: bytes.takeWhile isHigh)))
            (bytes.dropWhile isHigh)) := by
  obtain ⟨hend, hquote, hrem, hlow⟩ := no_mark_of_isHigh h
  rw [listTokens.eq_def]
  dsimp only
  rw [if_neg hend, if_neg hquote, if_neg hrem, if_neg hlow]
  split
  · rcases bytes with _ | ⟨low, _ | ⟨high, after⟩⟩ <;> rfl
  · rfl

theorem listTokens_digit {b low high : UInt8} (h : isHigh b = true) (hdigit : isDigitByte b = true)
    (spaced : Bool) (bytes : List UInt8) :
    listTokens escapes spaced (b :: low :: high :: bytes) =
      behind (Numeral.decimal (wordValue low high)) (listTokens escapes false bytes) := by
  rw [listTokens_high h, if_pos hdigit]

theorem listTokens_short {b : UInt8} {rest : List UInt8} (h : isHigh b = true)
    (hdigit : isDigitByte b = true) (hrest : rest.length < 2) (spaced : Bool) :
    listTokens escapes spaced (b :: rest) = (none, b :: rest) := by
  rw [listTokens_high h, if_pos hdigit]
  match rest, hrest with
  | [], _ | [_], _ => rfl

theorem listTokens_run {b : UInt8} (h : isHigh b = true) (hdigit : isDigitByte b = false)
    (spaced : Bool) (bytes : List UInt8) :
    listTokens escapes spaced (b :: bytes) =
      behind (nameText (b :: bytes.takeWhile isHigh))
        (listTokens escapes (endsSpaced false (nameText (b :: bytes.takeWhile isHigh)))
          (bytes.dropWhile isHigh)) := by
  rw [listTokens_high h, if_neg (by simp [hdigit])]

/-- A listing goes on from the end of what it has shown, which is a string, a remark, a number that
may be cut off, a name, or the word of a byte. -/
@[elab_as_elim]
theorem tokens_induction {motive : List UInt8 → Prop} (nil : motive [])
    (ending : ∀ rest, motive (endOfLine :: rest))
    (string : ∀ rest, (∀ bytes : List UInt8, bytes.length ≤ rest.length → motive bytes) →
      motive (openQuote :: rest))
    (remark : ∀ rest, (∀ bytes : List UInt8, bytes.length ≤ rest.length → motive bytes) →
      motive (remToken :: rest))
    (cut : ∀ b rest, isHigh b = true → isDigitByte b = true → rest.length < 2 →
      motive (b :: rest))
    (number : ∀ b low high rest, isHigh b = true → isDigitByte b = true → motive rest →
      motive (b :: low :: high :: rest))
    (name : ∀ b rest, isHigh b = true → isDigitByte b = false → motive (rest.dropWhile isHigh) →
      motive (b :: rest))
    (word : ∀ b rest, b < 128 → b ≠ endOfLine → b ≠ openQuote → b ≠ remToken → motive rest →
      motive (b :: rest))
    (bytes : List UInt8) : motive bytes := by
  induction hlength : bytes.length using Nat.strong_induction_on generalizing bytes with
  | h length ih =>
    subst hlength
    cases bytes with
    | nil => exact nil
    | cons b rest =>
      have hshort : ∀ bytes : List UInt8, bytes.length ≤ rest.length → motive bytes :=
        fun bytes hle => ih bytes.length (Nat.lt_succ_of_le hle) bytes rfl
      by_cases hend : b = endOfLine
      · exact hend ▸ ending rest
      by_cases hquote : b = openQuote
      · exact hquote ▸ string rest hshort
      by_cases hrem : b = remToken
      · exact hrem ▸ remark rest hshort
      cases hhigh : isHigh b with
      | false =>
        have hlow : b < 128 := by simpa [isHigh] using hhigh
        exact word b rest hlow hend hquote hrem (hshort rest (Nat.le_refl _))
      | true =>
        cases hdigit : isDigitByte b with
        | false => exact name b rest hhigh hdigit (hshort _ (List.dropWhile_suffix _).length_le)
        | true =>
          match rest, hshort with
          | [], _ | [_], _ => exact cut b _ hhigh hdigit (by simp)
          | low :: high :: rest, hshort =>
            exact number b low high rest hhigh hdigit (hshort rest (by simp; omega))

/-- A number of any size is listed by the word it is stored in. -/
theorem listTokens_digits (n : Nat) (spaced : Bool) (bytes : List UInt8) :
    listTokens escapes spaced (digitByte n :: wordBytes n ++ bytes) =
      behind (Numeral.decimal (wordValue (UInt8.ofNat n) (UInt8.ofNat (n / 256))))
        (listTokens escapes false bytes) := by
  obtain ⟨c, more, hdecimal⟩ := List.exists_cons_of_ne_nil (Numeral.decimal_ne_nil n)
  have hc : c.isDigit = true :=
    Numeral.isDigit_of_mem_decimal (n := n) (by rw [hdecimal]; exact List.mem_cons_self)
  obtain ⟨hhigh, hdigit, -⟩ :=
    highByte_of_ascii (Text.toNat_lt_of_isAlphanum (c := c) (by simp [Char.isAlphanum, hc]))
  have hbyte : digitByte n = highByte c := by
    rw [digitByte, hdecimal]
    rfl
  rw [hbyte, List.cons_append, listTokens_high hhigh, hdigit, hc, if_pos rfl]
  rfl

theorem listTokens_number {n : Nat} (h : n ≤ 65535) (spaced : Bool) (bytes : List UInt8) :
    listTokens escapes spaced (digitByte n :: wordBytes n ++ bytes) =
      behind (Numeral.decimal n) (listTokens escapes false bytes) := by
  rw [listTokens_digits, wordValue_wordBytes h]

/-- A run of letters and digits that begins with a letter is listed as a name. -/
theorem listTokens_name {c : Char} {run : List Char} (hc : c.isAlpha = true)
    (hrun : ∀ d ∈ run, d.isAlphanum = true) {bytes : List UInt8}
    (hbytes : ∀ b ∈ bytes.head?, isHigh b = false) (spaced : Bool) :
    listTokens escapes spaced ((c :: run).map highByte ++ bytes) =
      behind (c :: run) (listTokens escapes false bytes) := by
  have hall : ∀ d ∈ c :: run, d.isAlphanum = true :=
    List.forall_mem_cons.2 ⟨by simp [Char.isAlphanum, hc], hrun⟩
  have hbyte : ∀ d ∈ c :: run, isHigh (highByte d) = true ∧
      isDigitByte (highByte d) = d.isDigit ∧ Char.ofNat ((highByte d).toNat - 128) = d :=
    fun d hd => highByte_of_ascii (Text.toNat_lt_of_isAlphanum (hall d hd))
  obtain ⟨hhigh, hdigit, -⟩ := hbyte c List.mem_cons_self
  have hnot : c.isDigit = false :=
    (Text.ascii_induction (P := fun c => c.isAlpha = true → c.isDigit = false) (by decide)
      (Text.toNat_lt_of_isAlphanum (hall c List.mem_cons_self))) hc
  have hruns : ∀ b ∈ run.map highByte, isHigh b = true := by
    intro b hb
    obtain ⟨d, hd, rfl⟩ := List.mem_map.1 hb
    exact (hbyte d (List.mem_cons_of_mem _ hd)).1
  have htake : (run.map highByte ++ bytes).takeWhile isHigh = run.map highByte := by
    rw [List.takeWhile_append_of_pos hruns]
    cases bytes with
    | nil => simp
    | cons b bytes => rw [List.takeWhile_cons_of_neg (by simp [hbytes b rfl]), List.append_nil]
  have hdrop : (run.map highByte ++ bytes).dropWhile isHigh = bytes := by
    rw [List.dropWhile_append_of_pos hruns]
    cases bytes with
    | nil => rfl
    | cons b bytes => rw [List.dropWhile_cons_of_neg (by simp [hbytes b rfl])]
  have hname : nameText (highByte c :: run.map highByte) = c :: run := by
    rw [← List.map_cons (f := highByte), nameText, List.map_map]
    nth_rewrite 2 [← List.map_id (c :: run)]
    refine List.map_congr_left fun d hd => ?_
    rw [Function.comp_apply, (hbyte d hd).2.2, id]
  have hends : endsSpaced false (c :: run) = false := by
    rw [endsSpaced, List.getLast?_eq_some_getLast (List.cons_ne_nil c run)]
    dsimp only
    rw [beq_eq_false_iff_ne]
    intro hlast
    exact absurd (hall ' ' (hlast ▸ List.getLast_mem _)) (by decide)
  rw [List.map_cons, List.cons_append, listTokens_high hhigh, hdigit, hnot, if_neg (by simp),
    htake, hdrop, hname, hends]

/-- A string is listed up to its closing quote, or up to the end of the line if there is none. -/
theorem listTokens_openQuote {bytes after : List UInt8} {text : List Char}
    (h : showText escapes [closeQuote.toNat, endOfLine.toNat] bytes = (text, after))
    (spaced : Bool) :
    listTokens escapes spaced (openQuote :: bytes) =
      if after.head? == some closeQuote then
        behind ('"' :: text ++ ['"']) (listTokens escapes false after.tail)
      else behind ('"' :: text) (listTokens escapes (endsSpaced false text) after) := by
  rw [listTokens.eq_def]
  dsimp only
  rw [if_neg (by decide), if_pos (by decide), h]
  split <;> simp [behind]

theorem listTokens_string {inner bytes : List UInt8} {text : List Char}
    (h : showText escapes [closeQuote.toNat, endOfLine.toNat] (inner ++ closeQuote :: bytes) =
      (text, closeQuote :: bytes)) (spaced : Bool) :
    listTokens escapes spaced (openQuote :: (inner ++ closeQuote :: bytes)) =
      behind ('"' :: text ++ ['"']) (listTokens escapes false bytes) := by
  rw [listTokens_openQuote h, if_pos (by simp)]
  rfl

/-- A remark is listed up to the end of the line. -/
theorem listTokens_rem {bytes after : List UInt8} {text : List Char}
    (h : showText escapes [endOfLine.toNat] bytes = (text, after)) (spaced : Bool) :
    listTokens escapes spaced (remToken :: bytes) =
      behind (lead spaced ++ Token.rem.spelling.toList ++ text)
        (listTokens escapes (endsSpaced false text) after) := by
  rw [listTokens.eq_def]
  dsimp only
  rw [if_neg (by decide), if_neg (by decide), if_pos (by decide), h]
  rfl

theorem listTokens_remark {inner tail : List UInt8} {text : List Char}
    (h : showText escapes [endOfLine.toNat] (inner ++ endOfLine :: tail) =
      (text, endOfLine :: tail)) (spaced : Bool) :
    listTokens escapes spaced (remToken :: (inner ++ endOfLine :: tail)) =
      (some (lead spaced ++ Token.rem.spelling.toList ++ text), endOfLine :: tail) := by
  rw [listTokens_rem h, listTokens_end]
  simp [behind]

theorem behind_behind (text more : List Char) (listed : Option (List Char) × List UInt8) :
    behind text (behind more listed) = behind (text ++ more) listed := by
  obtain ⟨listed, left⟩ := listed
  cases listed <;> simp [behind]

/-- The dollar sign of a name without the spaces before it. -/
def sign (tail : List Char) : List Char := tail.filter (· == '$')

theorem sign_of_endsWith {tail rest : List Char} (h : EndsWith tail rest) :
    tail = [] ∧ EndsName rest ∧ sign tail = [] ∨ tail ≠ [] ∧ sign tail = ['$'] := by
  rcases h with ⟨rfl, hrest⟩ | ⟨n, rfl⟩
  · exact .inl ⟨rfl, hrest, rfl⟩
  · right
    refine ⟨by simp, ?_⟩
    rw [sign, List.filter_append, List.filter_eq_nil_iff.2 fun c hc => by
      simp [List.eq_of_mem_replicate hc]]
    rfl

theorem isBlank_of_isAlphanum {c : Char} (h : c.isAlphanum = true) : Text.isBlank c = false :=
  Text.alphanum_induction (P := fun c => Text.isBlank c = false) (by decide +kernel) h

/-- The parts of a name as it is listed. -/
theorem listedName_parts {run tail rest : List Char} (hrun : ∀ c ∈ run, c.isAlphanum = true)
    (h : EndsWith tail rest) : listedName (run ++ tail) = run.map Char.toUpper ++ sign tail := by
  have hkeep : run.filter (!Text.isBlank ·) = run :=
    List.filter_eq_self.2 fun c hc => by simp [isBlank_of_isAlphanum (hrun c hc)]
  rw [listedName, List.filter_append, hkeep, Text.upper_append,
    Text.upper_of_ascii fun c hc => Text.toNat_lt_of_isAlphanum (hrun c hc)]
  congr 1
  rcases h with ⟨rfl, -⟩ | ⟨n, rfl⟩
  · rfl
  · have hspaces : (List.replicate n ' ').filter (!Text.isBlank ·) = [] :=
      List.filter_eq_nil_iff.2 fun c hc => by
        rw [List.eq_of_mem_replicate hc]
        decide
    have hnone : (List.replicate n ' ').filter (· == '$') = [] :=
      List.filter_eq_nil_iff.2 fun c hc => by simp [List.eq_of_mem_replicate hc]
    rw [sign, List.filter_append, List.filter_append, hspaces, hnone]
    rfl

theorem toUpper_of_isAlphanum {c : Char} (h : c.isAlphanum = true) :
    c.toUpper.isAlphanum = true ∧ c.toUpper.isAlpha = c.isAlpha ∧ c.toUpper ≠ '$' :=
  Text.alphanum_induction (P := fun c => c.toUpper.isAlphanum = true ∧
    c.toUpper.isAlpha = c.isAlpha ∧ c.toUpper ≠ '$') (by decide +kernel) h

theorem mem_listedName {s text rest : List Char} (h : Lexeme.name s = some (text, rest)) :
    ∀ c ∈ listedName text, c.isAlphanum = true ∨ c = '$' := by
  obtain ⟨d, run, tail, rfl, hd, hrun, hends⟩ := name_some h
  have hall : ∀ c ∈ d :: run, c.isAlphanum = true :=
    List.forall_mem_cons.2 ⟨by simp [Char.isAlphanum, hd], hrun⟩
  intro c hc
  rw [listedName_parts hall hends] at hc
  rcases List.mem_append.1 hc with hc | hc
  · obtain ⟨e, he, rfl⟩ := List.mem_map.1 hc
    exact .inl (toUpper_of_isAlphanum (hall e he)).1
  · exact .inr (by simpa using (List.mem_filter.1 hc).2)

theorem storeName_parts {run tail rest : List Char} (hrun : ∀ c ∈ run, c.isAlphanum = true)
    (h : EndsWith tail rest) :
    storeName (run ++ tail) =
      (run.map Char.toUpper).map highByte ++ (sign tail).map fun _ => dollarSign := by
  show (listedName (run ++ tail)).map _ = _
  rw [listedName_parts hrun h, List.map_append]
  congr 1
  · refine List.map_congr_left fun c hc => ?_
    obtain ⟨d, hd, rfl⟩ := List.mem_map.1 hc
    rw [if_neg (by simpa using (toUpper_of_isAlphanum (hrun d hd)).2.2)]
  · refine List.map_congr_left fun c hc => ?_
    rw [if_pos (List.mem_filter.1 hc).2]

theorem listTokens_dollar (spaced : Bool) (bytes : List UInt8) :
    listTokens escapes spaced (dollarSign :: bytes) =
      behind ['$'] (listTokens escapes false bytes) := by
  rw [listTokens_word (by decide) (by decide) (by decide) (by decide),
    show tokenWord dollarSign = ['$'] by decide +kernel]
  rfl

/-- A name is listed in upper case and without spaces. -/
theorem listTokens_storeName {s text rest : List Char} (h : Lexeme.name s = some (text, rest))
    {bytes : List UInt8} (hbytes : ∀ b ∈ bytes.head?, isHigh b = false) (spaced : Bool) :
    listTokens escapes spaced (storeName text ++ bytes) =
      behind (listedName text) (listTokens escapes false bytes) := by
  obtain ⟨c, run, tail, rfl, hc, hrun, hends⟩ := name_some h
  have hall : ∀ d ∈ c :: run, d.isAlphanum = true :=
    List.forall_mem_cons.2 ⟨by simp [Char.isAlphanum, hc], hrun⟩
  have hupper : c.toUpper.isAlpha = true := by
    rw [(toUpper_of_isAlphanum (hall c List.mem_cons_self)).2.1, hc]
  have hruns : ∀ d ∈ run.map Char.toUpper, d.isAlphanum = true := by
    intro d hd
    obtain ⟨e, he, rfl⟩ := List.mem_map.1 hd
    exact (toUpper_of_isAlphanum (hrun e he)).1
  rw [storeName_parts hall hends, listedName_parts hall hends, List.map_cons, List.append_assoc]
  rcases sign_of_endsWith hends with ⟨-, -, hsign⟩ | ⟨-, hsign⟩
  · rw [hsign, List.append_nil]
    exact listTokens_name hupper hruns hbytes spaced
  · rw [hsign, List.map_singleton, List.singleton_append,
      listTokens_name hupper hruns (by rintro _ ⟨⟩; decide) spaced, listTokens_dollar,
      behind_behind]

/-- A leaf is a token, a number, a name or a string. -/
theorem takes_cases {kind : LeafKind} {s text rest : List Char} (h : Takes kind s text rest) :
    (∃ t, kind = .token t) ∨ (kind = .integer ∨ kind = .lineArgument) ∨
      (∃ type, kind = .name type) ∨ kind = .string := by
  cases h with
  | reads h => cases h <;> simp
  | pointer => simp
  | colon => simp

/-- Where no operand stands the next byte has no high bit. -/
theorem isHigh_head {i : Input} {L : List Leaf} (h : Written false i L) {bytes : List UInt8}
    (hstore : storeLeaves L = .ok bytes) (tail : List UInt8) :
    ∀ b ∈ (bytes ++ endOfLine :: tail).head?, isHigh b = false := by
  have htoken : ∀ t : Token, isHigh t.byte = false := by
    intro t
    have := t.byte_lt
    rw [isHigh, decide_eq_false_iff_not, UInt8.le_iff_toNat_le]
    exact Nat.not_le.2 this
  have hfirst : ∀ {t : Token} {l : Leaf} {L : List Leaf}, l.kind = .token t →
      storeLeaves (l :: L) = .ok bytes →
      ∀ b ∈ (bytes ++ endOfLine :: tail).head?, isHigh b = false := by
    intro t l L hkind hstore
    obtain ⟨first, more, hl, -, rfl⟩ := storeLeaves_cons hstore
    rw [storeLeaf, hkind] at hl
    cases hl
    rintro _ ⟨⟩
    exact htoken t
  cases h with
  | done =>
    rw [storeLeaves_nil hstore]
    rintro _ ⟨⟩
    decide
  | leaf takes hrem allowed =>
    rcases takes_cases takes with ⟨t, rfl⟩ | (rfl | rfl) | ⟨type, rfl⟩ | rfl
    · exact hfirst rfl hstore
    · cases allowed rfl
    · cases allowed rfl
    · cases allowed rfl
    · cases allowed rfl
  | bareRemark => exact hfirst rfl hstore
  | remark => exact hfirst rfl hstore

/-- What is asked of the leaves of a line that is to be listed and stored again: numbers that fit
into two bytes, and no escapes that read back as something else. -/
structure Listable (l : Leaf) : Prop where
  limit : l.kind.isNumber = true → Numeral.digitsValue l.text ≤ 65535
  escapes : l.kind = .string ∨ l.kind = .comment → EscapesListable l.text

instance (l : Leaf) : Decidable (Listable l) :=
  decidable_of_iff ((l.kind.isNumber = true → Numeral.digitsValue l.text ≤ 65535) ∧
    (l.kind = .string ∨ l.kind = .comment → EscapesListable l.text))
    ⟨fun h => ⟨h.1, h.2⟩, fun h => ⟨h.limit, h.escapes⟩⟩

theorem storeLeaf_number {l : Leaf} (hkind : l.kind = .integer ∨ l.kind = .lineArgument)
    {bytes : List UInt8} (h : storeLeaf l = .ok bytes) :
    Numeral.readToken l.text = .ok (Numeral.digitsValue l.text) ∧
      bytes = digitByte (Numeral.digitsValue l.text) ::
        wordBytes (Numeral.digitsValue l.text) := by
  have hread : (do
      let n ← Numeral.readToken l.text
      return digitByte n :: wordBytes n : Except Numeral.Fault (List UInt8)) = .ok bytes := by
    rcases hkind with hkind | hkind
    · rwa [storeLeaf, hkind] at h
    · rwa [storeLeaf, hkind] at h
  cases hnumber : Numeral.readToken l.text with
  | error fault =>
    rw [hnumber] at hread
    cases hread
  | ok n =>
    obtain rfl := Numeral.eq_digitsValue hnumber
    rw [hnumber] at hread
    cases hread
    exact ⟨rfl, rfl⟩

def IsListed (escapes : List Int) (tail : List UInt8) (spaced : Bool) (L : List Leaf)
    (bytes : List UInt8) : Prop :=
  ∃ y, listTokens escapes spaced (bytes ++ endOfLine :: tail) = (some y, endOfLine :: tail) ∧
    Rendered spaced L y

/-- A listing is done where it is to stop, and where three bytes are left. -/
theorem listAll_done {address : Nat} {stop : Int} {bytes : List UInt8}
    (h : ¬((address : Int) < stop ∧ 3 < bytes.length)) :
    listAll escapes address stop bytes = ⟨[], none⟩ := by
  rw [listAll.eq_def]
  split
  · rw [if_neg fun hlt => h ⟨hlt, by simp⟩]
  · rfl

namespace IsListed

variable {tail bytes : List UInt8} {spaced : Bool} {l : Leaf} {L : List Leaf}

theorem nil : IsListed escapes tail spaced [] [] := ⟨[], listTokens_end _ _, .nil⟩

theorem token {t : Token} (kind : l.kind = .token t) (ht : t ≠ .rem)
    (h : IsListed escapes tail (spacedWord t.spelling.toList spaced).2 L bytes) :
    IsListed escapes tail spaced (l :: L) (t.byte :: bytes) := by
  obtain ⟨y, hy, hrendered⟩ := h
  refine ⟨_, ?_, .token kind ht hrendered⟩
  rw [List.cons_append, listTokens_token ht, hy]
  rfl

theorem number {n : Nat} (kind : l.kind = .integer ∨ l.kind = .lineArgument)
    (read : Numeral.readToken l.text = .ok n) (limit : n ≤ 65535)
    (h : IsListed escapes tail false L bytes) :
    IsListed escapes tail spaced (l :: L) (digitByte n :: wordBytes n ++ bytes) := by
  obtain ⟨y, hy, hrendered⟩ := h
  refine ⟨_, ?_, .number kind read limit hrendered⟩
  rw [List.append_assoc, listTokens_number limit, hy]
  rfl

theorem name {type : DataType} {s rest : List Char} (kind : l.kind = .name type)
    (read : Lexeme.name s = some (l.text, rest))
    (hbytes : ∀ b ∈ (bytes ++ endOfLine :: tail).head?, isHigh b = false)
    (h : IsListed escapes tail false L bytes) :
    IsListed escapes tail spaced (l :: L) (storeName l.text ++ bytes) := by
  obtain ⟨y, hy, hrendered⟩ := h
  refine ⟨_, ?_, .name kind (mem_listedName read) hrendered⟩
  rw [List.append_assoc, listTokens_storeName read hbytes, hy]
  rfl

theorem bareRemark (kind : l.kind = .token .rem) :
    IsListed escapes tail spaced [l] [Token.rem.byte] := by
  have hshow : showText escapes [endOfLine.toNat] ([] ++ endOfLine :: tail) =
      ([], endOfLine :: tail) := by simp [showText]
  have hlisted := listTokens_remark hshow spaced
  rw [List.append_nil] at hlisted
  exact ⟨_, hlisted, .bareRemark kind⟩

section Shown

variable (hline : 138 ∈ escapes) (hreturn : 141 ∈ escapes)
include hline hreturn

theorem string {inner : List Char} (kind : l.kind = .string) (parts : l.text = '"' :: inner ++ ['"'])
    (hquote : '"' ∉ inner) (hprint : ∀ c ∈ inner, isPrintable c = true)
    (hescapes : EscapesListable l.text) (h : IsListed escapes tail false L bytes) :
    IsListed escapes tail spaced (l :: L)
      (openQuote :: storeText l.text.tail.dropLast ++ [closeQuote] ++ bytes) := by
  obtain ⟨y, hy, hrendered⟩ := h
  have hinner : l.text.tail.dropLast = inner := by rw [parts]; simp
  have hlistable : EscapesListable inner := fun high low b hpart =>
    hescapes high low b (hpart.trans (by rw [parts]; exact ⟨['"'], ['"'], rfl⟩))
  have hbytes : ∀ b ∈ [closeQuote, endOfLine], b = endOfLine ∨ b = closeQuote := by simp
  obtain ⟨shown, hshow, hshows, hback⟩ := exists_showText_storeText hline hreturn hprint hlistable
    hbytes List.mem_cons_self (bytes ++ endOfLine :: tail)
  refine ⟨'"' :: shown ++ '"' :: y, ?_,
    .string kind (by rwa [hinner]) (fun h => hquote (hback h)) hrendered⟩
  have hlisted := listTokens_string hshow spaced
  rw [hy] at hlisted
  simpa [behind, hinner] using hlisted

theorem remark {c : Leaf} (kind : l.kind = .token .rem) (comment : c.kind = .comment)
    (hprint : ∀ d ∈ c.text, isPrintable d = true) (hescapes : EscapesListable c.text) :
    IsListed escapes tail spaced [l, c] (Token.rem.byte :: storeText c.text) := by
  have hbytes : ∀ b ∈ [endOfLine], b = endOfLine ∨ b = closeQuote := by simp
  obtain ⟨shown, hshow, hshows, -⟩ := exists_showText_storeText hline hreturn hprint hescapes hbytes
    List.mem_cons_self tail
  exact ⟨_, listTokens_remark hshow spaced, .remark kind comment hshows⟩

end Shown

end IsListed

section Line

variable (hline : 138 ∈ escapes) (hreturn : 141 ∈ escapes)
include hline hreturn

/-- The leaves of a line are listed one after the other. -/
theorem isListed_of_written {q : Bool} {i : Input} {L : List Leaf} (h : Written q i L)
    (hprint : ∀ c ∈ i.rest, isPrintable c = true) (hlistable : ∀ l ∈ L, Listable l)
    {bytes : List UInt8} (hstore : storeLeaves L = .ok bytes) (spaced : Bool)
    (tail : List UInt8) : IsListed escapes tail spaced L bytes := by
  induction h generalizing bytes spaced with
  | done =>
    rw [storeLeaves_nil hstore]
    exact .nil
  | @leaf q i kind text rest L takes hrem allowed more ih =>
    obtain ⟨first, later, hl, hmore, rfl⟩ := storeLeaves_cons hstore
    obtain ⟨hlist, hlists⟩ := List.forall_mem_cons.1 hlistable
    have hmem : ∀ c ∈ text ++ rest, isPrintable c = true := fun c hc =>
      hprint c (by rw [rest_eq_of_takes takes]; exact List.mem_append_right _ hc)
    have hrest : ∀ spaced, IsListed escapes tail spaced L later :=
      fun spaced => ih (fun c hc => hmem c (List.mem_append_right _ hc)) hlists hmore spaced
    obtain ⟨t, rfl⟩ | hkind | ⟨type, rfl⟩ | rfl := takes_cases takes
    · cases hl
      exact .token rfl (by simpa using hrem) (hrest _)
    · have hlimit := hlist.limit (by rcases hkind with rfl | rfl <;> rfl)
      obtain ⟨hread, rfl⟩ := storeLeaf_number hkind hl
      exact .number hkind hread hlimit (hrest false)
    · cases hl
      exact .name rfl takes.name.1 (isHigh_head more hmore tail) (hrest false)
    · cases hl
      obtain ⟨inner, rfl, hinner⟩ := string_some takes.string
      have hinside : ∀ c ∈ inner, isPrintable c = true := fun c hc => hmem c (by simp [hc])
      exact .string hline hreturn rfl rfl hinner hinside (hlist.escapes (.inl rfl)) (hrest false)
  | @bareRemark q i text read =>
    obtain ⟨first, later, hl, hmore, rfl⟩ := storeLeaves_cons hstore
    cases hl
    rw [storeLeaves_nil hmore]
    exact .bareRemark rfl
  | @remark q i text rest read ne =>
    obtain ⟨first, later, hl, hmore, rfl⟩ := storeLeaves_cons hstore
    cases hl
    obtain ⟨comment, last, hl, hnil, rfl⟩ := storeLeaves_cons hmore
    cases hl
    rw [storeLeaves_nil hnil, List.append_nil]
    have hrest : rest <:+ i.rest :=
      (List.suffix_append text rest).trans (append_of_word read ▸ List.dropWhile_suffix _)
    have hescapes := (hlistable _ (List.mem_cons_of_mem _ List.mem_cons_self)).escapes (.inr rfl)
    exact .remark hline hreturn rfl rfl (fun c hc => hprint c (hrest.subset hc)) hescapes

end Line

end IntegerBasic.Record
