import IntegerBasic.Proofs.Memory.CutImages
import IntegerBasic.Proofs.Record.EscapePolicy

/-!
# Control characters in a listing

A listing has no control character in its words and numbers, and none in strings and remarks whose
byte is listed among the escapes. But the bytes of names are never looked up there, and so a name
brings every control character into its line. By default line feed and carriage return are listed:
then a listing has a line feed for each record, and one more for each name byte that stands for one.
-/

namespace IntegerBasic.Record

def behindString (bytes : List UInt8) : List UInt8 :=
  let after := bytes.dropWhile fun b => b != closeQuote && b != endOfLine
  if after.head? == some closeQuote then after.tail else after

theorem length_behindString (bytes : List UInt8) : (behindString bytes).length ≤ bytes.length := by
  have hlength := (List.dropWhile_suffix (fun b => b != closeQuote && b != endOfLine)
    (l := bytes)).length_le
  rw [behindString]
  split
  · rw [List.length_tail]
    omega
  · exact hlength

/-- The bytes that stand in the names of a record, given the bytes behind its line number. -/
def nameBytes (bytes : List UInt8) : List UInt8 :=
  match bytes with
  | [] => []
  | b :: rest =>
    if b == endOfLine || b == remToken then []
    else if b == openQuote then nameBytes (behindString rest)
    else if !isHigh b then nameBytes rest
    else if isDigitByte b then nameBytes (rest.drop 2)
    else b :: rest.takeWhile isHigh ++ nameBytes (rest.dropWhile isHigh)
termination_by bytes.length
decreasing_by
  all_goals simp only [List.length_cons]
  · have := length_behindString rest
    omega
  · omega
  · rw [List.length_drop]
    omega
  · have := (List.dropWhile_suffix isHigh (l := rest)).length_le
    omega

section Equations

variable {b : UInt8} {rest : List UInt8}

theorem nameBytes_openQuote : nameBytes (openQuote :: rest) = nameBytes (behindString rest) := by
  rw [nameBytes, if_neg (by decide), if_pos (by decide)]

theorem nameBytes_word (hlow : b < 128) (hend : b ≠ endOfLine) (hopen : b ≠ openQuote)
    (hrem : b ≠ remToken) : nameBytes (b :: rest) = nameBytes rest := by
  rw [nameBytes, if_neg (by simp [hend, hrem]), if_neg (by simpa using hopen),
    if_pos (by simpa [isHigh] using hlow)]

theorem nameBytes_high (h : isHigh b = true) : nameBytes (b :: rest) =
    if isDigitByte b then nameBytes (rest.drop 2)
    else b :: rest.takeWhile isHigh ++ nameBytes (rest.dropWhile isHigh) := by
  have hne : ∀ m : UInt8, isHigh m = false → b ≠ m := by
    rintro m hm rfl
    rw [hm] at h
    cases h
  rw [nameBytes, if_neg (by simp [hne endOfLine rfl, hne remToken rfl]),
    if_neg (by simpa using hne openQuote rfl), if_neg (by simp [h])]

end Equations

variable {escapes terminators : List Int} {c : Char}

/-- Text without control characters. -/
theorem count_of_printable (hc : c.toNat < 32) {text : List Char} (h : ∀ d ∈ text, 32 ≤ d.toNat) :
    text.count c = 0 := by
  rw [List.count_eq_zero]
  intro hmem
  have := h c hmem
  omega

/-- A byte with the high bit set stands for a character exactly if it is the byte of this
character. -/
theorem char_eq_iff {b : UInt8} (hb : isHigh b = true) (hc : c.toNat < 128) :
    Char.ofNat (b.toNat - 128) = c ↔ b = highByte c := by
  constructor
  · exact eq_highByte (by simpa [isHigh] using hb)
  · rintro rfl
    exact (highByte_of_ascii hc).2.2

/-- A listed control character is nowhere in the text of a string or a remark. -/
theorem not_mem_showByte (hc : c.toNat < 32) (hlisted : ((highByte c).toNat : Int) ∈ escapes)
    (b : UInt8) (behind : List UInt8) : c ∉ showByte escapes b behind := by
  have hplain : c ∉ showPlain escapes b := by
    rw [showPlain]
    by_cases hneeds : needsEscape escapes b = true
    · rw [if_pos hneeds]
      intro hmem
      have := (visible_of_mem_escape hmem).1
      omega
    · rw [if_neg hneeds]
      rw [needsEscape, Bool.or_eq_true, Bool.or_eq_true, List.contains_iff_mem, not_or, not_or,
        decide_eq_true_eq] at hneeds
      have hb : isHigh b = true := by simpa [isHigh] using hneeds.2
      rw [List.mem_singleton, eq_comm, char_eq_iff hb (by omega)]
      rintro rfl
      exact hneeds.1.1 hlisted
  have hmark : ∀ d ∈ (['\\', 'x', '5', 'c'] : List Char), 32 ≤ d.toNat := by decide
  unfold showByte
  split
  · split
    · split
      · intro hmem
        have := hmark c hmem
        omega
      · intro hmem
        have := hmark c (List.mem_cons.2 (.inl (List.mem_singleton.1 hmem)))
        omega
    · exact hplain
  · exact hplain

theorem count_showText (hc : c.toNat < 32) (hlisted : ((highByte c).toNat : Int) ∈ escapes)
    (terminators : List Int) (bytes : List UInt8) :
    (showText escapes terminators bytes).1.count c = 0 := by
  rw [showText_eq_pieces, List.count_eq_zero]
  intro hmem
  obtain ⟨piece, hpiece, hmem⟩ := List.mem_flatten.1 hmem
  obtain ⟨i, hi, rfl⟩ := List.mem_mapIdx.1 hpiece
  exact not_mem_showByte hc hlisted _ _ hmem

/-- A name has a control character as often as its byte. -/
theorem count_nameText (hc : c.toNat < 128) {bytes : List UInt8}
    (h : ∀ b ∈ bytes, isHigh b = true) :
    (nameText bytes).count c = bytes.count (highByte c) := by
  induction bytes with
  | nil => rfl
  | cons b bytes ih =>
    obtain ⟨hb, hmore⟩ := List.forall_mem_cons.1 h
    rw [nameText] at ih ⊢
    rw [List.map_cons, List.count_cons, List.count_cons, ih hmore]
    simp only [beq_iff_eq, char_eq_iff hb hc]

theorem visible_of_mem_tokenWord {b : UInt8} (h : c ∈ tokenWord b) : 32 ≤ c.toNat := by
  have key : ∀ word ∈ "" :: Token.listingWords, ∀ c ∈ word.toList, 32 ≤ c.toNat := by
    decide +kernel
  have hword : Token.listingWord b ∈ "" :: Token.listingWords := by
    rw [Token.listingWord, List.getD_eq_getElem?_getD]
    cases hget : Token.listingWords[b.toNat]? with
    | none => exact List.mem_cons_self
    | some word => exact List.mem_cons_of_mem _ (List.mem_of_getElem? hget)
  rw [tokenWord] at h
  split at h
  · revert c
    decide
  · exact key _ hword c h

/-- The words of tokens are written without control characters. -/
theorem count_spacedWord (hc : c.toNat < 32) (b : UInt8) (spaced : Bool) :
    (spacedWord (tokenWord b) spaced).1.count c = 0 := by
  refine count_of_printable hc fun d hd => ?_
  rw [spacedWord_eq, List.mem_append, List.mem_append] at hd
  rcases hd with hd | hd | hd
  · split at hd
    · rw [eq_space_of_mem_lead hd]
      decide
    · cases hd
  · exact visible_of_mem_tokenWord hd
  · rw [eq_space_of_mem_trail hd]
    decide

theorem count_decimal (hc : c.toNat < 32) (n : Nat) : (Numeral.decimal n).count c = 0 := by
  refine count_of_printable hc fun d hd => ?_
  have := (Text.toNat_of_isDigit (Numeral.isDigit_of_mem_decimal hd)).1
  omega

/-- Listing goes on behind a string where the string ends. -/
theorem behindString_eq {bytes after : List UInt8} {text : List Char}
    (h : showText escapes [closeQuote.toNat, endOfLine.toNat] bytes = (text, after)) :
    behindString bytes = if after.head? == some closeQuote then after.tail else after := by
  have hmark : ∀ b : UInt8, (b != closeQuote && b != endOfLine) =
      !([(closeQuote.toNat : Int), (endOfLine.toNat : Int)]).contains (b.toNat : Int) := by
    intro b
    have hmem := mem_marks_iff [closeQuote, endOfLine] b
    rw [Bool.eq_iff_iff]
    simpa [not_or] using (not_congr hmem).symm
  rw [showText_eq_pieces] at h
  cases h
  rw [behindString, funext hmark]

/-- Behind a remark there is nothing but the end of the line. -/
theorem eq_nil_of_listTokens_remark {bytes after left : List UInt8} {shown more : List Char}
    (hshow : showText escapes [endOfLine.toNat] bytes = (shown, after)) {spaced : Bool}
    (h : listTokens escapes spaced after = (some more, left)) : more = [] := by
  have hmark : ∀ d : UInt8, (!([(endOfLine.toNat : Int)]).contains (d.toNat : Int)) = false →
      d = endOfLine := by
    intro d hd
    simpa using (mem_marks_iff [endOfLine] d).1 (by simpa using hd)
  rw [showText_eq_pieces] at hshow
  obtain ⟨-, hafter⟩ := Prod.mk.inj hshow
  cases after with
  | nil =>
    rw [listTokens] at h
    cases h
  | cons d after =>
    have hhead := List.head?_dropWhile_not
      (fun b : UInt8 => !([(endOfLine.toNat : Int)]).contains (b.toNat : Int)) bytes
    rw [hafter] at hhead
    rw [hmark d hhead, listTokens_end] at h
    cases h
    rfl

/-- A record that has been listed has a character as often as its byte stands in its names. -/
def Counts (escapes : List Int) (c : Char) (bytes : List UInt8) : Prop :=
  ∀ ⦃spaced : Bool⦄ ⦃text : List Char⦄ ⦃left : List UInt8⦄,
    listTokens escapes spaced bytes = (some text, left) →
      text.count c = (nameBytes bytes).count (highByte c)

section Counts

variable {rest left : List UInt8} {spaced : Bool} {shown text : List Char} {b : UInt8}

/-- What is listed behind the first token counts as what follows it. -/
theorem Counts.behind (h : Counts escapes c rest)
    (hlisted : behind shown (listTokens escapes spaced rest) = (some text, left)) :
    text.count c = shown.count c + (nameBytes rest).count (highByte c) := by
  obtain ⟨more, hmore, rfl⟩ := behind_eq_some hlisted
  rw [List.count_append, h hmore]

theorem counts_number {low high : UInt8} (hc : c.toNat < 32) (hhigh : isHigh b = true)
    (hdigit : isDigitByte b = true) (ih : Counts escapes c rest) :
    Counts escapes c (b :: low :: high :: rest) := by
  intro spaced text left h
  rw [listTokens_digit hhigh hdigit] at h
  rw [ih.behind h, count_decimal hc, Nat.zero_add, nameBytes_high hhigh, if_pos hdigit]
  rfl

theorem counts_name (hc : c.toNat < 32) (hhigh : isHigh b = true) (hdigit : isDigitByte b = false)
    (ih : Counts escapes c (rest.dropWhile isHigh)) : Counts escapes c (b :: rest) := by
  intro spaced text left h
  rw [listTokens_run hhigh hdigit] at h
  have hname : ∀ d ∈ b :: rest.takeWhile isHigh, isHigh d = true :=
    List.forall_mem_cons.2 ⟨hhigh, fun d => List.mem_takeWhile_imp⟩
  rw [ih.behind h, nameBytes_high hhigh, if_neg (by simp [hdigit]),
    count_nameText (by omega) hname, List.count_append]

theorem counts_word (hc : c.toNat < 32) (hlow : b < 128) (hend : b ≠ endOfLine)
    (hquote : b ≠ openQuote) (hrem : b ≠ remToken) (ih : Counts escapes c rest) :
    Counts escapes c (b :: rest) := by
  intro spaced text left h
  rw [listTokens_word hlow hend hquote hrem] at h
  rw [ih.behind h, nameBytes_word hlow hend hquote hrem, count_spacedWord hc b, Nat.zero_add]

variable (hc : c.toNat < 32) (hlisted : ((highByte c).toNat : Int) ∈ escapes)
  (ih : ∀ bytes : List UInt8, bytes.length ≤ rest.length → Counts escapes c bytes)
include hc hlisted

include ih in
theorem counts_string : Counts escapes c (openQuote :: rest) := by
  intro spaced text left h
  cases hshow : showText escapes [closeQuote.toNat, endOfLine.toNat] rest with
  | mk shown after =>
    have hnone := count_showText hc hlisted [closeQuote.toNat, endOfLine.toNat] rest
    rw [hshow] at hnone
    have hopen : ('"' :: shown).count c = 0 := by
      rw [List.count_cons, hnone, if_neg]
      rw [beq_iff_eq]
      rintro rfl
      exact absurd hc (by decide)
    have hlength := length_behindString rest
    rw [behindString_eq hshow] at hlength
    rw [nameBytes_openQuote, behindString_eq hshow]
    rw [listTokens_openQuote hshow] at h
    by_cases hclose : (after.head? == some closeQuote) = true
    · rw [if_pos hclose] at h hlength ⊢
      rw [(ih _ hlength).behind h, List.count_append, hopen, count_of_printable hc (by decide),
        Nat.zero_add]
    · rw [if_neg hclose] at h hlength ⊢
      rw [(ih _ hlength).behind h, hopen, Nat.zero_add]

/-- A remark is the last of a record. -/
theorem counts_remark : Counts escapes c (remToken :: rest) := by
  intro spaced text left h
  cases hshow : showText escapes [endOfLine.toNat] rest with
  | mk shown after =>
    have hnone := count_showText hc hlisted [endOfLine.toNat] rest
    rw [hshow] at hnone
    rw [listTokens_rem hshow] at h
    obtain ⟨more, hmore, rfl⟩ := behind_eq_some h
    have hlead : (lead spaced).count c = 0 := by
      refine count_of_printable hc fun d hd => ?_
      rw [eq_space_of_mem_lead hd]
      decide
    have hword : Token.rem.spelling.toList.count c = 0 := count_of_printable hc (by decide)
    rw [eq_nil_of_listTokens_remark hshow hmore, List.append_nil, List.count_append,
      List.count_append, hlead, hword, hnone, nameBytes, if_pos (by decide)]
    rfl

end Counts

/-- What is listed outside of names has no control character that is listed among the escapes. -/
theorem counts (hc : c.toNat < 32) (hlisted : ((highByte c).toNat : Int) ∈ escapes)
    (bytes : List UInt8) : Counts escapes c bytes := by
  induction bytes using tokens_induction with
  | nil =>
    intro spaced text left h
    exact absurd rfl (ne_nil_of_listTokens h)
  | ending rest =>
    intro spaced text left h
    rw [listTokens_end] at h
    cases h
    rw [nameBytes, if_pos (by decide)]
    rfl
  | string rest ih => exact counts_string hc hlisted ih
  | remark rest ih => exact counts_remark hc hlisted
  | cut b rest hhigh hdigit hshort =>
    intro spaced text left h
    rw [listTokens_short hhigh hdigit hshort] at h
    cases h
  | number b low high rest hhigh hdigit ih => exact counts_number hc hhigh hdigit ih
  | name b rest hhigh hdigit ih => exact counts_name hc hhigh hdigit ih
  | word b rest hlow hend hquote hrem ih => exact counts_word hc hlow hend hquote hrem ih

/-- The same for a record with its line number. -/
theorem count_list? (hc : c.toNat < 32) (hlisted : ((highByte c).toNat : Int) ∈ escapes)
    {low high : UInt8} {tokens : List UInt8} {line : List Char} {consumed : Nat}
    (h : list? escapes (low :: high :: tokens) = some ⟨some line, consumed⟩) :
    line.count c = (nameBytes tokens).count (highByte c) := by
  rw [list?] at h
  rcases hlist : listTokens escapes true tokens with ⟨_ | text, left⟩ <;> rw [hlist] at h
  · cases h
  · cases h
    rw [List.count_append, List.count_append, count_decimal hc, count_of_printable hc (by decide),
      counts hc hlisted tokens hlist, Nat.zero_add]

/-- Each record is listed where the one before it ends. -/
theorem list?_of_mem_entries {address : Nat} {stop : Int} {bytes : List UInt8} {a : Nat}
    {line : List Char}
    (h : (a, line) ∈ (address :: (entries escapes address stop bytes).map (·.2)).zip
      ((entries escapes address stop bytes).map (·.1))) :
    address ≤ a ∧ ∃ consumed,
      list? escapes (bytes.drop (a - address + 1)) = some ⟨some line, consumed⟩ := by
  induction address, bytes using records_induction escapes stop with
  | done address bytes hlt => simp [entries_done hlt] at h
  | nil address hlt => simp [entries_nil] at h
  | cut address b bytes hlt hnone => simp [entries_cut hnone] at h
  | line address b bytes first consumed hlt hlist ih =>
    rw [entries_line hlt hlist, List.map_cons, List.map_cons, List.zip_cons_cons,
      List.mem_cons] at h
    cases h with
    | inl h =>
      cases h
      rw [Nat.sub_self]
      exact ⟨Nat.le_refl _, consumed, hlist⟩
    | inr h =>
      obtain ⟨hle, consumed', hlist'⟩ := ih h
      refine ⟨by omega, consumed', ?_⟩
      rw [List.drop_drop] at hlist'
      have hdrop : a - address + 1 = consumed + (a - (address + 1 + consumed) + 1) + 1 := by omega
      rw [hdrop, List.drop_succ_cons]
      exact hlist'

end IntegerBasic.Record

namespace IntegerBasic.Memory

open Record

/-- The bytes that stand in the names of the record at an address. -/
def namesAt (image : Image) (address : Int) : List UInt8 :=
  match Index.from? image (address + 1) with
  | some (_ :: _ :: tokens) => nameBytes tokens
  | _ => []

/-- The bounds that a listing goes by: the given ones, and the pointers of the image where one is
missing. -/
def boundsOf? (image : Image) (start stop : Option Int) : Option (Int × Int) :=
  match start, stop with
  | some start, some stop => some (start, stop)
  | _, _ => (bounds? image).map fun (first, last) => (start.getD first, stop.getD last)

/-- The records that are listed, each by its address and its line. The first stands where the
listing starts, and each other where the one before it ends. -/
def listedRecords (settings : Settings) (image : Image) (start stop : Option Int) :
    List (Int × List Char) :=
  match boundsOf? image start stop with
  | none => []
  | some (start, stop) =>
    let entries := entriesBetween settings image start stop
    (start :: entries.map fun entry => (entry.2 : Int)).zip (entries.map (·.1))

/-- The text of a listing is made of the lines of its records. -/
theorem text_listedRecords (settings : Settings) (image : Image) (start stop : Option Int) :
    (list settings image start stop).text =
      (listedRecords settings image start stop).flatMap fun record => record.2 ++ ['\n'] := by
  have hlist : (list settings image start stop).text =
      ((boundsOf? image start stop).map fun (start, stop) =>
        (list settings image (some start) (some stop)).text).getD [] := by
    rcases start with _ | start <;> rcases stop with _ | stop <;>
      rcases hbounds : bounds? image with _ | ⟨first, last⟩ <;> simp [list, boundsOf?, hbounds]
  rw [hlist, listedRecords]
  rcases boundsOf? image start stop with _ | ⟨start, stop⟩
  · rfl
  · have hsnd : ∀ entries : List (List Char × Nat),
        ((start :: entries.map fun entry => (entry.2 : Int)).zip (entries.map (·.1))).map (·.2) =
          entries.map (·.1) := fun entries =>
      List.map_snd_zip (by rw [List.length_cons, List.length_map, List.length_map]; omega)
    dsimp only [Option.map_some, Option.getD_some]
    rw [text_entriesBetween, ← List.flatMap_map (fun entry : List Char × Nat => entry.1)
      (fun line => line ++ ['\n']), ← List.flatMap_map (fun record : Int × List Char => record.2)
      (fun line => line ++ ['\n']), hsnd]

/-- The line of a record is what is listed at its address. -/
theorem listRecord?_of_mem {settings : Settings} {image : Image} {start stop : Option Int}
    {record : Int × List Char} (h : record ∈ listedRecords settings image start stop) :
    ∃ next, listRecord? settings image record.1 = some (some record.2, next) := by
  obtain ⟨address, line⟩ := record
  rw [listedRecords] at h
  rcases hbounds : boundsOf? image start stop with _ | ⟨first, last⟩ <;> rw [hbounds] at h
  · cases h
  dsimp only at h
  rw [entriesBetween] at h
  by_cases hguard : (decide (first < 0) || decide (last < first) ||
      decide ((image.length : Int) ≤ first)) = true
  · rw [if_pos hguard, List.map_nil, List.map_nil, List.zip_nil_right] at h
    cases h
  · rw [if_neg hguard] at h
    simp only [Bool.or_eq_true, decide_eq_true_eq, not_or] at hguard
    obtain ⟨first, rfl⟩ := Int.eq_ofNat_of_zero_le (show 0 ≤ first by omega)
    -- all the addresses are natural numbers
    have hcast : ∀ entries : List (List Char × Nat),
        ((first : Int) :: entries.map fun entry => (entry.2 : Int)).zip (entries.map (·.1)) =
          ((first :: entries.map (·.2)).zip (entries.map (·.1))).map
            (Prod.map (fun n : Nat => (n : Int)) id) := by
      intro entries
      rw [← List.zip_map_left, List.map_cons, List.map_map]
      rfl
    rw [Int.toNat_natCast, hcast, List.mem_map] at h
    obtain ⟨⟨a, line'⟩, hmem, hrecord⟩ := h
    cases hrecord
    obtain ⟨hle, consumed, hlist⟩ := list?_of_mem_entries hmem
    have hfrom : Index.from? image ((a : Int) + 1) = some (image.drop (a + 1)) := by
      rw [Index.from?, if_pos (by omega)]
      congr
    have hdrop : first + (a - first + 1) = a + 1 := by omega
    rw [List.drop_drop, hdrop] at hlist
    refine ⟨a + 1 + consumed, ?_⟩
    dsimp only [id]
    rw [listRecord?, hfrom]
    simp only [Option.bind_eq_bind, Option.bind_some, hlist, Option.pure_def]

/-- A record by its address has a listed control character as often as its byte stands in the names
there. -/
theorem count_listRecord? {settings : Settings} {c : Char} (hc : c.toNat < 32)
    (hlisted : ((highByte c).toNat : Int) ∈ settings.escapes) {image : Image} {address next : Int}
    {line : List Char} (h : listRecord? settings image address = some (some line, next)) :
    line.count c = (namesAt image address).count (highByte c) := by
  rw [listRecord?] at h
  rcases hfrom : Index.from? image (address + 1) with _ | bytes <;> rw [hfrom] at h
  · cases h
  simp only [Option.bind_eq_bind, Option.bind_some] at h
  rw [namesAt, hfrom]
  rcases bytes with _ | ⟨low, _ | ⟨high, tokens⟩⟩
  · cases h
  · cases h
  · rcases hlist : list? settings.escapes (low :: high :: tokens) with _ | ⟨text, consumed⟩ <;>
      rw [hlist] at h
    · cases h
    · cases h
      exact count_list? hc hlisted hlist

/-- A line of a listing has a line feed or a carriage return for each byte of its names that stands
for one, and no others. So a listing has a line feed for each record, and one more for each name
byte that stands for a line feed. -/
theorem count_newline_list (image : Image) (start stop : Option Int) :
    let records := listedRecords {} image start stop
    (∀ address line next, listRecord? {} image address = some (some line, next) →
      line.count '\n' = (namesAt image address).count 0x8A ∧
        line.count '\r' = (namesAt image address).count 0x8D) ∧
    (∀ record ∈ records, ∃ next, listRecord? {} image record.1 = some (some record.2, next)) ∧
    (list {} image start stop).text = records.flatMap (fun record => record.2 ++ ['\n']) ∧
    (list {} image start stop).text.count '\n' =
      records.length + (records.flatMap fun record => namesAt image record.1).count 0x8A := by
  dsimp only
  have hline : ∀ c : Char, c.toNat < 32 → ((highByte c).toNat : Int) ∈ ({} : Settings).escapes →
      ∀ address line next, listRecord? {} image address = some (some line, next) →
        line.count c = (namesAt image address).count (highByte c) :=
    fun c hc hlisted address line next h => count_listRecord? hc hlisted h
  refine ⟨fun address line next h => ⟨?_, ?_⟩, fun record h => listRecord?_of_mem h,
    text_listedRecords .., ?_⟩
  · exact hline '\n' (by decide) (by decide) _ _ _ h
  · exact hline '\r' (by decide) (by decide) _ _ _ h
  · have hrecord : ∀ record ∈ listedRecords {} image start stop,
        (record.2 ++ ['\n']).count '\n' = 1 + (namesAt image record.1).count 0x8A := by
      intro record hmem
      obtain ⟨next, hlist⟩ := listRecord?_of_mem hmem
      have hnames := hline '\n' (by decide) (by decide) _ _ _ hlist
      rw [List.count_append, hnames]
      exact Nat.add_comm _ _
    rw [text_listedRecords, List.count_flatMap, List.count_flatMap]
    generalize listedRecords {} image start stop = records at hrecord
    induction records with
    | nil => rfl
    | cons record records ih =>
      obtain ⟨hhead, htail⟩ := List.forall_mem_cons.1 hrecord
      have := ih htail
      simp only [List.map_cons, List.sum_cons, List.length_cons, Function.comp_apply] at this ⊢
      omega

/-- The record `5 0A 00 8A 01`: its name is the one byte 8A. -/
example : (list {} [5, 10, 0, 0x8A, 1] (some 0) (some 5)).text = "10 \n\n".toList := by
  decide +kernel

end IntegerBasic.Memory
