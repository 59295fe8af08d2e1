import IntegerBasic.Proofs.Record.RoundTrip

/-!
# Where a program sits

A program that is listed to its last byte is listed in the same way wherever it lies in an image.
Listing goes by content, and the only look beyond a line is the one behind a backslash, which sees
up to three bytes. A string or a remark ends in a mark without the high bit. So if fewer than three
bytes of the line are left, that mark is among those seen, whatever follows, and the backslash does
not begin an escape.
-/

namespace IntegerBasic.Record

variable {escapes : List Int}

/-- A backslash that is not among the escapes is shown by its character. -/
theorem showPlain_backslash (hescape : 0xDC ∉ escapes) : showPlain escapes backslash = ['\\'] := by
  have hneeds : needsEscape escapes backslash = false := by
    rw [needsEscape, Bool.or_eq_false_iff, Bool.or_eq_false_iff, List.contains_eq_mem]
    exact ⟨⟨decide_eq_false hescape, by decide⟩, by decide⟩
  rw [showPlain, hneeds]
  rfl

/-- Three bytes do not look like the rest of an escape if one of them has no high bit. -/
theorem readsAsEscape_eq_false {x high low mark : UInt8} (hmark : isHigh mark = false)
    (hmem : mark ∈ [x, high, low]) : readsAsEscape x high low = false := by
  have hdigit : isStoredHexDigit mark = false := by
    rw [isStoredHexDigit, show decide (128 ≤ mark) = false from hmark, Bool.false_and]
  have hx : (mark == 0xF8) = false := by
    rw [beq_eq_false_iff_ne]
    rintro rfl
    cases hmark
  rw [readsAsEscape]
  simp only [List.mem_cons, List.not_mem_nil, or_false] at hmem
  rcases hmem with rfl | rfl | rfl
  · rw [hx, Bool.false_and, Bool.false_and]
  · rw [hdigit, Bool.and_false, Bool.false_and]
  · rw [hdigit, Bool.and_false]

/-- A byte that sees a mark is shown as it is without a look at what is behind it. -/
theorem showByte_of_mark (hescape : 0xDC ∉ escapes) (b : UInt8) {behind : List UInt8}
    {mark : UInt8} (hmark : isHigh mark = false) (hmem : mark ∈ behind.take 3) :
    showByte escapes b behind = showPlain escapes b := by
  match behind, hmem with
  | x :: high :: low :: more, hmem =>
    rw [showByte, readsAsEscape_eq_false hmark hmem]
    by_cases hb : b = backslash
    · rw [hb, showPlain_backslash hescape]
      rfl
    · rw [if_neg (by simpa using hb)]
  | [], _ | [_], _ | [_, _], _ => rfl

/-- What lies beyond a mark makes no difference. -/
theorem showByte_append (hescape : 0xDC ∉ escapes) (b : UInt8) {near : List UInt8} {mark : UInt8}
    (hmark : isHigh mark = false) (hmem : mark ∈ near) (far : List UInt8) :
    showByte escapes b (near ++ far) = showByte escapes b near := by
  by_cases hlength : near.length ≤ 3
  · have hnear : mark ∈ near.take 3 := by rwa [List.take_of_length_le hlength]
    have hfar : mark ∈ (near ++ far).take 3 := by
      rw [List.take_append]
      exact List.mem_append_left _ hnear
    rw [showByte_of_mark hescape b hmark hfar, showByte_of_mark hescape b hmark hnear]
  · match near with
    | x :: high :: low :: more => rfl
    | [] | [_] | [_, _] => simp at hlength

/-- Bytes are shown up to the first terminator among them. -/
theorem exists_terminator_of_showText {terminators : List Int} {bytes after : List UInt8}
    {text : List Char} (h : showText escapes terminators bytes = (text, after))
    (hafter : after ≠ []) : ∃ mark ∈ bytes, (mark.toNat : Int) ∈ terminators := by
  induction bytes generalizing text after with
  | nil =>
    cases h
    exact absurd rfl hafter
  | cons b bytes ih =>
    rw [showText] at h
    by_cases hstop : terminators.contains (b.toNat : Int) = true
    · exact ⟨b, List.mem_cons_self, by simpa using hstop⟩
    · rw [if_neg hstop] at h
      cases h
      obtain ⟨mark, hmem, hstop⟩ := ih rfl hafter
      exact ⟨mark, List.mem_cons_of_mem _ hmem, hstop⟩

/-- Text that ends in a mark is shown in the same way whatever follows. -/
theorem showText_append (hescape : 0xDC ∉ escapes) {terminators : List Int}
    (hmarks : ∀ b : UInt8, (b.toNat : Int) ∈ terminators → isHigh b = false)
    {bytes after : List UInt8} {text : List Char}
    (h : showText escapes terminators bytes = (text, after)) (hafter : after ≠ [])
    (far : List UInt8) :
    showText escapes terminators (bytes ++ far) = (text, after ++ far) := by
  induction bytes generalizing text after with
  | nil =>
    cases h
    exact absurd rfl hafter
  | cons b bytes ih =>
    rw [showText] at h
    rw [List.cons_append, showText]
    by_cases hstop : terminators.contains (b.toNat : Int) = true
    · rw [if_pos hstop] at h ⊢
      cases h
      rfl
    · rw [if_neg hstop] at h ⊢
      cases h
      obtain ⟨mark, hmem, hmark⟩ := exists_terminator_of_showText rfl hafter
      rw [ih rfl hafter, showByte_append hescape b (hmarks mark hmark) hmem]

theorem isHigh_of_mem_marks {b : UInt8}
    (h : (b.toNat : Int) ∈ [(closeQuote.toNat : Int), (endOfLine.toNat : Int)]) :
    isHigh b = false := by
  have hmark : b ∈ [closeQuote, endOfLine] := (mem_marks_iff _ b).1 h
  rw [List.mem_pair] at hmark
  rcases hmark with rfl | rfl <;> rfl

theorem behind_eq_some {text shown : List Char} {listed : Option (List Char) × List UInt8}
    {left : List UInt8} (h : behind text listed = (some shown, left)) :
    ∃ more, listed = (some more, left) ∧ shown = text ++ more := by
  obtain ⟨_ | more, left'⟩ := listed
  · cases h
  · cases h
    exact ⟨more, rfl, rfl⟩

theorem ne_nil_of_listTokens {spaced : Bool} {bytes left : List UInt8} {text : List Char}
    (h : listTokens escapes spaced bytes = (some text, left)) : bytes ≠ [] := by
  rintro rfl
  rw [listTokens] at h
  cases h

/-- A line that comes to its end among some bytes is listed in the same way whatever follows
them. -/
def Closes (escapes : List Int) (far bytes : List UInt8) : Prop :=
  ∀ ⦃spaced : Bool⦄ ⦃text : List Char⦄ ⦃left : List UInt8⦄,
    listTokens escapes spaced bytes = (some text, left) →
      listTokens escapes spaced (bytes ++ far) = (some text, left ++ far) ∧ left ≠ []

section Closes

variable {far rest left : List UInt8} {spaced : Bool} {shown text : List Char}

/-- What is listed behind a stretch of bytes goes on as before. -/
theorem Closes.behind (h : Closes escapes far rest)
    (hlisted : behind shown (listTokens escapes spaced rest) = (some text, left)) :
    Record.behind shown (listTokens escapes spaced (rest ++ far)) = (some text, left ++ far) ∧
      left ≠ [] := by
  obtain ⟨more, hmore, rfl⟩ := behind_eq_some hlisted
  obtain ⟨hfar, hleft⟩ := h hmore
  exact ⟨by rw [hfar]; rfl, hleft⟩

theorem ne_nil_of_behind (h : behind shown (listTokens escapes spaced rest) = (some text, left)) :
    rest ≠ [] := by
  obtain ⟨more, hmore, -⟩ := behind_eq_some h
  exact ne_nil_of_listTokens hmore

theorem closes_string (hescape : 0xDC ∉ escapes)
    (ih : ∀ bytes : List UInt8, bytes.length ≤ rest.length → Closes escapes far bytes) :
    Closes escapes far (openQuote :: rest) := by
  intro spaced text left h
  cases hshow : showText escapes [closeQuote.toNat, endOfLine.toNat] rest with
  | mk shown after =>
    have hlength := length_showText escapes [closeQuote.toNat, endOfLine.toNat] rest
    rw [hshow] at hlength
    rw [listTokens_openQuote hshow] at h
    cases after with
    | nil => exact absurd rfl (ne_nil_of_behind h)
    | cons mark after =>
      have hfar := showText_append hescape (fun _ => isHigh_of_mem_marks) hshow
        (List.cons_ne_nil _ _) far
      rw [List.cons_append, listTokens_openQuote hfar, List.cons_append, List.head?_cons]
      rw [List.head?_cons] at h
      by_cases hclose : (some mark == some closeQuote) = true
      · rw [if_pos hclose] at h ⊢
        exact (ih after (Nat.le_of_succ_le hlength)).behind h
      · rw [if_neg hclose] at h ⊢
        exact (ih (mark :: after) hlength).behind h

theorem closes_remark (hescape : 0xDC ∉ escapes)
    (ih : ∀ bytes : List UInt8, bytes.length ≤ rest.length → Closes escapes far bytes) :
    Closes escapes far (remToken :: rest) := by
  intro spaced text left h
  cases hshow : showText escapes [endOfLine.toNat] rest with
  | mk shown after =>
    have hlength := length_showText escapes [endOfLine.toNat] rest
    rw [hshow] at hlength
    rw [listTokens_rem hshow] at h
    have hfar := showText_append hescape
      (fun _ hb => isHigh_of_mem_marks (List.mem_cons_of_mem _ hb)) hshow (ne_nil_of_behind h) far
    rw [List.cons_append, listTokens_rem hfar]
    exact (ih after hlength).behind h

theorem closes_name {b : UInt8} (hhigh : isHigh b = true) (hdigit : isDigitByte b = false)
    (ih : Closes escapes far (rest.dropWhile isHigh)) : Closes escapes far (b :: rest) := by
  intro spaced text left h
  rw [listTokens_run hhigh hdigit] at h
  obtain ⟨htake, hdrop⟩ := Text.span_append (t := far) (.inl (ne_nil_of_behind h))
  rw [List.cons_append, listTokens_run hhigh hdigit, hdrop, htake]
  exact ih.behind h

end Closes

/-- A line that comes to its end is listed in the same way whatever follows. -/
theorem closes (hescape : 0xDC ∉ escapes) (far bytes : List UInt8) : Closes escapes far bytes := by
  induction bytes using tokens_induction with
  | nil =>
    intro spaced text left h
    exact absurd rfl (ne_nil_of_listTokens h)
  | ending rest =>
    intro spaced text left h
    rw [listTokens_end] at h
    cases h
    exact ⟨listTokens_end _ _, List.cons_ne_nil _ _⟩
  | string rest ih => exact closes_string hescape ih
  | remark rest ih => exact closes_remark hescape ih
  | cut b rest hhigh hdigit hshort =>
    intro spaced text left h
    rw [listTokens_short hhigh hdigit hshort] at h
    cases h
  | number b low high rest hhigh hdigit ih =>
    intro spaced text left h
    rw [listTokens_digit hhigh hdigit] at h
    rw [List.cons_append, List.cons_append, List.cons_append, listTokens_digit hhigh hdigit]
    exact ih.behind h
  | name b rest hhigh hdigit ih => exact closes_name hhigh hdigit ih
  | word b rest hlow hend hquote hrem ih =>
    intro spaced text left h
    rw [listTokens_word hlow hend hquote hrem] at h
    rw [List.cons_append, listTokens_word hlow hend hquote hrem]
    exact ih.behind h

/-- A record that comes to its end is listed in the same way whatever follows. -/
theorem list?_append (hescape : 0xDC ∉ escapes) {bytes : List UInt8} {line : List Char}
    {consumed : Nat} (h : list? escapes bytes = some ⟨some line, consumed⟩) (far : List UInt8) :
    list? escapes (bytes ++ far) = some ⟨some line, consumed⟩ ∧ consumed ≤ bytes.length := by
  rcases bytes with _ | ⟨low, _ | ⟨high, tokens⟩⟩
  · cases h
  · cases h
  · obtain ⟨listed, left, hlist⟩ : ∃ listed left,
        listTokens escapes true tokens = (listed, left) := ⟨_, _, rfl⟩
    rw [list?, hlist] at h
    cases listed with
    | none => cases h
    | some text =>
      cases h
      obtain ⟨hfar, hleft⟩ := closes hescape far tokens hlist
      have hpos : 0 < left.length := List.length_pos_iff.2 hleft
      rw [List.cons_append, List.cons_append, list?, hfar]
      simp only [List.length_cons, List.length_append, Option.some.injEq, Listed.mk.injEq, true_and]
      omega

/-- The records from an address on that are listed: the line of each, and the address behind it. -/
def entries (escapes : List Int) (address : Nat) (stop : Int) (bytes : List UInt8) :
    List (List Char × Nat) :=
  match bytes with
  | _ :: low :: high :: next :: rest =>
    if (address : Int) < stop then
      match list? escapes (low :: high :: next :: rest) with
      | some ⟨some line, consumed⟩ =>
        (line, address + 1 + consumed) ::
          entries escapes (address + 1 + consumed) stop
            ((low :: high :: next :: rest).drop consumed)
      | _ => []
    else []
  | _ => []
termination_by bytes.length
decreasing_by simp only [List.length_drop, List.length_cons]; omega

/-- The address behind the last record that is listed. -/
def lastAddress (escapes : List Int) (address : Nat) (stop : Int) (bytes : List UInt8) : Nat :=
  ((entries escapes address stop bytes).map (·.2)).getLastD address

section Step

variable {address : Nat} {stop : Int} {b : UInt8} {bytes : List UInt8} {line : List Char}
  {consumed : Nat}

theorem entries_done (h : ¬(address : Int) < stop) : entries escapes address stop bytes = [] := by
  rw [entries.eq_def]
  split
  · rw [if_neg h]
  · rfl

theorem entries_nil : entries escapes address stop [] = [] := by
  rw [entries.eq_def]

/-- A line is listed from three bytes at least. -/
theorem exists_cons_of_list? (h : list? escapes bytes = some ⟨some line, consumed⟩) :
    ∃ low high next rest, bytes = low :: high :: next :: rest := by
  match bytes, h with
  | [low, high], h =>
    rw [list?, listTokens] at h
    cases h
  | low :: high :: next :: rest, _ => exact ⟨low, high, next, rest, rfl⟩

theorem listAll_line (hlt : (address : Int) < stop)
    (h : list? escapes bytes = some ⟨some line, consumed⟩) :
    listAll escapes address stop (b :: bytes) =
      ⟨line :: (listAll escapes (address + 1 + consumed) stop (bytes.drop consumed)).lines,
        (listAll escapes (address + 1 + consumed) stop (bytes.drop consumed)).truncated⟩ := by
  obtain ⟨low, high, next, rest, rfl⟩ := exists_cons_of_list? h
  rw [listAll, if_pos hlt, h]

theorem entries_line (hlt : (address : Int) < stop)
    (h : list? escapes bytes = some ⟨some line, consumed⟩) :
    entries escapes address stop (b :: bytes) = (line, address + 1 + consumed) ::
      entries escapes (address + 1 + consumed) stop (bytes.drop consumed) := by
  obtain ⟨low, high, next, rest, rfl⟩ := exists_cons_of_list? h
  rw [entries, if_pos hlt, h]

theorem entries_cut (h : ∀ line consumed, list? escapes bytes ≠ some ⟨some line, consumed⟩) :
    entries escapes address stop (b :: bytes) = [] := by
  match bytes, h with
  | [], _ | [_], _ | [_, _], _ =>
    rw [entries]
    simp
  | low :: high :: next :: rest, h =>
    rw [entries]
    split
    · split
      · exact absurd ‹_› (h _ _)
      · rfl
    · rfl

theorem lines_listAll_cut
    (h : ∀ line consumed, list? escapes bytes ≠ some ⟨some line, consumed⟩) :
    (listAll escapes address stop (b :: bytes)).lines = [] := by
  match bytes, h with
  | [], _ | [_], _ | [_, _], _ =>
    rw [listAll]
    simp
  | low :: high :: next :: rest, h =>
    rw [listAll]
    split
    · split
      · rfl
      · rfl
      · exact absurd ‹_› (h _ _)
    · rfl

end Step

/-- Records are listed one by one, as long as there is room for one and the line comes to its
end. -/
@[elab_as_elim]
theorem records_induction (escapes : List Int) (stop : Int) {motive : Nat → List UInt8 → Prop}
    (done : ∀ (address : Nat) bytes, ¬(address : Int) < stop → motive address bytes)
    (nil : ∀ address : Nat, (address : Int) < stop → motive address [])
    (line : ∀ (address : Nat) b bytes line consumed, (address : Int) < stop →
      list? escapes bytes = some ⟨some line, consumed⟩ →
      motive (address + 1 + consumed) (bytes.drop consumed) → motive address (b :: bytes))
    (cut : ∀ (address : Nat) b bytes, (address : Int) < stop →
      (∀ line consumed, list? escapes bytes ≠ some ⟨some line, consumed⟩) →
      motive address (b :: bytes))
    (address : Nat) (bytes : List UInt8) : motive address bytes := by
  induction hlength : bytes.length using Nat.strong_induction_on generalizing address bytes with
  | h length ih =>
    subst hlength
    by_cases hlt : (address : Int) < stop
    case neg => exact done address bytes hlt
    cases bytes with
    | nil => exact nil address hlt
    | cons b bytes =>
      by_cases hline : ∃ shown consumed, list? escapes bytes = some ⟨some shown, consumed⟩
      · obtain ⟨shown, consumed, hlist⟩ := hline
        have hshort : (bytes.drop consumed).length < (b :: bytes).length := by
          rw [List.length_drop, List.length_cons]
          omega
        exact line address b bytes shown consumed hlt hlist (ih _ hshort _ _ rfl)
      · exact cut address b bytes hlt fun shown consumed h => hline ⟨shown, consumed, h⟩

theorem map_fst_entries (escapes : List Int) (address : Nat) (stop : Int) (bytes : List UInt8) :
    (entries escapes address stop bytes).map (·.1) =
      (listAll escapes address stop bytes).lines := by
  induction address, bytes using records_induction escapes stop with
  | done address bytes hlt => rw [entries_done hlt, listAll_done fun h => hlt h.1, List.map_nil]
  | nil address hlt => rw [entries_nil, listAll_nil, List.map_nil]
  | line address b bytes line consumed hlt hlist ih =>
    rw [entries_line hlt hlist, listAll_line hlt hlist, List.map_cons, ih]
  | cut address b bytes hlt hnone =>
    rw [entries_cut hnone, lines_listAll_cut hnone, List.map_nil]

/-- A program that is listed to its last byte is listed in the same way from another address on and
with other bytes behind it. -/
theorem listAll_append (hescape : 0xDC ∉ escapes) {address : Nat} {stop : Int}
    {bytes : List UInt8} (hstop : stop = (address + bytes.length : Nat))
    (hcomplete : (listAll escapes address stop bytes).truncated = none)
    (hlast : (lastAddress escapes address stop bytes : Int) = stop) (place : Nat)
    (far : List UInt8) :
    listAll escapes place (place + bytes.length : Nat) (bytes ++ far) =
      listAll escapes address stop bytes := by
  induction address, bytes using records_induction escapes stop
    generalizing place with
  | done address bytes hlt =>
    obtain rfl : bytes = [] := List.length_eq_zero_iff.1 (by omega)
    rw [listAll_nil, listAll_done (by simp)]
  | nil address hlt =>
    rw [List.length_nil] at hstop
    omega
  | line address b bytes line consumed hlt hlist ih =>
    obtain ⟨hfar, hle⟩ := list?_append hescape hlist far
    rw [listAll_line hlt hlist] at hcomplete
    rw [lastAddress, entries_line hlt hlist, List.map_cons, List.getLastD_cons] at hlast
    have hrest : (bytes.drop consumed).length + consumed = bytes.length := by
      rw [List.length_drop, Nat.sub_add_cancel hle]
    have hplace : place + (b :: bytes).length =
        place + 1 + consumed + (bytes.drop consumed).length := by
      rw [List.length_cons]
      omega
    have hnext := ih (by rw [hstop, List.length_cons]; omega) hcomplete hlast
      (place + 1 + consumed)
    rw [← hplace, ← List.drop_append_of_le_length hle] at hnext
    rw [List.cons_append, listAll_line (by rw [List.length_cons]; omega) hfar,
      listAll_line hlt hlist, hnext]
  | cut address b bytes hlt hnone =>
    rw [lastAddress, entries_cut hnone] at hlast
    exact absurd hlast (by simpa using hlt.ne)

end IntegerBasic.Record

namespace IntegerBasic.Memory

open Record

/-- If listing a program on its own stops behind its last byte without a record cut off, then an
image in which the pointers bound just that program is listed as the same text, unless the
settings ask for an escape for the backslash. -/
theorem list_placed {settings : Settings} {code : List UInt8} {image : Image}
    (hcomplete : (listAll settings.escapes 0 code.length code).truncated = none)
    (hlast : lastAddress settings.escapes 0 code.length code = code.length)
    (hsize : pointersEnd ≤ image.length)
    (hbounds : wordAt image programAddress ≤ wordAt image himemAddress)
    (hinside : wordAt image himemAddress ≤ image.length)
    (hcode : (image.drop (wordAt image programAddress)).take
      (wordAt image himemAddress - wordAt image programAddress) = code)
    (hescape : 0xDC ∉ settings.escapes) :
    (list settings image none none).text =
      (list settings code (some 0) (some code.length)).text := by
  generalize hstart : wordAt image programAddress = start at *
  generalize hstop : wordAt image himemAddress = stop at *
  have hlength : start + code.length = stop := by
    rw [← hcode, List.length_take, List.length_drop]
    omega
  have hbytes : code ++ image.drop stop = image.drop start := by
    rw [← List.take_append_drop (stop - start) (image.drop start), hcode, List.drop_drop,
      Nat.add_sub_cancel' hbounds]
  have hlisted := listAll_append hescape (by simp) hcomplete (by rw [hlast]) start
    (image.drop stop)
  rw [hbytes, hlength] at hlisted
  have hlist : list settings image none none = listBetween settings image start stop := by
    rw [list, bounds?, if_neg (Nat.not_lt.2 hsize), hstart, hstop]
    · rfl
    · exact fun _ _ h => by cases h
  rw [text_list, ← hlisted, hlist, listBetween]
  by_cases hroom : start < image.length
  · rw [if_neg (by simp only [Bool.or_eq_true, decide_eq_true_eq]; omega)]
    rfl
  · -- the image ends where the program begins, so there are no records
    rw [if_pos (by simp only [Bool.or_eq_true, decide_eq_true_eq]; omega),
      listAll_done (by omega)]
    rfl

/-- A backslash is the last character of the string, and the bytes behind the program look like the
rest of an escape. -/
theorem list_placed_backslash :
    let code : List UInt8 := [8, 10, 0, 97, 40, 0xDC, 41, 1]
    let image := putWord (putWord (putBytes (List.replicate 0xCE 0) 0x80
      (code ++ [0xF8, 0xB0, 0xB0])) programAddress 0x80) himemAddress 0x88
    (list {} image none none).text = (list {} code (some 0) (some 8)).text := by
  intro code image
  exact @list_placed {} code image (by decide +kernel) (by decide +kernel) (by decide +kernel)
    (by decide +kernel) (by decide +kernel) (by decide +kernel) (by decide)

end IntegerBasic.Memory
