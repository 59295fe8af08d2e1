import IntegerBasic.Memory.Listing
import IntegerBasic.Proofs.Record.ListedLeaves

/-!
# Listing never looks outside the image

A listing sees the bytes from an address on as a list, which cannot be read beyond its end. Here
the same listing is written with an address that moves through the image: every byte, every word of
page zero and every entry of the table of listing words is asked for by its index, and asking for
one that is not there is a fault. Whatever the bytes and the bounds are, there is no fault, and the
listing is the one that was given.
-/

namespace IntegerBasic.Memory.Checked

open Record

def byte (image : Image) (address : Nat) : Except AccessFault UInt8 :=
  match image[address]? with
  | some b => .ok b
  | none => .error .outside

/-- The word of a token, where a byte without a word shows as question marks. -/
def tokenWord (b : UInt8) : Except AccessFault (List Char) :=
  match Token.listingWords[b.toNat]? with
  | some word => .ok (if word.isEmpty then "???".toList else word.toList)
  | none => .error .outside

/-- The byte at an address as text. Behind a backslash there is a look at three bytes more, if the
image goes on so far. -/
def showByte (escapes : List Int) (image : Image) (address : Nat) (b : UInt8) :
    Except AccessFault (List Char) :=
  if b == backslash && address + 3 < image.length then do
    let x ← byte image (address + 1)
    let high ← byte image (address + 2)
    let low ← byte image (address + 3)
    return if readsAsEscape x high low then ['\\', 'x', '5', 'c'] else ['\\']
  else return showPlain escapes b

/-- Bytes as text from an address up to a terminator or the end of the image, and the address
there. -/
def showText (escapes terminators : List Int) (image : Image) (address : Nat) :
    Except AccessFault (List Char × Nat) :=
  if _h : address < image.length then do
    let b ← byte image address
    if terminators.contains (b.toNat : Int) then return ([], address)
    else
      let here ← showByte escapes image address b
      let (text, after) ← showText escapes terminators image (address + 1)
      return (here ++ text, after)
  else return ([], address)
termination_by image.length - address

def nameText (image : Image) (address : Nat) : Except AccessFault (List Char × Nat) :=
  if _h : address < image.length then do
    let b ← byte image address
    if isHigh b then
      let (name, after) ← nameText image (address + 1)
      return (Char.ofNat (b.toNat - 128) :: name, after)
    else return ([], address)
  else return ([], address)
termination_by image.length - address

def closes (image : Image) (address : Nat) : Except AccessFault Bool :=
  if address < image.length then return (← byte image address) == closeQuote else return false

structure Stands (image : Image) (address : Nat) (bytes : List UInt8) : Prop where
  le : address ≤ image.length
  drop : image.drop address = bytes

namespace Stands

variable {image : Image} {address : Nat} {b : UInt8} {bytes rest : List UInt8}

theorem length (h : Stands image address bytes) : address + bytes.length = image.length := by
  have hle := h.le
  rw [← h.drop, List.length_drop]
  omega

theorem here (h : address ≤ image.length) : Stands image address (image.drop address) := ⟨h, rfl⟩

theorem of_drop (h : image.drop address = b :: rest) : Stands image address (b :: rest) := by
  refine ⟨Nat.le_of_not_lt fun hlt => ?_, h⟩
  rw [List.drop_eq_nil_of_le (Nat.le_of_lt hlt)] at h
  cases h

theorem lt (h : Stands image address (b :: rest)) : address < image.length := by
  have := h.length
  rw [List.length_cons] at this
  omega

theorem not_lt (h : Stands image address []) : ¬address < image.length := by
  have := h.length
  rw [List.length_nil] at this
  omega

theorem tail (h : Stands image address (b :: rest)) : Stands image (address + 1) rest :=
  ⟨h.lt, by rw [← List.drop_drop, h.drop]; rfl⟩

theorem byte (h : Stands image address (b :: rest)) : byte image address = .ok b := by
  have hb : image[address]? = some b := by
    have := congrArg (·[0]?) h.drop
    simpa using this
  rw [Checked.byte, hb]

end Stands

variable {image : Image} {address : Nat} {bytes : List UInt8}

theorem showByte_eq {b : UInt8} {rest : List UInt8} (escapes : List Int)
    (h : Stands image address (b :: rest)) :
    showByte escapes image address b = .ok (Record.showByte escapes b rest) := by
  have hlength := h.length
  unfold showByte Record.showByte
  rcases rest with _ | ⟨x, _ | ⟨high, _ | ⟨low, rest⟩⟩⟩
  · rw [if_neg (by simp at hlength ⊢; omega)]
    rfl
  · rw [if_neg (by simp at hlength ⊢; omega)]
    rfl
  · rw [if_neg (by simp at hlength ⊢; omega)]
    rfl
  · have hlt : address + 3 < image.length := by simp at hlength; omega
    rw [h.tail.byte, h.tail.tail.byte, h.tail.tail.tail.byte]
    by_cases hb : b = backslash
    · simp [hb, hlt]
      rfl
    · simp [hb]
      rfl

/-- Showing text by addresses. -/
theorem exists_showText (escapes terminators : List Int) (h : Stands image address bytes) :
    ∃ after, showText escapes terminators image address =
        .ok ((Record.showText escapes terminators bytes).1, after) ∧ address ≤ after ∧
      Stands image after (Record.showText escapes terminators bytes).2 := by
  induction bytes generalizing address with
  | nil =>
    rw [showText, dif_neg h.not_lt]
    exact ⟨address, rfl, Nat.le_refl _, h⟩
  | cons b rest ih =>
    rw [showText, dif_pos h.lt, h.byte, Record.showText]
    by_cases hstop : terminators.contains (b.toNat : Int) = true
    · rw [if_pos hstop]
      refine ⟨address, ?_, Nat.le_refl _, h⟩
      show (if _ then _ else _) = _
      rw [if_pos hstop]
      rfl
    · obtain ⟨after, hafter, hle, hstands⟩ := ih h.tail
      rw [if_neg hstop]
      refine ⟨after, ?_, by omega, hstands⟩
      show (if _ then _ else _) = _
      rw [if_neg hstop, showByte_eq escapes h, hafter]
      rfl

theorem le_of_showText {escapes terminators : List Int} (hle : address ≤ image.length)
    {text : List Char} {after : Nat}
    (h : showText escapes terminators image address = .ok (text, after)) : address ≤ after := by
  obtain ⟨after', hafter, hle', -⟩ := exists_showText escapes terminators (.here hle)
  rw [h] at hafter
  cases hafter
  exact hle'

/-- Reading a name by addresses. -/
theorem exists_nameText (h : Stands image address bytes) :
    ∃ after, nameText image address = .ok (Record.nameText (bytes.takeWhile isHigh), after) ∧
      address ≤ after ∧ Stands image after (bytes.dropWhile isHigh) := by
  induction bytes generalizing address with
  | nil =>
    rw [nameText, dif_neg h.not_lt]
    exact ⟨address, rfl, Nat.le_refl _, h⟩
  | cons b rest ih =>
    rw [nameText, dif_pos h.lt, h.byte]
    cases hhigh : isHigh b with
    | false =>
      rw [List.takeWhile_cons_of_neg (by simp [hhigh]), List.dropWhile_cons_of_neg (by simp [hhigh])]
      refine ⟨address, ?_, Nat.le_refl _, h⟩
      show (if _ then _ else _) = _
      rw [if_neg (by simp [hhigh])]
      rfl
    | true =>
      obtain ⟨after, hafter, hle, hstands⟩ := ih h.tail
      rw [List.takeWhile_cons_of_pos hhigh, List.dropWhile_cons_of_pos hhigh]
      refine ⟨after, ?_, by omega, hstands⟩
      show (if _ then _ else _) = _
      rw [if_pos hhigh, hafter]
      rfl

theorem le_of_nameText (hle : address ≤ image.length) {name : List Char} {after : Nat}
    (h : nameText image address = .ok (name, after)) : address ≤ after := by
  obtain ⟨after', hafter, hle', -⟩ := exists_nameText (.here hle)
  rw [h] at hafter
  cases hafter
  exact hle'

def prepend (front : List Char) (listed : Option (List Char) × Nat) : Option (List Char) × Nat :=
  (listed.1.map (front ++ ·), listed.2)

/-- The tokens of a record from an address on, and the address of the end of the line. No text
means that the image ended before the line did. -/
def listTokens (escapes : List Int) (image : Image) (spaced : Bool) (address : Nat) :
    Except AccessFault (Option (List Char) × Nat) :=
  if _h : address < image.length then do
    let b ← byte image address
    if b == endOfLine then return (some [], address)
    else if b == openQuote then
      match _ht : showText escapes [closeQuote.toNat, endOfLine.toNat] image (address + 1) with
      | .error fault => .error fault
      | .ok (text, after) => do
        if ← closes image after then
          return prepend ('"' :: text ++ ['"']) (← listTokens escapes image false (after + 1))
        else
          return prepend ('"' :: text) (← listTokens escapes image (endsSpaced false text) after)
    else if b == remToken then
      match _ht : showText escapes [endOfLine.toNat] image (address + 1) with
      | .error fault => .error fault
      | .ok (text, after) => do
        return prepend ((if spaced then [] else [' ']) ++ "REM".toList ++ text)
          (← listTokens escapes image (endsSpaced false text) after)
    else if b < 128 then
      let (word, spaced) := spacedWord (← tokenWord b) spaced
      return prepend word (← listTokens escapes image spaced (address + 1))
    else if isDigitByte b then
      if address + 2 < image.length then
        let low ← byte image (address + 1)
        let high ← byte image (address + 2)
        return prepend (Numeral.decimal (wordValue low high))
          (← listTokens escapes image false (address + 3))
      else return (none, address)
    else
      match _ht : nameText image (address + 1) with
      | .error fault => .error fault
      | .ok (name, after) => do
        let name := Char.ofNat (b.toNat - 128) :: name
        return prepend name (← listTokens escapes image (endsSpaced false name) after)
  else return (none, address)
termination_by image.length - address
decreasing_by
  · have := le_of_showText _h _ht
    omega
  · have := le_of_showText _h _ht
    omega
  · have := le_of_showText _h _ht
    omega
  · omega
  · omega
  · have := le_of_nameText _h _ht
    omega

/-- The address moves through a record as the bytes are read: what is listed is the answer, and
what it leaves stands at the address that is reached. -/
def Lists (escapes : List Int) (image : Image) (spaced : Bool) (address : Nat)
    (answer : Option (List Char) × List UInt8) : Prop :=
  ∃ after, listTokens escapes image spaced address = .ok (answer.1, after) ∧ address ≤ after ∧
    Stands image after answer.2

variable {escapes : List Int} {spaced : Bool}

theorem Lists.here {text : Option (List Char)} (h : Stands image address bytes)
    (hlist : listTokens escapes image spaced address = .ok (text, address)) :
    Lists escapes image spaced address (text, bytes) :=
  ⟨address, hlist, Nat.le_refl _, h⟩

/-- A token is put in front of what is listed behind it. -/
theorem Lists.step {spaced' : Bool} {next : Nat} {front : List Char}
    {answer : Option (List Char) × List UInt8} (h : Lists escapes image spaced' next answer)
    (hle : address ≤ next)
    (hlist : listTokens escapes image spaced address =
      (listTokens escapes image spaced' next).map (prepend front)) :
    Lists escapes image spaced address (answer.1.map (front ++ ·), answer.2) := by
  obtain ⟨after, hafter, hnext, hstands⟩ := h
  exact ⟨after, by rw [hlist, hafter]; rfl, Nat.le_trans hle hnext, hstands⟩

theorem closes_eq (h : Stands image address bytes) :
    closes image address = .ok (bytes.head? == some closeQuote) := by
  unfold closes
  cases bytes with
  | nil =>
    rw [if_neg h.not_lt]
    rfl
  | cons b rest =>
    rw [if_pos h.lt, h.byte]
    rfl

/-- The table has a word for every token. -/
theorem tokenWord_eq {b : UInt8} (h : b < 128) : tokenWord b = .ok (Record.tokenWord b) := by
  have hlt : b.toNat < Token.listingWords.length := by
    rw [Token.length_listingWords]
    exact UInt8.lt_iff_toNat_lt.1 h
  unfold tokenWord Record.tokenWord Token.listingWord
  rw [List.getD_eq_getElem?_getD, List.getElem?_eq_getElem hlt]
  rfl

section Step

variable {b : UInt8} {rest : List UInt8}

theorem listTokens_string (h : Stands image address (openQuote :: rest)) {text : List Char}
    {after : Nat} {left : List UInt8}
    (hshow : showText escapes [closeQuote.toNat, endOfLine.toNat] image (address + 1) =
      .ok (text, after)) (hafter : Stands image after left) :
    listTokens escapes image spaced address =
      if left.head? == some closeQuote then
        (listTokens escapes image false (after + 1)).map (prepend ('"' :: text ++ ['"']))
      else
        (listTokens escapes image (endsSpaced false text) after).map (prepend ('"' :: text)) := by
  rw [listTokens, dif_pos h.lt, h.byte]
  simp only [bind, Except.bind]
  rw [if_neg (by decide), if_pos (by decide)]
  split <;> cases hshow.symm.trans ‹_›
  rw [closes_eq hafter]
  cases left.head? == some closeQuote with
  | true => cases listTokens escapes image false (after + 1) <;> rfl
  | false => cases listTokens escapes image (endsSpaced false text) after <;> rfl

theorem listTokens_remark (h : Stands image address (remToken :: rest)) {text : List Char}
    {after : Nat}
    (hshow : showText escapes [endOfLine.toNat] image (address + 1) = .ok (text, after)) :
    listTokens escapes image spaced address =
      (listTokens escapes image (endsSpaced false text) after).map
        (prepend ((if spaced then [] else [' ']) ++ "REM".toList ++ text)) := by
  rw [listTokens, dif_pos h.lt, h.byte]
  simp only [bind, Except.bind]
  rw [if_neg (by decide), if_neg (by decide), if_pos (by decide)]
  split <;> cases hshow.symm.trans ‹_›
  cases listTokens escapes image (endsSpaced false text) after <;> rfl

theorem listTokens_word (h : Stands image address (b :: rest)) (hb : b < 128)
    (hend : b ≠ endOfLine) (hquote : b ≠ openQuote) (hrem : b ≠ remToken) :
    listTokens escapes image spaced address =
      (listTokens escapes image (spacedWord (Record.tokenWord b) spaced).2 (address + 1)).map
        (prepend (spacedWord (Record.tokenWord b) spaced).1) := by
  rw [listTokens, dif_pos h.lt, h.byte]
  simp only [bind, Except.bind]
  rw [if_neg (by simpa using hend), if_neg (by simpa using hquote), if_neg (by simpa using hrem),
    if_pos hb, tokenWord_eq hb]
  dsimp only
  cases listTokens escapes image (spacedWord (Record.tokenWord b) spaced).2 (address + 1) <;> rfl

variable (hhigh : isHigh b = true)
include hhigh

theorem listTokens_number {low high : UInt8} (h : Stands image address (b :: low :: high :: rest))
    (hdigit : isDigitByte b = true) :
    listTokens escapes image spaced address =
      (listTokens escapes image false (address + 3)).map
        (prepend (Numeral.decimal (wordValue low high))) := by
  obtain ⟨hend, hquote, hrem, hb⟩ := no_mark_of_isHigh hhigh
  rw [listTokens, dif_pos h.lt, h.byte]
  simp only [bind, Except.bind]
  rw [if_neg hend, if_neg hquote, if_neg hrem, if_neg hb, if_pos hdigit, if_pos h.tail.tail.lt,
    h.tail.byte, h.tail.tail.byte]
  cases listTokens escapes image false (address + 3) <;> rfl

theorem listTokens_cut (h : Stands image address (b :: rest)) (hdigit : isDigitByte b = true)
    (hrest : rest.length < 2) :
    listTokens escapes image spaced address = .ok (none, address) := by
  obtain ⟨hend, hquote, hrem, hb⟩ := no_mark_of_isHigh hhigh
  have hlength := h.length
  rw [List.length_cons] at hlength
  rw [listTokens, dif_pos h.lt, h.byte]
  simp only [bind, Except.bind]
  rw [if_neg hend, if_neg hquote, if_neg hrem, if_neg hb, if_pos hdigit, if_neg (by omega)]
  rfl

theorem listTokens_name (h : Stands image address (b :: rest)) (hdigit : isDigitByte b = false)
    {name : List Char} {after : Nat} (hname : nameText image (address + 1) = .ok (name, after)) :
    listTokens escapes image spaced address =
      (listTokens escapes image (endsSpaced false (Char.ofNat (b.toNat - 128) :: name)) after).map
        (prepend (Char.ofNat (b.toNat - 128) :: name)) := by
  obtain ⟨hend, hquote, hrem, hb⟩ := no_mark_of_isHigh hhigh
  rw [listTokens, dif_pos h.lt, h.byte]
  simp only [bind, Except.bind]
  rw [if_neg hend, if_neg hquote, if_neg hrem, if_neg hb, if_neg (by simp [hdigit])]
  split <;> cases hname.symm.trans ‹_›
  cases listTokens escapes image _ after <;> rfl

end Step

/-- The tokens of a record are listed by addresses as they are from the bytes. -/
theorem lists_listTokens (h : Stands image address bytes) :
    Lists escapes image spaced address (Record.listTokens escapes spaced bytes) := by
  induction bytes using tokens_induction generalizing spaced address with
  | nil =>
    rw [Record.listTokens]
    refine .here h ?_
    rw [listTokens, dif_neg h.not_lt]
    rfl
  | ending rest =>
    rw [Record.listTokens_end]
    refine .here h ?_
    rw [listTokens, dif_pos h.lt, h.byte]
    rfl
  | string rest ih =>
    obtain ⟨after, htext, hle, hafter⟩ :=
      exists_showText escapes [closeQuote.toNat, endOfLine.toNat] h.tail
    have hlist : listTokens escapes image spaced address = _ := listTokens_string h htext hafter
    have hshort := length_showText escapes [closeQuote.toNat, endOfLine.toNat] rest
    rw [Record.listTokens_openQuote rfl]
    cases hclose : (Record.showText escapes [closeQuote.toNat, endOfLine.toNat] rest).2 with
    | nil =>
      rw [hclose] at hafter hlist
      exact (ih [] (Nat.zero_le _) hafter).step (by omega) hlist
    | cons c left =>
      rw [hclose] at hafter hlist hshort
      rw [List.length_cons] at hshort
      by_cases hc : ((c :: left).head? == some closeQuote) = true
      · rw [if_pos hc] at hlist ⊢
        exact (ih left (by omega) hafter.tail).step (by omega) hlist
      · rw [if_neg hc] at hlist ⊢
        exact (ih (c :: left) (by simpa using hshort) hafter).step (by omega) hlist
  | remark rest ih =>
    obtain ⟨after, htext, hle, hafter⟩ := exists_showText escapes [endOfLine.toNat] h.tail
    rw [Record.listTokens_rem rfl]
    exact (ih _ (length_showText _ _ _) hafter).step (by omega) (listTokens_remark h htext)
  | word b rest hb hend hquote hrem ih =>
    rw [Record.listTokens_word hb hend hquote hrem]
    exact (ih h.tail).step (by omega) (listTokens_word h hb hend hquote hrem)
  | number b low high rest hhigh hdigit ih =>
    rw [listTokens_digit hhigh hdigit]
    exact (ih h.tail.tail.tail).step (by omega) (listTokens_number hhigh h hdigit)
  | cut b rest hhigh hdigit hshort =>
    rw [listTokens_short hhigh hdigit hshort]
    exact .here h (listTokens_cut hhigh h hdigit hshort)
  | name b rest hhigh hdigit ih =>
    obtain ⟨after, hname, hle, hafter⟩ := exists_nameText h.tail
    rw [listTokens_run hhigh hdigit]
    exact (ih hafter).step (by omega) (listTokens_name hhigh h hdigit hname)

/-- The record at an address: its line, or none if the image ended before the line did, and the
address behind what was read. -/
def record (escapes : List Int) (image : Image) (address : Nat) :
    Except AccessFault (Option (List Char) × Nat) := do
  let low ← byte image (address + 1)
  let high ← byte image (address + 2)
  match ← listTokens escapes image true (address + 3) with
  | (none, after) => return (none, after)
  | (some text, after) =>
    return (some (Numeral.decimal (wordValue low high) ++ [' '] ++ text), after + 1)

/-- A record is listed by addresses as it is from the bytes behind its length byte. -/
theorem exists_record (escapes : List Int) {b low high : UInt8} {tokens : List UInt8}
    (h : Stands image address (b :: low :: high :: tokens)) :
    ∃ listed, Record.list? escapes (low :: high :: tokens) = some listed ∧
      record escapes image address = .ok (listed.line, address + 1 + listed.consumed) := by
  obtain ⟨after, hafter, hle, hleft⟩ : Lists escapes image true (address + 3) _ :=
    lists_listTokens h.tail.tail.tail
  have hconsumed : address + 1 + ((low :: high :: tokens).length -
      (Record.listTokens escapes true tokens).2.length) = after := by
    have hstart := h.length
    have hend := hleft.length
    simp only [List.length_cons] at hstart ⊢
    omega
  unfold record Record.list?
  rw [h.tail.byte, h.tail.tail.byte, hafter]
  dsimp only
  generalize Record.listTokens escapes true tokens = answer at hconsumed
  obtain ⟨_ | text, left⟩ := answer
  · refine ⟨_, rfl, ?_⟩
    rw [← hconsumed]
    rfl
  · refine ⟨_, rfl, ?_⟩
    rw [← hconsumed]
    rfl

theorem exists_cons_of_lt (h : address + 3 < image.length) :
    ∃ b low high next rest, image.drop address = b :: low :: high :: next :: rest := by
  have hlength : (image.drop address).length = image.length - address := List.length_drop
  match hdrop : image.drop address with
  | b :: low :: high :: next :: rest => exact ⟨b, low, high, next, rest, rfl⟩
  | [] | [_] | [_, _] | [_, _, _] =>
    rw [hdrop] at hlength
    simp at hlength
    omega

theorem lt_of_record (hle : address + 3 < image.length) {line : Option (List Char)} {after : Nat}
    (h : record escapes image address = .ok (line, after)) : address < after := by
  obtain ⟨b, low, high, next, rest, hdrop⟩ := exists_cons_of_lt hle
  obtain ⟨listed, -, hrecord⟩ := exists_record escapes (.of_drop hdrop)
  rw [h] at hrecord
  cases hrecord
  omega

/-- The records from an address on, as long as the address is below `stop` and at least four bytes
are there. -/
def records (escapes : List Int) (image : Image) (address : Nat) (stop : Int) :
    Except AccessFault Record.Listing :=
  if _h : (address : Int) < stop ∧ address + 3 < image.length then
    match _hr : record escapes image address with
    | .error fault => .error fault
    | .ok (none, after) => return ⟨[], some after⟩
    | .ok (some line, after) => do
      let more ← records escapes image after stop
      return ⟨line :: more.lines, more.truncated⟩
  else return ⟨[], none⟩
termination_by image.length - address
decreasing_by
  have := lt_of_record _h.2 _hr
  omega

theorem records_cut {stop : Int} (h : (address : Int) < stop ∧ address + 3 < image.length)
    {after : Nat} (hrecord : record escapes image address = .ok (none, after)) :
    records escapes image address stop = .ok ⟨[], some after⟩ := by
  rw [records, dif_pos h]
  split <;> cases hrecord.symm.trans ‹_›
  rfl

theorem records_cons {stop : Int} (h : (address : Int) < stop ∧ address + 3 < image.length)
    {line : List Char} {after : Nat}
    (hrecord : record escapes image address = .ok (some line, after)) :
    records escapes image address stop =
      (records escapes image after stop).map fun more =>
        ⟨line :: more.lines, more.truncated⟩ := by
  rw [records, dif_pos h]
  split <;> cases hrecord.symm.trans ‹_›
  cases records escapes image after stop <;> rfl

/-- The records are listed by addresses as they are from the bytes. -/
theorem records_eq (escapes : List Int) (image : Image) (address : Nat) (stop : Int) :
    records escapes image address stop =
      .ok (Record.listAll escapes address stop (image.drop address)) := by
  induction hleft : image.length - address using Nat.strong_induction_on generalizing address with
  | h left ih =>
    subst hleft
    by_cases hmore : (address : Int) < stop ∧ address + 3 < image.length
    · obtain ⟨b, low, high, next, rest, hdrop⟩ := exists_cons_of_lt hmore.2
      obtain ⟨⟨line, consumed⟩, hlisted, hrecord⟩ := exists_record escapes (.of_drop hdrop)
      rw [hdrop, Record.listAll, if_pos hmore.1, hlisted]
      cases line with
      | none => exact records_cut hmore hrecord
      | some line =>
        have hrest : image.drop (address + 1 + consumed) =
            (low :: high :: next :: rest).drop consumed := by
          rw [← List.drop_drop, ← List.drop_drop, hdrop]
          rfl
        rw [records_cons hmore hrecord, ih _ (by omega) _ rfl, hrest]
        rfl
    · have hdone : ¬((address : Int) < stop ∧ 3 < (image.drop address).length) := by
        rw [List.length_drop]
        omega
      rw [records, dif_neg hmore, Record.listAll_done hdone]
      rfl

def bounds (image : Image) : Except AccessFault (Option (Nat × Nat)) :=
  if image.length < pointersEnd then return none
  else return some (← readWord image programAddress, ← readWord image himemAddress)

/-- An image that holds the pointers holds both words. -/
theorem bounds_eq (image : Image) : bounds image = .ok (bounds? image) := by
  unfold bounds bounds?
  by_cases h : image.length < pointersEnd
  · rw [if_pos h, if_pos h]
    rfl
  · have hlength : 206 ≤ image.length := Nat.not_lt.1 h
    rw [if_neg h, if_neg h, readWord_eq (by simp only [programAddress]; omega) (by decide),
      readWord_eq (by simp only [himemAddress]; omega) (by decide)]
    rfl

def listBetween (settings : Settings) (image : Image) (start stop : Int) :
    Except AccessFault Listing :=
  if start < 0 || stop < start || image.length ≤ start then
    return ⟨[], some (.noProgram start stop)⟩
  else do
    let listing ← records settings.escapes image start.toNat stop
    return ⟨listing.text, listing.truncated.map .truncated⟩

theorem listBetween_eq (settings : Settings) (image : Image) (start stop : Int) :
    listBetween settings image start stop = .ok (Memory.listBetween settings image start stop) := by
  unfold listBetween Memory.listBetween
  split
  · rfl
  · rw [records_eq]
    rfl

/-- The program in an image. A bound that is not given is read from the pointers. -/
def list (settings : Settings) (image : Image) (start stop : Option Int) :
    Except AccessFault Listing :=
  match start, stop with
  | some start, some stop => listBetween settings image start stop
  | _, _ => do
    match ← bounds image with
    | none => return ⟨[], some (.noPointers image.length)⟩
    | some (first, last) => listBetween settings image (start.getD first) (stop.getD last)

/-- Whatever the image, the bounds and the settings are, listing comes to an end with the listing
that is specified and never asks for a byte, a word or an entry of the table that is not there. -/
theorem list_eq_ok (settings : Settings) (image : Image) (start stop : Option Int) :
    list settings image start stop = .ok (Memory.list settings image start stop) := by
  by_cases hgiven : ∃ first last, start = some first ∧ stop = some last
  · obtain ⟨first, last, rfl, rfl⟩ := hgiven
    exact listBetween_eq settings image first last
  · have hopen : ∀ first last, start = some first → stop = some last → False :=
      fun first last hfirst hlast => hgiven ⟨first, last, hfirst, hlast⟩
    rw [list, Memory.list, bounds_eq]
    · cases bounds? image with
      | none => rfl
      | some bounds => exact listBetween_eq settings image _ _
    · exact hopen
    · exact hopen

end IntegerBasic.Memory.Checked
