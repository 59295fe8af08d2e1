import IntegerBasic.Proofs.Record.RoundTrip

/-!
# Where a record ends

A record says how long it is, but listing it goes by content, up to the first byte that ends a
line. The bytes of tokens, names and numbers are stepped over one token at a time, and so only the
text of a string or a remark can be mistaken for something else: an end of line in it cuts the
record short, and a closing quote in it ends the string too early. Text has such bytes only where
an escape names them or a character outside ASCII is stored in one.
-/

namespace IntegerBasic.Record

open Grammar Lexeme

def textBytes (l : Leaf) : List UInt8 :=
  match l.kind with
  | .string => storeText l.text.tail.dropLast
  | .comment => storeText l.text
  | _ => []

/-- No string is closed by a byte of its own text. -/
def ClosesOnce (l : Leaf) : Prop := l.kind = .string → closeQuote ∉ textBytes l

/-- No byte of the text ends the line. -/
def StaysOpen (l : Leaf) : Prop := endOfLine ∉ textBytes l

instance (l : Leaf) : Decidable (ClosesOnce l) := inferInstanceAs (Decidable (_ → _))

instance (l : Leaf) : Decidable (StaysOpen l) := inferInstanceAs (Decidable ¬_)

variable {escapes : List Int}

/-- Bytes are shown up to the first terminator. -/
theorem exists_showText_stop {marks : List UInt8} {bytes : List UInt8}
    (hbytes : ∀ m ∈ marks, m ∉ bytes) {stop : UInt8} (hstop : stop ∈ marks) (tail : List UInt8) :
    ∃ text, showText escapes (marks.map fun m => (m.toNat : Int)) (bytes ++ stop :: tail) =
      (text, stop :: tail) := by
  induction bytes with
  | nil =>
    have hmem := (mem_marks_iff marks stop).2 hstop
    exact ⟨[], by rw [List.nil_append, showText, if_pos (by simpa using hmem)]⟩
  | cons b bytes ih =>
    obtain ⟨text, htext⟩ := ih fun m hm hmore => hbytes m hm (List.mem_cons_of_mem _ hmore)
    have hb : (b.toNat : Int) ∉ marks.map fun m => (m.toNat : Int) :=
      fun h => hbytes b ((mem_marks_iff marks b).1 h) List.mem_cons_self
    exact ⟨_, by rw [List.cons_append, showText, if_neg (by simpa using hb), htext]⟩

structure Stops (listed : Option (List Char) × List UInt8) (tail : List UInt8) (whole : Prop) :
    Prop where
  text : listed.1.isSome = true
  within : tail.length < listed.2.length
  whole : listed.2.length = tail.length + 1 ↔ whole

namespace Stops

variable {listed : Option (List Char) × List UInt8} {tail : List UInt8} {whole : Prop}

theorem behind (h : Stops listed tail whole) (text : List Char) :
    Stops (behind text listed) tail whole :=
  ⟨by rw [Record.behind, Option.isSome_map, h.text], h.within, h.whole⟩

theorem congr {whole' : Prop} (h : Stops listed tail whole) (heq : whole ↔ whole') :
    Stops listed tail whole' := ⟨h.text, h.within, h.whole.trans heq⟩

/-- Listing stops at the end of line that it comes to. -/
theorem at_end (spaced : Bool) :
    Stops (listTokens escapes spaced (endOfLine :: tail)) tail True := by
  rw [listTokens_end]
  exact ⟨rfl, Nat.lt_succ_self _, by simp⟩

/-- An end of line that stands before the last one cuts the record short. -/
theorem early {bytes : List UInt8} (spaced : Bool) (hlength : tail.length < bytes.length) :
    Stops (listTokens escapes spaced (endOfLine :: bytes)) tail False := by
  rw [listTokens_end]
  refine ⟨rfl, ?_, ?_⟩
  · rw [List.length_cons]
    omega
  · simp only [List.length_cons, iff_false]
    omega

/-- A string without a closing quote among its bytes is stepped over, unless it has an end of line
among them. -/
theorem string {inner later : List UInt8} (hclose : closeQuote ∉ inner)
    (h : Stops (listTokens escapes false (later ++ endOfLine :: tail)) tail whole)
    (spaced : Bool) :
    Stops (listTokens escapes spaced
      (openQuote :: (inner ++ closeQuote :: (later ++ endOfLine :: tail)))) tail
        (endOfLine ∉ inner ∧ whole) := by
  by_cases hend : endOfLine ∈ inner
  · obtain ⟨before, after, rfl, hbefore⟩ := List.eq_append_cons_of_mem hend
    obtain ⟨text, htext⟩ := @exists_showText_stop escapes [closeQuote, endOfLine] before
      (by simp_all) endOfLine (by simp) (after ++ closeQuote :: (later ++ endOfLine :: tail))
    rw [List.append_assoc, List.cons_append, listTokens_openQuote htext,
      if_neg (by rw [List.head?_cons]; decide)]
    refine ((early _ ?_).behind _).congr (by simp)
    simp only [List.length_append, List.length_cons]
    omega
  · obtain ⟨text, htext⟩ := @exists_showText_stop escapes [closeQuote, endOfLine] inner
      (by simp_all) closeQuote (by simp) (later ++ endOfLine :: tail)
    rw [listTokens_string htext]
    exact (h.behind _).congr (by simp [hend])

/-- A remark is stepped over, unless it has an end of line among its bytes. -/
theorem remark (inner : List UInt8) (spaced : Bool) :
    Stops (listTokens escapes spaced (remToken :: (inner ++ endOfLine :: tail))) tail
      (endOfLine ∉ inner) := by
  by_cases hend : endOfLine ∈ inner
  · obtain ⟨before, after, rfl, hbefore⟩ := List.eq_append_cons_of_mem hend
    obtain ⟨text, htext⟩ := @exists_showText_stop escapes [endOfLine] before
      (by simp_all) endOfLine (by simp) (after ++ endOfLine :: tail)
    rw [List.append_assoc, List.cons_append, listTokens_rem htext]
    refine ((early _ ?_).behind _).congr (by simp)
    simp only [List.length_append, List.length_cons]
    omega
  · obtain ⟨text, htext⟩ := @exists_showText_stop escapes [endOfLine] inner
      (by simp_all) endOfLine (by simp) tail
    rw [listTokens_rem htext]
    exact ((at_end _).behind _).congr (by simp [hend])

end Stops

/-- The bytes of the leaves of a line are stepped over leaf by leaf, up to the first end of line in
a string or a remark. -/
theorem stops_written {q : Bool} {i : Input} {L : List Leaf} (h : Written q i L)
    (hcloses : ∀ l ∈ L, ClosesOnce l) {bytes : List UInt8} (hstore : storeLeaves L = .ok bytes)
    (spaced : Bool) (tail : List UInt8) :
    Stops (listTokens escapes spaced (bytes ++ endOfLine :: tail)) tail
      (∀ l ∈ L, StaysOpen l) := by
  induction h generalizing bytes spaced with
  | done =>
    rw [storeLeaves_nil hstore]
    exact (Stops.at_end spaced).congr (by simp)
  | @leaf q i kind text rest L takes hrem allowed more ih =>
    obtain ⟨first, later, hl, hmore, rfl⟩ := storeLeaves_cons hstore
    obtain ⟨hclose, hcloses⟩ := List.forall_mem_cons.1 hcloses
    have hlater := ih hcloses hmore
    rw [List.append_assoc, List.forall_mem_cons]
    rcases takes_cases takes with ⟨t, rfl⟩ | hkind | ⟨type, rfl⟩ | rfl
    · cases hl
      have ht : t ≠ .rem := by simpa using hrem
      rw [List.singleton_append, listTokens_token ht]
      exact ((hlater _).behind _).congr (by simp [StaysOpen, textBytes, Input.leafOf])
    · obtain ⟨-, rfl⟩ := storeLeaf_number hkind hl
      rw [listTokens_digits]
      refine ((hlater _).behind _).congr ?_
      rcases hkind with rfl | rfl <;> simp [StaysOpen, textBytes, Input.leafOf]
    · cases hl
      show Stops (listTokens escapes spaced (storeName text ++ _)) _ _
      rw [listTokens_storeName takes.name.1 (isHigh_head more hmore tail)]
      exact ((hlater _).behind _).congr (by simp [StaysOpen, textBytes, Input.leafOf])
    · cases hl
      have hlisted := Stops.string (hclose rfl) (hlater false) spaced
      simpa [StaysOpen, textBytes, Input.leafOf] using hlisted
  | @bareRemark q i text read =>
    obtain ⟨first, later, hl, hmore, rfl⟩ := storeLeaves_cons hstore
    cases hl
    rw [storeLeaves_nil hmore]
    exact (Stops.remark [] spaced).congr (by simp [StaysOpen, textBytes, Input.leafOf])
  | @remark q i text rest read ne =>
    obtain ⟨first, later, hl, hmore, rfl⟩ := storeLeaves_cons hstore
    cases hl
    obtain ⟨comment, last, hl, hnil, rfl⟩ := storeLeaves_cons hmore
    cases hl
    rw [storeLeaves_nil hnil, List.append_nil]
    exact (Stops.remark (storeText rest) spaced).congr
      (by simp [StaysOpen, textBytes, Input.leafOf])

/-- What is asked of the leaves of a line whose records are to be told apart by their content. -/
structure Steppable (l : Leaf) : Prop where
  keeps : l.kind = .lineNumber → KeepsNumber l.text
  closes : ClosesOnce l

instance (l : Leaf) : Decidable (Steppable l) :=
  decidable_of_iff ((l.kind = .lineNumber → KeepsNumber l.text) ∧ ClosesOnce l)
    ⟨fun h => ⟨h.1, h.2⟩, fun h => ⟨h.keeps, h.closes⟩⟩

/-- The record of a sound line is listed up to its own end, or up to an end of line in a string or a
remark before it. -/
theorem exists_list?_stops {s : List Char} (sound : (line 0 s).hasError = false)
    (hsteppable : ∀ l ∈ (line 0 s).leaves, Steppable l) {bytes : List UInt8}
    (hbody : body s = .ok bytes) (tail : List UInt8) :
    ∃ shown consumed, list? escapes (bytes ++ endOfLine :: tail) = some ⟨some shown, consumed⟩ ∧
      (consumed = bytes.length + 1 ↔ ∀ l ∈ (line 0 s).leaves, StaysOpen l) := by
  obtain ⟨number, rest, hs⟩ := exists_lineNumber sound
  have hwritten := written_line hs sound
  rw [leaves_line hs] at hsteppable
  obtain ⟨hnumber, hsteppable⟩ := List.forall_mem_cons.1 hsteppable
  rw [body_eq_of_keepsNumber hs (hnumber.keeps rfl) sound] at hbody
  rw [leaves_line hs] at hbody ⊢
  obtain ⟨first, more, hfirst, hmore, rfl⟩ := storeLeaves_cons hbody
  obtain ⟨-, rfl⟩ := storeLeaf_lineNumber hfirst
  have hstops := @stops_written escapes _ _ _ hwritten (fun l hl => (hsteppable l hl).closes)
    _ hmore true tail
  obtain ⟨⟨shown, left⟩, hlist⟩ : ∃ listed,
      listTokens escapes true (more ++ endOfLine :: tail) = listed := ⟨_, rfl⟩
  rw [hlist] at hstops
  obtain ⟨text, rfl⟩ := Option.isSome_iff_exists.1 hstops.text
  have hwithin : tail.length < left.length := hstops.within
  generalize Numeral.digitsValue number = n
  refine ⟨Numeral.decimal (wordValue (UInt8.ofNat n) (UInt8.ofNat (n / 256))) ++ [' '] ++ text,
    (wordBytes n ++ more ++ endOfLine :: tail).length - left.length + 1, ?_, ?_⟩
  · show list? escapes (UInt8.ofNat n :: UInt8.ofNat (n / 256) :: (more ++ endOfLine :: tail)) = _
    rw [list?, hlist]
    rfl
  · have hnumber : StaysOpen (Input.leafOf ⟨0, 0, s⟩ .lineNumber number) := by
      simp [StaysOpen, textBytes, Input.leafOf]
    rw [List.forall_mem_cons, and_iff_right hnumber, ← hstops.whole]
    simp only [List.length_cons, List.length_append, wordBytes, List.length_nil]
    omega

/-- Listing the record at an address ends where its length byte says. -/
def EndsAsAnnounced (settings : Settings) (code : List UInt8) (address : Nat) : Prop :=
  ∃ shown, Memory.listRecord? settings code address =
    some (some shown, (address : Int) + (code.getD address 0).toNat)

/-- A record ends as announced if all of it is read, and the end of line behind it. -/
theorem endsAsAnnounced_iff {settings : Settings} {bytes after : List UInt8} {shown : List Char}
    {consumed : Nat} (hlength : bytes.length ≤ bodyLimit)
    (hlist : list? settings.escapes (bytes ++ endOfLine :: after) = some ⟨some shown, consumed⟩)
    (before : List UInt8) :
    EndsAsAnnounced settings (before ++ (wrap bytes ++ after)) before.length ↔
      consumed = bytes.length + 1 := by
  have hfrom : Index.from? (before ++ (wrap bytes ++ after)) ((before.length : Int) + 1) =
      some (bytes ++ endOfLine :: after) := by
    have hplace : ((before.length : Int) + 1).toNat = before.length + 1 := rfl
    rw [Index.from?, if_pos (by omega), hplace, ← List.drop_drop, List.drop_left, wrap]
    simp
  have hannounced : ((before ++ (wrap bytes ++ after)).getD before.length 0).toNat =
      bytes.length + 2 := by
    have hlimit : bodyLimit = 126 := rfl
    rw [List.getD_eq_getElem?_getD, List.getElem?_append_right (Nat.le_refl _), Nat.sub_self, wrap,
      List.cons_append, List.cons_append, List.getElem?_cons_zero, Option.getD_some,
      UInt8.toNat_ofNat']
    omega
  have hrecord : Memory.listRecord? settings (before ++ (wrap bytes ++ after)) before.length =
      some (some shown, (before.length : Int) + 1 + consumed) := by
    unfold Memory.listRecord?
    rw [hfrom]
    show (list? settings.escapes (bytes ++ endOfLine :: after)).bind _ = _
    rw [hlist]
    rfl
  rw [EndsAsAnnounced, hrecord, hannounced]
  constructor
  · rintro ⟨_, heq⟩
    simp only [Option.some.injEq, Prod.mk.injEq] at heq
    omega
  · rintro rfl
    exact ⟨shown, by simp; omega⟩

/-- What is asked of a line does not depend on its row. -/
theorem steppable_line {row : Int} {s : List Char} (sound : (line row s).hasError = false)
    (h : ∀ l ∈ (line row s).leaves, Steppable l) :
    (line 0 s).hasError = false ∧ (∀ l ∈ (line 0 s).leaves, Steppable l) ∧
      ((∀ l ∈ (line 0 s).leaves, StaysOpen l) ↔ ∀ l ∈ (line row s).leaves, StaysOpen l) := by
  have hleaves := forall₂_leaves_line sound 0
  have hbytes : ∀ {l l' : Leaf}, l.kind = l'.kind ∧ l'.text = l.text →
      textBytes l = textBytes l' := by
    rintro l l' ⟨hkind, htext⟩
    rw [textBytes, textBytes, hkind, htext]
  refine ⟨sound_row sound 0, ?_, ?_⟩
  · intro l hl
    obtain ⟨l', hl', hsame⟩ := exists_mem_of_forall₂ hleaves l hl
    obtain ⟨hkeeps, hcloses⟩ := h l' hl'
    rw [ClosesOnce, hbytes hsame, hsame.1] at hcloses
    rw [hsame.1, ← hsame.2] at hkeeps
    exact ⟨hkeeps, hcloses⟩
  · constructor
    · intro hopen l hl
      obtain ⟨l', hl', hsame⟩ := exists_mem_of_forall₂ hleaves.flip l hl
      rw [StaysOpen, hbytes hsame]
      exact hopen l' hl'
    · intro hopen l hl
      obtain ⟨l', hl', hsame⟩ := exists_mem_of_forall₂ hleaves l hl
      rw [StaysOpen, ← hbytes hsame]
      exact hopen l' hl'

theorem getElem?_of_mem_numberedRows {text s : List Char} {row : Nat}
    (h : (row, s) ∈ numberedRows text) : (Text.lines text)[row]? = some s := by
  obtain ⟨⟨s', row'⟩, hmem, heq⟩ := List.mem_map.1 (List.mem_filter.1 h).1
  cases heq
  exact List.mem_zipIdx_iff_getElem?.1 hmem

/-- The records of a program are those of its lines, each with its row. -/
theorem forall₂_of_ofProgram {text : List Char} {records : List (Nat × List UInt8)}
    (h : ofProgram text = .ok records) :
    List.Forall₂ (fun p r => r.1 = p.1 ∧ ∃ bytes, Stores p.2 bytes ∧ r.2 = wrap bytes)
      (numberedRows text) records := by
  refine (mapM_ok_iff.1 h).imp ?_
  rintro ⟨row, s⟩ r hr
  dsimp only at hr
  cases hrecord : ofLine row s with
  | error fault =>
    rw [hrecord] at hr
    cases hr
  | ok record =>
    rw [hrecord] at hr
    cases hr
    exact ⟨rfl, ofLine_ok_iff.1 hrecord⟩

/-- The records of sound lines without an end of line in their texts are listed one by one. -/
theorem length_listAll {rows : List (Nat × List Char)} {records : List (Nat × List UInt8)}
    (h : List.Forall₂ (fun p r => r.1 = p.1 ∧ ∃ bytes, Stores p.2 bytes ∧ r.2 = wrap bytes) rows
      records)
    (sound : ∀ p ∈ rows, (line p.1 p.2).hasError = false ∧
      ∀ l ∈ (line p.1 p.2).leaves, Steppable l ∧ StaysOpen l)
    (address : Nat) {stop : Int} (hstop : stop = (address + (records.flatMap (·.2)).length : Nat)) :
    (listAll escapes address stop (records.flatMap (·.2))).lines.length = records.length ∧
      (listAll escapes address stop (records.flatMap (·.2))).truncated = none := by
  induction h generalizing address with
  | nil =>
    rw [List.flatMap_nil, listAll_nil]
    exact ⟨rfl, rfl⟩
  | @cons p r rows records hr _ ih =>
    obtain ⟨-, bytes, hbytes, hwrap⟩ := hr
    obtain ⟨⟨sound, hleaves⟩, hmore⟩ := List.forall_mem_cons.1 sound
    obtain ⟨sound', hsteppable, hopen⟩ := steppable_line sound fun l hl => (hleaves l hl).1
    obtain ⟨shown, consumed, hlist, hwhole⟩ := @exists_list?_stops escapes _ sound'
      hsteppable _ hbytes.1 (records.flatMap (·.2))
    rw [hwhole.2 (hopen.2 fun l hl => (hleaves l hl).2)] at hlist
    rw [List.flatMap_cons, hwrap, List.length_append, ← Nat.add_assoc] at hstop
    have hpos : 0 < (wrap bytes).length := by simp [wrap]
    have hlength : 2 ≤ bytes.length := by
      obtain ⟨shown, consumed, hlist, -⟩ := @exists_list?_stops escapes _ sound'
        hsteppable _ hbytes.1 []
      exact length_of_list? hlist
    rw [List.flatMap_cons, hwrap, listAll_wrap hlength (by omega) hlist]
    simpa using ih hmore _ hstop

/-- Where records end. The record of a sound line whose strings are not closed by a byte of their
own ends as announced exactly if no string and no remark of the line holds an end of line. If that
is so for all lines, then the listing has a line for each record. -/
theorem records_end (settings : Settings) {text : List Char} {records : List (Nat × List UInt8)}
    (hstore : ofProgram text = .ok records) :
    (∀ (before after : List (Nat × List UInt8)) (row : Nat) (record : List UInt8) (s : List Char),
        records = before ++ (row, record) :: after → (Text.lines text)[row]? = some s →
        (line row s).hasError = false → (∀ l ∈ (line row s).leaves, Steppable l) →
        (EndsAsAnnounced settings (records.flatMap (·.2)) (before.flatMap (·.2)).length ↔
          ∀ l ∈ (line row s).leaves, StaysOpen l)) ∧
      ((program text).hasError = false →
        (∀ l ∈ (program text).leaves, Steppable l ∧ StaysOpen l) →
        let code := records.flatMap (·.2)
        (listAll settings.escapes 0 code.length code).lines.length = records.length ∧
          (listAll settings.escapes 0 code.length code).truncated = none) := by
  have hrecords := forall₂_of_ofProgram hstore
  constructor
  · rintro before after row record s rfl hs sound hsteppable
    obtain ⟨p, hp, hrow, bytes, hbytes, hwrap⟩ := exists_mem_of_forall₂ hrecords (row, record)
      (List.mem_append_right _ List.mem_cons_self)
    obtain ⟨row, s'⟩ := p
    cases hrow
    rw [getElem?_of_mem_numberedRows hp] at hs
    cases hs
    obtain ⟨sound', hsteppable', hopen⟩ := steppable_line sound hsteppable
    obtain ⟨shown, consumed, hlist, hwhole⟩ := @exists_list?_stops settings.escapes _
      sound' hsteppable' _ hbytes.1 (after.flatMap (·.2))
    rw [← hopen, ← hwhole, List.flatMap_append, List.flatMap_cons, hwrap]
    exact endsAsAnnounced_iff hbytes.2 hlist (before.flatMap (·.2))
  · intro sound hleaves
    refine length_listAll hrecords (fun p hp => ?_) 0 (by simp)
    have hchild : line p.1 p.2 ∈ (program text).children := List.mem_map.2 ⟨p, hp, rfl⟩
    exact ⟨hasError_of_mem sound hchild, fun l hl => hleaves l (mem_leavesOf hchild hl)⟩

/-- The text has a string with an escape, a remark with a character outside ASCII, a blank line and
a number behind a tab. -/
theorem records_end_escape : ∃ records,
    ofProgram "10 PRINT \"a\\xC1\":REM é\n\n\t15 GOTO 10".toList = .ok records ∧
      EndsAsAnnounced {} (records.flatMap (·.2)) 0 ∧
      (listAll ({} : Settings).escapes 0 (records.flatMap (·.2)).length
        (records.flatMap (·.2))).lines.length = records.length := by
  have hstore : ofProgram "10 PRINT \"a\\xC1\":REM é\n\n\t15 GOTO 10".toList =
      .ok [(0, [13, 10, 0, 97, 40, 193, 193, 41, 3, 93, 160, 73, 1]),
        (2, [8, 15, 0, 95, 177, 10, 0, 1])] := by decide +kernel
  obtain ⟨hend, hcount⟩ := records_end {} hstore
  refine ⟨_, hstore, ?_, ?_⟩
  · exact (hend [] _ 0 _ "10 PRINT \"a\\xC1\":REM é".toList rfl (by decide +kernel)
      (by decide +kernel) (by decide +kernel)).2 (by decide +kernel)
  · exact (hcount (by decide +kernel) (by decide +kernel)).1

/-- An escape names the byte that ends a line, and the record is listed only up to it. -/
theorem not_records_end : ¬∀ (text : List Char) (records : List (Nat × List UInt8)),
    ofProgram text = .ok records → (program text).hasError = false →
      ∀ (before after : List (Nat × List UInt8)) (row : Nat) (record : List UInt8),
        records = before ++ (row, record) :: after →
          EndsAsAnnounced {} (records.flatMap (·.2)) (before.flatMap (·.2)).length := by
  intro h
  have hrecord : Memory.listRecord? {} [8, 10, 0, 97, 40, 1, 41, 1] 0 =
      some (some "10 PRINT \"".toList, 6) := by decide +kernel
  obtain ⟨shown, hshown⟩ := h "10 PRINT \"\\x01\"".toList [(0, [8, 10, 0, 97, 40, 1, 41, 1])]
    (by decide +kernel) (by decide +kernel) [] [] 0 _ rfl
  have hshown : some (some "10 PRINT \"".toList, (6 : Int)) = some (some shown, 8) :=
    hrecord.symm.trans hshown
  simp at hshown

/-- A byte of the text closes the string, and the number behind it takes the end of the line. -/
example : ofProgram "10 PRINT \"©0\"".toList = .ok [(0, [9, 10, 0, 97, 40, 41, 176, 41, 1])] ∧
    Memory.listRecord? {} [9, 10, 0, 97, 40, 41, 176, 41, 1] 0 = some (none, 9) := by
  decide +kernel

end IntegerBasic.Record
