import IntegerBasic.Memory.Listing
import IntegerBasic.Proofs.Record.RenderedLines
import IntegerBasic.Proofs.Text.Rows

/-!
# Listings are stored in the same bytes

The listing of a stored program is stored in the bytes that were listed. This is a matter of single
lines: every record is listed as a line with the body of the record, and the records of a program
are listed one after the other.
-/

namespace IntegerBasic.Record

open Grammar Lexeme

/-- There are no line ends in what is listed for the leaves of a line. -/
theorem Rendered.newline {spaced : Bool} {L : List Leaf} {y : List Char}
    (h : Rendered spaced L y) : ∀ c ∈ y, c ≠ '\n' ∧ c ≠ '\r' := by
  have hspelling : ∀ t : Token, ∀ c ∈ t.spelling.toList, c ≠ '\n' ∧ c ≠ '\r' :=
    forall_spelling (by decide)
  have halphanum : ∀ c : Char, c.isAlphanum = true → c ≠ '\n' ∧ c ≠ '\r' := by
    intro c hc
    constructor <;> rintro rfl <;> cases hc
  have hshows : ∀ {text : List Char} {bytes : List UInt8}, Shows text bytes →
      ∀ c ∈ text, c ≠ '\n' ∧ c ≠ '\r' := by
    intro text bytes h c hc
    exact ⟨fun hline => h.newline.1 (hline ▸ hc), fun hreturn => h.newline.2 (hreturn ▸ hc)⟩
  have hlead : ∀ spaced, ∀ c ∈ lead spaced, c ≠ '\n' ∧ c ≠ '\r' := by
    intro spaced c hc
    rw [eq_space_of_mem_lead hc]
    decide
  have htrail : ∀ w, ∀ c ∈ trail w, c ≠ '\n' ∧ c ≠ '\r' := by
    intro w c hc
    rw [eq_space_of_mem_trail hc]
    decide
  induction h with
  | nil => simp
  | @token spaced t l L y kind hrem more ih =>
    rw [spacedWord_eq]
    refine List.forall_mem_append.2 ⟨List.forall_mem_append.2 ⟨?_, ?_⟩, ih⟩
    · split
      · exact hlead spaced
      · simp
    · exact List.forall_mem_append.2 ⟨hspelling t, htrail _⟩
  | name kind plain more ih =>
    refine List.forall_mem_append.2 ⟨fun c hc => ?_, ih⟩
    rcases plain c hc with hc | rfl
    · exact halphanum c hc
    · decide
  | number kind read limit more ih =>
    refine List.forall_mem_append.2 ⟨fun c hc => ?_, ih⟩
    exact halphanum c (by simp [Char.isAlphanum, Numeral.isDigit_of_mem_decimal hc])
  | string kind shows quote more ih =>
    refine List.forall_mem_append.2 ⟨List.forall_mem_cons.2 ⟨by decide, hshows shows⟩, ?_⟩
    exact List.forall_mem_cons.2 ⟨by decide, ih⟩
  | bareRemark kind => exact List.forall_mem_append.2 ⟨hlead _, hspelling .rem⟩
  | remark kind comment shows =>
    exact List.forall_mem_append.2
      ⟨List.forall_mem_append.2 ⟨hlead _, hspelling .rem⟩, hshows shows⟩

/-- A line in another row has the same tree with the same characters. -/
theorem similar_rows {row : Int} {s : List Char} (sound : (line row s).hasError = false)
    (row' : Int) :
    Similar (fun l text => text = l.text) (line row s).children (line row' s).children := by
  obtain ⟨number, rest, hs⟩ := exists_lineNumber sound
  have hnew : ReplacesNumbers fun _ => none := ⟨fun _ h => absurd rfl h, by simp⟩
  have haligned := (realigned_of_written hnew (written_line hs sound)).aligned
  have hnone : replacements (fun _ => none) = fun _ => [] := by
    funext L
    exact List.filterMap_eq_nil_iff.2 fun _ _ => rfl
  rw [hnone] at haligned
  have hfolds : FoldsNames (Replaced fun _ => none) := by
    intro type name text span h
    rw [show text = name from h]
  exact similar_line hfolds hs hs rfl haligned

theorem forall₂_leaves_line {row : Int} {s : List Char} (sound : (line row s).hasError = false)
    (row' : Int) :
    List.Forall₂ (fun l l' => l.kind = l'.kind ∧ l'.text = l.text) (line row s).leaves
      (line row' s).leaves :=
  (similar_rows sound row').leaves

/-- A sound line is sound in every row. -/
theorem sound_row {row : Int} {s : List Char} (sound : (line row s).hasError = false)
    (row' : Int) : (line row' s).hasError = false := by
  rw [← sound]
  exact (hasError_congr (R := fun l text => text = l.text) (forall₂_leaves_line sound row')).symm

def Stores (s : List Char) (bytes : List UInt8) : Prop :=
  body s = .ok bytes ∧ bytes.length ≤ bodyLimit

theorem mem_leavesOf {nodes : List Node} {node : Node} (h : node ∈ nodes) {l : Leaf}
    (hl : l ∈ node.leaves) : l ∈ Node.leavesOf nodes := by
  obtain ⟨before, behind, rfl⟩ := List.append_of_mem h
  rw [Node.leavesOf_append, Node.leavesOf_cons]
  exact List.mem_append_right _ (List.mem_append_left _ hl)

/-- What is asked of the leaves of a line does not depend on its row. -/
theorem listable_line {row : Int} {s : List Char} (sound : (line row s).hasError = false)
    (h : ∀ l ∈ (line row s).leaves, Listable l) (row' : Int) :
    (line row' s).hasError = false ∧ ∀ l ∈ (line row' s).leaves, Listable l := by
  refine ⟨sound_row sound row', fun l hl => ?_⟩
  obtain ⟨l', hl', hkind, htext⟩ := exists_mem_of_forall₂ (forall₂_leaves_line sound row') l hl
  obtain ⟨hlimit, hescapes⟩ := h l' hl'
  rw [hkind, ← htext] at hlimit hescapes
  exact ⟨hlimit, hescapes⟩

structure Restores (shown : List Char) (bytes : List UInt8) : Prop where
  stores : Stores shown bytes
  newline : ∀ c ∈ shown, c ≠ '\n' ∧ c ≠ '\r'
  blank : Text.isBlankText shown = false

/-- A line that begins with a number in decimal digits, and what follows a space behind it. -/
theorem lineNumber_decimal (n : Nat) {y : List Char} (hy : EndsNumber (y.dropWhile isSpace)) :
    ∃ gaps, (∀ c ∈ gaps, c = ' ') ∧
      lineNumber (Numeral.decimal n ++ [' '] ++ y) =
        some (Numeral.decimal n ++ gaps, y.dropWhile isSpace) := by
  have hgaps : ∀ c ∈ ' ' :: y.takeWhile isSpace, c = ' ' := by
    refine List.forall_mem_cons.2 ⟨rfl, fun c hc => ?_⟩
    simpa [isSpace] using List.all_eq_true.1 List.all_takeWhile c hc
  refine ⟨_, hgaps, ?_⟩
  have hread := @lineNumber_append [] _ _ (by simp) (isInteger_decimal n hgaps) hy
  simpa using hread

/-- What is listed behind the number of a line does not begin with a digit. -/
theorem endsNumber_of_aligned {L : List Leaf} {rest y : List Char} (hrest : EndsNumber rest)
    (hprint : ∀ c ∈ rest, isPrintable c = true) (h : Aligned SameBytes L rest y) :
    EndsNumber (y.dropWhile isSpace) := by
  have hfront : front rest = rest := by
    refine front_of_head fun c hc => ?_
    cases hgap : Text.isGap c with
    | false => rfl
    | true =>
      have hspace := eq_space_of_isPrintable (hprint c (List.mem_of_mem_head? hc)) hgap
      have := hrest c hc
      rw [hspace] at this
      cases this
  have hnone : (integer (front y)).isSome = false := by
    rw [← h.alike.digit, hfront]
    cases rest with
    | nil => rfl
    | cons c rest =>
      have hc : c.isDigit = false := (Bool.or_eq_false_iff.1 (hrest c rfl)).1
      rw [integer, if_neg (by simp [hc])]
      rfl
  intro c hc
  obtain ⟨more, hmore⟩ := List.head?_eq_some_iff.1 hc
  rw [isDigitOrSpace, Bool.or_eq_false_iff]
  constructor
  · cases hdigit : c.isDigit with
    | false => rfl
    | true =>
      have hbare : ∀ d ∈ (c :: more).head?, Text.isGap d = false := by
        rintro _ ⟨⟩
        exact isGap_of_isDigit hdigit
      rw [← front_dropWhile_isSpace, hmore, front_of_head hbare, integer, if_pos hdigit] at hnone
      cases hnone
  · have := List.head?_dropWhile_not isSpace y
    rwa [hc] at this

/-- What is listed for a line is stored in the same body. -/
theorem body_listed {s number rest y : List Char} {n : Nat}
    (hs : lineNumber s = some (number, rest)) (sound : (line 0 s).hasError = false)
    (hprint : ∀ c ∈ s, isPrintable c = true) (hread : Numeral.readToken number = .ok n)
    (hn : n ≤ 65535)
    (h : Aligned SameBytes
      (Node.leavesOf (statements (Input.after ⟨0, 0, s⟩ number rest))) rest y) :
    body (Numeral.decimal n ++ [' '] ++ y) = body s := by
  obtain ⟨-, -, -, -, -, hends, hsplit⟩ := lineNumber_some hs
  have hrest : ∀ c ∈ rest, isPrintable c = true := fun c hc =>
    hprint c (by rw [hsplit]; exact List.mem_append_right _ hc)
  obtain ⟨gaps, hgaps, hs'⟩ := lineNumber_decimal n (endsNumber_of_aligned hends hrest h)
  have hnumber : SameBytes ⟨.lineNumber, number, ⟨⟨0, 0⟩, ⟨0, number.length⟩⟩⟩
      (Numeral.decimal n ++ gaps) :=
    ⟨by simp only [storeLeaf, hread, readToken_decimal hn hgaps], by simp⟩
  have hsimilar : Similar SameBytes (line 0 s).children
      (line 0 (Numeral.decimal n ++ [' '] ++ y)).children :=
    similar_line foldsNames_sameBytes hs hs' hnumber h.dropSpaces
  have sound' : (line 0 (Numeral.decimal n ++ [' '] ++ y)).hasError = false := by
    rw [← sound]
    exact (hasError_congr hsimilar.leaves).symm
  have htab : '\t' ∉ s.takeWhile Text.isGap := fun h => by
    cases hprint '\t' ((List.takeWhile_prefix _).subset h)
  have htab' : '\t' ∉ (Numeral.decimal n ++ [' '] ++ y).takeWhile Text.isGap := by
    obtain ⟨c, more, hdecimal⟩ := List.exists_cons_of_ne_nil (Numeral.decimal_ne_nil n)
    have hc : c.isDigit = true :=
      Numeral.isDigit_of_mem_decimal (n := n) (by rw [hdecimal]; exact List.mem_cons_self)
    rw [hdecimal, List.cons_append, List.cons_append,
      List.takeWhile_cons_of_neg (by simp [isGap_of_isDigit hc])]
    simp
  rw [body_eq htab' sound', body_eq htab sound]
  exact (storeLeaves_congr hsimilar.leaves).symm

/-- The number of a line that is stored. -/
theorem storeLeaf_lineNumber {i : Input} {number : List Char} {bytes : List UInt8}
    (h : storeLeaf (i.leafOf .lineNumber number) = .ok bytes) :
    Numeral.readToken number = .ok (Numeral.digitsValue number) ∧
      bytes = wordBytes (Numeral.digitsValue number) := by
  have hread : (do return wordBytes (← Numeral.readToken number) :
      Except Numeral.Fault (List UInt8)) = .ok bytes := h
  cases hnumber : Numeral.readToken number with
  | error fault =>
    rw [hnumber] at hread
    cases hread
  | ok n =>
    obtain rfl := Numeral.eq_digitsValue hnumber
    rw [hnumber] at hread
    cases hread
    exact ⟨rfl, rfl⟩

section Listed

variable {escapes : List Int} (hline : 138 ∈ escapes) (hreturn : 141 ∈ escapes)
include hline hreturn

/-- The record of a line is listed as a line that is stored in the same record. -/
theorem exists_listed {s : List Char} (hprint : ∀ c ∈ s, isPrintable c = true)
    (sound : (line 0 s).hasError = false) (hlistable : ∀ l ∈ (line 0 s).leaves, Listable l)
    {bytes : List UInt8} (h : Stores s bytes) (tail : List UInt8) :
    ∃ shown, list? escapes (bytes ++ endOfLine :: tail) = some ⟨some shown, bytes.length + 1⟩ ∧
      Restores shown bytes := by
  obtain ⟨hbody, hlength⟩ := h
  obtain ⟨number, rest, hs⟩ := exists_lineNumber sound
  obtain ⟨-, -, -, -, -, -, hsplit⟩ := lineNumber_some hs
  have hrest : ∀ c ∈ rest, isPrintable c = true := fun c hc =>
    hprint c (by rw [hsplit]; exact List.mem_append_right _ hc)
  have htab : '\t' ∉ s.takeWhile Text.isGap := fun h => by
    cases hprint '\t' ((List.takeWhile_prefix _).subset h)
  have hstore : storeLeaves (line 0 s).leaves = .ok bytes := by rw [← body_eq htab sound, hbody]
  rw [leaves_line hs] at hstore hlistable
  obtain ⟨hnumber, hlistable⟩ := List.forall_mem_cons.1 hlistable
  obtain ⟨first, more, hfirst, hmore, rfl⟩ := storeLeaves_cons hstore
  obtain ⟨hread, rfl⟩ := storeLeaf_lineNumber hfirst
  have hlimit : Numeral.digitsValue number ≤ 65535 := hnumber.limit rfl
  have hwritten := written_line hs sound
  have hfounded := compared_statements (Input.after ⟨0, 0, s⟩ number rest) (by
    rw [Node.hasError, leaves_line hs, List.any_cons, Bool.or_eq_false_iff] at sound
    exact sound.2)
  obtain ⟨y, hlist, hrendered⟩ :=
    isListed_of_written hline hreturn hwritten hrest hlistable hmore true tail
  have hback := readsBack_of_written hwritten hrest hfounded.chain hrendered
  generalize Numeral.digitsValue number = n at *
  have hdigit : ∀ c ∈ Numeral.decimal n, c.isDigit = true :=
    fun c hc => Numeral.isDigit_of_mem_decimal hc
  refine ⟨Numeral.decimal n ++ [' '] ++ y, ?_, ?_, ?_, ?_⟩
  · show list? escapes (UInt8.ofNat n :: UInt8.ofNat (n / 256) :: (more ++ endOfLine :: tail)) = _
    rw [list?, hlist, wordValue_wordBytes hlimit]
    simp [wordBytes]
    omega
  · exact ⟨by rw [body_listed hs sound hprint hread hlimit hback.aligned, hbody], hlength⟩
  · refine List.forall_mem_append.2 ⟨List.forall_mem_append.2 ⟨fun c hc => ?_, ?_⟩,
      hrendered.newline⟩
    · constructor <;> rintro rfl <;> cases hdigit _ hc
    · decide
  · obtain ⟨c, digits, hdecimal⟩ := List.exists_cons_of_ne_nil (Numeral.decimal_ne_nil n)
    have hc : Text.isBlank c = false :=
      Text.isBlank_of_isDigit (hdigit c (by rw [hdecimal]; exact List.mem_cons_self))
    rw [hdecimal, Text.isBlankText, List.cons_append, List.cons_append, List.all_cons, hc]
    rfl

end Listed

variable {escapes : List Int}

/-- A record that can be listed has a number. -/
theorem length_of_list? {bytes : List UInt8} {shown : List Char} {consumed : Nat}
    (h : list? escapes (bytes ++ [endOfLine]) = some ⟨some shown, consumed⟩) :
    2 ≤ bytes.length := by
  rcases bytes with _ | ⟨low, _ | ⟨high, bytes⟩⟩
  · cases h
  · rw [List.singleton_append, list?, listTokens] at h
    cases h
  · simp

theorem listAll_nil (address : Nat) (stop : Int) :
    listAll escapes address stop [] = ⟨[], none⟩ :=
  listAll_done (by simp)

/-- Listing goes on behind a record that has been listed. -/
theorem listAll_wrap {bytes tail : List UInt8} (hlength : 2 ≤ bytes.length) {address : Nat}
    {stop : Int} (hstop : (address : Int) < stop) {shown : List Char}
    (h : list? escapes (bytes ++ endOfLine :: tail) = some ⟨some shown, bytes.length + 1⟩) :
    listAll escapes address stop (wrap bytes ++ tail) =
      ⟨shown :: (listAll escapes (address + (wrap bytes).length) stop tail).lines,
        (listAll escapes (address + (wrap bytes).length) stop tail).truncated⟩ := by
  obtain ⟨low, high, next, rest, hbytes⟩ :
      ∃ low high next rest, bytes ++ endOfLine :: tail = low :: high :: next :: rest := by
    rcases bytes with _ | ⟨low, _ | ⟨high, _ | ⟨next, rest⟩⟩⟩
    · cases hlength
    · simp at hlength
    · exact ⟨low, high, endOfLine, tail, rfl⟩
    · exact ⟨low, high, next, rest ++ endOfLine :: tail, rfl⟩
  have hwrap : wrap bytes ++ tail = UInt8.ofNat (bytes.length + 2) :: low :: high :: next :: rest := by
    rw [← hbytes, wrap]
    simp
  have hdrop : (low :: high :: next :: rest).drop (bytes.length + 1) = tail := by
    rw [← hbytes, ← List.singleton_append, ← List.append_assoc]
    exact List.drop_left' (by simp)
  have haddress : address + 1 + (bytes.length + 1) = address + (wrap bytes).length := by
    simp [wrap]
    omega
  rw [hbytes] at h
  rw [hwrap, listAll, if_pos hstop, h]
  dsimp only
  rw [hdrop, haddress]

/-- The records of a program are listed one after the other. -/
theorem restores_listAll {bodies : List (List UInt8)}
    (h : ∀ bytes ∈ bodies, ∀ tail, ∃ shown,
      list? escapes (bytes ++ endOfLine :: tail) = some ⟨some shown, bytes.length + 1⟩ ∧
        Restores shown bytes) (address : Nat) {stop : Int}
    (hstop : stop = (address + (bodies.flatMap wrap).length : Nat)) :
    List.Forall₂ Restores (listAll escapes address stop (bodies.flatMap wrap)).lines bodies := by
  induction bodies generalizing address with
  | nil =>
    rw [List.flatMap_nil, listAll_nil]
    exact .nil
  | cons bytes bodies ih =>
    obtain ⟨hlisted, h⟩ := List.forall_mem_cons.1 h
    obtain ⟨shown, hshown, hrestores⟩ := hlisted (bodies.flatMap wrap)
    rw [List.flatMap_cons, List.length_append, ← Nat.add_assoc] at hstop
    have hless : (address : Int) < stop := by
      have hwrap : 0 < (wrap bytes).length := by simp [wrap]
      omega
    have hlength : 2 ≤ bytes.length := by
      obtain ⟨shown, hshown, -⟩ := hlisted []
      exact length_of_list? hshown
    rw [List.flatMap_cons, listAll_wrap hlength hless hshown]
    exact .cons hrestores (ih h _ hstop)

/-- The lines of a program that are stored. -/
theorem map_numberedRows (text : List Char) :
    (numberedRows text).map (·.2) = (Text.lines text).filter (!Text.isBlankText ·) := by
  rw [numberedRows, List.filter_map, List.map_map]
  conv_rhs => rw [← List.zipIdx_map_fst 0 (Text.lines text), List.filter_map]
  rfl

theorem ofLine_ok_iff {row : Int} {s : List Char} {record : List UInt8} :
    ofLine row s = .ok record ↔ ∃ bytes, Stores s bytes ∧ record = wrap bytes := by
  unfold ofLine Stores
  cases hbody : body s with
  | error fault =>
    constructor
    · rintro ⟨⟩
    · rintro ⟨bytes, ⟨⟨⟩, -⟩, -⟩
  | ok bytes =>
    show (if bodyLimit < bytes.length then _ else _) = _ ↔ _
    by_cases hlong : bodyLimit < bytes.length
    · rw [if_pos hlong]
      constructor
      · rintro ⟨⟩
      · rintro ⟨_, ⟨⟨⟩, hlength⟩, -⟩
        omega
    · rw [if_neg hlong]
      constructor
      · rintro ⟨⟩
        exact ⟨bytes, ⟨rfl, by omega⟩, rfl⟩
      · rintro ⟨_, ⟨⟨⟩, -⟩, rfl⟩
        rfl

/-- The records of some rows one after the other. -/
theorem exists_records_iff {rows : List (Nat × List Char)} {code : List UInt8} :
    (∃ records : List (Nat × List UInt8),
      List.Forall₂ (fun p r => (do return (p.1, ← ofLine p.1 p.2)) = Except.ok r) rows records ∧
        code = (records.map (·.2)).flatten) ↔
      ∃ bodies, List.Forall₂ Stores (rows.map (·.2)) bodies ∧ code = bodies.flatMap wrap := by
  constructor
  · rintro ⟨records, h, rfl⟩
    induction h with
    | nil => exact ⟨[], .nil, rfl⟩
    | @cons p r rows records hr _ ih =>
      obtain ⟨bodies, hbodies, hcode⟩ := ih
      cases hrecord : ofLine p.1 p.2 with
      | error fault =>
        rw [hrecord] at hr
        cases hr
      | ok record =>
        rw [hrecord] at hr
        cases hr
        obtain ⟨bytes, hbytes, rfl⟩ := ofLine_ok_iff.1 hrecord
        refine ⟨bytes :: bodies, .cons hbytes hbodies, ?_⟩
        rw [List.map_cons, List.flatten_cons, hcode, List.flatMap_cons]
  · rintro ⟨bodies, h, rfl⟩
    rw [List.forall₂_map_left_iff] at h
    induction h with
    | nil => exact ⟨[], .nil, rfl⟩
    | @cons p bytes rows bodies hbytes _ ih =>
      obtain ⟨records, hrecords, hcode⟩ := ih
      have hrecord : ofLine p.1 p.2 = .ok (wrap bytes) := ofLine_ok_iff.2 ⟨bytes, hbytes, rfl⟩
      refine ⟨(p.1, wrap bytes) :: records, .cons (by rw [hrecord]; rfl) hrecords, ?_⟩
      rw [List.map_cons, List.flatten_cons, ← hcode, List.flatMap_cons]

/-- A program is stored in the records of its lines, the blank lines left out. -/
theorem store_ok_iff {text : List Char} {code : List UInt8} :
    store text = .ok code ↔ ∃ bodies,
      List.Forall₂ Stores ((Text.lines text).filter (!Text.isBlankText ·)) bodies ∧
        code = bodies.flatMap wrap := by
  rw [← map_numberedRows, ← exists_records_iff]
  unfold store
  cases hrecords : ofProgram text with
  | error fault =>
    constructor
    · rintro ⟨⟩
    · rintro ⟨records, h, -⟩
      rw [ofProgram, mapM_ok_iff.2 h] at hrecords
      cases hrecords
  | ok records =>
    constructor
    · rintro ⟨⟩
      exact ⟨records, mapM_ok_iff.1 hrecords, rfl⟩
    · rintro ⟨records', h, rfl⟩
      rw [ofProgram, mapM_ok_iff.2 h] at hrecords
      cases hrecords
      rfl

/-- The lines of a listing are the lines that are stored of its text. -/
theorem filter_lines_text {listing : Listing} {bodies : List (List UInt8)}
    (h : List.Forall₂ Restores listing.lines bodies) :
    (Text.lines listing.text).filter (!Text.isBlankText ·) = listing.lines := by
  have hall : ∀ shown ∈ listing.lines, ('\n' ∉ shown ∧ '\r' ∉ shown) ∧
      Text.isBlankText shown = false := by
    intro shown hshown
    obtain ⟨bytes, -, hrestores⟩ := exists_mem_of_forall₂ h.flip shown hshown
    exact ⟨⟨fun hmem => (hrestores.newline _ hmem).1 rfl,
      fun hmem => (hrestores.newline _ hmem).2 rfl⟩, hrestores.blank⟩
  rw [Listing.text, Text.lines_flatMap fun shown hshown => (hall shown hshown).1,
    List.filter_append, List.filter_eq_self.2 fun shown hshown => by simp [(hall shown hshown).2]]
  exact List.append_nil _

/-- The text of a listing is that of the records, also where there are none. -/
theorem text_list (settings : Settings) (code : List UInt8) :
    (Memory.list settings code (some 0) (some code.length)).text =
      (listAll settings.escapes 0 code.length code).text := by
  show (Memory.listBetween settings code 0 code.length).text = _
  unfold Memory.listBetween
  cases code with
  | nil =>
    rw [listAll_nil]
    rfl
  | cons b code =>
    rw [if_neg]
    · rfl
    · simp
      omega

/-- A program of printable characters that parses without errors is listed as a text that is
stored in the same bytes, if its numbers fit into two bytes, its escapes name no bytes that are
shown as something else, and line ends are shown as escapes. -/
theorem store_listing {settings : Settings} {text : List Char} {code : List UInt8}
    (hprint : ∀ s ∈ Text.lines text, ∀ c ∈ s, isPrintable c = true)
    (sound : (program text).hasError = false)
    (hlistable : ∀ l ∈ (program text).leaves, Listable l)
    (hline : 138 ∈ settings.escapes) (hreturn : 141 ∈ settings.escapes)
    (hstore : store text = .ok code) :
    store (Memory.list settings code (some 0) (some code.length)).text = .ok code := by
  obtain ⟨bodies, hbodies, rfl⟩ := store_ok_iff.1 hstore
  have hlisted : ∀ bytes ∈ bodies, ∀ tail, ∃ shown,
      list? settings.escapes (bytes ++ endOfLine :: tail) =
        some ⟨some shown, bytes.length + 1⟩ ∧ Restores shown bytes := by
    intro bytes hbytes
    obtain ⟨s, hs, hstores⟩ := exists_mem_of_forall₂ hbodies bytes hbytes
    have hmem : s ∈ (numberedRows text).map (·.2) := by rwa [map_numberedRows]
    obtain ⟨⟨row, s⟩, hrow, rfl⟩ := List.mem_map.1 hmem
    have hchild : line row s ∈ (program text).children := List.mem_map.2 ⟨(row, s), hrow, rfl⟩
    obtain ⟨sound', hlistable'⟩ := listable_line (hasError_of_mem sound hchild)
      (fun l hl => hlistable l (mem_leavesOf hchild hl)) 0
    exact exists_listed hline hreturn (hprint s (List.mem_of_mem_filter hs)) sound' hlistable'
      hstores
  have hrestores : List.Forall₂ Restores
      (listAll settings.escapes 0 (bodies.flatMap wrap).length (bodies.flatMap wrap)).lines bodies :=
    restores_listAll hlisted 0 (by simp)
  rw [text_list, store_ok_iff, filter_lines_text hrestores]
  exact ⟨bodies, hrestores.imp fun _ _ h => h.stores, rfl⟩

/-- The text has small letters, a blank line, an escape and zeros before a number, and the listing
spells the comparison in another way. -/
theorem store_listing_comparison : ∃ code,
    store "10 if a$ <> b$ then 20:print\"hi\\xC1\"\r\n\n020 rem done".toList = .ok code ∧
      store (Memory.list {} code (some 0) (some code.length)).text = .ok code := by
  have hstore : store "10 if a$ <> b$ then 20:print\"hi\\xC1\"\r\n\n020 rem done".toList =
      .ok [21, 10, 0, 96, 193, 64, 58, 194, 64, 36, 178, 20, 0, 3, 97, 40, 200, 201, 193, 41, 1,
        10, 20, 0, 93, 160, 196, 207, 206, 197, 1] := by decide +kernel
  exact ⟨_, hstore, store_listing (by decide +kernel) (by decide +kernel) (by decide +kernel)
    (by decide) (by decide) hstore⟩

end IntegerBasic.Record
