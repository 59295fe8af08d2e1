import IntegerBasic.Proofs.Record.Overflow

/-!
# The format of a stored program

A stored program is cut into its records by following the length bytes. Every line that is not
blank has its record, in the order of the lines. A program is not stored if the body of a line has
more than 126 bytes, or if there is too little room to read a line. This holds of every text,
whatever errors it has, as long as none of its lines has more than 500 digits.
-/

namespace IntegerBasic.Record

open Grammar Lexeme

/-- The records of a stored program by their length bytes; none if a length is zero or reaches
beyond the end. -/
def split? : List UInt8 → Option (List (List UInt8))
  | [] => some []
  | length :: rest =>
    if length = 0 ∨ rest.length + 1 < length.toNat then none
    else
      (split? (rest.drop (length.toNat - 1))).map
        ((length :: rest.take (length.toNat - 1)) :: ·)
termination_by code => code.length
decreasing_by
  rw [List.length_drop, List.length_cons]
  omega

/-- A record that begins with its own length is cut off the front. -/
theorem split?_append {record : List UInt8}
    (h : record.head?.map UInt8.toNat = some record.length) (code : List UInt8) :
    split? (record ++ code) = (split? code).map (record :: ·) := by
  cases record with
  | nil => cases h
  | cons length rest =>
    have hlength : length.toNat = rest.length + 1 := by simpa using h
    have hne : length ≠ 0 := by
      rintro rfl
      cases hlength
    rw [List.cons_append, split?, if_neg, hlength, Nat.add_sub_cancel, List.drop_left,
      List.take_left]
    rw [not_or, List.length_append, hlength]
    exact ⟨hne, by omega⟩

theorem split?_flatten {records : List (List UInt8)}
    (h : ∀ record ∈ records, record.head?.map UInt8.toNat = some record.length) :
    split? records.flatten = some records := by
  induction records with
  | nil => rw [List.flatten_nil, split?]
  | cons record records ih =>
    obtain ⟨hrecord, h⟩ := List.forall_mem_cons.1 h
    rw [List.flatten_cons, split?_append hrecord, ih h]
    rfl

/-- The record of a line: the length of the record, the body with the number of the line in front,
and the end of the line. -/
structure IsRecord (line : List Char) (record : List UInt8) : Prop where
  length : record.head?.map UInt8.toNat = some record.length
  bounds : 3 ≤ record.length ∧ record.length ≤ 128
  last : record.getLast? = some 0x01
  /-- The number modulo 65536 with the low byte first, where only spaces stand before it. -/
  number : ∀ number rest, integer (line.dropWhile isSpace) = some (number, rest) →
    ∃ low high, record[1]? = some low ∧ record[2]? = some high ∧
      wordValue low high = Numeral.digitsValue number % 65536

theorem isRecord_wrap {line : List Char} (hblank : Text.isBlankText line = false)
    {bytes : List UInt8} (h : Stores line bytes) : IsRecord line (wrap bytes) := by
  obtain ⟨hbody, hlimit⟩ := h
  have hpos := List.length_pos_iff.2 (body_ne_nil hblank hbody)
  have hle : bytes.length ≤ 126 := hlimit
  have hlength : (wrap bytes).length = bytes.length + 2 := by simp [wrap]
  refine ⟨?_, by omega, ?_, ?_⟩
  · rw [hlength, wrap, List.cons_append, List.head?_cons, Option.map_some, UInt8.toNat_ofNat']
    rw [Nat.mod_eq_of_lt (by omega)]
  · rw [wrap, List.getLast?_concat]
    rfl
  · intro number rest hnumber
    obtain ⟨more, rfl⟩ := exists_body_eq hnumber hbody
    refine ⟨_, _, rfl, rfl, ?_⟩
    rw [wordValue, UInt8.toNat_ofNat', UInt8.toNat_ofNat']
    omega

/-- A line that is not blank and has a body for which there is no record. -/
def IsTooLong (line : List Char) : Prop :=
  Text.isBlankText line = false ∧ ∃ bytes, body line = .ok bytes ∧ 126 < bytes.length

instance (line : List Char) : Decidable (IsTooLong line) :=
  match h : body line with
  | .ok bytes =>
    decidable_of_iff (Text.isBlankText line = false ∧ 126 < bytes.length) (by simp [IsTooLong, h])
  | .error _ => isFalse (by simp [IsTooLong, h])

/-- A line that is not too long is stored. -/
theorem exists_stores {line : List Char} (hdigits : digitCount line ≤ 500)
    (hblank : Text.isBlankText line = false) (h : ¬IsTooLong line) :
    ∃ bytes, Stores line bytes := by
  obtain ⟨bytes, hbody⟩ := exists_body hdigits
  exact ⟨bytes, hbody, Nat.le_of_not_lt fun hlong => h ⟨hblank, bytes, hbody, hlong⟩⟩

/-- A program without such a line is stored in one record for each line. -/
theorem exists_store {text : List Char} (hdigits : ∀ line ∈ Text.lines text, digitCount line ≤ 500)
    (h : ∀ line ∈ Text.lines text, ¬IsTooLong line) :
    ∃ code records, store text = .ok code ∧ split? code = some records ∧
      List.Forall₂ IsRecord ((Text.lines text).filter (!Text.isBlankText ·)) records := by
  have hstores : ∀ line ∈ (Text.lines text).filter (!Text.isBlankText ·),
      ∃ bytes, Stores line bytes ∧ IsRecord line (wrap bytes) := by
    intro line hline
    obtain ⟨hmem, hblank⟩ := List.mem_filter.1 hline
    rw [Bool.not_eq_true'] at hblank
    obtain ⟨bytes, hbytes⟩ := exists_stores (hdigits line hmem) hblank (h line hmem)
    exact ⟨bytes, hbytes, isRecord_wrap hblank hbytes⟩
  obtain ⟨bodies, hbodies⟩ := exists_forall₂ hstores
  have hrecords : ∀ record ∈ bodies.map wrap,
      record.head?.map UInt8.toNat = some record.length := by
    intro record hrecord
    obtain ⟨bytes, hbytes, rfl⟩ := List.mem_map.1 hrecord
    obtain ⟨line, -, -, hwrap⟩ := exists_mem_of_forall₂ hbodies bytes hbytes
    exact hwrap.length
  refine ⟨bodies.flatMap wrap, bodies.map wrap, ?_, ?_, ?_⟩
  · exact store_ok_iff.2 ⟨bodies, hbodies.imp fun _ _ h => h.1, rfl⟩
  · rw [List.flatMap_def, split?_flatten hrecords]
  · exact List.forall₂_map_right_iff.2 (hbodies.imp fun _ _ h => h.2)

/-- The first computation that fails gives the fault. -/
theorem mapM_append_error {α β ε : Type} {f : α → Except ε β} {before : List α}
    (hbefore : ∀ x ∈ before, ∃ y, f x = .ok y) {x : α} {fault : ε} (hx : f x = .error fault)
    (after : List α) : (before ++ x :: after).mapM f = .error fault := by
  induction before with
  | nil =>
    rw [List.nil_append, List.mapM_cons, hx]
    rfl
  | cons first before ih =>
    obtain ⟨⟨y, hy⟩, hbefore⟩ := List.forall_mem_cons.1 hbefore
    rw [List.cons_append, List.mapM_cons, hy, ih hbefore]
    rfl

/-- The rows of some lines that follow one another, the blank lines left out. -/
theorem numberedRows_append {text : List Char} {before after : List (List Char)} {line : List Char}
    (hlines : Text.lines text = before ++ line :: after) (hblank : Text.isBlankText line = false) :
    ∃ first more, numberedRows text = first ++ (before.length, line) :: more ∧
      ∀ p ∈ first, p.2 ∈ before ∧ Text.isBlankText p.2 = false := by
  refine ⟨(before.zipIdx.map fun p => (p.2, p.1)).filter (!Text.isBlankText ·.2),
    ((after.zipIdx (before.length + 1)).map fun p => (p.2, p.1)).filter (!Text.isBlankText ·.2),
    ?_, ?_⟩
  · rw [numberedRows, hlines, List.zipIdx_append, List.zipIdx_cons, List.map_append,
      List.filter_append, List.map_cons, List.filter_cons_of_pos (by simpa using hblank),
      Nat.zero_add]
  · intro p hp
    obtain ⟨hp, hblank⟩ := List.mem_filter.1 hp
    obtain ⟨⟨line, row⟩, hmem, rfl⟩ := List.mem_map.1 hp
    exact ⟨List.fst_mem_of_mem_zipIdx hmem, by simpa using hblank⟩

/-- A program is refused for the first line that is too long. -/
theorem store_of_tooLong {text : List Char} {before after : List (List Char)} {line : List Char}
    (hlines : Text.lines text = before ++ line :: after)
    (hdigits : ∀ line ∈ before, digitCount line ≤ 500) (hbefore : ∀ line ∈ before, ¬IsTooLong line)
    (hline : IsTooLong line) :
    ∃ number length, store text = .error (.tooLong before.length number length) := by
  obtain ⟨hblank, bytes, hbody, hlong⟩ := hline
  obtain ⟨first, more, hrows, hfirst⟩ := numberedRows_append hlines hblank
  refine ⟨bodyNumber bytes, bytes.length, ?_⟩
  have hfault : ofLine before.length line =
      .error (.tooLong before.length (bodyNumber bytes) bytes.length) := by
    rw [ofLine, hbody]
    exact if_pos hlong
  have hrecords : ∀ p ∈ first, ∃ r : Nat × List UInt8,
      (do return (p.1, ← ofLine p.1 p.2)) = Except.ok r := by
    intro p hp
    obtain ⟨hmem, hblank⟩ := hfirst p hp
    obtain ⟨bytes, hbytes⟩ := exists_stores (hdigits p.2 hmem) hblank (hbefore p.2 hmem)
    exact ⟨(p.1, wrap bytes), by rw [ofLine_ok_iff.2 ⟨bytes, hbytes, rfl⟩]; rfl⟩
  rw [store, ofProgram, hrows, mapM_append_error hrecords (by rw [hfault]; rfl)]
  rfl

theorem exists_first {lines : List (List Char)} (h : ∃ line ∈ lines, IsTooLong line) :
    ∃ before line after, lines = before ++ line :: after ∧ IsTooLong line ∧
      ∀ line ∈ before, ¬IsTooLong line := by
  obtain ⟨line, hmem, hline⟩ := h
  have hsome : (lines.find? fun line => decide (IsTooLong line)).isSome = true :=
    List.find?_isSome.2 ⟨line, hmem, decide_eq_true hline⟩
  obtain ⟨first, hfirst⟩ := Option.isSome_iff_exists.1 hsome
  obtain ⟨hlong, before, after, hlines, hbefore⟩ := List.find?_eq_some_iff_append.1 hfirst
  refine ⟨before, first, after, hlines, of_decide_eq_true hlong, fun line hmem => ?_⟩
  simpa using hbefore line hmem

/-- What is stored and what is refused. A text whose lines have no more than 500 digits each is
refused exactly if some line is too long, and the fault names the first such row. Any other text is
stored, and the length bytes cut it into one record for each line that is not blank. -/
theorem store_format (text : List Char)
    (hdigits : ∀ line ∈ Text.lines text, digitCount line ≤ 500) :
    ((∃ row number length, store text = .error (.tooLong row number length)) ↔
        ∃ line ∈ Text.lines text, IsTooLong line) ∧
      (∀ row number length, store text = .error (.tooLong row number length) →
        ∃ before line after, Text.lines text = before ++ line :: after ∧ row = before.length ∧
          IsTooLong line ∧ ∀ line ∈ before, ¬IsTooLong line) ∧
      ((∀ line ∈ Text.lines text, ¬IsTooLong line) →
        ∃ code records, store text = .ok code ∧ split? code = some records ∧
          List.Forall₂ IsRecord ((Text.lines text).filter (!Text.isBlankText ·)) records) := by
  have hrefused : (∃ line ∈ Text.lines text, IsTooLong line) →
      ∃ before line after, Text.lines text = before ++ line :: after ∧ IsTooLong line ∧
        (∀ line ∈ before, ¬IsTooLong line) ∧
        ∃ number length, store text = .error (.tooLong before.length number length) := by
    intro h
    obtain ⟨before, line, after, hlines, hline, hbefore⟩ := exists_first h
    refine ⟨before, line, after, hlines, hline, hbefore, store_of_tooLong hlines ?_ hbefore hline⟩
    intro line' hline'
    exact hdigits line' (by rw [hlines]; exact List.mem_append_left _ hline')
  have hstored := exists_store hdigits
  have hlong : (∃ row number length, store text = .error (.tooLong row number length)) →
      ∃ line ∈ Text.lines text, IsTooLong line := by
    rintro ⟨row, number, length, hstore⟩
    by_contra hnone
    obtain ⟨code, -, hcode, -⟩ := hstored fun line hmem hline => hnone ⟨line, hmem, hline⟩
    rw [hstore] at hcode
    cases hcode
  refine ⟨⟨hlong, fun h => ?_⟩, fun row number length hstore => ?_, hstored⟩
  · obtain ⟨before, -, -, -, -, -, number, length, hstore⟩ := hrefused h
    exact ⟨before.length, number, length, hstore⟩
  · obtain ⟨before, line, after, hlines, hline, hbefore, number', length', hstore'⟩ :=
      hrefused (hlong ⟨row, number, length, hstore⟩)
    rw [hstore] at hstore'
    cases hstore'
    exact ⟨before, line, after, hlines, rfl, hline, hbefore⟩

end IntegerBasic.Record
