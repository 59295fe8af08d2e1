import IntegerBasic.Proofs.Grammar.MovedLines
import IntegerBasic.Proofs.Record.Escapes

/-!
# Letter case is not stored

All that is stored of a text is stored in upper case, but for the escapes in strings and remarks,
which have a small `x`. So a program and the program in upper case are stored alike if and only if
no string and no remark holds an escape once the numbers are padded. A text without an escape holds
none then either, unless a broken `HIMEM:` or `LOMEM:` gets its numbers padded elsewhere.
-/

namespace IntegerBasic.Record

open Grammar Lexeme

section CaseChange

variable {f : Char → Char} (hf : CaseChange f)
include hf

theorem withoutSpaces_map (text : List Char) :
    Text.withoutSpaces (text.map f) = (Text.withoutSpaces text).map f := by
  rw [Text.withoutSpaces, List.filter_map, Text.withoutSpaces]
  congr 2
  funext c
  rw [Function.comp_apply, bne, bne, hf.beq_mark rfl]

theorem padNumber_map (text : List Char) : padNumber (text.map f) = (padNumber text).map f := by
  have htail : (Text.dropTail Text.isGap (text.map f)).length =
      (Text.dropTail Text.isGap text).length := by
    rw [Text.dropTail, ← List.map_reverse, CaseChange.dropWhile_map hf.isGap, List.length_reverse,
      List.length_map, Text.dropTail, List.length_reverse]
  have hpad : ∀ s : List Char, (s.map f).leftpad 3 '0' = (s.leftpad 3 '0').map f := fun s => by
    rw [List.leftpad, List.leftpad, List.length_map, List.map_append, List.map_replicate,
      hf.other '0' rfl]
  rw [padNumber, padNumber, htail, withoutSpaces_map hf, CaseChange.takeWhile_map hf.isGap, hpad,
    ← List.map_drop, List.map_append, List.map_append]

omit hf in
theorem splice_map (line new : List Char) (start stop : Nat) :
    splice (line.map f) start stop (new.map f) = (splice line start stop new).map f := by
  simp [splice, List.map_take, List.map_drop]

/-- A line in another case is padded in the same places. -/
theorem padNumbers_map (s : List Char) : padNumbers (s.map f) = (padNumbers s).map f := by
  have hnumbers : numbers (line 0 (s.map f)) = (numbers (line 0 s)).map (Leaf.move f 0) := by
    rw [numbers, line_map hf, Node.leaves_move, List.filter_map]
    rfl
  rw [padNumbers, padEach, hnumbers, List.foldr_map, padNumbers, padEach]
  generalize numbers (line 0 s) = leaves
  induction leaves with
  | nil => rfl
  | cons l leaves ih =>
    rw [List.foldr_cons, List.foldr_cons, ih]
    show splice _ _ _ (padNumber (l.text.map f)) = _
    rw [padNumber_map hf, splice_map]
    rfl

/-- The leaves of a padded line in another case. -/
theorem body_map (s : List Char) : body (s.map f) =
    storeLeaves ((line 0 (padNumbers s)).leaves.map (Leaf.move f 0)) := by
  rw [body, padNumbers_map hf, line_map hf, Node.leaves_move]

end CaseChange

theorem toUpper_ne_x (c : Char) : c.toUpper ≠ 'x' := by
  intro hx
  have hletter : c.isAlpha = true := by
    rw [← caseChange_toUpper.isAlpha, hx]
    rfl
  exact Text.ascii_induction (P := fun c => c.toUpper ≠ 'x') (by decide +kernel)
    (Text.toNat_lt_of_isAlphanum (by simp [Char.isAlphanum, hletter])) hx

/-- Text in upper case has the same upper case. -/
theorem upper_map_toUpper (s : List Char) : Text.upper (s.map Char.toUpper) = Text.upper s := by
  have hchar : ∀ c : Char, Text.upperChar c.toUpper = Text.upperChar c := by
    intro c
    cases hletter : c.isAlpha with
    | true =>
      exact Text.ascii_induction (P := fun c => Text.upperChar c.toUpper = Text.upperChar c)
        (by decide +kernel) (Text.toNat_lt_of_isAlphanum (by simp [Char.isAlphanum, hletter]))
    | false => rw [caseChange_toUpper.other c hletter]
  rw [Text.upper, List.flatMap_map, Text.upper]
  exact List.flatMap_congr fun c _ => hchar c

theorem upper_withoutBlanks (s : List Char) :
    Text.upper ((s.map Char.toUpper).filter (!Text.isBlank ·)) =
      Text.upper (s.filter (!Text.isBlank ·)) := by
  have hblank : (fun c => !Text.isBlank c) ∘ Char.toUpper = fun c => !Text.isBlank c :=
    funext fun c => congrArg Bool.not (caseChange_toUpper.isBlank c)
  rw [List.filter_map, hblank, upper_map_toUpper]

theorem readToken_toUpper (s : List Char) :
    Numeral.readToken (s.map Char.toUpper) = Numeral.readToken s := by
  have hdigits : (s.map Char.toUpper).filter Char.isDigit = s.filter Char.isDigit := by
    have hdigit : Char.isDigit ∘ Char.toUpper = Char.isDigit := funext caseChange_toUpper.isDigit
    rw [List.filter_map, hdigit]
    refine (List.map_congr_left fun c hc => ?_).trans (List.map_id _)
    exact caseChange_toUpper.of_isDigit (List.mem_filter.1 hc).2
  rw [Numeral.readToken, Numeral.readToken, Numeral.digitsValue, Numeral.digitsValue, hdigits]

/-- There is no escape in upper case: text is stored as it is. -/
theorem storeText_toUpper (s : List Char) : storeText (s.map Char.toUpper) = storeChars s := by
  induction s with
  | nil => rfl
  | cons c s ih =>
    rw [List.map_cons, storeChars_cons]
    by_cases hc : c = '\\'
    · subst hc
      have hhead : (s.map Char.toUpper).head? ≠ some 'x' := by
        cases s with
        | nil => simp
        | cons d s => simpa using toUpper_ne_x d
      rw [show '\\'.toUpper = '\\' from rfl, storeText_backslash hhead, ih]
      rfl
    · have hne : c.toUpper ≠ '\\' := fun h => hc ((caseChange_toUpper.eq_mark rfl c).1 h)
      have hchar : storeChars [c.toUpper] = storeChars [c] :=
        congrArg (List.map highByte) (upper_map_toUpper [c])
      rw [storeText_cons hne, ih, hchar]

/-- A leaf without an escape is stored alike in upper case, and every escape makes it shorter than
it is in upper case. -/
theorem storeLeaf_toUpper (l : Leaf) :
    hasEscape (escapable l) = false ∧ storeLeaf (l.move Char.toUpper 0) = storeLeaf l ∨
      hasEscape (escapable l) = true ∧ ∃ bytes bytes', storeLeaf l = .ok bytes ∧
        storeLeaf (l.move Char.toUpper 0) = .ok bytes' ∧ bytes.length < bytes'.length := by
  obtain ⟨kind, text, span⟩ := l
  cases kind with
  | lineNumber =>
    refine .inl ⟨rfl, ?_⟩
    simp only [storeLeaf, Leaf.move, readToken_toUpper]
  | lineArgument =>
    refine .inl ⟨rfl, ?_⟩
    simp only [storeLeaf, Leaf.move, readToken_toUpper]
  | integer =>
    refine .inl ⟨rfl, ?_⟩
    simp only [storeLeaf, Leaf.move, readToken_toUpper]
  | token t => exact .inl ⟨rfl, rfl⟩
  | name type =>
    refine .inl ⟨rfl, ?_⟩
    simp only [storeLeaf, Leaf.move, storeName, upper_withoutBlanks]
  | string =>
    rcases storeText_or_shorter text.tail.dropLast with ⟨hplain, hstore⟩ | ⟨hescape, hlength⟩
    · refine .inl ⟨hplain, ?_⟩
      simp only [storeLeaf, Leaf.move, ← List.map_tail, ← List.map_dropLast, storeText_toUpper,
        hstore]
    · refine .inr ⟨hescape, _, _, rfl, rfl, ?_⟩
      simp only [Leaf.move, ← List.map_tail, ← List.map_dropLast, storeText_toUpper]
      simpa using hlength
  | comment =>
    rcases storeText_or_shorter text with ⟨hplain, hstore⟩ | ⟨hescape, hlength⟩
    · refine .inl ⟨hplain, ?_⟩
      simp only [storeLeaf, Leaf.move, storeText_toUpper, hstore]
    · refine .inr ⟨hescape, _, _, rfl, rfl, ?_⟩
      simpa only [Leaf.move, storeText_toUpper] using hlength
  | error complaint =>
    refine .inl ⟨rfl, ?_⟩
    simp only [storeLeaf, Leaf.move, storeRaw, upper_withoutBlanks]

/-- No string and no remark of the line holds an escape once its numbers are padded. -/
def NoEscapes (s : List Char) : Prop :=
  ∀ l ∈ (line 0 (padNumbers s)).leaves, hasEscape (escapable l) = false

instance (s : List Char) : Decidable (NoEscapes s) :=
  inferInstanceAs (Decidable (∀ l ∈ (line 0 (padNumbers s)).leaves, _))

theorem storeLeaves_toUpper {leaves : List Leaf}
    (h : ∀ l ∈ leaves, hasEscape (escapable l) = false) :
    storeLeaves (leaves.map (Leaf.move Char.toUpper 0)) = storeLeaves leaves := by
  have hmapM : (leaves.map (Leaf.move Char.toUpper 0)).mapM storeLeaf = leaves.mapM storeLeaf := by
    induction leaves with
    | nil => rfl
    | cons l leaves ih =>
      obtain ⟨hl, h⟩ := List.forall_mem_cons.1 h
      rcases storeLeaf_toUpper l with ⟨-, hsame⟩ | ⟨hescape, -⟩
      · rw [List.map_cons, List.mapM_cons, List.mapM_cons, hsame, ih h]
      · rw [hl] at hescape
        cases hescape
  rw [storeLeaves, hmapM, storeLeaves]

/-- Leaves are never longer than in upper case, and as long only without an escape. -/
theorem length_storeLeaves_toUpper {leaves : List Leaf} {bytes bytes' : List UInt8}
    (h : storeLeaves leaves = .ok bytes)
    (h' : storeLeaves (leaves.map (Leaf.move Char.toUpper 0)) = .ok bytes') :
    bytes.length ≤ bytes'.length ∧
      (bytes.length = bytes'.length → ∀ l ∈ leaves, hasEscape (escapable l) = false) := by
  induction leaves generalizing bytes bytes' with
  | nil =>
    rw [storeLeaves_nil h, storeLeaves_nil h']
    simp
  | cons l leaves ih =>
    obtain ⟨first, more, hfirst, hmore, rfl⟩ := storeLeaves_cons h
    obtain ⟨first', more', hfirst', hmore', rfl⟩ := storeLeaves_cons h'
    obtain ⟨hle, hall⟩ := ih hmore hmore'
    rw [List.length_append, List.length_append, List.forall_mem_cons]
    rcases storeLeaf_toUpper l with ⟨hplain, hsame⟩ | ⟨-, _, _, hbytes, hbytes', hlt⟩
    · rw [hfirst', hfirst] at hsame
      cases hsame
      exact ⟨by omega, fun heq => ⟨hplain, hall (by omega)⟩⟩
    · rw [hfirst] at hbytes
      rw [hfirst'] at hbytes'
      cases hbytes
      cases hbytes'
      exact ⟨by omega, fun heq => by omega⟩

/-- A line without escapes has the same record in upper case, or is too long in the same way. -/
theorem ofLine_toUpper {s : List Char} (h : NoEscapes s) (row : Int) :
    ofLine row (s.map Char.toUpper) = ofLine row s := by
  have hbody : body (s.map Char.toUpper) = body s := by
    rw [body_map caseChange_toUpper, storeLeaves_toUpper h, body]
  rw [ofLine, hbody, ofLine]

theorem store_toUpper {text : List Char} (h : ∀ entry ∈ numberedRows text, NoEscapes entry.2) :
    store (text.map Char.toUpper) = store text := by
  have hprogram : ofProgram (text.map Char.toUpper) = ofProgram text := by
    rw [ofProgram, numberedRows_map caseChange_toUpper, ofProgram]
    generalize numberedRows text = rows at h
    induction rows with
    | nil => rfl
    | cons entry rows ih =>
      obtain ⟨hentry, h⟩ := List.forall_mem_cons.1 h
      rw [List.map_cons, List.mapM_cons, List.mapM_cons, ih h]
      dsimp only
      rw [ofLine_toUpper hentry]
  rw [store, hprogram, store]

/-- The records of some lines are never longer than in upper case, and as long only without
escapes. -/
theorem length_records_toUpper {lines : List (List Char)} {bodies bodies' : List (List UInt8)}
    (h : List.Forall₂ Stores lines bodies)
    (h' : List.Forall₂ Stores (lines.map (List.map Char.toUpper)) bodies') :
    (bodies.flatMap wrap).length ≤ (bodies'.flatMap wrap).length ∧
      ((bodies.flatMap wrap).length = (bodies'.flatMap wrap).length →
        ∀ s ∈ lines, NoEscapes s) := by
  have hwrap : ∀ bytes : List UInt8, (wrap bytes).length = bytes.length + 2 := fun bytes => by
    simp [wrap]
  induction h generalizing bodies' with
  | nil =>
    cases h'
    simp
  | @cons s bytes lines bodies hs _ ih =>
    rw [List.map_cons] at h'
    obtain ⟨bytes', bodies', hs', hmore', rfl⟩ := List.forall₂_cons_left_iff.1 h'
    obtain ⟨hle, hall⟩ := ih hmore'
    have hbody : storeLeaves _ = .ok bytes' := (body_map caseChange_toUpper s).symm.trans hs'.1
    obtain ⟨hle', hall'⟩ := length_storeLeaves_toUpper hs.1 hbody
    rw [List.flatMap_cons, List.flatMap_cons, List.length_append, List.length_append, hwrap, hwrap,
      List.forall_mem_cons]
    exact ⟨by omega, fun heq => ⟨hall' (by omega), hall (by omega)⟩⟩

/-- A program that is stored in the same bytes in upper case has no escapes. -/
theorem noEscapes_of_store {text : List Char} {code : List UInt8} (h : store text = .ok code)
    (h' : store (text.map Char.toUpper) = .ok code) :
    ∀ entry ∈ numberedRows text, NoEscapes entry.2 := by
  obtain ⟨bodies, hbodies, rfl⟩ := store_ok_iff.1 h
  obtain ⟨bodies', hbodies', hcode⟩ := store_ok_iff.1 h'
  rw [← map_numberedRows] at hbodies hbodies'
  rw [numberedRows_map caseChange_toUpper, List.map_map] at hbodies'
  have hlines : (numberedRows text).map (fun entry => entry.2.map Char.toUpper) =
      ((numberedRows text).map (·.2)).map (List.map Char.toUpper) := by
    rw [List.map_map]
    rfl
  have hall := (length_records_toUpper hbodies (hlines ▸ hbodies')).2 (congrArg List.length hcode)
  exact fun entry hentry => hall _ (List.mem_map_of_mem hentry)

/-- A text without an escape has none once the numbers are padded, unless a pointer is broken. -/
theorem noEscapes_of_hasEscape {s : List Char} (hs : hasEscape s = false)
    (hpointer : (line 0 s).hasBrokenPointer = false) : NoEscapes s := by
  intro l hl
  have hpart := (escapable_part l).trans (partsOf_line 0 (padNumbers s) l hl)
  exact hasEscape_part hpart (hasEscape_padNumbers hs hpointer)

/-- A text of ASCII without an escape is stored as it is in upper case, with its errors, or is
refused for the same line. All that can make a difference is a broken `HIMEM:` or `LOMEM:`, where
the numbers are padded elsewhere and may make an escape; if one is made and the program is stored,
it is not stored in the same bytes. -/
theorem store_upper {text : List Char} (hascii : ∀ c ∈ text, c.toNat < 128)
    (hplain : hasEscape text = false) :
    ((∀ entry ∈ numberedRows text, (line 0 entry.2).hasBrokenPointer = true → NoEscapes entry.2) →
      store (Text.upper text) = store text) ∧
    ∀ code, store text = .ok code → store (Text.upper text) = .ok code →
      ∀ entry ∈ numberedRows text, NoEscapes entry.2 := by
  rw [Text.upper_of_ascii hascii]
  refine ⟨fun hbroken => store_toUpper fun entry hentry => ?_, fun code => noEscapes_of_store⟩
  cases hpointer : (line 0 entry.2).hasBrokenPointer with
  | true => exact hbroken entry hentry hpointer
  | false =>
    have hline : entry.2 ∈ Text.lines text := by
      have hmem := List.mem_map_of_mem (f := (·.2)) hentry
      rw [map_numberedRows] at hmem
      exact (List.mem_filter.1 hmem).1
    exact noEscapes_of_hasEscape (hasEscape_part (Text.part_of_mem_lines hline) hplain) hpointer

/-- Two broken lines, one of them with a pointer, and a remark that only looks like an escape. -/
theorem store_upper_broken :
    let text := "10 himem:5 x: print \"a\\x\"\n20 if a then print i;:let\n30 rem \\xg0".toList
    (numberedRows text).map (fun entry => (line 0 entry.2).hasBrokenPointer) =
        [true, false, false] ∧
      (∀ c ∈ text, c.toNat < 128) ∧ hasEscape text = false ∧
      (∀ entry ∈ numberedRows text,
        (line 0 entry.2).hasBrokenPointer = true → NoEscapes entry.2) ∧
      store (Text.upper text) = store text := by
  intro text
  have hascii : ∀ c ∈ text, c.toNat < 128 := by decide +kernel
  have hplain : hasEscape text = false := by decide +kernel
  have hbroken : ∀ entry ∈ numberedRows text,
      (line 0 entry.2).hasBrokenPointer = true → NoEscapes entry.2 := by decide +kernel
  exact ⟨by decide +kernel, hascii, hplain, hbroken, (store_upper hascii hplain).1 hbroken⟩

-- behind the broken pointer the number 7 is padded where the string stood, and `\x00` comes about
example :
    let text := "10 HIMEM:CALL+5+\"\\x\"+7+\"A\" ?".toList
    hasEscape text = false ∧ (line 0 text).hasBrokenPointer = true ∧
      store (Text.upper text) ≠ store text := by decide +kernel

end IntegerBasic.Record
