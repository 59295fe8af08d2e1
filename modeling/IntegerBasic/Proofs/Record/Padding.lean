import IntegerBasic.Proofs.Grammar.LineSimulation
import IntegerBasic.Proofs.Grammar.ReplacedNumbers
import IntegerBasic.Record.Encoding

/-!
# Padding keeps the bytes

A line is stored by the leaves of its padded text. The padded text of a sound line has the leaves of
the line, one for one, and each is stored in the same bytes: zeros at the front of a number change
neither its value nor, where it is refused for its length, the number of its digits. So a sound
line is stored by its own leaves.
-/

namespace IntegerBasic

/-- A run of computations gives a result if each of them does. -/
theorem mapM_ok_iff {α β ε : Type} {f : α → Except ε β} {xs : List α} {ys : List β} :
    xs.mapM f = .ok ys ↔ List.Forall₂ (fun x y => f x = .ok y) xs ys := by
  induction xs generalizing ys with
  | nil =>
    rw [List.mapM_nil, List.forall₂_nil_left_iff]
    constructor
    · rintro ⟨⟩
      rfl
    · rintro rfl
      rfl
  | cons x xs ih =>
    rw [List.mapM_cons, List.forall₂_cons_left_iff]
    cases hx : f x with
    | error e =>
      constructor
      · rintro ⟨⟩
      · rintro ⟨y, ys, ⟨⟩, -⟩
    | ok y =>
      constructor
      · intro h
        cases hxs : xs.mapM f with
        | error e =>
          rw [hxs] at h
          cases h
        | ok ys =>
          rw [hxs] at h
          cases h
          exact ⟨y, ys, rfl, ih.1 hxs, rfl⟩
      · rintro ⟨_, ys, ⟨⟩, hys, rfl⟩
        rw [ih.2 hys]
        rfl

namespace Record

open Grammar Document Lexeme

structure SameBytes (l : Leaf) (text : List Char) : Prop where
  bytes : storeLeaf ⟨l.kind, text, l.span⟩ = storeLeaf l
  name : ∀ type, l.kind = .name type →
    folded (l.text.takeWhile Char.isAlphanum) = folded (text.takeWhile Char.isAlphanum)

theorem SameBytes.refl (l : Leaf) : SameBytes l l.text := ⟨rfl, fun _ _ => rfl⟩

theorem foldsNames_sameBytes : FoldsNames SameBytes := fun type _ _ _ h => h.name type rfl

/-- Leaves of the same kinds and bytes. -/
theorem storeLeaves_congr {L L' : List Leaf}
    (h : List.Forall₂ (fun l l' => l.kind = l'.kind ∧ SameBytes l l'.text) L L') :
    storeLeaves L = storeLeaves L' := by
  have hmapM : L.mapM storeLeaf = L'.mapM storeLeaf := by
    induction h with
    | nil => rfl
    | @cons l l' L L' hl _ ih =>
      have hbytes : storeLeaf l = storeLeaf l' := by
        rw [← hl.2.bytes, hl.1]
        rfl
      rw [List.mapM_cons, List.mapM_cons, hbytes, ih]
  rw [storeLeaves, hmapM, storeLeaves]

theorem drop_dropTail (p : Char → Bool) (s : List Char) :
    s.drop (Text.dropTail p s).length = (s.reverse.takeWhile p).reverse := by
  have hsplit : Text.dropTail p s ++ (s.reverse.takeWhile p).reverse = s := by
    rw [Text.dropTail, ← List.reverse_append, List.takeWhile_append_dropWhile, List.reverse_reverse]
  calc s.drop (Text.dropTail p s).length
      = (Text.dropTail p s ++ (s.reverse.takeWhile p).reverse).drop (Text.dropTail p s).length := by
        rw [hsplit]
    _ = (s.reverse.takeWhile p).reverse := List.drop_left

theorem isGap_of_space {c : Char} (h : c = ' ') : Text.isGap c = true := by
  rw [h]
  rfl

theorem eq_space_of_isGap {c : Char} (h : isDigitOrSpace c = true) (hgap : Text.isGap c = true) :
    c = ' ' := by
  simp only [Text.isGap, Bool.or_eq_true, beq_iff_eq] at hgap
  rcases hgap with rfl | rfl
  · rfl
  · cases h

/-- The padded text of a number behind gaps: the gaps, then what is left of them without spaces and
the digits, brought to three characters, and the spaces at the end. -/
theorem padNumber_parts {gaps text : List Char} (hgaps : ∀ c ∈ gaps, Text.isGap c = true)
    (htext : IsInteger text) :
    Text.withoutSpaces (gaps ++ text) = Text.withoutSpaces gaps ++ text.filter Char.isDigit ∧
      ∃ k, padNumber (gaps ++ text) =
        gaps ++ ((Text.withoutSpaces (gaps ++ text)).leftpad 3 '0' ++ List.replicate k ' ') := by
  obtain ⟨c, more, rfl, hc⟩ := htext.head
  have hgap : Text.isGap c = false := isGap_of_isDigit hc
  have htake : (gaps ++ c :: more).takeWhile Text.isGap = gaps := by
    rw [List.takeWhile_append_of_pos hgaps, List.takeWhile_cons_of_neg (by simp [hgap]),
      List.append_nil]
  have hdigits : Text.withoutSpaces (c :: more) = (c :: more).filter Char.isDigit := by
    refine List.filter_congr fun d hd => ?_
    have hd := htext.all d hd
    rw [isDigitOrSpace, Bool.or_eq_true] at hd
    rcases hd with hd | hd
    · rw [hd, bne_iff_ne]
      rintro rfl
      cases hd
    · rw [beq_iff_eq] at hd
      rw [hd]
      rfl
  -- the first digit keeps the gaps at the end apart from those before the number
  have hend : (gaps ++ c :: more).reverse.takeWhile Text.isGap =
      (c :: more).reverse.takeWhile Text.isGap := by
    rw [List.reverse_append, List.takeWhile_append, if_neg]
    intro hlength
    have hall := (List.takeWhile_prefix Text.isGap).eq_of_length hlength
    have hmem : c ∈ (c :: more).reverse.takeWhile Text.isGap := by rw [hall]; simp
    rw [List.all_eq_true.1 List.all_takeWhile c hmem] at hgap
    cases hgap
  have htail : ∀ d ∈ (gaps ++ c :: more).drop (Text.dropTail Text.isGap (gaps ++ c :: more)).length,
      d = ' ' := by
    intro d hd
    rw [drop_dropTail, hend, List.mem_reverse] at hd
    exact eq_space_of_isGap
      (htext.all d (List.mem_reverse.1 ((List.takeWhile_prefix _).subset hd)))
      (List.all_eq_true.1 List.all_takeWhile d hd)
  constructor
  · rw [Text.withoutSpaces, List.filter_append, ← Text.withoutSpaces, ← Text.withoutSpaces, hdigits]
  · obtain ⟨k, hk⟩ : ∃ k, (gaps ++ c :: more).drop
        (Text.dropTail Text.isGap (gaps ++ c :: more)).length = List.replicate k ' ' :=
      ⟨_, List.eq_replicate_of_mem htail⟩
    exact ⟨k, by rw [padNumber, htake, hk, List.append_assoc]⟩

/-- The padded text of a number: its digits with zeros before them, and spaces around. -/
theorem padNumber_eq {gaps text : List Char} (hgaps : ∀ c ∈ gaps, c = ' ')
    (htext : IsInteger text) :
    ∃ k, padNumber (gaps ++ text) =
      gaps ++ ((text.filter Char.isDigit).leftpad 3 '0' ++ List.replicate k ' ') := by
  obtain ⟨hdigits, k, hk⟩ := padNumber_parts (fun c hc => isGap_of_space (hgaps c hc)) htext
  have hspaces : Text.withoutSpaces gaps = [] :=
    List.filter_eq_nil_iff.2 fun d hd => by simp [hgaps d hd]
  exact ⟨k, by rw [hk, hdigits, hspaces, List.nil_append]⟩

theorem isInteger_leftpad {text : List Char} (h : IsInteger text) (n k : Nat) :
    IsInteger ((text.filter Char.isDigit).leftpad n '0' ++ List.replicate k ' ') := by
  have hdigit : ∀ c ∈ (text.filter Char.isDigit).leftpad n '0', c.isDigit = true := by
    intro c hc
    rcases List.mem_append.1 hc with hc | hc
    · rw [List.eq_of_mem_replicate hc]
      rfl
    · exact (List.mem_filter.1 hc).2
  constructor
  · have hne : (text.filter Char.isDigit).leftpad n '0' ≠ [] := by
      obtain ⟨c, more, rfl, hc⟩ := h.head
      exact List.append_ne_nil_of_right_ne_nil _
        (List.ne_nil_of_mem (List.mem_filter.2 ⟨List.mem_cons_self, hc⟩))
    obtain ⟨c, more, hcons⟩ := List.exists_cons_of_ne_nil hne
    rw [hcons] at hdigit ⊢
    exact ⟨c, more ++ List.replicate k ' ', rfl, hdigit c List.mem_cons_self⟩
  · intro c hc
    rcases List.mem_append.1 hc with hc | hc
    · simp [isDigitOrSpace, hdigit c hc]
    · simp [isDigitOrSpace, List.eq_of_mem_replicate hc]

theorem filter_replicate_space (k : Nat) : (List.replicate k ' ').filter Char.isDigit = [] :=
  List.filter_eq_nil_iff.2 fun c hc => by simp [List.eq_of_mem_replicate hc]

/-- The digits of a padded number. -/
theorem filter_padNumber {gaps text : List Char} (hgaps : ∀ c ∈ gaps, c = ' ')
    (htext : IsInteger text) :
    (padNumber (gaps ++ text)).filter Char.isDigit =
      ((gaps ++ text).filter Char.isDigit).leftpad 3 '0' := by
  obtain ⟨k, hk⟩ := padNumber_eq hgaps htext
  have hnone : gaps.filter Char.isDigit = [] :=
    List.filter_eq_nil_iff.2 fun c hc => by simp [hgaps c hc]
  have hzeros : ∀ n, (List.replicate n '0').filter Char.isDigit = List.replicate n '0' :=
    fun n => List.filter_eq_self.2 fun c hc => by simp [List.eq_of_mem_replicate hc]
  rw [hk, List.filter_append, List.filter_append, filter_replicate_space, List.append_nil, hnone,
    List.nil_append, List.filter_append, hnone, List.nil_append, List.leftpad, List.filter_append,
    hzeros, List.filter_filter]
  simp

/-- Zeros before a number do not change its value. -/
theorem digitsValue_of_leftpad {text text' : List Char}
    (h : text'.filter Char.isDigit = (text.filter Char.isDigit).leftpad 3 '0') :
    Numeral.digitsValue text' = Numeral.digitsValue text := by
  have hzeros : ∀ n (ds : List Nat),
      Numeral.valueOf (List.replicate n 0 ++ ds) = Numeral.valueOf ds := by
    intro n ds
    induction n with
    | zero => rfl
    | succ n ih =>
      rw [List.replicate_succ, List.cons_append, Numeral.valueOf, List.foldl_cons]
      exact ih
  rw [Numeral.digitsValue, h, List.leftpad, List.map_append, List.map_replicate]
  exact hzeros _ _

/-- Zeros before a number change neither its value nor how it is refused. -/
theorem readToken_congr {text text' : List Char}
    (h : text'.filter Char.isDigit = (text.filter Char.isDigit).leftpad 3 '0') :
    Numeral.readToken text' = Numeral.readToken text := by
  have hlength : (text'.filter Char.isDigit).length =
      max 3 (text.filter Char.isDigit).length := by
    rw [h, List.leftpad, List.length_append, List.length_replicate]
    omega
  have hlimit : Numeral.digitLimit = 4300 := rfl
  unfold Numeral.readToken
  dsimp only
  rw [digitsValue_of_leftpad h, hlength]
  by_cases hlong : Numeral.digitLimit < (text.filter Char.isDigit).length
  · rw [if_pos (by omega), if_pos hlong, Nat.max_eq_right (by omega)]
  · rw [if_neg (by omega), if_neg hlong]

/-- A padded number is stored in the same bytes. -/
theorem sameBytes_padNumber {l : Leaf} (hkind : l.kind.isNumber = true) {gaps text : List Char}
    (hl : l.text = gaps ++ text) (hgaps : ∀ c ∈ gaps, c = ' ') (htext : IsInteger text) :
    SameBytes l (padNumber l.text) := by
  obtain ⟨kind, number, span⟩ := l
  obtain rfl : number = gaps ++ text := hl
  have hread := readToken_congr (filter_padNumber hgaps htext)
  cases kind with
  | lineNumber => exact ⟨by simp only [storeLeaf, hread], by simp⟩
  | lineArgument => exact ⟨by simp only [storeLeaf, hread], by simp⟩
  | integer => exact ⟨by simp only [storeLeaf, hread], by simp⟩
  | _ => cases hkind

def padded (l : Leaf) : Option (List Char) :=
  if l.kind = .integer ∨ l.kind = .lineArgument then some (padNumber l.text) else none

theorem isInteger_padNumber {text : List Char} (h : IsInteger text) :
    IsInteger (padNumber text) := by
  obtain ⟨k, hk⟩ := @padNumber_eq [] text (by simp) h
  rw [List.nil_append, List.nil_append] at hk
  rw [hk]
  exact isInteger_leftpad h 3 k

theorem replacesNumbers_padded : ReplacesNumbers padded := by
  constructor
  · intro l hne
    by_contra hkind
    exact hne (if_neg hkind)
  · intro l text h hl
    unfold padded at h
    split at h <;> cases h
    exact isInteger_padNumber hl

/-- Changes that are spliced in one by one, from the last to the first, patch the text. -/
theorem foldr_splice (cs : List Change) (before s : List Char)
    (h : Fits before.length (before.length + s.length) cs) :
    cs.foldr (fun c line => splice line c.start c.stop c.new) (before ++ s) =
      before ++ patch before.length s cs := by
  induction cs generalizing before s with
  | nil => rfl
  | cons c cs ih =>
    obtain ⟨hstart, hstop, hrest⟩ := h
    have hle := hrest.le
    generalize hcut : c.stop - before.length = cut
    have hlength : (before ++ s.take cut).length = c.stop := by
      rw [List.length_append, List.length_take]
      omega
    have hsplit : before ++ s = (before ++ s.take cut) ++ s.drop cut := by
      rw [List.append_assoc, List.take_append_drop]
    have hend : c.stop + (s.drop cut).length = before.length + s.length := by
      rw [List.length_drop]
      omega
    have hmore := ih (before ++ s.take cut) (s.drop cut) (by rwa [hlength, hend])
    rw [hlength] at hmore
    rw [List.foldr_cons, hsplit, hmore, splice, patch, hcut]
    have htake : (before ++ s.take cut ++ patch c.stop (s.drop cut) cs).take c.start =
        before ++ s.take (c.start - before.length) := by
      rw [List.append_assoc, List.take_append, List.take_of_length_le hstart,
        List.take_append_of_le_length (by rw [List.length_take]; omega), List.take_take,
        Nat.min_eq_left (by omega)]
    have hdrop : (before ++ s.take cut ++ patch c.stop (s.drop cut) cs).drop c.stop =
        patch c.stop (s.drop cut) cs := by
      rw [← hlength]
      exact List.drop_left
    rw [htake, hdrop]
    simp only [List.append_assoc]

theorem Takes.ne_lineNumber {kind : LeafKind} {s text rest : List Char}
    (h : Takes kind s text rest) : kind ≠ .lineNumber := by
  cases h with
  | reads h => cases h <;> simp
  | pointer => simp
  | colon => simp

theorem ne_lineNumber_of_written {q : Bool} {i : Input} {L : List Leaf} (h : Written q i L) :
    ∀ l ∈ L, l.kind ≠ .lineNumber := by
  induction h with
  | done => simp
  | leaf takes _ _ _ ih => exact List.forall_mem_cons.2 ⟨Takes.ne_lineNumber takes, ih⟩
  | bareRemark => simp [Input.leafOf]
  | remark => simp [Input.leafOf]

/-- A leaf behind the number of a line is stored in the same bytes when it is padded. -/
theorem sameBytes_padded {q : Bool} {i : Input} {L : List Leaf} (h : Written q i L) :
    ∀ l ∈ L, SameBytes l (newText padded l) := by
  have hleaf : ∀ {i : Input} {kind : LeafKind} {text rest : List Char},
      Takes kind i.skip.rest text rest → SameBytes (i.skip.leafOf kind text)
        (newText padded (i.skip.leafOf kind text)) := by
    intro i kind text rest takes
    by_cases hkind : kind = .integer ∨ kind = .lineArgument
    · have hnumber : kind.isNumber = true := by rcases hkind with rfl | rfl <;> rfl
      rw [newText_of_some (if_pos hkind)]
      exact @sameBytes_padNumber (i.skip.leafOf kind text) hnumber [] text rfl (by simp)
        (integer_some (takes.integer hkind)).2.1
    · rw [newText_of_none (if_neg hkind)]
      exact .refl _
  have hsame : ∀ {l : Leaf}, l.kind ≠ .integer → l.kind ≠ .lineArgument →
      SameBytes l (newText padded l) := by
    intro l hinteger hargument
    rw [newText_of_none (replacesNumbers_padded.eq_none hinteger hargument)]
    exact .refl _
  induction h with
  | done => simp
  | leaf takes _ _ _ ih => exact List.forall_mem_cons.2 ⟨hleaf takes, ih⟩
  | bareRemark =>
    refine List.forall_mem_singleton.2 (hsame ?_ ?_) <;> simp [Input.leafOf]
  | remark =>
    refine List.forall_mem_cons.2 ⟨hsame ?_ ?_, List.forall_mem_singleton.2 (hsame ?_ ?_)⟩ <;>
      simp [Input.leafOf]

theorem foldr_numbers {L : List Leaf} (h : ∀ l ∈ L, l.kind ≠ .lineNumber) (s : List Char) :
    (L.filter (·.kind.isNumber)).foldr
        (fun l line => splice line l.span.start.col l.span.stop.col (padNumber l.text)) s =
      (replacements padded L).foldr (fun c line => splice line c.start c.stop c.new) s := by
  induction L with
  | nil => rfl
  | cons l L ih =>
    have hmore := ih fun l' hl' => h l' (List.mem_cons_of_mem _ hl')
    by_cases hkind : l.kind = .integer ∨ l.kind = .lineArgument
    · have hnumber : l.kind.isNumber = true := by rcases hkind with hl | hl <;> rw [hl] <;> rfl
      rw [List.filter_cons, if_pos hnumber, replacements_cons_of_some (if_pos hkind),
        List.foldr_cons, List.foldr_cons, hmore]
      rfl
    · have hnumber : l.kind.isNumber = false := by
        have hline := h l List.mem_cons_self
        cases hl : l.kind <;> simp_all [LeafKind.isNumber]
      rw [List.filter_cons_of_neg (by simp [hnumber]), replacements_cons_of_none (if_neg hkind),
        hmore]

/-- A line is padded number by number. -/
theorem padNumbers_eq {s number rest : List Char} (hs : lineNumber s = some (number, rest))
    (sound : (line 0 s).hasError = false) :
    padNumbers s = padNumber number ++ patch number.length rest
      (replacements padded (Node.leavesOf (statements (Input.after ⟨0, 0, s⟩ number rest)))) := by
  have hwritten := written_line hs sound
  have hfits := (realigned_of_written replacesNumbers_padded hwritten).fits
  rw [padNumbers, padEach, numbers, leaves_line hs, List.filter_cons_of_pos rfl, List.foldr_cons,
    foldr_numbers (ne_lineNumber_of_written hwritten)]
  generalize replacements padded _ = cs at hfits ⊢
  rw [show (Input.after ⟨0, 0, s⟩ number rest).col = number.length from Nat.zero_add _] at hfits
  have hsplice := foldr_splice cs number rest hfits
  rw [append_of_lineNumber hs] at hsplice
  rw [hsplice, splice]
  simp [Input.leafOf, Input.point]

/-- The padded text of a sound line has the tree of the line, if its own number is padded to a number
and all numbers match what they are padded to. -/
theorem similar_padNumbers {M : Match} (hM : FoldsNames M) {s number rest gaps text : List Char}
    (hs : lineNumber s = some (number, rest)) (sound : (line 0 s).hasError = false)
    (hgaps : ∀ c ∈ gaps, Text.isGap c = true) (htext : IsInteger text)
    (hpadded : padNumber number = gaps ++ text)
    (hnumber : M ⟨.lineNumber, number, ⟨⟨0, 0⟩, ⟨0, number.length⟩⟩⟩ (padNumber number))
    (hlater : ∀ l ∈ Node.leavesOf (statements (Input.after ⟨0, 0, s⟩ number rest)),
      M l (newText padded l)) (row : Int) :
    (∃ rest', lineNumber (padNumbers s) = some (padNumber number, rest')) ∧
      Similar M (line 0 s).children (line row (padNumbers s)).children := by
  obtain ⟨-, -, -, -, -, hends, -⟩ := lineNumber_some hs
  have hwritten := written_line hs sound
  have hpad := padNumbers_eq hs sound
  have hrealigned := realigned_of_written replacesNumbers_padded hwritten
  have haligned : Aligned M _ _ _ := hrealigned.aligned.mono fun l hl text htext => by
    rw [show text = newText padded l from htext]
    exact hlater l hl
  have hends' := hrealigned.agree.endsNumber hends
  have hcol : (Input.after ⟨0, 0, s⟩ number rest).col = number.length := Nat.zero_add _
  have hrest : (Input.after ⟨0, 0, s⟩ number rest).rest = rest := rfl
  rw [hcol, hrest] at haligned hends'
  have hs' := lineNumber_append hgaps htext hends'
  rw [← List.append_assoc, ← hpadded, ← hpad] at hs'
  exact ⟨⟨_, hs'⟩, similar_line hM hs hs' hnumber haligned⟩

/-- A sound line is stored by its own leaves if its own number is padded to a number of the same
value. -/
theorem body_eq_of_padNumber {s number rest gaps text : List Char}
    (hs : lineNumber s = some (number, rest)) (sound : (line 0 s).hasError = false)
    (hgaps : ∀ c ∈ gaps, Text.isGap c = true) (htext : IsInteger text)
    (hpadded : padNumber number = gaps ++ text)
    (hread : Numeral.readToken (padNumber number) = Numeral.readToken number) :
    body s = storeLeaves (line 0 s).leaves := by
  have hnumber : SameBytes ⟨.lineNumber, number, ⟨⟨0, 0⟩, ⟨0, number.length⟩⟩⟩
      (padNumber number) := ⟨by simp only [storeLeaf, hread], by simp⟩
  obtain ⟨-, hsimilar⟩ := similar_padNumbers foldsNames_sameBytes hs sound hgaps htext hpadded
    hnumber (sameBytes_padded (written_line hs sound)) 0
  exact (storeLeaves_congr hsimilar.leaves).symm

/-- Padding does not part a line number from the tabs before it: if there are any, the number and
the tabs come to three characters. One digit behind a single tab does not. -/
def KeepsNumber (number : List Char) : Prop :=
  '\t' ∈ number → 3 ≤ (Text.withoutSpaces number).length

instance (number : List Char) : Decidable (KeepsNumber number) :=
  inferInstanceAs (Decidable (_ → _))

theorem filter_isDigit_of_gaps {gaps : List Char} (hgaps : ∀ c ∈ gaps, Text.isGap c = true) :
    gaps.filter Char.isDigit = [] := by
  refine List.filter_eq_nil_iff.2 fun c hc hdigit => ?_
  have hgap := isGap_of_isDigit hdigit
  rw [hgaps c hc] at hgap
  cases hgap

/-- What padding keeps is a number of the same value behind gaps. -/
theorem exists_padNumber {gaps text : List Char} (hgaps : ∀ c ∈ gaps, Text.isGap c = true)
    (htext : IsInteger text) (hkeeps : KeepsNumber (gaps ++ text)) :
    ∃ gaps' text', padNumber (gaps ++ text) = gaps' ++ text' ∧
      (∀ c ∈ gaps', Text.isGap c = true) ∧ IsInteger text' ∧
      Numeral.readToken (padNumber (gaps ++ text)) = Numeral.readToken (gaps ++ text) := by
  by_cases htab : '\t' ∈ gaps
  · obtain ⟨hdigits, k, hk⟩ := padNumber_parts hgaps htext
    have hlong := hkeeps (List.mem_append_left _ htab)
    rw [List.leftpad, Nat.sub_eq_zero_of_le hlong, hdigits] at hk
    have hpadded : padNumber (gaps ++ text) = (gaps ++ Text.withoutSpaces gaps) ++
        ((text.filter Char.isDigit).leftpad 0 '0' ++ List.replicate k ' ') := by
      rw [hk, List.leftpad]
      simp
    have hnone : ∀ c ∈ gaps ++ Text.withoutSpaces gaps, Text.isGap c = true :=
      List.forall_mem_append.2 ⟨hgaps, fun c hc => hgaps c (List.mem_filter.1 hc).1⟩
    have hsame : (padNumber (gaps ++ text)).filter Char.isDigit =
        (gaps ++ text).filter Char.isDigit := by
      rw [hpadded, List.filter_append, filter_isDigit_of_gaps hnone, List.filter_append,
        filter_replicate_space, List.filter_append, filter_isDigit_of_gaps hgaps]
      simp [List.leftpad]
    refine ⟨_, _, hpadded, hnone, isInteger_leftpad htext 0 k, ?_⟩
    rw [Numeral.readToken, Numeral.readToken, Numeral.digitsValue, hsame, Numeral.digitsValue]
  · have hspaces : ∀ c ∈ gaps, c = ' ' := by
      intro c hc
      have hgap := hgaps c hc
      simp only [Text.isGap, Bool.or_eq_true, beq_iff_eq] at hgap
      refine hgap.resolve_right ?_
      rintro rfl
      exact htab hc
    obtain ⟨k, hk⟩ := padNumber_eq hspaces htext
    exact ⟨gaps, _, hk, hgaps, isInteger_leftpad htext 3 k,
      readToken_congr (filter_padNumber hspaces htext)⟩

/-- A sound line is stored by its own leaves if padding keeps its number. -/
theorem body_eq_of_keepsNumber {s number rest : List Char}
    (hs : lineNumber s = some (number, rest)) (hkeeps : KeepsNumber number)
    (sound : (line 0 s).hasError = false) : body s = storeLeaves (line 0 s).leaves := by
  obtain ⟨gaps, text, rfl, hgaps, htext, -, -⟩ := lineNumber_some hs
  obtain ⟨gaps', text', hpadded, hgaps', htext', hread⟩ := exists_padNumber hgaps htext hkeeps
  exact body_eq_of_padNumber hs sound hgaps' htext' hpadded hread

/-- A sound line without tabs before its number is stored by its own leaves. -/
theorem body_eq {s : List Char} (htab : '\t' ∉ s.takeWhile Text.isGap)
    (sound : (line 0 s).hasError = false) :
    body s = storeLeaves (line 0 s).leaves := by
  obtain ⟨number, rest, hs⟩ := exists_lineNumber sound
  obtain ⟨gaps, text, rfl, hgaps, htext, -, hsplit⟩ := lineNumber_some hs
  refine body_eq_of_keepsNumber hs (fun hmem => absurd ?_ htab) sound
  rcases List.mem_append.1 hmem with hmem | hmem
  · rw [hsplit, List.append_assoc, List.takeWhile_append_of_pos hgaps]
    exact List.mem_append_left _ hmem
  · cases htext.all _ hmem

end Record

end IntegerBasic
