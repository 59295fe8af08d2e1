import Mathlib.Data.List.TakeWhile
import IntegerBasic.Proofs.Memory.Placement

/-!
# Images that are cut off

An image of which only the first bytes are left is listed as far as its records are whole. A record
that is whole is listed as before, since the only look beyond a line, the one behind a backslash,
makes no difference. A record that is cut off has lost its end of line, and whatever is read of it
reaches the end of the bytes.
-/

namespace IntegerBasic.Record

variable {escapes : List Int}

theorem snd_behind (text : List Char) (listed : Option (List Char) × List UInt8) :
    (behind text listed).2 = listed.2 := rfl

theorem fst_behind_eq_none {text : List Char} {listed : Option (List Char) × List UInt8} :
    (behind text listed).1 = none ↔ listed.1 = none := Option.map_eq_none_iff

/-- Listing does not go back. -/
theorem length_listTokens (spaced : Bool) (bytes : List UInt8) :
    (listTokens escapes spaced bytes).2.length ≤ bytes.length := by
  induction bytes using tokens_induction generalizing spaced with
  | nil => rw [listTokens]
  | ending rest => rw [listTokens_end]
  | string rest ih =>
    have hlength := length_showText escapes [closeQuote.toNat, endOfLine.toNat] rest
    rw [listTokens_openQuote rfl]
    split
    · have htail := (List.tail_sublist _).length_le.trans hlength
      exact ((ih _ htail _).trans htail).trans (Nat.le_succ _)
    · exact ((ih _ hlength _).trans hlength).trans (Nat.le_succ _)
  | remark rest ih =>
    have hlength := length_showText escapes [endOfLine.toNat] rest
    rw [listTokens_rem rfl]
    exact ((ih _ hlength _).trans hlength).trans (Nat.le_succ _)
  | cut b rest hhigh hdigit hshort =>
    rw [listTokens_short hhigh hdigit hshort]
  | number b low high rest hhigh hdigit ih =>
    rw [listTokens_digit hhigh hdigit]
    exact (ih _).trans (by simp only [List.length_cons]; omega)
  | name b rest hhigh hdigit ih =>
    rw [listTokens_run hhigh hdigit]
    exact ((ih _).trans (List.dropWhile_suffix _).length_le).trans (Nat.le_succ _)
  | word b rest hlow hend hquote hrem ih =>
    rw [listTokens_word hlow hend hquote hrem]
    exact (ih _).trans (Nat.le_succ _)

/-- Text that has come to the end of the bytes goes on into what follows them. -/
theorem length_showText_append {terminators : List Int} {near : List UInt8}
    (h : (showText escapes terminators near).2 = []) (far : List UInt8) :
    (showText escapes terminators (near ++ far)).2.length ≤ far.length := by
  induction near with
  | nil => exact length_showText _ _ _
  | cons b near ih =>
    rw [showText] at h
    rw [List.cons_append, showText]
    by_cases hstop : terminators.contains (b.toNat : Int) = true
    · rw [if_pos hstop] at h
      cases h
    · rw [if_neg hstop] at h ⊢
      exact ih h

/-- A line that is cut off behind some bytes goes on into what follows the cut. -/
def Overruns (escapes : List Int) (far near : List UInt8) : Prop :=
  ∀ ⦃spaced : Bool⦄ ⦃text : List Char⦄ ⦃left : List UInt8⦄,
    (listTokens escapes spaced near).1 = none →
      listTokens escapes spaced (near ++ far) = (some text, left) → left.length ≤ far.length

section Overruns

variable {far near rest left : List UInt8} {spaced : Bool} {shown text : List Char} {b : UInt8}

theorem Overruns.behind (h : Overruns escapes far near)
    (hnear : (behind shown (listTokens escapes spaced near)).1 = none)
    (hall : Record.behind shown (listTokens escapes spaced (near ++ far)) = (some text, left)) :
    left.length ≤ far.length := by
  obtain ⟨more, hmore, -⟩ := behind_eq_some hall
  exact h (fst_behind_eq_none.1 hnear) hmore

/-- What is read behind bytes that follow the cut lies behind the cut. -/
theorem length_behind (hle : rest.length ≤ far.length)
    (h : behind shown (listTokens escapes spaced rest) = (some text, left)) :
    left.length ≤ far.length := by
  have hlength : (listTokens escapes spaced rest).2.length ≤ rest.length :=
    length_listTokens spaced rest
  rw [← snd_behind shown, h] at hlength
  exact hlength.trans hle

theorem overruns_nil : Overruns escapes far [] := by
  intro spaced text left _ h
  have hempty : behind [] (listTokens escapes spaced far) = (some text, left) := by
    rw [← List.nil_append far, h]
    rfl
  exact length_behind (Nat.le_refl _) hempty

section Marks

variable (ih : ∀ near : List UInt8, near.length ≤ rest.length → Overruns escapes far near)
  (hescape : 0xDC ∉ escapes)
include ih hescape

theorem overruns_string : Overruns escapes far (openQuote :: rest) := by
  intro spaced text left hnear h
  rw [List.cons_append] at h
  have hlength := length_showText escapes [closeQuote.toNat, endOfLine.toNat] rest
  cases hshow : showText escapes [closeQuote.toNat, endOfLine.toNat] rest with
  | mk shown after =>
    cases after with
    | nil =>
      have hcut := length_showText_append (by rw [hshow]) far
      rw [listTokens_openQuote rfl] at h
      split at h
      · exact length_behind ((List.tail_sublist _).length_le.trans hcut) h
      · exact length_behind hcut h
    | cons mark after =>
      rw [hshow, List.length_cons] at hlength
      rw [listTokens_openQuote hshow] at hnear
      rw [listTokens_openQuote (showText_append hescape (fun _ => isHigh_of_mem_marks) hshow
        (List.cons_ne_nil _ _) far)] at h
      rw [List.head?_cons] at hnear
      rw [List.cons_append, List.head?_cons] at h
      by_cases hclose : (some mark == some closeQuote) = true
      · rw [if_pos hclose] at hnear h
        exact (ih after (Nat.le_of_succ_le hlength)).behind hnear h
      · rw [if_neg hclose] at hnear h
        exact (ih (mark :: after) hlength).behind hnear h

theorem overruns_remark : Overruns escapes far (remToken :: rest) := by
  intro spaced text left hnear h
  rw [List.cons_append] at h
  have hlength := length_showText escapes [endOfLine.toNat] rest
  cases hshow : showText escapes [endOfLine.toNat] rest with
  | mk shown after =>
    cases after with
    | nil =>
      rw [listTokens_rem rfl] at h
      exact length_behind (length_showText_append (by rw [hshow]) far) h
    | cons mark after =>
      rw [hshow] at hlength
      rw [listTokens_rem hshow] at hnear
      rw [listTokens_rem (showText_append hescape
        (fun _ hb => isHigh_of_mem_marks (List.mem_cons_of_mem _ hb)) hshow
        (List.cons_ne_nil _ _) far)] at h
      exact (ih _ hlength).behind hnear h

end Marks

/-- A number that is cut off is made up from both sides of the cut. -/
theorem overruns_cut (hhigh : isHigh b = true) (hdigit : isDigitByte b = true)
    (hshort : rest.length < 2) : Overruns escapes far (b :: rest) := by
  intro spaced text left _ h
  rw [List.cons_append, listTokens_high hhigh, if_pos hdigit] at h
  match rest, far, hshort with
  | [], [], _ | [], [_], _ | [_], [], _ => cases h
  | [], _ :: _ :: far, _ => exact length_behind (by simp; omega) h
  | [_], _ :: far, _ => exact length_behind (by simp) h

theorem overruns_number {low high : UInt8} (hhigh : isHigh b = true) (hdigit : isDigitByte b = true)
    (ih : Overruns escapes far rest) : Overruns escapes far (b :: low :: high :: rest) := by
  intro spaced text left hnear h
  rw [listTokens_digit hhigh hdigit] at hnear
  rw [List.cons_append, List.cons_append, List.cons_append, listTokens_digit hhigh hdigit] at h
  exact ih.behind hnear h

/-- So is a name. -/
theorem overruns_name (hhigh : isHigh b = true) (hdigit : isDigitByte b = false)
    (ih : Overruns escapes far (rest.dropWhile isHigh)) : Overruns escapes far (b :: rest) := by
  intro spaced text left hnear h
  rw [listTokens_run hhigh hdigit] at hnear
  rw [List.cons_append, listTokens_run hhigh hdigit] at h
  by_cases hafter : rest.dropWhile isHigh = []
  · have hdrop : (rest ++ far).dropWhile isHigh = far.dropWhile isHigh := by
      rw [List.dropWhile_append, if_pos (by simpa using hafter)]
    rw [hdrop] at h
    exact length_behind (List.dropWhile_suffix _).length_le h
  · obtain ⟨htake, hdrop⟩ := Text.span_append (t := far) (.inl hafter)
    rw [hdrop, htake] at h
    exact ih.behind hnear h

theorem overruns_word (hlow : b < 128) (hend : b ≠ endOfLine) (hquote : b ≠ openQuote)
    (hrem : b ≠ remToken) (ih : Overruns escapes far rest) : Overruns escapes far (b :: rest) := by
  intro spaced text left hnear h
  rw [listTokens_word hlow hend hquote hrem] at hnear
  rw [List.cons_append, listTokens_word hlow hend hquote hrem] at h
  exact ih.behind hnear h

end Overruns

theorem overruns (hescape : 0xDC ∉ escapes) (far near : List UInt8) :
    Overruns escapes far near := by
  induction near using tokens_induction with
  | nil => exact overruns_nil
  | ending rest =>
    intro spaced text left hnear
    rw [listTokens_end] at hnear
    cases hnear
  | string rest ih => exact overruns_string ih hescape
  | remark rest ih => exact overruns_remark ih hescape
  | cut b rest hhigh hdigit hshort => exact overruns_cut hhigh hdigit hshort
  | number b low high rest hhigh hdigit ih => exact overruns_number hhigh hdigit ih
  | name b rest hhigh hdigit ih => exact overruns_name hhigh hdigit ih
  | word b rest hlow hend hquote hrem ih => exact overruns_word hlow hend hquote hrem ih

/-- Behind the length byte of a listed record come a number and an end of line. -/
theorem three_le_of_list? {bytes : List UInt8} {line : List Char} {consumed : Nat}
    (h : list? escapes bytes = some ⟨some line, consumed⟩) : 3 ≤ consumed := by
  rcases bytes with _ | ⟨low, _ | ⟨high, tokens⟩⟩
  · cases h
  · cases h
  · have hlength : (listTokens escapes true tokens).2.length ≤ tokens.length :=
      length_listTokens true tokens
    rw [list?] at h
    rcases hlist : listTokens escapes true tokens with ⟨_ | text, left⟩ <;> rw [hlist] at h hlength
    · cases h
    · cases h
      simp only [List.length_cons] at hlength ⊢
      omega

/-- A record that is cut off is longer than what is left of it. -/
theorem length_lt_of_list? (hescape : 0xDC ∉ escapes) {near far : List UInt8} {line : List Char}
    {consumed : Nat} (hnear : ∀ line consumed, list? escapes near ≠ some ⟨some line, consumed⟩)
    (h : list? escapes (near ++ far) = some ⟨some line, consumed⟩) : near.length < consumed := by
  have hthree := three_le_of_list? h
  rcases near with _ | ⟨low, _ | ⟨high, tokens⟩⟩
  · exact Nat.lt_of_lt_of_le (by simp) hthree
  · exact Nat.lt_of_lt_of_le (by simp) hthree
  · rw [List.cons_append, List.cons_append, list?] at h
    rcases hcut : listTokens escapes true tokens with ⟨_ | text, left⟩
    · rcases hlist : listTokens escapes true (tokens ++ far) with ⟨_ | text, left⟩ <;>
        rw [hlist] at h <;> cases h
      have hleft := overruns hescape far tokens (by rw [hcut]) hlist
      simp only [List.length_cons, List.length_append]
      omega
    · exact absurd (by rw [list?, hcut]) (hnear _ _)

/-- A record that is cut off is not listed. -/
theorem list?_take (hescape : 0xDC ∉ escapes) {bytes : List UInt8} {line : List Char}
    {consumed : Nat} (h : list? escapes bytes = some ⟨some line, consumed⟩) (n : Nat) :
    consumed ≤ n ∧ list? escapes (bytes.take n) = some ⟨some line, consumed⟩ ∨
      n < consumed ∧ ∀ line consumed, list? escapes (bytes.take n) ≠ some ⟨some line, consumed⟩ := by
  have hsplit := List.take_append_drop n bytes
  by_cases hnear : ∃ line consumed, list? escapes (bytes.take n) = some ⟨some line, consumed⟩
  · obtain ⟨line', consumed', hlist⟩ := hnear
    obtain ⟨hfar, hle⟩ := list?_append hescape hlist (bytes.drop n)
    rw [hsplit, h] at hfar
    cases hfar
    rw [List.length_take] at hle
    exact .inl ⟨by omega, hlist⟩
  · have hnear : ∀ line consumed, list? escapes (bytes.take n) ≠ some ⟨some line, consumed⟩ :=
      fun line consumed h => hnear ⟨line, consumed, h⟩
    refine .inr ⟨?_, hnear⟩
    have hshort := length_lt_of_list? hescape hnear (hsplit.symm ▸ h)
    rw [List.length_take] at hshort
    by_cases hn : n ≤ bytes.length
    · omega
    · rw [List.take_of_length_le (by omega), h] at hnear
      exact absurd rfl (hnear line consumed)

/-- Of bytes that are cut off, just the records are listed that end before the cut. -/
theorem entries_take (hescape : 0xDC ∉ escapes) (address : Nat) (stop : Int) (bytes : List UInt8)
    (n : Nat) : entries escapes address stop (bytes.take n) =
      (entries escapes address stop bytes).takeWhile fun entry => entry.2 ≤ address + n := by
  induction address, bytes using records_induction escapes stop generalizing n with
  | done address bytes hlt => rw [entries_done hlt, entries_done hlt, List.takeWhile_nil]
  | nil address hlt => rw [List.take_nil, entries_nil, List.takeWhile_nil]
  | line address b bytes line consumed hlt hlist ih =>
    rw [entries_line hlt hlist]
    cases n with
    | zero =>
      rw [List.take_zero, entries_nil,
        List.takeWhile_cons_of_neg (by rw [decide_eq_true_eq]; omega)]
    | succ m =>
      rw [List.take_succ_cons]
      cases list?_take hescape hlist m with
      | inl hnear =>
        obtain ⟨hle, hnear⟩ := hnear
        have hend : address + 1 + consumed + (m - consumed) = address + (m + 1) := by omega
        have hrest := ih (m - consumed)
        rw [hend] at hrest
        rw [entries_line hlt hnear, List.drop_take, hrest,
          List.takeWhile_cons_of_pos (by rw [decide_eq_true_eq]; omega)]
      | inr hcut =>
        obtain ⟨hlt', hnear⟩ := hcut
        rw [entries_cut hnear, List.takeWhile_cons_of_neg]
        rw [decide_eq_true_eq]
        omega
  | cut address b bytes hlt hnone =>
    rw [entries_cut hnone, List.takeWhile_nil]
    cases n with
    | zero => rw [List.take_zero, entries_nil]
    | succ m =>
      refine entries_cut fun line consumed h => ?_
      have hfar := (list?_append hescape h (bytes.drop m)).1
      rw [List.take_append_drop] at hfar
      exact hnone line consumed hfar

end IntegerBasic.Record

namespace IntegerBasic.Memory

open Record

/-- The records between two addresses that are listed: the line of each, and the address behind
it. -/
def entriesBetween (settings : Settings) (image : Image) (start stop : Int) :
    List (List Char × Nat) :=
  if start < 0 || stop < start || image.length ≤ start then []
  else entries settings.escapes start.toNat stop (image.drop start.toNat)

theorem text_entriesBetween (settings : Settings) (image : Image) (start stop : Int) :
    (list settings image (some start) (some stop)).text =
      (entriesBetween settings image start stop).flatMap fun entry => entry.1 ++ ['\n'] := by
  rw [list, listBetween, entriesBetween]
  split
  · rfl
  · dsimp only
    rw [Record.Listing.text, ← map_fst_entries, List.flatMap_map]

/-- Of an image that is cut off, just the records are listed that end before the cut. -/
theorem entriesBetween_take {settings : Settings} (hescape : 0xDC ∉ settings.escapes)
    (image : Image) (n : Nat) (start stop : Int) :
    entriesBetween settings (image.take n) start stop =
      (entriesBetween settings image start stop).takeWhile fun entry => entry.2 ≤ n := by
  by_cases hguard : (start < 0 || stop < start || image.length ≤ start) = true
  · have hcut : (start < 0 || stop < start || (image.take n).length ≤ start) = true := by
      simp only [Bool.or_eq_true, decide_eq_true_eq, List.length_take] at hguard ⊢
      omega
    rw [entriesBetween, if_pos hcut, entriesBetween, if_pos hguard, List.takeWhile_nil]
  rw [entriesBetween, entriesBetween, if_neg hguard]
  simp only [Bool.or_eq_true, decide_eq_true_eq, not_or] at hguard
  by_cases hcut : (start < 0 || stop < start || (image.take n).length ≤ start) = true
  · -- the cut lies before the first record
    rw [if_pos hcut]
    simp only [Bool.or_eq_true, decide_eq_true_eq, List.length_take] at hcut
    have hnone := entries_take hescape start.toNat stop (image.drop start.toNat) 0
    rw [List.take_zero, entries_nil, eq_comm, List.takeWhile_eq_nil_iff] at hnone
    rw [eq_comm, List.takeWhile_eq_nil_iff]
    intro hfirst hle
    refine hnone hfirst ?_
    rw [decide_eq_true_eq] at hle ⊢
    omega
  · rw [if_neg hcut, List.drop_take, entries_take hescape]
    simp only [Bool.or_eq_true, decide_eq_true_eq, List.length_take] at hcut
    have hend : start.toNat + (n - start.toNat) = n := by omega
    rw [hend]

/-- An image that is cut off is listed line by line as before, as far as its records are whole: the
text is a beginning of the text of the image, and it has just the lines whose records end before the
cut. -/
theorem list_take {settings : Settings} (hescape : 0xDC ∉ settings.escapes) (image : Image)
    (cut start stop : Int) :
    let whole := (list settings image (some start) (some stop)).text
    let left := (list settings (image.take (Index.floor image cut)) (some start) (some stop)).text
    let records := entriesBetween settings image start stop
    left <+: whole ∧ whole = records.flatMap (fun record => record.1 ++ ['\n']) ∧
      left = (records.takeWhile fun record => record.2 ≤ Index.floor image cut).flatMap
        fun record => record.1 ++ ['\n'] := by
  dsimp only
  rw [text_entriesBetween, text_entriesBetween, entriesBetween_take hescape]
  refine ⟨?_, rfl, rfl⟩
  exact (List.takeWhile_prefix _).flatMap _

/-- The record of `10 PRINT "A\"`, and behind it that of `20 END`, which has lost its last two
bytes. -/
theorem list_take_backslash :
    let image : Image :=
      [0x09, 0x0A, 0x00, 0x61, 0x28, 0xC1, 0xDC, 0x29, 0x01, 0x05, 0x14, 0x00, 0x51, 0x01]
    (list {} (image.take 12) (some 0) (some 14)).text = "10 PRINT \"A\\\"\n".toList ∧
      (list {} (image.take (Index.floor image (-2))) (some 0) (some 14)).text <+:
        (list {} image (some 0) (some 14)).text :=
  ⟨by decide +kernel, (list_take (by decide) _ (-2) 0 14).1⟩

end IntegerBasic.Memory
