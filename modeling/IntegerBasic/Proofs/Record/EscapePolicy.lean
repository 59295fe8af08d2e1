import IntegerBasic.Memory.Listing
import IntegerBasic.Proofs.Record.ShownText

/-!
# Which bytes are shown as escapes

Bytes are shown up to the first terminator, each by a piece of text of its own. A byte that has no
character, and one that is listed among the escapes, is shown as its own escape wherever it stands,
with one exception: a stored backslash with three bytes behind it is never looked up in the list.
Whether these three bytes come before or behind the terminator makes no difference.
-/

namespace IntegerBasic.Record

variable {escapes terminators : List Int}

/-- The bytes before the first terminator. -/
def beforeTerminator (terminators : List Int) (bytes : List UInt8) : List UInt8 :=
  bytes.takeWhile fun b => !terminators.contains (b.toNat : Int)

def pieces (escapes terminators : List Int) (bytes : List UInt8) : List (List Char) :=
  (beforeTerminator terminators bytes).mapIdx fun i b => showByte escapes b (bytes.drop (i + 1))

theorem pieces_cons {b : UInt8} (hb : terminators.contains (b.toNat : Int) = false)
    (behind : List UInt8) : pieces escapes terminators (b :: behind) =
      showByte escapes b behind :: pieces escapes terminators behind := by
  rw [pieces, beforeTerminator, List.takeWhile_cons_of_pos (by rw [hb]; rfl), List.mapIdx_cons]
  rfl

theorem length_pieces (bytes : List UInt8) :
    (pieces escapes terminators bytes).length = (beforeTerminator terminators bytes).length := by
  rw [pieces, List.length_mapIdx]

theorem getElem?_pieces {bytes : List UInt8} {i : Nat} {b : UInt8}
    (h : (beforeTerminator terminators bytes)[i]? = some b) :
    (pieces escapes terminators bytes)[i]? = some (showByte escapes b (bytes.drop (i + 1))) := by
  rw [pieces, List.getElem?_mapIdx, h, Option.map_some]

/-- The text of some bytes is made of their pieces, and it ends at the terminator. -/
theorem showText_eq_pieces (bytes : List UInt8) :
    showText escapes terminators bytes = ((pieces escapes terminators bytes).flatten,
      bytes.dropWhile fun b => !terminators.contains (b.toNat : Int)) := by
  induction bytes with
  | nil => rfl
  | cons b behind ih =>
    rw [showText]
    cases hb : terminators.contains (b.toNat : Int) with
    | true =>
      have hstop : (!terminators.contains (b.toNat : Int)) = false := by rw [hb]; rfl
      rw [if_pos rfl, pieces, beforeTerminator, List.takeWhile_cons_of_neg (by rw [hstop]; simp),
        List.dropWhile_cons_of_neg (by rw [hstop]; simp)]
      rfl
    | false =>
      rw [if_neg (by simp), ih, pieces_cons hb, List.flatten_cons,
        List.dropWhile_cons_of_pos (by rw [hb]; rfl)]

theorem exists_three_of_length {behind : List UInt8} (h : 3 ≤ behind.length) :
    ∃ x high low more, behind = x :: high :: low :: more := by
  rcases behind with _ | ⟨x, _ | ⟨high, _ | ⟨low, more⟩⟩⟩
  · cases h
  · simp at h
  · simp at h
  · exact ⟨x, high, low, more, rfl⟩

/-- A backslash with three bytes behind it is shown as it is or as a guard, whatever is listed. -/
theorem showByte_backslash (x high low : UInt8) (more : List UInt8) :
    showByte escapes backslash (x :: high :: low :: more) =
      if readsAsEscape x high low then escape 0x5C else ['\\'] := by
  rw [showByte, if_pos (beq_self_eq_true backslash)]
  rfl

/-- Every other byte is shown as an escape if it needs one. -/
theorem showByte_of_needsEscape {b : UInt8} {behind : List UInt8}
    (hneeds : needsEscape escapes b = true) (h : b = backslash → behind.length < 3) :
    showByte escapes b behind = escape b := by
  have hplain : showPlain escapes b = escape b := if_pos hneeds
  unfold showByte
  split
  · have hb : b ≠ backslash := fun hb => absurd (h hb) (by simp)
    rw [if_neg (by simpa using hb), hplain]
  · exact hplain

/-- So a byte that needs an escape does not get it exactly if it is such a backslash. -/
theorem showByte_eq_escape_iff {b : UInt8} {behind : List UInt8}
    (hneeds : needsEscape escapes b = true) :
    showByte escapes b behind = escape b ↔ ¬(b = backslash ∧ 3 ≤ behind.length) := by
  refine ⟨?_, fun h => showByte_of_needsEscape hneeds fun hb =>
    Nat.lt_of_not_le fun hlength => h ⟨hb, hlength⟩⟩
  rintro h ⟨rfl, hlength⟩
  obtain ⟨x, high, low, more, rfl⟩ := exists_three_of_length hlength
  rw [showByte_backslash] at h
  split at h
  · exact absurd h (by decide)
  · exact absurd h (by decide)

end IntegerBasic.Record

namespace IntegerBasic.Memory

open Record

/-- The text of some bytes of an image is made of one piece for each byte before the first
terminator. A byte without the high bit, the byte 255 and every listed byte has as its piece the
escape that names it, unless it is a stored backslash with three bytes behind it; such a backslash
is shown as it is, or as the escape of a plain backslash where an escape would be read. -/
theorem showText?_escapes {escapes terminators : List Int} {image : Image} {address : Int}
    {bytes : List UInt8} (h : Index.from? image address = some bytes) :
    let run := beforeTerminator terminators bytes
    let shown := pieces escapes terminators bytes
    showText? escapes terminators image address =
        some (shown.flatten, address + run.length) ∧
      shown.length = run.length ∧
      ∀ i b, run[i]? = some b → (b < 128 ∨ b = 255 ∨ (b.toNat : Int) ∈ escapes) →
        (shown[i]? = some (escape b) ↔ ¬(b = 0xDC ∧ i + 3 < bytes.length)) ∧
        (b = 0xDC → i + 3 < bytes.length →
          shown[i]? = some ['\\'] ∨ shown[i]? = some ['\\', 'x', '5', 'c']) := by
  dsimp only
  refine ⟨?_, length_pieces bytes, fun i b hb hmust => ?_⟩
  · rw [showText?, h]
    show some ((showText escapes terminators bytes).1, address +
      ((bytes.length - (showText escapes terminators bytes).2.length : Nat) : Int)) = _
    have hlength : (beforeTerminator terminators bytes).length +
        (bytes.dropWhile fun b => !terminators.contains (b.toNat : Int)).length =
          bytes.length := by
      rw [beforeTerminator, ← List.length_append, List.takeWhile_append_dropWhile]
    rw [showText_eq_pieces]
    dsimp only
    rw [← hlength, Nat.add_sub_cancel]
  · have hneeds : needsEscape escapes b = true := by
      rw [needsEscape, Bool.or_eq_true, Bool.or_eq_true, List.contains_iff_mem, beq_iff_eq,
        decide_eq_true_eq]
      tauto
    have hlength : 3 ≤ (bytes.drop (i + 1)).length ↔ i + 3 < bytes.length := by
      rw [List.length_drop]
      omega
    rw [getElem?_pieces hb]
    refine ⟨?_, ?_⟩
    · rw [Option.some_inj, showByte_eq_escape_iff hneeds, hlength]
      rfl
    · rintro rfl hbehind
      obtain ⟨x, high, low, more, hmore⟩ := exists_three_of_length (hlength.2 hbehind)
      rw [hmore, show (0xDC : UInt8) = backslash from rfl, showByte_backslash]
      split
      · exact .inr rfl
      · exact .inl rfl

/-- A listed backslash with two bytes and a terminator behind it, and another one at the very
end. -/
theorem showText?_escapes_listed :
    let bytes : List UInt8 := [0xDC, 0xC1, 0x01, 0xC1, 0xDC]
    let run := beforeTerminator [1] bytes
    let shown := pieces [0xDC] [1] bytes
    showText? [0xDC] [1] bytes 0 = some (shown.flatten, (0 : Int) + run.length) ∧
      shown.length = run.length ∧
      ∀ i b, run[i]? = some b → (b < 128 ∨ b = 255 ∨ (b.toNat : Int) ∈ ([0xDC] : List Int)) →
        (shown[i]? = some (escape b) ↔ ¬(b = 0xDC ∧ i + 3 < bytes.length)) ∧
        (b = 0xDC → i + 3 < bytes.length →
          shown[i]? = some ['\\'] ∨ shown[i]? = some ['\\', 'x', '5', 'c']) :=
  @showText?_escapes [0xDC] [1] [0xDC, 0xC1, 0x01, 0xC1, 0xDC] 0 _ rfl

example : showText? [0xDC] [1] [0xDC, 0xC1, 0x01, 0xC1, 0xDC] 0 = some ("\\A".toList, 2) ∧
    showText? [0xDC] [1] [0xDC, 0xC1, 0x01, 0xC1, 0xDC] (-1) = some ("\\\\A".toList, 2) ∧
    showText? [0xDC] [1] [0xDC, 0xC1, 0xDC] 0 = some ("\\xdcA\\xdc".toList, 3) := by
  decide +kernel

end IntegerBasic.Memory
