import IntegerBasic.Proofs.Memory.LoadedPrograms

/-!
# What a new image holds

A new image is empty but for its pointers and the program below HIMEM. The pointers are written
last, and where they lie among the bytes of the program they take the place of these. So the stretch
between the pointers is the program exactly if it has the bytes of the pointers at these places.
-/

namespace IntegerBasic.Memory

variable {image : Image} {code : List UInt8} {offset value start stop low : Nat}

/-- A stretch of the image is read off byte by byte. -/
theorem stretch_eq_iff (hstop : start + code.length = stop) :
    (image.drop start).take (stop - start) = code ↔
      ∀ i, start ≤ i → i < stop → image[i]? = code[i - start]? := by
  constructor
  · intro heq i hstart hi
    have hbyte := congrArg (·[i - start]?) heq
    simp only [List.getElem?_take_of_lt (show i - start < stop - start by omega),
      List.getElem?_drop, Nat.add_sub_cancel' hstart] at hbyte
    exact hbyte
  · intro hbytes
    apply List.ext_getElem?
    intro k
    by_cases hk : k < code.length
    · rw [List.getElem?_take_of_lt (by omega), List.getElem?_drop,
        hbytes (start + k) (by omega) (by omega), Nat.add_sub_cancel_left]
    · rw [List.getElem?_eq_none (by simp; omega), List.getElem?_eq_none (by omega)]

/-- The two bytes of a word that is read. -/
theorem getElem?_of_wordAt (h : offset + 2 ≤ image.length) (hword : wordAt image offset = value)
    {k : Nat} (hk : k < 2) : image[offset + k]? = (Record.wordBytes value)[k]? := by
  have hbytes : Record.wordBytes value = [image[offset], image[offset + 1]] := by
    have hlow := image[offset].toNat_lt
    have hhigh := image[offset + 1].toNat_lt
    rw [← hword, wordAt, Record.wordValue, Record.wordBytes, List.getD_eq_getElem?_getD,
      List.getD_eq_getElem?_getD, List.getElem?_eq_getElem (by omega),
      List.getElem?_eq_getElem (by omega), Option.getD_some, Option.getD_some]
    congr 1
    · apply UInt8.toNat_inj.1
      rw [UInt8.toNat_ofNat']
      omega
    · congr 1
      apply UInt8.toNat_inj.1
      rw [UInt8.toNat_ofNat']
      omega
  rw [hbytes]
  obtain rfl | rfl : k = 0 ∨ k = 1 := by omega
  · simp
  · simp

/-- The program has the bytes of the pointers where it lies over them. -/
def AgreesWithPointers (code : List UInt8) (start stop low : Nat) : Prop :=
  ∀ w ∈ pointers start stop low, ∀ k < 2, start ≤ w.1 + k → w.1 + k < stop →
    code[w.1 + k - start]? = (Record.wordBytes w.2)[k]?

instance : Decidable (AgreesWithPointers code start stop low) :=
  inferInstanceAs (Decidable (∀ w ∈ pointers start stop low, ∀ k < 2, _ → _ → _))

namespace Loaded

variable {image' : Image} (h : Loaded image code start stop low image')
  (hsize : pointersEnd ≤ image.length)
include h hsize

theorem wordAt_of_mem {w : Nat × Nat} (hw : w ∈ pointers start stop low) :
    w.1 + 2 ≤ image'.length ∧ wordAt image' w.1 = w.2 := by
  obtain ⟨hplace, hpage⟩ := place_of_mem_pointers hw
  have hlength := h.length
  have hwithin : w.1 + 2 ≤ image'.length := by omega
  have hread : readWord image' w.1 = .ok w.2 := by
    rcases mem_pointers.1 hw with rfl | rfl | rfl | rfl
    · exact h.readLomem
    · exact h.readVariables
    · exact h.readProgram
    · exact h.readHimem
  rw [readWord_eq hwithin hpage] at hread
  exact ⟨hwithin, Except.ok.inj hread⟩

theorem bounds : bounds? image' = some (start, stop) := by
  have hprogram := (h.wordAt_of_mem hsize (w := (programAddress, start))
    (mem_pointers.2 (by simp))).2
  have hhimem := (h.wordAt_of_mem hsize (w := (himemAddress, stop)) (mem_pointers.2 (by simp))).2
  rw [bounds?, if_neg (by rw [h.length]; omega), hprogram, hhimem]

/-- A program that has been put into an image stands there whole exactly if it agrees with the
pointers. -/
theorem holds_iff :
    (image'.drop start).take (stop - start) = code ↔ AgreesWithPointers code start stop low := by
  rw [stretch_eq_iff h.ends]
  constructor
  · intro hbytes w hw k hk hstart hi
    obtain ⟨hwithin, hword⟩ := h.wordAt_of_mem hsize hw
    rw [← hbytes (w.1 + k) hstart hi, getElem?_of_wordAt hwithin hword hk]
  · intro hagrees i hstart hi
    by_cases hpointer : IsPointerByte i
    · obtain ⟨address, haddress, hle, hlt⟩ := hpointer
      obtain ⟨w, hw, rfl⟩ : ∃ w ∈ pointers start stop low, w.1 = address := by
        simp only [List.mem_cons, List.not_mem_nil, or_false] at haddress
        rcases haddress with rfl | rfl | rfl | rfl
        · exact ⟨(lomemAddress, low), mem_pointers.2 (by simp), rfl⟩
        · exact ⟨(himemAddress, stop), mem_pointers.2 (by simp), rfl⟩
        · exact ⟨(programAddress, start), mem_pointers.2 (by simp), rfl⟩
        · exact ⟨(variablesAddress, low), mem_pointers.2 (by simp), rfl⟩
      obtain ⟨k, rfl⟩ := Nat.exists_eq_add_of_le hle
      obtain ⟨hwithin, hword⟩ := h.wordAt_of_mem hsize hw
      rw [hagrees w hw k (by omega) hstart hi, getElem?_of_wordAt hwithin hword (by omega)]
    · exact h.bytes i hstart hi hpointer

end Loaded

/-- HIMEM and LOMEM, set in this order, are both read back. -/
theorem words_putWord (hsize : pointersEnd ≤ image.length) (hstop : stop < 65536)
    (hlow : low < 65536) :
    let framed := putWord (putWord image himemAddress stop) lomemAddress low
    framed.length = image.length ∧ wordAt framed himemAddress = stop ∧
      wordAt framed lomemAddress = low := by
  have hplaces : himemAddress + 2 ≤ pointersEnd ∧ lomemAddress + 2 ≤ pointersEnd := by decide
  have hhimem : himemAddress + 2 ≤ image.length := by omega
  have hlength := length_putWord hhimem stop
  have hlomem : lomemAddress + 2 ≤ (putWord image himemAddress stop).length := by omega
  refine ⟨(length_putWord hlomem low).trans hlength, ?_, wordAt_putWord hlomem hlow⟩
  calc wordAt (putWord (putWord image himemAddress stop) lomemAddress low) himemAddress
      = wordAt (putWord image himemAddress stop) himemAddress := by
        apply wordAt_congr <;> apply getElem?_putWord_of_outside hlomem <;> decide
    _ = stop := wordAt_putWord hhimem hstop

/-- A new image is refused exactly if the program would begin below LOMEM. Otherwise its pointers
bound a stretch of the length of the program below HIMEM, and this stretch is the program if and
only if the program has the bytes of the pointers wherever it lies over them. -/
theorem create_holds_iff (code : List UInt8) (himem lomem : Int) :
    ∃ stop low : Nat, (stop : Int) = himem % 65536 ∧ (low : Int) = lomem % 65536 ∧
      (stop < low + code.length ∧
          create code himem lomem = .error (.belowLomem code.length low) ∨
        ∃ start image, start + code.length = stop ∧ low ≤ start ∧
          create code himem lomem = .ok image ∧ image.length = imageSize ∧
          bounds? image = some (start, stop) ∧
          ((image.drop start).take (stop - start) = code ↔
            AgreesWithPointers code start stop low)) := by
  have hword : ∀ n : Int, ∃ value : Nat, (value : Int) = n % 65536 ∧ value < 65536 ∧
      (n % 65536).toNat = value := fun n => ⟨(n % 65536).toNat, by omega, by omega, rfl⟩
  obtain ⟨stop, hhimem, hstop, hhimem'⟩ := hword himem
  obtain ⟨low, hlomem, hlow, hlomem'⟩ := hword lomem
  refine ⟨stop, low, hhimem, hlomem, ?_⟩
  have hsize : (List.replicate imageSize (0 : UInt8)).length = imageSize := List.length_replicate
  have hspan : imageSize = 65536 ∧ pointersEnd ≤ imageSize := by decide
  obtain ⟨hlength, hreadHimem, hreadLomem⟩ := words_putWord (hsize ▸ hspan.2) hstop hlow
  rw [create, hhimem', hlomem']
  generalize putWord (putWord (List.replicate imageSize 0) himemAddress stop) lomemAddress low =
    framed at *
  rw [hsize] at hlength
  have hfit : misfit? framed code.length =
      if stop < low + code.length then some (.belowLomem code.length low) else none := by
    rw [misfit?, if_neg (by omega), hreadHimem, hreadLomem, hlength, if_neg (by omega : ¬_ < stop)]
  by_cases hroom : stop < low + code.length
  · rw [if_pos hroom] at hfit
    refine .inl ⟨hroom, ?_⟩
    rw [load, place_of_misfit hfit]
    rfl
  · rw [if_neg hroom] at hfit
    have hplace := place_of_fits hfit
    have hpointers : pointersEnd ≤ framed.length := hlength ▸ hspan.2
    have hloaded : Loaded framed code (stop - code.length) stop low (placed framed code) := by
      rw [placed, hreadHimem, hreadLomem]
      exact loaded_putWords hpointers (by omega) (by omega) (by omega) hstop
    refine .inr ⟨stop - code.length, placed framed code, by omega, by omega, ?_,
      hloaded.length.trans hlength, hloaded.bounds hpointers, hloaded.holds_iff hpointers⟩
    rw [load, hplace]
    rfl

-- the record `10 TEXT` over the end of variables, which LOMEM puts at zero
example : ¬AgreesWithPointers [5, 10, 0, 0x4B, 1] 0xCC 0xD1 0 := by decide

end IntegerBasic.Memory
