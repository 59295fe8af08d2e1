import IntegerBasic.Memory.Loading

/-!
# What loading does to an image

Everything that can fail comes before the first byte is written: behind the checks the program fits
between two places of the image, and the pointers lie in it. So an image either stays as it is, or
has the program below HIMEM and the four pointers in page zero, and no other byte has changed. The
pointers are written last, each over two bytes of its own.
-/

namespace IntegerBasic.Memory

variable {image : Image} {offset value : Nat}

theorem length_putWord (h : offset + 2 ≤ image.length) (value : Nat) :
    (putWord image offset value).length = image.length :=
  length_putBytes h

theorem getElem?_putWord_of_outside (h : offset + 2 ≤ image.length) (value : Nat) {i : Nat}
    (hi : ¬(offset ≤ i ∧ i < offset + 2)) : (putWord image offset value)[i]? = image[i]? := by
  apply getElem?_putBytes_of_outside h
  simp only [Record.wordBytes, List.length_cons, List.length_nil]
  omega

theorem wordAt_congr {image' : Image} (hlow : image[offset]? = image'[offset]?)
    (hhigh : image[offset + 1]? = image'[offset + 1]?) :
    wordAt image offset = wordAt image' offset := by
  simp only [wordAt, List.getD_eq_getElem?_getD, hlow, hhigh]

/-- A word that has been written is read back. -/
theorem wordAt_putWord (h : offset + 2 ≤ image.length) (hvalue : value < 65536) :
    wordAt (putWord image offset value) offset = value := by
  have hbyte : ∀ k, k < 2 →
      (putWord image offset value)[offset + k]? = (Record.wordBytes value)[k]? :=
    fun k hk => getElem?_putBytes_of_inside h hk
  have hlow := hbyte 0 (by omega)
  have hhigh := hbyte 1 (by omega)
  rw [Nat.add_zero] at hlow
  simp only [wordAt, List.getD_eq_getElem?_getD, hlow, hhigh]
  exact Record.wordValue_wordBytes (by omega)

theorem wordAt_lt (image : Image) (offset : Nat) : wordAt image offset < 65536 := by
  have hlow := (image.getD offset 0).toNat_lt
  have hhigh := (image.getD (offset + 1) 0).toNat_lt
  simp only [wordAt, Record.wordValue]
  omega

def putWords (image : Image) (words : List (Nat × Nat)) : Image :=
  words.foldl (fun image (offset, value) => putWord image offset value) image

theorem putWords_cons (image : Image) (w : Nat × Nat) (words : List (Nat × Nat)) :
    putWords image (w :: words) = putWords (putWord image w.1 w.2) words := rfl

def Within (image : Image) (words : List (Nat × Nat)) : Prop :=
  ∀ w ∈ words, w.1 + 2 ≤ image.length

theorem Within.tail {w : Nat × Nat} {words : List (Nat × Nat)} (h : Within image (w :: words)) :
    Within (putWord image w.1 w.2) words := by
  intro w' hw'
  rw [length_putWord (h w List.mem_cons_self)]
  exact h w' (List.mem_cons_of_mem _ hw')

theorem length_putWords {words : List (Nat × Nat)} (h : Within image words) :
    (putWords image words).length = image.length := by
  induction words generalizing image with
  | nil => rfl
  | cons w words ih =>
    rw [putWords_cons, ih h.tail, length_putWord (h w List.mem_cons_self)]

/-- Bytes of none of the words stay as they are. -/
theorem getElem?_putWords_of_outside {words : List (Nat × Nat)} (h : Within image words) {i : Nat}
    (hi : ∀ w ∈ words, ¬(w.1 ≤ i ∧ i < w.1 + 2)) : (putWords image words)[i]? = image[i]? := by
  induction words generalizing image with
  | nil => rfl
  | cons w words ih =>
    obtain ⟨hw, hmore⟩ := List.forall_mem_cons.1 hi
    rw [putWords_cons, ih h.tail hmore, getElem?_putWord_of_outside (h w List.mem_cons_self) _ hw]

theorem wordAt_putWords_of_disjoint {words : List (Nat × Nat)} (h : Within image words)
    (hapart : ∀ w ∈ words, offset + 2 ≤ w.1 ∨ w.1 + 2 ≤ offset) :
    wordAt (putWords image words) offset = wordAt image offset := by
  apply wordAt_congr <;> apply getElem?_putWords_of_outside h <;> intro w hw <;>
    have := hapart w hw <;> omega

/-- Words over different bytes are all read back. -/
theorem wordAt_putWords {words : List (Nat × Nat)} (h : Within image words)
    (hapart : words.Pairwise fun v w => v.1 + 2 ≤ w.1 ∨ w.1 + 2 ≤ v.1)
    (hvalues : ∀ w ∈ words, w.2 < 65536) :
    ∀ w ∈ words, wordAt (putWords image words) w.1 = w.2 := by
  induction words generalizing image with
  | nil => simp
  | cons w words ih =>
    obtain ⟨hw, hmore⟩ := List.pairwise_cons.1 hapart
    obtain ⟨hvalue, hvalues⟩ := List.forall_mem_cons.1 hvalues
    intro w' hw'
    rw [putWords_cons]
    rcases List.mem_cons.1 hw' with rfl | hw'
    · rw [wordAt_putWords_of_disjoint h.tail hw, wordAt_putWord (h w' List.mem_cons_self) hvalue]
    · exact ih h.tail hmore hvalues w' hw'

theorem inspect_ok {α : Type} {look : Image → Except AccessFault α} {a : α}
    (h : look image = .ok a) : Action.inspect look image = (.ok a, image) := by
  rw [Action.inspect, h]
  rfl

theorem change_ok {turn : Image → Except AccessFault Image} {image' : Image}
    (h : turn image = .ok image') : Action.change turn image = (.ok (), image') := by
  simp only [Action.change, h]

/-- A word of page zero is read if it lies in the image. -/
theorem read_eq (h : offset + 2 ≤ image.length) (haddress : offset < 256) :
    Action.read offset image = (.ok (wordAt image offset), image) :=
  inspect_ok (readWord_eq h haddress)

/-- A word of page zero is written if it lies in the image. -/
theorem write_eq (h : offset + 2 ≤ image.length) (haddress : offset < 256)
    (hvalue : value < 65536) :
    Action.write offset value image = (.ok (), putWord image offset value) := by
  have hsame : ((value : Int) % 65536).toNat = value := by omega
  apply change_ok
  rw [writeWord, wordOffset_eq h haddress, hsame, Except.map]

/-- Bytes that are as many as the stretch has take its place. -/
theorem assign_eq {start stop : Nat} {bytes : List UInt8} (h : start + bytes.length = stop) :
    Action.assign start stop bytes image = (.ok (), putBytes image start bytes) := by
  rw [Action.assign, putBytes, h]

theorem size_eq (image : Image) : Action.size image = (.ok image.length, image) := rfl

theorem bind_ok {α β : Type} {action : Action α} {image' : Image} {a : α}
    (h : action image = (.ok a, image')) (next : α → Action β) :
    (action >>= next) image = next a image' := by
  simp only [bind, h]

theorem bind_error {α β : Type} {action : Action α} {image' : Image} {reason : Halt}
    (h : action image = (.error reason, image')) (next : α → Action β) :
    (action >>= next) image = (.error reason, image') := by
  simp only [bind, h]

theorem refuseIf_of_wrong {wrong : Prop} [Decidable wrong] (h : wrong) (fault : Fault) :
    Action.refuseIf wrong fault image = (.error (.layout fault), image) := by
  rw [Action.refuseIf, if_pos h]
  rfl

theorem refuseIf_of_right {wrong : Prop} [Decidable wrong] (h : ¬wrong) (fault : Fault) :
    Action.refuseIf wrong fault image = (.ok (), image) := by
  rw [Action.refuseIf, if_neg h]
  rfl

/-- What is wrong with an image for a program of some size. -/
def misfit? (image : Image) (size : Nat) : Option Fault :=
  if image.length < pointersEnd then some .tooSmall
  else if wordAt image himemAddress < wordAt image lomemAddress + size then
    some (.belowLomem size (wordAt image lomemAddress))
  else if image.length < wordAt image himemAddress then
    some (.beyondEnd (wordAt image himemAddress))
  else none

theorem fits_of_misfit? {size : Nat} (h : misfit? image size = none) :
    ¬image.length < pointersEnd ∧
      ¬wordAt image himemAddress < wordAt image lomemAddress + size ∧
      ¬image.length < wordAt image himemAddress := by
  unfold misfit? at h
  split at h
  · cases h
  · split at h
    · cases h
    · split at h
      · cases h
      · exact ⟨‹_›, ‹_›, ‹_›⟩

/-- The pointers of an image in which a program has been put, with their values in the order in
which they are set. -/
def pointers (start himem lomem : Nat) : List (Nat × Nat) :=
  [(lomemAddress, lomem), (variablesAddress, lomem), (programAddress, start), (himemAddress, himem)]

section

variable {start himem lomem : Nat} {w : Nat × Nat}

theorem mem_pointers : w ∈ pointers start himem lomem ↔
    w = (lomemAddress, lomem) ∨ w = (variablesAddress, lomem) ∨ w = (programAddress, start) ∨
      w = (himemAddress, himem) := by
  simp only [pointers, List.mem_cons, List.not_mem_nil, or_false]

theorem place_of_mem_pointers (h : w ∈ pointers start himem lomem) :
    w.1 + 2 ≤ pointersEnd ∧ w.1 < 256 := by
  rcases mem_pointers.1 h with rfl | rfl | rfl | rfl <;>
    simp [lomemAddress, variablesAddress, programAddress, himemAddress, pointersEnd]

theorem value_of_mem_pointers (h : w ∈ pointers start himem lomem) :
    w.2 = start ∨ w.2 = himem ∨ w.2 = lomem := by
  rcases mem_pointers.1 h with rfl | rfl | rfl | rfl <;> simp

/-- No two pointers share a byte. -/
theorem pairwise_pointers : (pointers start himem lomem).Pairwise fun v w =>
    v.1 + 2 ≤ w.1 ∨ w.1 + 2 ≤ v.1 := by
  simp [pointers, lomemAddress, variablesAddress, programAddress, himemAddress]

end

def placed (image : Image) (code : List UInt8) : Image :=
  let start := wordAt image himemAddress - code.length
  putWords (putBytes image start code)
    (pointers start (wordAt image himemAddress) (wordAt image lomemAddress))

/-- A program that does not fit leaves no trace. -/
theorem place_of_misfit {code : List UInt8} {fault : Fault}
    (h : misfit? image code.length = some fault) :
    place code image = (.error (.layout fault), image) := by
  rw [misfit?] at h
  rw [place, bind_ok (size_eq image)]
  by_cases hsize : image.length < pointersEnd
  · rw [if_pos hsize] at h
    cases h
    exact bind_error (refuseIf_of_wrong hsize _) _
  rw [if_neg hsize] at h
  have hend := Nat.le_of_not_lt hsize
  rw [bind_ok (refuseIf_of_right hsize _),
    bind_ok (read_eq (Nat.le_trans (by decide) hend) (by decide)),
    bind_ok (read_eq (Nat.le_trans (by decide) hend) (by decide))]
  by_cases hlomem : wordAt image himemAddress < wordAt image lomemAddress + code.length
  · rw [if_pos hlomem] at h
    cases h
    exact bind_error (refuseIf_of_wrong hlomem _) _
  rw [if_neg hlomem] at h
  rw [bind_ok (refuseIf_of_right hlomem _)]
  by_cases hhimem : image.length < wordAt image himemAddress
  · rw [if_pos hhimem] at h
    cases h
    exact bind_error (refuseIf_of_wrong hhimem _) _
  · rw [if_neg hhimem] at h
    cases h

/-- A program that fits is put below HIMEM, and no access fails. -/
theorem place_of_fits {code : List UInt8} (h : misfit? image code.length = none) :
    place code image = (.ok (wordAt image himemAddress - code.length), placed image code) := by
  obtain ⟨hsize, hlomem, hhimem⟩ := fits_of_misfit? h
  have hend : pointersEnd ≤ image.length := Nat.le_of_not_lt hsize
  have hassign : (putBytes image (wordAt image himemAddress - code.length) code).length =
      image.length := length_putBytes (by omega)
  have hword : ∀ {image' : Image} (offset value : Nat), image'.length = image.length →
      offset + 2 ≤ pointersEnd → value < 65536 →
      Action.write offset value image' = (.ok (), putWord image' offset value) ∧
        (putWord image' offset value).length = image.length := by
    intro image' offset value hlength hoffset hvalue
    have hpage : pointersEnd ≤ 256 := by decide
    exact ⟨write_eq (by omega) (by omega) hvalue,
      (length_putWord (by omega) value).trans hlength⟩
  have hlow := wordAt_lt image lomemAddress
  have hhigh := wordAt_lt image himemAddress
  obtain ⟨hwrite₁, hlength₁⟩ := hword lomemAddress _ hassign (by decide) hlow
  obtain ⟨hwrite₂, hlength₂⟩ := hword variablesAddress _ hlength₁ (by decide) hlow
  obtain ⟨hwrite₃, hlength₃⟩ := hword programAddress
    (wordAt image himemAddress - code.length) hlength₂ (by decide) (by omega)
  obtain ⟨hwrite₄, -⟩ := hword himemAddress _ hlength₃ (by decide) hhigh
  rw [place, bind_ok (size_eq image), bind_ok (refuseIf_of_right hsize _),
    bind_ok (read_eq (Nat.le_trans (by decide) hend) (by decide)),
    bind_ok (read_eq (Nat.le_trans (by decide) hend) (by decide)),
    bind_ok (refuseIf_of_right hlomem _), bind_ok (refuseIf_of_right hhimem _),
    bind_ok (assign_eq (by omega)), bind_ok hwrite₁, bind_ok hwrite₂, bind_ok hwrite₃,
    bind_ok hwrite₄]
  rfl

def IsPointerByte (i : Nat) : Prop :=
  ∃ address ∈ [lomemAddress, himemAddress, programAddress, variablesAddress],
    address ≤ i ∧ i < address + 2

structure Loaded (image : Image) (code : List UInt8) (start himem lomem : Nat) (image' : Image) :
    Prop where
  length : image'.length = image.length
  ends : start + code.length = himem
  aboveLomem : lomem ≤ start
  readProgram : readWord image' programAddress = .ok start
  readHimem : readWord image' himemAddress = .ok himem
  readLomem : readWord image' lomemAddress = .ok lomem
  readVariables : readWord image' variablesAddress = .ok lomem
  bytes : ∀ i, start ≤ i → i < himem → ¬IsPointerByte i → image'[i]? = code[i - start]?
  others : ∀ i, i < start ∨ himem ≤ i → ¬IsPointerByte i → image'[i]? = image[i]?

/-- With the pointers set behind the program, the image holds both. -/
theorem loaded_putWords {code : List UInt8} {start himem lomem : Nat}
    (hend : pointersEnd ≤ image.length) (hstop : start + code.length = himem)
    (habove : lomem ≤ start)
    (hwithin : himem ≤ image.length) (hhimem : himem < 65536) :
    Loaded image code start himem lomem
      (putWords (putBytes image start code) (pointers start himem lomem)) := by
  have hlength : (putBytes image start code).length = image.length := length_putBytes (by omega)
  have hwords : Within (putBytes image start code) (pointers start himem lomem) := by
    intro w hw
    have := (place_of_mem_pointers hw).1
    omega
  have hvalues : ∀ w ∈ pointers start himem lomem, w.2 < 65536 := by
    intro w hw
    have := value_of_mem_pointers hw
    omega
  have hlength' := (length_putWords hwords).trans hlength
  have hread : ∀ w ∈ pointers start himem lomem,
      readWord (putWords (putBytes image start code) (pointers start himem lomem)) w.1 =
        .ok w.2 := by
    intro w hw
    obtain ⟨hplace, hpage⟩ := place_of_mem_pointers hw
    rw [readWord_eq (by omega) hpage, wordAt_putWords hwords pairwise_pointers hvalues w hw]
  have hother : ∀ i, ¬IsPointerByte i →
      (putWords (putBytes image start code) (pointers start himem lomem))[i]? =
        (putBytes image start code)[i]? := by
    intro i hi
    apply getElem?_putWords_of_outside hwords
    intro w hw hbyte
    refine hi ⟨w.1, ?_, hbyte⟩
    rcases mem_pointers.1 hw with rfl | rfl | rfl | rfl <;> simp
  refine ⟨hlength', hstop, habove, ?_, ?_, ?_, ?_, ?_, ?_⟩
  · exact hread (programAddress, start) (mem_pointers.2 (by simp))
  · exact hread (himemAddress, himem) (mem_pointers.2 (by simp))
  · exact hread (lomemAddress, lomem) (mem_pointers.2 (by simp))
  · exact hread (variablesAddress, lomem) (mem_pointers.2 (by simp))
  · intro i hstart hhimem hi
    obtain ⟨k, rfl⟩ := Nat.exists_eq_add_of_le hstart
    rw [hother _ hi, getElem?_putBytes_of_inside (by omega) (by omega), Nat.add_sub_cancel_left]
  · intro i hout hi
    rw [hother _ hi, getElem?_putBytes_of_outside (by omega) (by omega)]

/-- Putting a program into an image in place either stops at what is wrong with the layout, and then
the image is as it was, or gives the place below HIMEM where the program begins, and then the
program and the four pointers stand in the image and no other byte has changed. No access to the
image fails. -/
theorem place_frame (image : Image) (code : List UInt8) :
    (∃ fault, misfit? image code.length = some fault ∧
      place code image = (.error (.layout fault), image) ∧ load image code = .error fault) ∨
      misfit? image code.length = none ∧ ∃ start himem lomem image',
        readWord image himemAddress = .ok himem ∧ readWord image lomemAddress = .ok lomem ∧
        place code image = (.ok start, image') ∧ load image code = .ok (image', start) ∧
        Loaded image code start himem lomem image' := by
  cases hfit : misfit? image code.length with
  | some fault =>
    have hplace := place_of_misfit hfit
    exact .inl ⟨fault, rfl, hplace, by rw [load, hplace]⟩
  | none =>
    have hplace := place_of_fits hfit
    obtain ⟨hsize, hlomem, hhimem⟩ := fits_of_misfit? hfit
    have hend := Nat.le_of_not_lt hsize
    refine .inr ⟨rfl, _, wordAt image himemAddress, wordAt image lomemAddress, _,
      readWord_eq (Nat.le_trans (by decide) hend) (by decide),
      readWord_eq (Nat.le_trans (by decide) hend) (by decide), hplace, by rw [load, hplace], ?_⟩
    exact loaded_putWords hend (by omega) (by omega) (by omega) (wordAt_lt _ _)

/-- A program that reaches into page zero: its bytes stand there but for those of the pointers. -/
example : (load (List.replicate 0x4C 0 ++ [0x52, 0] ++ List.replicate 0x80 0)
    (List.replicate 7 0xFF)).toOption.map (fun p => (p.2, (p.1.drop 0x49).take 11)) =
      some (0x4B, [0, 0, 0, 0x52, 0, 0xFF, 0xFF, 0xFF, 0xFF, 0, 0]) := by
  decide +kernel

end IntegerBasic.Memory
