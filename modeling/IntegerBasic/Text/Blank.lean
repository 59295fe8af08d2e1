/-!
# Blank characters

The characters that count as white space at the edges of a line, and the trimming of a text
by them. The parser itself skips only spaces and tabs between tokens, which is `isGap`.
-/

namespace IntegerBasic.Text

/-- White space in the wide sense: the controls that separate, the space, and the spaces and
line separators of the rest of the code space. -/
def isBlank (c : Char) : Bool :=
  let n := c.toNat
  (9 ≤ n && n ≤ 13) || (28 ≤ n && n ≤ 32) || n == 0x85 || n == 0xA0 || n == 0x1680 ||
    (0x2000 ≤ n && n ≤ 0x200A) || n == 0x2028 || n == 0x2029 || n == 0x202F || n == 0x205F ||
    n == 0x3000

/-- A character that may stand between two tokens. -/
def isGap (c : Char) : Bool := c == ' ' || c == '\t'

def dropTail {α : Type} (p : α → Bool) (s : List α) : List α :=
  (s.reverse.dropWhile p).reverse

def trimLeft (s : List Char) : List Char := s.dropWhile isBlank

def trimRight (s : List Char) : List Char := dropTail isBlank s

def trim (s : List Char) : List Char := trimRight (trimLeft s)

def isBlankText (s : List Char) : Bool := s.all isBlank

/-- The text without its spaces. Tabs and other blanks stay. -/
def withoutSpaces (s : List Char) : List Char := s.filter (· != ' ')

@[simp] theorem dropTail_nil {α : Type} (p : α → Bool) : dropTail p [] = [] := rfl

theorem dropTail_isPrefix {α : Type} (p : α → Bool) (s : List α) : dropTail p s <+: s := by
  have h : s.reverse.dropWhile p <:+ s.reverse := List.dropWhile_suffix p
  simpa [dropTail] using List.reverse_prefix.2 h

theorem isBlank_of_isGap {c : Char} (h : isGap c = true) : isBlank c = true := by
  simp only [isGap, Bool.or_eq_true, beq_iff_eq] at h
  rcases h with rfl | rfl <;> decide

end IntegerBasic.Text
