import IntegerBasic.Token

/-!
# Listing words

What the lister writes for a byte below 128. The table covers all 128 bytes, also those that
no token has. It agrees with the spelling of every token.
-/

namespace IntegerBasic.Token

/-- The listing words of the bytes 0 to 127, eight to a row. -/
def listingWords : List String := [
  "HIMEM:", "", "_", ":", "LOAD", "SAVE", "CON", "RUN",
  "RUN", "DEL", ",", "NEW", "CLR", "AUTO", ",", "MAN",
  "HIMEM:", "LOMEM:", "+", "-", "*", "/", "=", "#",
  ">=", ">", "<=", "<>", "<", "AND", "OR", "MOD",
  "^", "+", "(", ",", "THEN", "THEN", ",", ",",
  "\"", "\"", "(", "!", "!", "(", "PEEK", "RND",
  "SGN", "ABS", "PDL", "RNDX", "(", "+", "-", "NOT",
  "(", "=", "#", "LEN(", "ASC(", "SCRN(", ",", "(",
  "$", "$", "(", ",", ",", ";", ";", ";",
  ",", ",", ",", "TEXT", "GR", "CALL", "DIM", "DIM",
  "TAB", "END", "INPUT", "INPUT", "INPUT", "FOR", "=", "TO",
  "STEP", "NEXT", ",", "RETURN", "GOSUB", "REM", "LET", "GOTO",
  "IF", "PRINT", "PRINT", "PRINT", "POKE", ",", "COLOR=", "PLOT",
  ",", "HLIN", ",", "AT", "VLIN", ",", "AT", "VTAB",
  "=", "=", ")", ")", "LIST", ",", "LIST", "POP",
  "NODSP", "NODSP", "NOTRACE", "DSP", "DSP", "TRACE", "PR#", "IN#"]

def listingWord (b : UInt8) : String := listingWords.getD b.toNat ""

theorem length_listingWords : listingWords.length = 128 := by decide +kernel

theorem listingWord_byte (t : Token) : listingWord t.byte = t.spelling := by
  have h : ∀ t ∈ all, listingWord t.byte = t.spelling := by decide +kernel
  exact h t (mem_all t)

end IntegerBasic.Token
