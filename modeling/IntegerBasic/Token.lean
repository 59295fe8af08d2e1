import IntegerBasic.DataType

/-!
# Tokens

The tokens of a stored program that stand for one word, operator or mark of the listing. A
token has a byte below 128, a spelling, and a group. Several tokens share a spelling: which
comma or which `PRINT` is meant is settled by what stands around it. Names, numbers, strings
and remarks are stored by their own rules and are no tokens in this sense.
-/

namespace IntegerBasic

inductive Token where
  -- words of statements
  | load | save | con | runLine | run | del | new | clr | auto | man | himem | lomem | thenLine
  | thenStatement | text | gr | call | dim (type : DataType) | tab | stop
  | input (type : DataType) | inputPrompt | forLoop | toLimit | stepBy | next | returning
  | gosub | rem | assign | goto | condition | print (item : Option DataType) | poke | color
  | plot | hlin | hlinAt | vlin | vlinAt | vtab | listLine | list | pop
  | nodsp (type : DataType) | notrace | dsp (type : DataType) | trace | prSlot | inSlot
  -- functions; three of them include their parenthesis
  | peek | rnd | sgn | abs | pdl | len | asc | scrn
  -- operators
  | plus | minus | times | divide | equal | hash | greaterEqual | greater | lessEqual | unequal
  | less | conjunction | disjunction | modulo | power | unaryPlus | unaryMinus | negation
  | equalString | unequalString
  -- opening parentheses, by what they open
  | openDim (type : DataType) | openSlice | openElement (type : DataType) | openParen
  | openCall
  -- the closing parenthesis
  | close
  -- separators and equals signs
  | colon | delComma | autoComma | sliceComma | promptComma | inputComma | scrnComma | dimComma
  | semicolon (item : Option DataType) | comma (item : Option DataType) | forEquals | nextComma
  | pokeComma | plotComma | hlinComma | vlinComma | equals (type : DataType) | listComma
  deriving DecidableEq, Repr

namespace Token

/-- What a token is for, as far as readers of a tree ask. -/
inductive Group where
  | word | function | operator | opener | closer | mark
  deriving DecidableEq, Repr

/-- Every token, in the order of the bytes. -/
def all : List Token := [
  .colon, .load, .save, .con, .runLine, .run, .del, .delComma, .new, .clr, .auto, .autoComma,
  .man, .himem, .lomem, .plus, .minus, .times, .divide, .equal, .hash, .greaterEqual, .greater,
  .lessEqual, .unequal, .less, .conjunction, .disjunction, .modulo, .power, .openDim .string,
  .sliceComma, .thenLine, .thenStatement, .promptComma, .inputComma, .openSlice,
  .openDim .integer, .peek, .rnd, .sgn, .abs, .pdl, .openElement .integer, .unaryPlus,
  .unaryMinus, .negation, .openParen, .equalString, .unequalString, .len, .asc, .scrn,
  .scrnComma, .openCall, .openElement .string, .dimComma, .semicolon (some .string),
  .semicolon (some .integer), .semicolon none, .comma (some .string), .comma (some .integer),
  .comma none, .text, .gr, .call, .dim .string, .dim .integer, .tab, .stop, .input .string,
  .inputPrompt, .input .integer, .forLoop, .forEquals, .toLimit, .stepBy, .next, .nextComma,
  .returning, .gosub, .rem, .assign, .goto, .condition, .print (some .string),
  .print (some .integer), .print none, .poke, .pokeComma, .color, .plot, .plotComma, .hlin,
  .hlinComma, .hlinAt, .vlin, .vlinComma, .vlinAt, .vtab, .equals .string, .equals .integer,
  .close, .listLine, .listComma, .list, .pop, .nodsp .string, .nodsp .integer, .notrace,
  .dsp .string, .dsp .integer, .trace, .prSlot, .inSlot]

def byte : Token → UInt8
  | .colon => 0x03 | .load => 0x04 | .save => 0x05 | .con => 0x06 | .runLine => 0x07
  | .run => 0x08 | .del => 0x09 | .delComma => 0x0A | .new => 0x0B | .clr => 0x0C | .auto => 0x0D
  | .autoComma => 0x0E | .man => 0x0F | .himem => 0x10 | .lomem => 0x11 | .plus => 0x12
  | .minus => 0x13 | .times => 0x14 | .divide => 0x15 | .equal => 0x16 | .hash => 0x17
  | .greaterEqual => 0x18 | .greater => 0x19 | .lessEqual => 0x1A | .unequal => 0x1B
  | .less => 0x1C | .conjunction => 0x1D | .disjunction => 0x1E | .modulo => 0x1F
  | .power => 0x20 | .openDim .string => 0x22 | .sliceComma => 0x23 | .thenLine => 0x24
  | .thenStatement => 0x25 | .promptComma => 0x26 | .inputComma => 0x27 | .openSlice => 0x2A
  | .openDim .integer => 0x2D | .peek => 0x2E | .rnd => 0x2F | .sgn => 0x30 | .abs => 0x31
  | .pdl => 0x32 | .openElement .integer => 0x34 | .unaryPlus => 0x35 | .unaryMinus => 0x36
  | .negation => 0x37 | .openParen => 0x38 | .equalString => 0x39 | .unequalString => 0x3A
  | .len => 0x3B | .asc => 0x3C | .scrn => 0x3D | .scrnComma => 0x3E | .openCall => 0x3F
  | .openElement .string => 0x42 | .dimComma => 0x44 | .semicolon (some .string) => 0x45
  | .semicolon (some .integer) => 0x46 | .semicolon none => 0x47 | .comma (some .string) => 0x48
  | .comma (some .integer) => 0x49 | .comma none => 0x4A | .text => 0x4B | .gr => 0x4C
  | .call => 0x4D | .dim .string => 0x4E | .dim .integer => 0x4F | .tab => 0x50 | .stop => 0x51
  | .input .string => 0x52 | .inputPrompt => 0x53 | .input .integer => 0x54 | .forLoop => 0x55
  | .forEquals => 0x56 | .toLimit => 0x57 | .stepBy => 0x58 | .next => 0x59 | .nextComma => 0x5A
  | .returning => 0x5B | .gosub => 0x5C | .rem => 0x5D | .assign => 0x5E | .goto => 0x5F
  | .condition => 0x60 | .print (some .string) => 0x61 | .print (some .integer) => 0x62
  | .print none => 0x63 | .poke => 0x64 | .pokeComma => 0x65 | .color => 0x66 | .plot => 0x67
  | .plotComma => 0x68 | .hlin => 0x69 | .hlinComma => 0x6A | .hlinAt => 0x6B | .vlin => 0x6C
  | .vlinComma => 0x6D | .vlinAt => 0x6E | .vtab => 0x6F | .equals .string => 0x70
  | .equals .integer => 0x71 | .close => 0x72 | .listLine => 0x74 | .listComma => 0x75
  | .list => 0x76 | .pop => 0x77 | .nodsp .string => 0x78 | .nodsp .integer => 0x79
  | .notrace => 0x7A | .dsp .string => 0x7B | .dsp .integer => 0x7C | .trace => 0x7D
  | .prSlot => 0x7E | .inSlot => 0x7F

/-- The text of the token in upper case and without spaces. -/
def spelling : Token → String
  | .colon => ":"
  | .load => "LOAD"
  | .save => "SAVE"
  | .con => "CON"
  | .runLine | .run => "RUN"
  | .del => "DEL"
  | .delComma | .autoComma | .sliceComma | .promptComma | .inputComma | .scrnComma | .dimComma
  | .comma _ | .nextComma | .pokeComma | .plotComma | .hlinComma | .vlinComma | .listComma => ","
  | .new => "NEW"
  | .clr => "CLR"
  | .auto => "AUTO"
  | .man => "MAN"
  | .himem => "HIMEM:"
  | .lomem => "LOMEM:"
  | .plus | .unaryPlus => "+"
  | .minus | .unaryMinus => "-"
  | .times => "*"
  | .divide => "/"
  | .equal | .equalString | .forEquals | .equals _ => "="
  | .hash | .unequalString => "#"
  | .greaterEqual => ">="
  | .greater => ">"
  | .lessEqual => "<="
  | .unequal => "<>"
  | .less => "<"
  | .conjunction => "AND"
  | .disjunction => "OR"
  | .modulo => "MOD"
  | .power => "^"
  | .openDim _ | .openSlice | .openElement _ | .openParen | .openCall => "("
  | .thenLine | .thenStatement => "THEN"
  | .peek => "PEEK"
  | .rnd => "RND"
  | .sgn => "SGN"
  | .abs => "ABS"
  | .pdl => "PDL"
  | .negation => "NOT"
  | .len => "LEN("
  | .asc => "ASC("
  | .scrn => "SCRN("
  | .semicolon _ => ";"
  | .text => "TEXT"
  | .gr => "GR"
  | .call => "CALL"
  | .dim _ => "DIM"
  | .tab => "TAB"
  | .stop => "END"
  | .input _ | .inputPrompt => "INPUT"
  | .forLoop => "FOR"
  | .toLimit => "TO"
  | .stepBy => "STEP"
  | .next => "NEXT"
  | .returning => "RETURN"
  | .gosub => "GOSUB"
  | .rem => "REM"
  | .assign => "LET"
  | .goto => "GOTO"
  | .condition => "IF"
  | .print _ => "PRINT"
  | .poke => "POKE"
  | .color => "COLOR="
  | .plot => "PLOT"
  | .hlin => "HLIN"
  | .hlinAt | .vlinAt => "AT"
  | .vlin => "VLIN"
  | .vtab => "VTAB"
  | .close => ")"
  | .listLine | .list => "LIST"
  | .pop => "POP"
  | .nodsp _ => "NODSP"
  | .notrace => "NOTRACE"
  | .dsp _ => "DSP"
  | .trace => "TRACE"
  | .prSlot => "PR#"
  | .inSlot => "IN#"

def name : Token → String
  | .colon => "sep_statement"
  | .load => "statement_load"
  | .save => "statement_save"
  | .con => "statement_con"
  | .runLine => "statement_run_line"
  | .run => "statement_run"
  | .del => "statement_del"
  | .delComma => "sep_del"
  | .new => "statement_new"
  | .clr => "statement_clr"
  | .auto => "statement_auto"
  | .autoComma => "sep_auto"
  | .man => "statement_man"
  | .himem => "statement_himem"
  | .lomem => "statement_lomem"
  | .plus => "op_plus"
  | .minus => "op_minus"
  | .times => "op_times"
  | .divide => "op_div"
  | .equal => "op_eq"
  | .hash => "op_neq"
  | .greaterEqual => "op_ge"
  | .greater => "op_gt"
  | .lessEqual => "op_le"
  | .unequal => "op_ne"
  | .less => "op_lt"
  | .conjunction => "op_and"
  | .disjunction => "op_or"
  | .modulo => "op_mod"
  | .power => "op_pow"
  | .openDim .string => "open_dim_str"
  | .sliceComma => "sep_slice"
  | .thenLine => "statement_then_line"
  | .thenStatement => "statement_then"
  | .promptComma => "sep_input_prompt"
  | .inputComma => "sep_input"
  | .openSlice => "open_slice"
  | .openDim .integer => "open_dim_int"
  | .peek => "fcall_peek"
  | .rnd => "fcall_rnd"
  | .sgn => "fcall_sgn"
  | .abs => "fcall_abs"
  | .pdl => "fcall_pdl"
  | .openElement .integer => "open_int"
  | .unaryPlus => "op_unary_plus"
  | .unaryMinus => "op_unary_minus"
  | .negation => "op_not"
  | .openParen => "open_paren"
  | .equalString => "op_eq_str"
  | .unequalString => "op_neq_str"
  | .len => "fcall_lenp"
  | .asc => "fcall_ascp"
  | .scrn => "fcall_scrnp"
  | .scrnComma => "sep_scrn"
  | .openCall => "open_fcall"
  | .openElement .string => "open_str"
  | .dimComma => "sep_dim"
  | .semicolon (some .string) => "semi_print_str"
  | .semicolon (some .integer) => "semi_print_int"
  | .semicolon none => "semi_print_null"
  | .comma (some .string) => "comma_print_str"
  | .comma (some .integer) => "comma_print_int"
  | .comma none => "comma_print_null"
  | .text => "statement_text"
  | .gr => "statement_gr"
  | .call => "statement_call"
  | .dim .string => "statement_dim_str"
  | .dim .integer => "statement_dim_int"
  | .tab => "statement_tab"
  | .stop => "statement_end"
  | .input .string => "statement_input_str"
  | .inputPrompt => "statement_input_prompt"
  | .input .integer => "statement_input_int"
  | .forLoop => "statement_for"
  | .forEquals => "eq_for"
  | .toLimit => "statement_to"
  | .stepBy => "statement_step"
  | .next => "statement_next"
  | .nextComma => "sep_next"
  | .returning => "statement_return"
  | .gosub => "statement_gosub"
  | .rem => "statement_rem"
  | .assign => "statement_let"
  | .goto => "statement_goto"
  | .condition => "statement_if"
  | .print (some .string) => "statement_print_str"
  | .print (some .integer) => "statement_print_int"
  | .print none => "statement_print"
  | .poke => "statement_poke"
  | .pokeComma => "sep_poke"
  | .color => "statement_coloreq"
  | .plot => "statement_plot"
  | .plotComma => "sep_plot"
  | .hlin => "statement_hlin"
  | .hlinComma => "sep_hlin"
  | .hlinAt => "statement_hlin_at"
  | .vlin => "statement_vlin"
  | .vlinComma => "sep_vlin"
  | .vlinAt => "statement_vlin_at"
  | .vtab => "statement_vtab"
  | .equals .string => "eq_str"
  | .equals .integer => "eq_int"
  | .close => "close"
  | .listLine => "statement_list_line"
  | .listComma => "sep_list"
  | .list => "statement_list"
  | .pop => "statement_pop"
  | .nodsp .string => "statement_nodsp_str"
  | .nodsp .integer => "statement_nodsp_int"
  | .notrace => "statement_notrace"
  | .dsp .string => "statement_dsp_str"
  | .dsp .integer => "statement_dsp_int"
  | .trace => "statement_trace"
  | .prSlot => "statement_prn"
  | .inSlot => "statement_inn"

def group : Token → Group
  | .load | .save | .con | .runLine | .run | .del | .new | .clr | .auto | .man | .himem | .lomem
  | .thenLine | .thenStatement | .text | .gr | .call | .dim _ | .tab | .stop | .input _
  | .inputPrompt | .forLoop | .toLimit | .stepBy | .next | .returning | .gosub | .rem | .assign
  | .goto | .condition | .print _ | .poke | .color | .plot | .hlin | .hlinAt | .vlin | .vlinAt
  | .vtab | .listLine | .list | .pop | .nodsp _ | .notrace | .dsp _ | .trace | .prSlot
  | .inSlot => .word
  | .peek | .rnd | .sgn | .abs | .pdl | .len | .asc | .scrn => .function
  | .plus | .minus | .times | .divide | .equal | .hash | .greaterEqual | .greater | .lessEqual
  | .unequal | .less | .conjunction | .disjunction | .modulo | .power | .unaryPlus | .unaryMinus
  | .negation | .equalString | .unequalString => .operator
  | .openDim _ | .openSlice | .openElement _ | .openParen | .openCall => .opener
  | .close => .closer
  | _ => .mark

/-- A function whose spelling includes the opening parenthesis. -/
def includesParen : Token → Bool
  | .len | .asc | .scrn => true
  | _ => false

theorem mem_all (t : Token) : t ∈ all := by
  cases t with
  | openDim y | openElement y | dim y | input y | dsp y | nodsp y | equals y =>
    cases y <;> decide
  | semicolon y | comma y | print y => rcases y with _ | (_ | _) <;> decide
  | _ => decide

theorem byte_lt (t : Token) : t.byte.toNat < 128 := by
  have h : ∀ t ∈ all, t.byte.toNat < 128 := by decide
  exact h t (mem_all t)

/-- The bytes in use: the bytes below 128 but thirteen of them. -/
theorem map_byte_all : all.map (fun t => t.byte.toNat) = (List.range 128).filter
    (· ∉ [0x00, 0x01, 0x02, 0x21, 0x28, 0x29, 0x2B, 0x2C, 0x33, 0x40, 0x41, 0x43, 0x73]) := by
  decide +kernel

theorem pairwise_byte_lt : all.Pairwise (fun s t => s.byte.toNat < t.byte.toNat) := by
  rw [← List.pairwise_map, map_byte_all]
  exact List.pairwise_lt_range.filter _

/-- Different tokens have different bytes. -/
theorem byte_injective {s t : Token} (h : s.byte = t.byte) : s = t := by
  obtain ⟨i, hi, rfl⟩ := List.getElem_of_mem (mem_all s)
  obtain ⟨j, hj, rfl⟩ := List.getElem_of_mem (mem_all t)
  -- the tokens are listed in the order of the bytes
  have key := List.pairwise_iff_getElem.mp pairwise_byte_lt
  rcases Nat.lt_trichotomy i j with hlt | rfl | hlt
  · exact absurd (key i j hi hj hlt) (by simp [h])
  · rfl
  · exact absurd (key j i hj hi hlt) (by simp [h])

end Token

end IntegerBasic
