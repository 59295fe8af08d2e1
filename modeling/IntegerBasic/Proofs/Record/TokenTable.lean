import IntegerBasic.Proofs.Grammar.Progress
import IntegerBasic.Proofs.Record.RenderedLines
import IntegerBasic.Table
import IntegerBasic.Token.Listing
import Mathlib.Data.List.Nodup

/-!
# The token table covers the grammar

A tree is stored by the names of its kinds. A name is looked up in a table of token bytes, and the
names of numbers, variables, strings and remarks have rules of their own. A node with another name
is gone into, and if it has nothing below it its raw text is stored. In a sound line every leaf has
a name of the first two sorts and no inner node has, so no raw text is stored. And the byte of a
token is listed as the token was written, in upper case and without spaces, with one exception.
-/

namespace IntegerBasic.Record

open Grammar Lexeme

/-- The bytes of the tokens by the names of their kinds. -/
def tokenBytes : List (String × UInt8) := Token.all.map fun t => (t.name, t.byte)

/-- The names of the kinds that are stored by rules of their own. -/
def ruledKinds : List String :=
  ["integer", "linenum", "int_name", "str_name", "string", "comment_text"]

/-- A node that is stored as raw text: its kind has neither a byte nor a rule, and there is nothing
below it. -/
def FallsBack (node : Node) : Prop :=
  node.kindShown ∉ ruledKinds ∧ Table.get? tokenBytes node.kindShown = none ∧ node.children = []

/-- What the byte of a kind is listed as, for a leaf of this kind: the text of the leaf in upper
case and without spaces. Strings that differ are always listed with a hash. -/
def listedAs (kind : String) (text : List Char) : List Char :=
  if kind = "op_neq_str" ∧ Text.withoutSpaces text = "<>".toList then "#".toList
  else Text.upper (Text.withoutSpaces text)

/-- The bytes of a text as one number. Texts with different numbers differ, and numbers are compared
faster than texts. -/
def bytesNumber (text : String) : Nat :=
  text.toByteArray.data.toList.foldl (fun n byte => 256 * n + byte.toNat) 0

def innerKinds : List InnerKind :=
  [.program, .line, .statement, .assignment .integer, .assignment .string, .element .integer,
    .element .string, .slice]

theorem mem_innerKinds (kind : InnerKind) : kind ∈ innerKinds := by
  cases kind with
  | assignment type | element type => cases type <;> simp [innerKinds]
  | _ => simp [innerKinds]

/-- The names of kinds all differ: those with a rule, those of tokens and those of inner nodes. -/
theorem nodup_kinds :
    (ruledKinds ++ innerKinds.map InnerKind.shown ++ Token.all.map Token.name).Nodup :=
  List.Nodup.of_map bytesNumber (by decide +kernel)

theorem name_injective : Function.Injective Token.name := fun s t h =>
  List.inj_on_of_nodup_map (List.nodup_append.1 nodup_kinds).2.1 (Token.mem_all s)
    (Token.mem_all t) h

theorem get?_tokenBytes (t : Token) : Table.get? tokenBytes t.name = some t.byte := by
  have hfind : Token.all.find? (fun u => u.name == t.name) = some t := by
    obtain ⟨u, hu⟩ : ∃ u, Token.all.find? (fun u => u.name == t.name) = some u :=
      Option.isSome_iff_exists.1
        (List.find?_isSome.2 ⟨t, Token.mem_all t, beq_self_eq_true t.name⟩)
    have hname : u = t := name_injective (by simpa using List.find?_some hu)
    rw [hu, hname]
  simp only [Table.get?, tokenBytes, List.find?_map, Function.comp_def, hfind, Option.map_some]

theorem get?_tokenBytes_eq_none {name : String} (h : name ∉ Token.all.map Token.name) :
    Table.get? tokenBytes name = none := by
  rw [Table.get?, tokenBytes, List.find?_map, Option.map_map, Option.map_eq_none_iff,
    List.find?_eq_none]
  intro t ht hname
  exact h (List.mem_map.2 ⟨t, ht, by simpa using hname⟩)

/-- No name of an inner node has a byte or a rule. -/
theorem unruled_innerKind (kind : InnerKind) :
    kind.shown ∉ ruledKinds ∧ Table.get? tokenBytes kind.shown = none := by
  have hmem := List.mem_map_of_mem (f := InnerKind.shown) (mem_innerKinds kind)
  obtain ⟨hkinds, -, htokens⟩ := List.nodup_append'.1 nodup_kinds
  obtain ⟨-, -, hruled⟩ := List.nodup_append'.1 hkinds
  exact ⟨fun h => hruled h hmem,
    get?_tokenBytes_eq_none (htokens (List.mem_append_right _ hmem))⟩

/-- A leaf without a byte has a rule, if it is no error. -/
theorem ruled_leafKind {kind : LeafKind} (sound : kind.isError = false)
    (htoken : ∀ t, kind ≠ .token t) :
    kind.shown ∈ ruledKinds ∧ Table.get? tokenBytes kind.shown = none := by
  have hmem : kind.shown ∈ ruledKinds := by
    cases kind with
    | token t => exact absurd rfl (htoken t)
    | error cause => cases sound
    | name type => cases type <;> decide
    | _ => decide
  obtain ⟨-, -, htokens⟩ := List.nodup_append'.1 nodup_kinds
  exact ⟨hmem, get?_tokenBytes_eq_none (htokens (List.mem_append_left _ hmem))⟩

/-- ASCII letters that are the same in either case are the same in upper case. -/
theorem toUpper_of_sameLetter {letter c : Char} (hletter : letter.toNat < 128)
    (hc : c.toNat < 128) (h : sameLetter letter c = true) : c.toUpper = letter.toUpper := by
  have key : ∀ {c : Char}, c.toNat < 128 → c.toLower.toUpper = c.toUpper :=
    Text.ascii_induction (P := fun c => c.toLower.toUpper = c.toUpper) (by decide +kernel)
  rw [sameLetter, beq_iff_eq, Text.caseFold_of_ascii hletter, Text.caseFold_of_ascii hc] at h
  rw [← key hc, ← h, key hletter]

/-- A word that has been read from ASCII is the word, in upper case and without spaces. -/
theorem toUpper_wordTail {w s text rest : List Char}
    (hw : ∀ c ∈ w, c ≠ ' ' ∧ c.toNat < 128 ∧ c.toUpper = c)
    (h : wordTail w s = some (text, rest)) (hascii : ∀ c ∈ text, c.toNat < 128) :
    (Text.withoutSpaces text).map Char.toUpper = w := by
  induction w generalizing s text with
  | nil =>
    cases h
    rfl
  | cons letter w ih =>
    obtain ⟨⟨hspace, hletter, hupper⟩, hw⟩ := List.forall_mem_cons.1 hw
    obtain ⟨c, more, read, -, hsame, hread, rfl⟩ := wordTail_cons_some hspace h
    obtain ⟨-, hascii⟩ := List.forall_mem_append.1 hascii
    obtain ⟨hc, hascii⟩ := List.forall_mem_cons.1 hascii
    have hcase : c.toUpper = letter := (toUpper_of_sameLetter hletter hc hsame).trans hupper
    have hne : c ≠ ' ' := by
      rintro rfl
      exact hspace hcase.symm
    have hspaces : (s.takeWhile isSpace).filter (· != ' ') = [] :=
      List.filter_eq_nil_iff.2 fun d hd => by
        simpa [isSpace] using List.all_eq_true.1 List.all_takeWhile d hd
    rw [Text.withoutSpaces, List.filter_append, hspaces, List.nil_append,
      List.filter_cons_of_pos (by simpa using hne), List.map_cons, hcase, ← Text.withoutSpaces,
      ih hw hread hascii]

theorem upper_of_word {t : Token} {s text rest : List Char}
    (h : Lexeme.word t.spelling.toList s = some (text, rest))
    (hascii : ∀ c ∈ text, c.toNat < 128) :
    Text.upper (Text.withoutSpaces text) = t.spelling.toList := by
  have hletters : ∀ c ∈ Text.withoutSpaces text, c.toNat < 128 :=
    fun c hc => hascii c (List.mem_filter.1 hc).1
  rw [Text.upper_of_ascii hletters]
  exact toUpper_wordTail (forall_spelling (by decide) t) (wordTail_of_word h) hascii

/-- What is in upper case a run of marks is this run. -/
theorem eq_of_upper {s marks : List Char} (hs : ∀ c ∈ s, c.toNat < 128)
    (hmarks : ∀ c ∈ marks, c.isAlpha = false) (h : Text.upper s = marks) : s = marks := by
  rw [Text.upper_of_ascii hs] at h
  have hfixed : ∀ c ∈ s, c.toUpper = c := by
    intro c hc
    refine caseChange_toUpper.other c (Bool.eq_false_iff.2 fun hletter => ?_)
    have hmark := hmarks c.toUpper (h ▸ List.mem_map_of_mem hc)
    rw [caseChange_toUpper.letter c hletter] at hmark
    cases hmark
  rw [← h, List.map_congr_left hfixed, List.map_id']

theorem listedAs_of_word {t : Token} (ht : t ≠ .unequalString) {s text rest : List Char}
    (h : Lexeme.word t.spelling.toList s = some (text, rest))
    (hascii : ∀ c ∈ text, c.toNat < 128) :
    (Token.listingWord t.byte).toList = listedAs t.name text := by
  have hname : t.name ≠ "op_neq_str" := fun h => ht (name_injective h)
  rw [Token.listingWord_byte, listedAs, if_neg fun hboth => hname hboth.1, upper_of_word h hascii]

/-- The byte of a token that was read is listed as what was read. -/
theorem listedAs_of_takes {t : Token} {s text rest : List Char}
    (h : Takes (.token t) s text rest) (hascii : ∀ c ∈ text, c.toNat < 128) :
    (Token.listingWord t.byte).toList = listedAs t.name text := by
  by_cases ht : t = .unequalString
  · -- the inequality of strings has been read as either of two words
    subst ht
    have hoperators : ∀ t ∈ binaryOperators, operatorAfter .string t = .unequalString →
        t = .unequal ∨ t = .hash := by decide
    have htakes : Takes (.token (operatorAfter .string .hash)) s text rest := h
    obtain ⟨t, hfirst, hword, hsame⟩ := htakes.operator (by decide)
    have hupper := upper_of_word hword hascii
    rw [listedAs]
    by_cases hmark : Text.withoutSpaces text = "<>".toList
    · rw [if_pos ⟨rfl, hmark⟩]
      rfl
    · rw [if_neg fun hboth => hmark hboth.2]
      rcases hoperators t (List.mem_of_find?_eq_some hfirst) hsame with rfl | rfl
      · have hmarks : ∀ c ∈ "<>".toList, c.isAlpha = false := by decide
        exact absurd (eq_of_upper (fun c hc => hascii c (List.mem_filter.1 hc).1) hmarks hupper)
          hmark
      · exact hupper.symm
  · exact listedAs_of_word ht (takes_word ht h) hascii

/-- What is asked of a leaf: its kind has a rule or a byte, and the byte is stored for it and listed
as its text. -/
structure InTable (l : Leaf) : Prop where
  ruled : l.kind.shown ∈ ruledKinds ∨ (Table.get? tokenBytes l.kind.shown).isSome = true
  byte : ∀ b, Table.get? tokenBytes l.kind.shown = some b → storeLeaf l = .ok [b] ∧
    (Token.listingWord b).toList = listedAs l.kind.shown l.text

namespace InTable

theorem of_ruled {l : Leaf} (sound : l.kind.isError = false)
    (htoken : ∀ t, l.kind ≠ .token t) : InTable l := by
  obtain ⟨hruled, hnone⟩ := ruled_leafKind sound htoken
  exact ⟨.inl hruled, fun b hb => by rw [hnone] at hb; cases hb⟩

theorem of_token {t : Token} {text : List Char} (span : Span)
    (h : (Token.listingWord t.byte).toList = listedAs t.name text) :
    InTable ⟨.token t, text, span⟩ := by
  have hget : Table.get? tokenBytes (LeafKind.token t).shown = some t.byte := get?_tokenBytes t
  refine ⟨.inr (by rw [hget]; rfl), fun b hb => ?_⟩
  rw [hget] at hb
  cases hb
  exact ⟨rfl, h⟩

theorem of_takes {kind : LeafKind} {s text rest : List Char} (span : Span)
    (h : Takes kind s text rest) (hascii : ∀ c ∈ text, c.toNat < 128) :
    InTable ⟨kind, text, span⟩ := by
  by_cases htoken : ∃ t, kind = .token t
  · obtain ⟨t, rfl⟩ := htoken
    exact of_token span (listedAs_of_takes h hascii)
  · exact of_ruled h.sound fun t ht => htoken ⟨t, ht⟩

/-- All leaves behind the number of a sound line are in the table. -/
theorem of_written {q : Bool} {i : Input} {L : List Leaf} (h : Written q i L)
    (hascii : ∀ c ∈ i.rest, c.toNat < 128) : ∀ l ∈ L, InTable l := by
  have hremark : ∀ {i : Input} {text rest : List Char} (span : Span),
      (∀ c ∈ i.rest, c.toNat < 128) →
      Lexeme.word Token.rem.spelling.toList i.skip.rest = some (text, rest) →
      InTable ⟨.token .rem, text, span⟩ := by
    intro i text rest span hascii read
    refine of_token span (listedAs_of_word (by decide) read fun c hc => hascii c ?_)
    rw [(Passes.skip i).rest, ← append_of_word read]
    exact List.mem_append_right _ (List.mem_append_left _ hc)
  induction h with
  | done => simp
  | leaf takes _ _ _ ih =>
    rw [rest_eq_of_takes takes] at hascii
    obtain ⟨-, hascii⟩ := List.forall_mem_append.1 hascii
    obtain ⟨htext, hrest⟩ := List.forall_mem_append.1 hascii
    exact List.forall_mem_cons.2 ⟨of_takes _ takes htext, ih hrest⟩
  | bareRemark read => exact List.forall_mem_singleton.2 (hremark _ hascii read)
  | remark read =>
    exact List.forall_mem_cons.2 ⟨hremark _ hascii read,
      List.forall_mem_singleton.2 (of_ruled rfl (by simp [Input.leafOf]))⟩

end InTable

/-- All leaves of a sound line of ASCII are in the table. -/
theorem inTable_line {row : Int} {s : List Char} (hascii : ∀ c ∈ s, c.toNat < 128)
    (sound : (line row s).hasError = false) : ∀ l ∈ (line row s).leaves, InTable l := by
  obtain ⟨number, rest, hs⟩ := exists_lineNumber sound
  rw [leaves_line hs]
  refine List.forall_mem_cons.2 ⟨.of_ruled rfl (by simp [Input.leafOf]), ?_⟩
  refine InTable.of_written (written_line hs sound) fun c hc => hascii c ?_
  rw [← append_of_lineNumber hs]
  exact List.mem_append_right _ hc

/-- The token table covers the grammar. Every leaf of a sound line of ASCII has a kind with a rule
or a byte, and the byte is listed as the text of the leaf; no inner node has such a kind; so no node
falls back on its raw text. -/
theorem tokens_covered (row : Int) {s : List Char} (hascii : ∀ c ∈ s, c.toNat < 128)
    (sound : (line row s).hasError = false) :
    (∀ l ∈ (line row s).leaves, InTable l) ∧
      ∀ seat ∈ seats [] [line row s], ¬FallsBack seat.node ∧
        ∀ kind, seat.node.innerKind? = some kind →
          kind.shown ∉ ruledKinds ∧ Table.get? tokenBytes kind.shown = none := by
  have hleaves := inTable_line hascii sound
  refine ⟨hleaves, fun seat hseat => ⟨?_, fun kind _ => unruled_innerKind kind⟩⟩
  rintro ⟨hruled, hbyte, hchildren⟩
  cases hnode : seat.node with
  | leaf l =>
    rw [hnode] at hruled hbyte
    have hmem : l ∈ Node.leavesOf [line row s] := by
      rw [← leaf?_seats []]
      exact List.mem_filterMap.2 ⟨seat, hseat, by rw [Seat.leaf?, hnode]⟩
    rw [Node.leavesOf_cons, Node.leavesOf_nil, List.append_nil] at hmem
    rcases (hleaves l hmem).ruled with hrule | hsome
    · exact hruled hrule
    · rw [show Table.get? tokenBytes l.kind.shown = none from hbyte] at hsome
      cases hsome
  | inner label children =>
    have hfilled := (forall_seats_iff [] _).2 (filled_line row s) seat hseat
    rw [hnode] at hfilled hchildren
    exact hfilled hchildren

/-- Words in small letters and with spaces in them, and both inequalities behind a string. -/
theorem tokens_covered_strings :
    let s := "10 if a$ < > b$ then pr int b$#a$".toList
    (∀ l ∈ (line 4 s).leaves, l.kind = .token .unequalString →
        listedAs l.kind.shown l.text = "#".toList) ∧
      (∀ l ∈ (line 4 s).leaves, InTable l) ∧
      ∀ seat ∈ seats [] [line 4 s], ¬FallsBack seat.node := by
  intro s
  obtain ⟨hleaves, hnodes⟩ := tokens_covered 4 (s := s) (by decide +kernel) (by decide +kernel)
  refine ⟨fun l hl hkind => ?_, hleaves, fun seat hseat => (hnodes seat hseat).1⟩
  have hbyte := (hleaves l hl).byte
  rw [hkind] at hbyte ⊢
  exact (hbyte _ (get?_tokenBytes .unequalString)).2.symm

end IntegerBasic.Record
