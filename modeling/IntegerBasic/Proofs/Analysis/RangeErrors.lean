import IntegerBasic.Proofs.Analysis.Variables
import IntegerBasic.Proofs.Grammar.Operands

/-!
# Which operands are out of range

The second pass looks for the operand of a word among the siblings behind it, up to a comma or the
next closing parenthesis. An operand that is written as a number has no parenthesis, so for such an
operand this is the place where the grammar puts it, and any other operand is taken for a computed
one on both sides. Every word is visited once, in the order of the text, so the reports of numbers
out of range are those of the operands of the program.
-/

namespace IntegerBasic

def Quantity.low : Quantity → Int
  | .address => -32767
  | .byte => 0

def Quantity.high : Quantity → Int
  | .address => 32767
  | .byte => 255

namespace Analysis

open Grammar (program)

/-- The value of an operand that is written as one integer with signs before it, and the place from
the first sign, or the integer, to the end of the integer. -/
def signedNumber? : List Node → Option (Int × Span)
  | [.leaf ⟨.integer, text, span⟩] => some (Numeral.digitsValue text, span)
  | .leaf ⟨.token .unaryMinus, _, sign⟩ :: more =>
    (signedNumber? more).map fun (value, span) => (-value, ⟨sign.start, span.stop⟩)
  | .leaf ⟨.token .unaryPlus, _, sign⟩ :: more =>
    (signedNumber? more).map fun (value, span) => (value, ⟨sign.start, span.stop⟩)
  | _ => none

/-- What there is to report of an operand. -/
def rangeError? (operand : Quantity × List Node) : Option Diagnostic :=
  (signedNumber? operand.2).bind fun (value, span) =>
    if operand.1.low ≤ value ∧ value ≤ operand.1.high then none
    else some ⟨span, .outOfRange operand.1.low operand.1.high⟩

/-- The words that the message of a number out of range begins with. -/
def Diagnostic.isOutOfRange (d : Diagnostic) : Bool :=
  "Out of range".toList.isPrefixOf d.finding.message.toList

theorem isOutOfRange_outOfRange (span : Span) (low high : Int) :
    Diagnostic.isOutOfRange ⟨span, .outOfRange low high⟩ = true := by
  rw [Diagnostic.isOutOfRange, List.isPrefixOf_iff_prefix]
  show "Out of range".toList <+:
    ("Out of range (" ++ toString low ++ "," ++ toString high ++ ")").toList
  simp only [String.toList_append, List.append_assoc]
  exact (show "Out of range".toList <+: "Out of range (".toList by decide).trans
    (List.prefix_append _ _)

/-- Nothing else is told by these words. -/
theorem isOutOfRange_eq_false {span : Span} {finding : Finding}
    (h : ∀ low high, finding ≠ .outOfRange low high) :
    Diagnostic.isOutOfRange ⟨span, finding⟩ = false := by
  unfold Diagnostic.isOutOfRange
  cases finding with
  | outOfRange low high => exact absurd rfl (h low high)
  | badText cause =>
    obtain ⟨more, hmore⟩ := List.head?_eq_some_iff.1 (head?_message_badText cause)
    dsimp only
    rw [hmore]
    rfl
  | _ => dsimp only; decide +kernel

section Literal

theorem exists_of_isSign {node : Node} (h : isSign node = true) :
    ∃ text span, node = .leaf ⟨.token .unaryMinus, text, span⟩ ∨
      node = .leaf ⟨.token .unaryPlus, text, span⟩ := by
  rw [isSign, isToken, isToken, Bool.or_eq_true, beq_iff_eq, beq_iff_eq] at h
  rcases h with h | h
  · obtain ⟨text, span, rfl⟩ := Node.exists_of_token? h
    exact ⟨text, span, .inl rfl⟩
  · obtain ⟨text, span, rfl⟩ := Node.exists_of_token? h
    exact ⟨text, span, .inr rfl⟩

/-- One sign more in front of an operand. -/
theorem literal?_cons {node : Node} (h : isSign node = true) (operand : List Node) :
    literal? (node :: operand) = (literal? operand).map fun found =>
      found.map fun (value, span) =>
        (if isToken .unaryMinus node then -value else value, ⟨node.span.start, span.stop⟩) := by
  have hdrop : (node :: operand).drop ((node :: operand).takeWhile isSign).length =
      operand.drop (operand.takeWhile isSign).length := by
    rw [List.takeWhile_cons_of_pos h, List.length_cons, List.drop_succ_cons]
  by_cases hnumber : ∃ text span,
      operand.drop (operand.takeWhile isSign).length = [.leaf ⟨.integer, text, span⟩]
  · obtain ⟨text, span, hone⟩ := hnumber
    rw [literal?_of_number hone, literal?_of_number (hdrop.trans hone),
      List.takeWhile_cons_of_pos h]
    cases Numeral.readToken text with
    | error e => rfl
    | ok magnitude =>
      cases hminus : isToken .unaryMinus node with
      | false =>
        rw [List.filter_cons_of_neg (by simp [hminus])]
        rfl
      | true =>
        rw [List.filter_cons_of_pos hminus, List.length_cons]
        -- one more minus turns the parity around
        generalize ((operand.takeWhile isSign).filter (isToken .unaryMinus)).length = n
        rcases Nat.mod_two_eq_zero_or_one n with heven | hodd
        · have hturned : (n + 1) % 2 = 1 := by omega
          simp [hturned, heven, Except.map]
        · have hturned : (n + 1) % 2 = 0 := by omega
          simp [hturned, hodd, Except.map]
  · have hnone : ∀ text span,
        operand.drop (operand.takeWhile isSign).length ≠ [.leaf ⟨.integer, text, span⟩] :=
      fun text span hone => hnumber ⟨text, span, hone⟩
    rw [literal?_of_computed hnone, literal?_of_computed fun text span =>
      hdrop.symm ▸ hnone text span]
    rfl

/-- An operand begins with a sign, or it is nothing but an integer. -/
theorem isSign_or_of_signedNumber? {node : Node} {more : List Node}
    (h : signedNumber? (node :: more) ≠ none) :
    isSign node = true ∨ more = [] ∧ node.leafKind? = some .integer := by
  unfold signedNumber? at h
  split at h
  · cases ‹node :: more = _›
    exact .inr ⟨rfl, rfl⟩
  · cases ‹node :: more = _›
    exact .inl rfl
  · cases ‹node :: more = _›
    exact .inl rfl
  · exact absurd rfl h

theorem literal?_eq {operand : List Node} (h : Readable operand) :
    literal? operand = .ok (signedNumber? operand) := by
  induction operand with
  | nil => rfl
  | cons node more ih =>
    by_cases hsign : isSign node = true
    · rw [literal?_cons hsign, ih h.right]
      obtain ⟨text, span, rfl | rfl⟩ := exists_of_isSign hsign <;> rfl
    have hnone : (node :: more).takeWhile isSign = [] := List.takeWhile_cons_of_neg hsign
    by_cases hnumber : ∃ text span, node :: more = [.leaf ⟨.integer, text, span⟩]
    · obtain ⟨text, span, hone⟩ := hnumber
      rw [hone] at h ⊢
      have hread := h.readToken (l := ⟨.integer, text, span⟩) (by simp) rfl
      simp [literal?, isSign, isToken, Node.token?, hread, bind, Except.bind, pure, Except.pure,
        signedNumber?]
    · have hother : signedNumber? (node :: more) = none := by
        refine Decidable.of_not_not fun hsome => ?_
        rcases isSign_or_of_signedNumber? hsome with h | ⟨rfl, hkind⟩
        · exact hsign h
        · cases node with
          | leaf l =>
            have hinteger : l.kind = .integer := Option.some.inj hkind
            exact hnumber ⟨l.text, l.span, by rw [← hinteger]⟩
          | inner => cases hkind
      rw [hother]
      refine literal?_of_computed fun text span hone => hnumber ⟨text, span, ?_⟩
      rwa [hnone] at hone

end Literal

/-- Two operands that go on alike behind a sign are the same number. -/
theorem signedNumber?_congr {node : Node} (h : isSign node = true) {xs ys : List Node}
    (heq : signedNumber? xs = signedNumber? ys) :
    signedNumber? (node :: xs) = signedNumber? (node :: ys) := by
  obtain ⟨text, span, rfl | rfl⟩ := exists_of_isSign h
  · rw [signedNumber?, signedNumber?, heq]
  · rw [signedNumber?, signedNumber?, heq]

theorem upTo_cons {t : Token} {node : Node} (h : isToken t node = false) (more : List Node) :
    upTo t (node :: more) = node :: upTo t more :=
  List.takeWhile_cons_of_pos (by simp [h])

/-- A token that neither stands in an expression by itself nor opens a parenthesis there is not the
first node of one. -/
theorem isToken_head {t : Token} (hloose : (LeafKind.token t).isLoose = false)
    (hopens : (LeafKind.token t).opens = false) {node : Node} {more : List Node}
    (h : Matched (node :: more)) : isToken t node = false := by
  have hleaf : ∀ {l : Leaf}, l.kind ≠ .token t → isToken t (.leaf l) = false := by
    intro l hne
    rw [isToken, beq_eq_false_iff_ne]
    intro heq
    obtain ⟨text, span, hl⟩ := Node.exists_of_token? heq
    cases hl
    exact hne rfl
  cases h with
  | leaf h => exact hleaf fun heq => by rw [heq, hloose] at h; cases h
  | inner => rfl
  | bracket ho => exact hleaf fun heq => by rw [heq, hopens] at ho; cases ho

theorem isToken_of_mem {t : Token} (hloose : (LeafKind.token t).isLoose = false)
    (hopens : (LeafKind.token t).opens = false) (hclose : t ≠ .close) {nodes : List Node}
    (h : Matched nodes) : ∀ node ∈ nodes, isToken t node = false := by
  induction h with
  | nil => simp
  | leaf hl hrest ih =>
    exact List.forall_mem_cons.2 ⟨isToken_head hloose hopens (.leaf hl hrest), ih⟩
  | inner kind within hrest _ ih =>
    exact List.forall_mem_cons.2 ⟨isToken_head hloose hopens (.inner kind within hrest), ih⟩
  | bracket ho hc within hrest ih₁ ih₂ =>
    refine List.forall_mem_cons.2 ⟨isToken_head hloose hopens (.bracket ho hc within hrest), ?_⟩
    refine List.forall_mem_append.2 ⟨ih₁, List.forall_mem_cons.2 ⟨?_, ih₂⟩⟩
    rw [isToken, token?_of_kind hc]
    simpa using hclose.symm

/-- Up to the next closing parenthesis there is the same number as up to the matching one. -/
theorem signedNumber?_upTo {argument : List Node} (h : Matched argument) {closer : Leaf}
    (hc : closer.kind = .token .close) (more : List Node) :
    signedNumber? (upTo .close (argument ++ .leaf closer :: more)) = signedNumber? argument := by
  have hcloser : upTo .close (.leaf closer :: more) = [] :=
    List.takeWhile_cons_of_neg (by rw [isToken, token?_of_kind hc]; decide)
  have hhead : ∀ {node rest}, Matched (node :: rest) →
      upTo .close (node :: rest ++ .leaf closer :: more) =
        node :: upTo .close (rest ++ .leaf closer :: more) :=
    fun h => upTo_cons (isToken_head (by decide) (by decide) h) _
  have hnone : ∀ {node : Node} {xs : List Node}, isSign node = false →
      (xs = [] → node.leafKind? ≠ some .integer) → signedNumber? (node :: xs) = none := by
    intro node xs hsign hinteger
    cases hnumber : signedNumber? (node :: xs) with
    | none => rfl
    | some found =>
      rcases isSign_or_of_signedNumber? (by rw [hnumber]; simp) with hs | ⟨hnil, hkind⟩
      · rw [hsign] at hs
        cases hs
      · exact absurd hkind (hinteger hnil)
  induction h with
  | nil => rw [List.nil_append, hcloser]
  | @leaf l rest hl hrest ih =>
    rw [hhead (.leaf hl hrest)]
    cases hsign : isSign (.leaf l) with
    | true => exact signedNumber?_congr hsign ih
    | false =>
      cases rest with
      | nil => rw [List.nil_append, hcloser]
      | cons node rest => rw [hhead hrest, hnone hsign (by simp), hnone hsign (by simp)]
  | inner kind within hrest =>
    rw [hhead (.inner kind within hrest), hnone rfl (by simp [Node.leafKind?]),
      hnone rfl (by simp [Node.leafKind?])]
  | @bracket opener _ inside rest ho hc' within hrest =>
    have hsign : isSign (.leaf opener) = false := by
      rw [Bool.eq_false_iff]
      intro hsign
      obtain ⟨text, span, heq | heq⟩ := exists_of_isSign hsign <;> cases heq <;> cases ho
    have hkind : (Node.leaf opener).leafKind? ≠ some .integer := by
      intro heq
      rw [show opener.kind = .integer from Option.some.inj heq] at ho
      cases ho
    rw [hhead (.bracket ho hc' within hrest), hnone hsign fun _ => hkind,
      hnone hsign fun _ => hkind]

/-- The address of `POKE` goes up to its comma, behind which the byte stands. -/
theorem split_pokeComma {address : List Node} (h : Matched address) {comma : Leaf}
    (hcomma : comma.kind = .token .pokeComma) (byte : List Node) :
    upTo .pokeComma (address ++ .leaf comma :: byte) = address ∧
      behind .pokeComma (address ++ .leaf comma :: byte) = some byte := by
  let p : Node → Bool := fun node => !isToken .pokeComma node
  have hnone : ∀ node ∈ address, p node = true := fun node hnode => by
    rw [Bool.not_eq_true', isToken_of_mem (by decide) (by decide) (by simp) h node hnode]
  have hstop : ¬p (.leaf comma) = true := by
    rw [Bool.not_eq_true', isToken, token?_of_kind hcomma]
    decide
  constructor
  · exact (List.takeWhile_append_of_pos hnone).trans
      (by rw [List.takeWhile_cons_of_neg hstop, List.append_nil])
  · have hdrop : (address ++ .leaf comma :: byte).dropWhile p = .leaf comma :: byte :=
      (List.dropWhile_append_of_pos hnone).trans (List.dropWhile_cons_of_neg hstop)
    rw [behind, hdrop]

/-- The operands of a word as the second pass finds them behind it. -/
def scanned (t : Token) (following : List Node) : List (Quantity × List Node) :=
  match t with
  | .poke =>
    (.address, upTo .pokeComma following) ::
      (behind .pokeComma following).toList.map fun byte => (.byte, byte)
  | .peek => [(.address, upTo .close following.tail)]
  | .color => [(.byte, following)]
  | .call => [(.address, following)]
  | _ => []

def scanned? (seat : Seat) : Option (List (Quantity × List Node)) :=
  (seat.node.token?.filter Token.isBounded).map (scanned · seat.following)

theorem scanned?_eq_some {word : Leaf} {t : Token} (hword : word.kind = .token t)
    (ht : t.isBounded = true) (left following : List Node) :
    scanned? ⟨.leaf word, left, following⟩ = some (scanned t following) := by
  rw [scanned?, token?_of_kind hword, Option.filter_some, if_pos ht, Option.map_some]

theorem scanned?_eq_none {node : Node} (h : node.leafKind?.any LeafKind.isBounded = false)
    (left following : List Node) : scanned? ⟨node, left, following⟩ = none := by
  have hnone : node.token?.filter Token.isBounded = none := by
    obtain ⟨⟨kind, text, span⟩⟩ | ⟨label, children⟩ := node
    · cases kind with
      | token t =>
        exact Option.filter_some_neg (by simpa [Node.leafKind?, LeafKind.isBounded] using h)
      | _ => rfl
    · rfl
  rw [scanned?, hnone]
  rfl

/-- The second pass finds what the grammar puts behind a word, as far as it is written as a
number. -/
theorem scanned_of_supplies {node : Node} {following : List Node}
    {own : List (Quantity × List Node)} (h : Supplies node following own) (left : List Node) :
    ((scanned? ⟨node, left, following⟩).getD []).filterMap rangeError? =
      own.filterMap rangeError? := by
  cases h with
  | poke hword hcomma haddress _ =>
    obtain ⟨hupTo, hbehind⟩ := split_pokeComma haddress hcomma _
    rw [scanned?_eq_some hword rfl, Option.getD_some, scanned, hupTo, hbehind]
    rfl
  | peek hword _ hcloser hargument =>
    rw [scanned?_eq_some hword rfl, Option.getD_some, scanned, List.tail_cons]
    simp only [List.filterMap_cons, rangeError?, signedNumber?_upTo hargument hcloser]
  | color hword _ => rw [scanned?_eq_some hword rfl]; rfl
  | call hword _ => rw [scanned?_eq_some hword rfl]; rfl
  | none h => rw [scanned?_eq_none h]; rfl

/-- So it finds the operands of a whole tree, each once. -/
theorem scanned_of_operands {nodes : List Node} {operands : List (Quantity × List Node)}
    (h : Operands nodes operands) (left : List Node) :
    ((seats left nodes).filterMap scanned?).flatten.filterMap rangeError? =
      operands.filterMap rangeError? := by
  induction h generalizing left with
  | nil =>
    rw [seats]
    rfl
  | @cons node more own below behind hown _ _ ih₁ ih₂ =>
    have hseat := scanned_of_supplies hown left
    rw [seats, List.filterMap_cons, List.filterMap_append, List.filterMap_append,
      List.filterMap_append, ← ih₁ [], ← ih₂ (node :: left), ← hseat]
    cases scanned? ⟨node, left, more⟩ <;> simp

/-- What is reported besides other things is that some operands are out of range. -/
def Ranged (found : List (List (Quantity × List Node))) (state state' : State) : Prop :=
  ∃ more, state'.diagnostics = state.diagnostics ++ more ∧
    more.filter (·.isOutOfRange) = found.flatten.filterMap rangeError?

namespace Ranged

theorem nil (state : State) : Ranged [] state state := ⟨[], by simp, rfl⟩

theorem append {xs ys : List (List (Quantity × List Node))} {s t u : State} (h₁ : Ranged xs s t)
    (h₂ : Ranged ys t u) : Ranged (xs ++ ys) s u := by
  obtain ⟨more₁, hmore₁, hfilter₁⟩ := h₁
  obtain ⟨more₂, hmore₂, hfilter₂⟩ := h₂
  refine ⟨more₁ ++ more₂, by rw [hmore₂, hmore₁, List.append_assoc], ?_⟩
  rw [List.filter_append, hfilter₁, hfilter₂, List.flatten_append, List.filterMap_append]

/-- Nothing is reported of operands. -/
theorem of_other {state state' : State} {more : List Diagnostic}
    (h : state'.diagnostics = state.diagnostics ++ more)
    (hother : ∀ d ∈ more, ∀ low high, d.finding ≠ .outOfRange low high) :
    Ranged [] state state' := by
  refine ⟨more, h, List.filter_eq_nil_iff.2 ?_⟩
  rintro ⟨span, finding⟩ hd
  rw [isOutOfRange_eq_false (hother _ hd)]
  exact Bool.false_ne_true

theorem report {finding : Finding} (h : ∀ low high, finding ≠ .outOfRange low high)
    (state : State) (span : Span) : Ranged [] state (state.report span finding) := by
  have hother : ∀ d ∈ [(⟨span, finding⟩ : Diagnostic)], ∀ low high,
      d.finding ≠ .outOfRange low high := by
    simpa using h
  exact of_other rfl hother

theorem of_remarked {symbols : Symbols} {state state' : State}
    (h : Remarked symbols state state') : Ranged [] state state' := by
  obtain ⟨remarks, hremarks, hremark⟩ := h.reports
  refine of_other hremarks fun d hd low high hfinding => ?_
  have hno := hremark d hd
  rw [hfinding] at hno
  cases hno

theorem checkBranch {seat : Seat} {isGosub : Bool} {state state' : State} {next : Directive}
    (h : checkBranch seat isGosub state = .ok (next, state')) : Ranged [] state state' := by
  cases branched_of_checkBranch h with
  | computed => exact nil state
  | known => exact of_other (List.append_nil _).symm (by simp)
  | unsure => exact report (by simp) state _
  | dead => exact report (by simp) state _

/-- An operand is held against its bounds. -/
theorem checkRange {quantity : Quantity} {operand : List Node} (hread : Readable operand)
    {state state' : State}
    (h : checkRange operand quantity.low quantity.high state = .ok state') :
    Ranged [[(quantity, operand)]] state state' := by
  cases measured_of_checkRange h with
  | computed hvalue =>
    rw [literal?_eq hread] at hvalue
    have hnone : rangeError? (quantity, operand) = none := by
      rw [rangeError?, Except.ok.inj hvalue, Option.bind_none]
    exact ⟨[], by simp, by simp [hnone]⟩
  | within hvalue hbounds =>
    rw [literal?_eq hread] at hvalue
    have hnone : rangeError? (quantity, operand) = none := by
      rw [rangeError?, Except.ok.inj hvalue, Option.bind_some]
      exact if_pos hbounds
    exact ⟨[], by simp, by simp [hnone]⟩
  | @outside _ span hvalue hbounds =>
    rw [literal?_eq hread] at hvalue
    have hsome : rangeError? (quantity, operand) =
        some ⟨span, .outOfRange quantity.low quantity.high⟩ := by
      rw [rangeError?, Except.ok.inj hvalue, Option.bind_some]
      exact if_neg hbounds
    exact ⟨[⟨span, .outOfRange quantity.low quantity.high⟩], rfl,
      by simp [hsome, isOutOfRange_outOfRange]⟩

/-- The operands of a word are those that are found behind it. -/
theorem checkOperands {t : Token} (ht : t.isBounded = true) {following : List Node}
    (hread : Readable following) {state state' : State}
    (h : checkOperands t following state = .ok state') :
    Ranged [scanned t following] state state' := by
  have address : ∀ {operand : List Node} {s s' : State}, operand <:+: following →
      Analysis.checkRange operand (-addressLimit) addressLimit s = .ok s' →
      Ranged [[(.address, operand)]] s s' :=
    fun hinfix hrange => @checkRange .address _ (hread.mono hinfix) _ _ hrange
  have byte : ∀ {operand : List Node} {s s' : State}, operand <:+: following →
      Analysis.checkRange operand 0 byteLimit s = .ok s' → Ranged [[(.byte, operand)]] s s' :=
    fun hinfix hrange => @checkRange .byte _ (hread.mono hinfix) _ _ hrange
  cases t with
  | poke =>
    unfold Analysis.checkOperands at h
    have hprefix : upTo .pokeComma following <:+: following := (List.takeWhile_prefix _).isInfix
    cases hfirst : Analysis.checkRange (upTo .pokeComma following) (-addressLimit) addressLimit
        state with
    | error e =>
      rw [hfirst] at h
      cases h
    | ok state₁ =>
      rw [hfirst] at h
      rw [scanned]
      cases hbehind : behind .pokeComma following with
      | none =>
        simp only [hbehind] at h
        cases h
        exact address hprefix hfirst
      | some operand =>
        simp only [hbehind] at h
        exact (address hprefix hfirst).append (byte (suffix_of_behind hbehind).isInfix h)
  | peek =>
    have hinfix : upTo .close following.tail <:+: following :=
      (List.takeWhile_prefix _).isInfix.trans (List.tail_suffix following).isInfix
    exact address hinfix h
  | color => exact byte (List.infix_refl _) h
  | call => exact address (List.infix_refl _) h
  | _ => cases ht

end Ranged

theorem checkOperands_of_not_isBounded {t : Token} (ht : t.isBounded = false)
    (following : List Node) (state : State) : checkOperands t following state = .ok state := by
  cases t with
  | poke | peek | color | call => cases ht
  | _ => rfl

/-- One visit of the second pass reports the operands of the word that sits there. -/
theorem checkAt_ranged {settings : Settings} {seat : Seat} {state state' : State}
    {next : Directive} (hread : Readable (seat.node :: seat.following))
    (h : checkAt settings seat state = .ok (next, state')) :
    Ranged (scanned? seat).toList state state' := by
  obtain ⟨node, left, following⟩ := seat
  have hcase := fun l => Ranged.of_remarked (.checkCase settings l state)
  cases checked_of_checkAt h with
  | inner hnode =>
    cases hnode
    rw [scanned?_eq_none rfl]
    exact .of_remarked (.checkInner _ _ _ _)
  | error hnode hkind =>
    cases hnode
    rw [scanned?_eq_none (by simp [Node.leafKind?, hkind, LeafKind.isBounded])]
    exact (hcase _).append (.report (by simp) _ _)
  | @branch l t _ _ hnode hkind ht hbranch =>
    cases hnode
    have hbounded : t.isBounded = false := by
      cases t with
      | goto | gosub | thenLine => rfl
      | _ => cases ht
    rw [scanned?_eq_none (by simp [Node.leafKind?, hkind, LeafKind.isBounded, hbounded])]
    exact (hcase _).append (.checkBranch hbranch)
  | @word l t _ hnode hkind _ hoperands =>
    cases hnode
    cases ht : t.isBounded with
    | true =>
      rw [scanned?_eq_some hkind ht]
      exact (hcase _).append (.checkOperands ht hread.right hoperands)
    | false =>
      rw [checkOperands_of_not_isBounded ht] at hoperands
      cases hoperands
      rw [scanned?_eq_none (by simp [Node.leafKind?, hkind, LeafKind.isBounded, ht])]
      exact hcase _
  | declared hnode hkind =>
    cases hnode
    rw [scanned?_eq_none (by simp [Node.leafKind?, hkind, LeafKind.isBounded])]
    exact hcase _
  | name hnode hkind =>
    cases hnode
    rw [scanned?_eq_none (by simp [Node.leafKind?, hkind, LeafKind.isBounded])]
    exact (hcase _).append (.of_remarked (.checkVariable _ _ _ _))
  | @plain l hnode hword =>
    cases hnode
    have hbounded : l.kind.isBounded = false := by
      cases hkind : l.kind with
      | token t => exact absurd hkind (hword t)
      | _ => rfl
    rw [scanned?_eq_none (by simpa [Node.leafKind?] using hbounded)]
    exact hcase _

theorem checkPass_ranged (settings : Settings) (tree : Node) (state : State)
    (hread : Readable tree.children) (hlast : ErrorsLast tree.children) :
    ∃ state', checkPass settings tree state = .ok state' ∧
      Ranged (tree.seats.filterMap scanned?) state state' := by
  refine checkPass_collects (P := fun _ => True) Ranged.nil Ranged.append ?_
    (fun hread _ _ hok => ⟨checkAt_ranged hread hok, trivial⟩) hread hlast trivial
  intro l left right h
  refine scanned?_eq_none ?_ left right
  cases hkind : l.kind with
  | token t => rcases h with h | h <;> simp [hkind, LeafKind.isError] at h
  | _ => simp [Node.leafKind?, hkind, LeafKind.isBounded]

/-- The operands of a sound program stand where the grammar puts them. The numbers out of range that
the second pass reports behind what the first has found are those operands that are written as
numbers and miss their bounds, in the order of the words, and each is reported at the place from its
first sign to its integer. -/
theorem rangeErrors_ofProgram (settings : Settings) (text : List Char)
    (sound : (program text).hasError = false) (read : Readable (program text).children) :
    ∃ first analysis more, declarePass (program text) {} = .ok first ∧
      ofProgram settings text = .ok analysis ∧
      analysis.diagnostics = first.diagnostics ++ more ∧
      (∃ operands, Operands (program text).children operands) ∧
      ∀ operands, Operands (program text).children operands →
        more.filter (·.isOutOfRange) = operands.filterMap rangeError? := by
  obtain ⟨first, hdeclare, -⟩ := declarePass_ok (program text) {} read
  obtain ⟨state, hcheck, more, hmore, hfilter⟩ :=
    checkPass_ranged settings (program text) first read (Grammar.errorsLast_program text)
  refine ⟨first, ⟨state.diagnostics, state.symbols⟩, more, hdeclare, ?_, hmore,
    Grammar.operands_program sound, fun operands hoperands => ?_⟩
  · rw [ofProgram, hdeclare]
    exact congrArg (Except.map fun s : State => (⟨s.diagnostics, s.symbols⟩ : Analysis)) hcheck
  · exact hfilter.trans (scanned_of_operands hoperands [])

/-- Calls in each other and as a target, an operand behind `THEN`, and signs in runs. -/
theorem rangeErrors_nested :
    let text := ("10 POKE --40000,-+1:IF PEEK(PEEK(-32768)) THEN COLOR=-+-256\n" ++
      "20 GOTO PEEK(99999):CALL -936").toList
    ∃ first analysis more, declarePass (program text) {} = .ok first ∧
      ofProgram {} text = .ok analysis ∧
      analysis.diagnostics = first.diagnostics ++ more ∧
      (∃ operands, Operands (program text).children operands) ∧
      ∀ operands, Operands (program text).children operands →
        more.filter (·.isOutOfRange) = operands.filterMap rangeError? :=
  rangeErrors_ofProgram {} _ (by decide +kernel) (by unfold Readable; decide +kernel)

/-- All there is to report of these operands. -/
example : ((ofProgram {} ("10 POKE --40000,-+1:IF PEEK(PEEK(-32768)) THEN COLOR=-+-256\n" ++
      "20 GOTO PEEK(99999):CALL -936").toList).toOption.map (·.diagnostics)) = some [
    ⟨⟨⟨0, 8⟩, ⟨0, 15⟩⟩, .outOfRange (-32767) 32767⟩, ⟨⟨⟨0, 16⟩, ⟨0, 19⟩⟩, .outOfRange 0 255⟩,
    ⟨⟨⟨0, 33⟩, ⟨0, 39⟩⟩, .outOfRange (-32767) 32767⟩, ⟨⟨⟨0, 53⟩, ⟨0, 59⟩⟩, .outOfRange 0 255⟩,
    ⟨⟨⟨1, 13⟩, ⟨1, 18⟩⟩, .outOfRange (-32767) 32767⟩] := by
  decide +kernel

end Analysis

end IntegerBasic
