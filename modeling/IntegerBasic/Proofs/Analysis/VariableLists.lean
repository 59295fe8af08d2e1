import IntegerBasic.Proofs.Analysis.DeclaredVariables
import IntegerBasic.Proofs.Record.PaddedLines

/-!
# Lists of variables that can be stored

The first pass reads no more than 64 variables of a list of `DIM` or `INPUT`. No line that can be
stored has a list as long as that: every leaf of a line takes at least one byte, a variable of a
list and the word or comma before it are two leaves, and a line has room for 126 bytes. So the
first pass reads every such list to its end.
-/

namespace IntegerBasic

namespace Record

open Grammar Lexeme

theorem storeName_ne_nil {s text rest : List Char} (h : name s = some (text, rest)) :
    storeName text ≠ [] := by
  obtain ⟨c, run, tail, rfl, hc, -, -⟩ := name_some h
  have hletter : Text.isBlank c = false :=
    isBlank_of_isAlphanum (by rw [Char.isAlphanum, hc, Bool.true_or])
  have hblank : Text.isBlankText (c :: run ++ tail) = false := by simp [Text.isBlankText, hletter]
  exact fun hnil => upper_withoutBlanks_ne_nil hblank (List.map_eq_nil_iff.1 hnil)

/-- A leaf that has been read is stored in at least one byte. -/
theorem storeLeaf_ne_nil {kind : LeafKind} {s text rest : List Char}
    (h : Takes kind s text rest) (span : Span) : storeLeaf ⟨kind, text, span⟩ ≠ .ok [] := by
  intro hstore
  have hnumber : ∀ {f : Nat → List UInt8}, (∀ n, f n ≠ []) →
      (do return f (← Numeral.readToken text) : Except Numeral.Fault (List UInt8)) ≠ .ok [] := by
    intro f hf hread
    cases hvalue : Numeral.readToken text with
    | error fault =>
      rw [hvalue] at hread
      cases hread
    | ok n =>
      rw [hvalue] at hread
      exact hf n (Except.ok.inj hread)
  cases kind with
  | token t => cases hstore
  | name type => exact storeName_ne_nil h.name.1 (Except.ok.inj hstore)
  | integer | lineArgument => exact hnumber (fun _ => List.cons_ne_nil _ _) hstore
  | string => cases hstore
  | lineNumber => exact Takes.ne_lineNumber h rfl
  | comment | error => cases h with | reads h => cases h

theorem storeLeaf_ne_nil_of_written {q : Bool} {i : Input} {L : List Leaf} (h : Written q i L) :
    ∀ l ∈ L, storeLeaf l ≠ .ok [] := by
  induction h with
  | done => exact List.forall_mem_nil _
  | leaf takes _ _ _ ih => exact List.forall_mem_cons.2 ⟨storeLeaf_ne_nil takes _, ih⟩
  | bareRemark => exact List.forall_mem_singleton.2 (by rintro ⟨⟩)
  | remark _ ne =>
    refine List.forall_mem_cons.2 ⟨by rintro ⟨⟩, List.forall_mem_singleton.2 fun hstore => ?_⟩
    exact storeText_ne_nil ne (Except.ok.inj hstore)

/-- Leaves that are stored in at least one byte each are stored in as many bytes. -/
theorem length_le_of_storeLeaves {L : List Leaf} {bytes : List UInt8}
    (h : storeLeaves L = .ok bytes) (hne : ∀ l ∈ L, storeLeaf l ≠ .ok []) :
    L.length ≤ bytes.length := by
  induction L generalizing bytes with
  | nil => exact Nat.zero_le _
  | cons l L ih =>
    obtain ⟨first, more, hfirst, hmore, rfl⟩ := storeLeaves_cons h
    obtain ⟨hl, hne⟩ := List.forall_mem_cons.1 hne
    have hpos : 0 < first.length := by
      rw [List.length_pos_iff]
      rintro rfl
      exact hl hfirst
    have hrest := ih hmore hne
    rw [List.length_cons, List.length_append]
    omega

/-- The body of a sound line has at least as many bytes as the line has leaves. -/
theorem length_leaves_le {row : Int} {s : List Char} (htab : '\t' ∉ s.takeWhile Text.isGap)
    (sound : (line row s).hasError = false) {bytes : List UInt8} (h : body s = .ok bytes) :
    (line row s).leaves.length ≤ bytes.length := by
  have sound₀ := sound_row sound 0
  obtain ⟨number, rest, hs⟩ := exists_lineNumber sound₀
  rw [body_eq htab sound₀] at h
  rw [(forall₂_leaves_line sound 0).length_eq]
  refine length_le_of_storeLeaves h ?_
  rw [leaves_line hs]
  refine List.forall_mem_cons.2 ⟨?_, storeLeaf_ne_nil_of_written (written_line hs sound₀)⟩
  intro hstore
  obtain ⟨-, hbytes⟩ := storeLeaf_lineNumber hstore
  cases hbytes

end Record

namespace Analysis

open Grammar

/-- A variable of a list stands right behind this node: behind the word that opens the list, behind
the comma of its prompt, or behind a comma of the list. -/
def leadsVariable (node : Node) : Bool :=
  match node.token? with
  | some (.dim _) | some .dimComma | some (.input _) | some .promptComma | some .inputComma => true
  | _ => false

theorem exists_of_opensList {node : Node} (h : opensList node = true) :
    ∃ text span, (∃ type, node = .leaf ⟨.token (.dim type), text, span⟩) ∨
      (∃ type, node = .leaf ⟨.token (.input type), text, span⟩) ∨
      node = .leaf ⟨.token .inputPrompt, text, span⟩ := by
  unfold opensList at h
  split at h
  · obtain ⟨text, span, rfl⟩ := Node.exists_of_token? ‹_›
    exact ⟨text, span, .inl ⟨_, rfl⟩⟩
  · obtain ⟨text, span, rfl⟩ := Node.exists_of_token? ‹_›
    exact ⟨text, span, .inr (.inl ⟨_, rfl⟩)⟩
  · obtain ⟨text, span, rfl⟩ := Node.exists_of_token? ‹_›
    exact ⟨text, span, .inr (.inr rfl)⟩
  · cases h

/-- The variables of a list that is given from its word on. -/
def listedVariables : List Node → List Node
  | before :: node :: more =>
    if leadsVariable before then node :: listedVariables (node :: more)
    else listedVariables (node :: more)
  | _ => []

theorem listedVariables_cons {before : Node} (h : leadsVariable before = true) (node : Node)
    (more : List Node) :
    listedVariables (before :: node :: more) = node :: listedVariables (node :: more) := by
  rw [listedVariables, if_pos h]

theorem listedVariables_cons_of_not {before : Node} (h : leadsVariable before = false)
    (more : List Node) : listedVariables (before :: more) = listedVariables more := by
  cases more with
  | nil => rfl
  | cons node more => rw [listedVariables, if_neg (by simp [h])]

/-- No list of variables is opened or goes on at an ordinary leaf. -/
theorem of_isOrdinary {l : Leaf} (h : l.kind.isOrdinary = true) :
    leadsVariable (.leaf l) = false ∧ opensList (.leaf l) = false := by
  obtain ⟨kind, text, span⟩ := l
  cases kind with
  | token t =>
    have ht : t.isListing = false := by simpa [LeafKind.isOrdinary] using h
    unfold leadsVariable opensList Node.token?
    constructor <;> split <;> simp_all [Token.isListing]
  | _ => exact ⟨rfl, rfl⟩

theorem listedVariables_ordinary {nodes : List Node} (h : Ordinary nodes) (more : List Node) :
    listedVariables (nodes ++ more) = listedVariables more := by
  induction h with
  | nil => rfl
  | leaf h _ ih => rw [List.cons_append, listedVariables_cons_of_not (of_isOrdinary h).1, ih]
  | inner _ _ _ _ ih => rw [List.cons_append, listedVariables_cons_of_not rfl, ih]

inductive IsExtent : List Node → Prop
  | none : IsExtent []
  | some {first last : Leaf} {type : DataType} {inside : List Node}
      (hfirst : first.kind = .token (.openDim type)) (hlast : last.kind = .token .close)
      (within : Matched inside) : IsExtent (.leaf first :: (inside ++ [.leaf last]))

inductive Lists : List Node → Prop
  | nil : Lists []
  | cons {lead : Leaf} {node : Node} {extent more : List Node}
      (hlead : leadsVariable (.leaf lead) = true) (hnode : IsVariable node)
      (hextent : IsExtent extent) (rest : Lists more) :
      Lists (.leaf lead :: node :: (extent ++ more))

inductive IsList : List Node → Prop
  | plain {nodes : List Node} (h : Lists nodes) : IsList nodes
  | prompt {word text : Leaf} {nodes : List Node} (hword : word.kind = .token .inputPrompt)
      (htext : text.kind = .string) (h : Lists nodes) : IsList (.leaf word :: .leaf text :: nodes)

theorem ordinary_variable {node : Node} (h : IsVariable node) : Ordinary [node] := by
  cases h with
  | name h => exact .leaf (isOrdinary_of_isLoose (isLoose_of_isName h)) .nil
  | element kind h rest =>
    exact .inner (by rw [kind]; rfl)
      (.leaf (isOrdinary_of_isLoose (isLoose_of_isName h)) rest) .nil

theorem IsExtent.ordinary {extent : List Node} (h : IsExtent extent) : Ordinary extent := by
  cases h with
  | none => exact .nil
  | some hfirst hlast within =>
    exact .leaf (by rw [hfirst]; rfl) (within.ordinary.append (.leaf (by rw [hlast]; rfl) .nil))

/-- The first pass finds nothing in an extent. -/
theorem IsExtent.targets {extent : List Node} (h : IsExtent extent) (more : List Node) :
    targets (extent ++ more) = targets more := by
  cases h with
  | none => rfl
  | some hfirst hlast within => simpa using targets_extended hfirst hlast within more

theorem lists_of_declares {t : Token} {nodes : List Node} (h : Declares t nodes)
    (ht : ∀ l : Leaf, l.kind = .token t → leadsVariable (.leaf l) = true) : Lists nodes := by
  have hcomma : ∀ l : Leaf, l.kind = .token .dimComma → leadsVariable (.leaf l) = true :=
    fun l hl => by rw [leadsVariable, token?_of_kind hl]
  induction h with
  | nil => exact .nil
  | cons hlead hname hfirst hlast within _ ih =>
    simpa using Lists.cons (ht _ hlead) (.name hname) (.some hfirst hlast within) (ih hcomma)

theorem lists_of_asks {t : Token} {nodes : List Node} (h : Asks t nodes)
    (ht : ∀ l : Leaf, l.kind = .token t → leadsVariable (.leaf l) = true) : Lists nodes := by
  have hcomma : ∀ l : Leaf, l.kind = .token .inputComma → leadsVariable (.leaf l) = true :=
    fun l hl => by rw [leadsVariable, token?_of_kind hl]
  induction h with
  | nil => exact .nil
  | cons hlead hnode _ ih => exact .cons (ht _ hlead) hnode .none (ih hcomma)

/-- The first pass finds a variable by its key and its place. -/
def IsFound (node : Node) (found : Variable × Span) : Prop :=
  (∃ l, node.variableName? = some l ∧ found.1.key = keyOf l.text) ∧ found.2 = node.span

/-- A variable with its extent is one variable of its list. -/
theorem listedVariables_item {lead node : Node} {extent : List Node}
    (hlead : leadsVariable lead = true) (hnode : IsVariable node) (hextent : IsExtent extent)
    (more : List Node) :
    listedVariables (lead :: node :: (extent ++ more)) = node :: listedVariables more := by
  have hordinary : Ordinary (node :: extent) := (ordinary_variable hnode).append hextent.ordinary
  rw [listedVariables_cons hlead, ← List.cons_append, listedVariables_ordinary hordinary]

/-- A prompt is no variable of its list. -/
theorem listedVariables_prompt {word text : Leaf} (hword : word.kind = .token .inputPrompt)
    (htext : text.kind = .string) (more : List Node) :
    listedVariables (.leaf word :: .leaf text :: more) = listedVariables more := by
  have hordinary : Ordinary [.leaf text] := .leaf (by rw [htext]; rfl) .nil
  rw [listedVariables_cons_of_not (by rw [leadsVariable, token?_of_kind hword])]
  exact listedVariables_ordinary hordinary more

/-- The variables of a list are what the first pass finds in it, one for one. -/
theorem Lists.found {nodes : List Node} (h : Lists nodes) :
    List.Forall₂ IsFound (listedVariables nodes) (targets nodes) := by
  induction h with
  | nil => exact .nil
  | @cons lead node extent more hlead hnode hextent rest ih =>
    have hopen : ∀ type, (Node.leaf lead).token? ≠ some (.openDim type) := by
      intro type htoken
      rw [leadsVariable, htoken] at hlead
      cases hlead
    have hleaf : lead.kind.isName = false := by
      obtain ⟨kind, text, span⟩ := lead
      cases kind with
      | name => cases hlead
      | _ => rfl
    obtain ⟨l, hl, htargets⟩ := target_variable hnode
    obtain ⟨v, hv, hkey⟩ := htargets (extent ++ more)
    rw [listedVariables_item hlead hnode hextent,
      targets_cons_none hopen (targetVariable?_leaf hleaf _), hv, hextent.targets]
    exact .cons ⟨⟨l, hl, hkey⟩, rfl⟩ ih

/-- A variable of a list and the word or comma before it have a leaf each. -/
theorem Lists.length_le {nodes : List Node} (h : Lists nodes) :
    2 * (listedVariables nodes).length ≤ (Node.leavesOf nodes).length := by
  induction h with
  | nil => exact Nat.zero_le _
  | @cons lead node extent more hlead hnode hextent rest ih =>
    have hleaf : 1 ≤ node.leaves.length := by
      cases hnode with
      | name => simp
      | element => simp
    rw [listedVariables_item hlead hnode hextent]
    simp only [List.length_cons, Node.leavesOf_cons, Node.leavesOf_append, Node.leaves_leaf,
      List.length_append, List.length_nil]
    omega

namespace IsList

variable {nodes : List Node}

theorem found (h : IsList nodes) :
    List.Forall₂ IsFound (listedVariables nodes) (targets nodes) := by
  cases h with
  | plain h => exact h.found
  | prompt hword htext h =>
    rw [listedVariables_prompt hword htext, targets_lead hword (by simp), targets_string htext]
    exact h.found

theorem length_le (h : IsList nodes) :
    2 * (listedVariables nodes).length ≤ (Node.leavesOf nodes).length := by
  cases h with
  | plain h => exact h.length_le
  | prompt hword htext h =>
    have hle := h.length_le
    rw [listedVariables_prompt hword htext]
    simp only [Node.leavesOf_cons, Node.leaves_leaf, List.length_append, List.length_cons]
    omega

end IsList

/-- A list that is opened among ordinary nodes and others is opened among the others. -/
theorem mem_seats_of_ordinary {nodes more left : List Node} (h : Ordinary nodes) {seat : Seat}
    (hseat : seat ∈ seats left (nodes ++ more)) (hopen : opensList seat.node = true) :
    seat ∈ seats (nodes.reverse ++ left) more := by
  induction h generalizing left more with
  | nil => exact hseat
  | @leaf l nodes h _ ih =>
    rw [List.reverse_cons, List.append_assoc]
    rcases mem_seats_leaf.1 hseat with rfl | hright
    · rw [(of_isOrdinary h).2] at hopen
      cases hopen
    · exact ih hright
  | @inner label children nodes _ _ _ ih₁ ih₂ =>
    rw [List.reverse_cons, List.append_assoc]
    rcases mem_seats_cons.1 hseat with rfl | hbelow | hright
    · cases hopen
    · have hnone : seat ∈ seats (children.reverse ++ []) [] := ih₁ (by rwa [List.append_nil])
      exact absurd hnone not_mem_seats_nil
    · exact ih₂ hright

theorem not_opensList_of_ordinary {nodes left : List Node} (h : Ordinary nodes) {seat : Seat}
    (hseat : seat ∈ seats left nodes) : opensList seat.node ≠ true := by
  intro hopen
  have hnone : seat ∈ seats (nodes.reverse ++ left) [] :=
    mem_seats_of_ordinary h (by rwa [List.append_nil]) hopen
  exact not_mem_seats_nil hnone

theorem Lists.of_mem_seats {nodes left : List Node} (h : Lists nodes) {seat : Seat}
    (hseat : seat ∈ seats left nodes) (hopen : opensList seat.node = true) :
    Lists (seat.node :: seat.following) := by
  induction h generalizing left with
  | nil => exact absurd hseat not_mem_seats_nil
  | @cons lead node extent more hlead hnode hextent rest ih =>
    rcases mem_seats_leaf.1 hseat with rfl | hright
    · exact .cons hlead hnode hextent rest
    · exact ih (mem_seats_of_ordinary
        ((ordinary_variable hnode).append hextent.ordinary) hright hopen)

/-- What a word opens in a sound statement is a list. -/
theorem isList_of_phrase {children left : List Node} (h : Phrase children) {seat : Seat}
    (hseat : seat ∈ seats left children) (hopen : opensList seat.node = true) :
    IsList (seat.node :: seat.following) := by
  induction h generalizing left with
  | ordinary h => exact absurd hopen (not_opensList_of_ordinary h hseat)
  | dimension h =>
    have hlists := lists_of_declares h fun l hl => by rw [leadsVariable, token?_of_kind hl]
    exact .plain (hlists.of_mem_seats hseat hopen)
  | input h =>
    have hlists := lists_of_asks h fun l hl => by rw [leadsVariable, token?_of_kind hl]
    exact .plain (hlists.of_mem_seats hseat hopen)
  | @prompt word text nodes hword htext h =>
    have hlists := lists_of_asks h fun l hl => by rw [leadsVariable, token?_of_kind hl]
    have htext' : Ordinary [.leaf text] := .leaf (by rw [htext]; rfl) .nil
    rcases mem_seats_leaf.1 hseat with rfl | hright
    · exact .prompt hword htext hlists
    · exact .plain (hlists.of_mem_seats (mem_seats_of_ordinary htext' hright hopen) hopen)
  | @forLoop word name nodes hword hname h =>
    have hrest : Ordinary (.leaf name :: nodes) :=
      .leaf (isOrdinary_of_isLoose (isLoose_of_isName hname)) h
    rcases mem_seats_leaf.1 hseat with rfl | hright
    · rw [opensList, token?_of_kind hword] at hopen
      cases hopen
    · exact absurd hopen (not_opensList_of_ordinary hrest hright)
  | assignment kind hnode h =>
    rcases mem_seats_singleton.1 hseat with rfl | hbelow
    · cases hopen
    · exact absurd hopen (not_opensList_of_ordinary ((ordinary_variable hnode).append h) hbelow)
  | @letAssignment label type word node nodes kind hword hnode h =>
    have hrest : Ordinary (.leaf word :: ([node] ++ nodes)) :=
      .leaf (by rw [hword]; rfl) ((ordinary_variable hnode).append h)
    rcases mem_seats_singleton.1 hseat with rfl | hbelow
    · cases hopen
    · exact absurd hopen (not_opensList_of_ordinary hrest hbelow)
  | conditional h kind _ ih =>
    rcases mem_seats_singleton.1 (mem_seats_of_ordinary h hseat hopen) with rfl | hbelow
    · cases hopen
    · exact ih hbelow

/-- What a word opens in a sound line is a list. -/
theorem isList_of_phrases {nodes left : List Node} (h : Phrases nodes) {seat : Seat}
    (hseat : seat ∈ seats left nodes) (hopen : opensList seat.node = true) :
    IsList (seat.node :: seat.following) := by
  induction h generalizing left with
  | nil => exact absurd hseat not_mem_seats_nil
  | number h _ ih =>
    rcases mem_seats_leaf.1 hseat with rfl | hright
    · obtain ⟨text, span, ⟨type, heq⟩ | ⟨type, heq⟩ | heq⟩ := exists_of_opensList hopen
      all_goals
        cases heq
        cases h
    · exact ih hright
  | colon h _ ih =>
    rcases mem_seats_leaf.1 hseat with rfl | hright
    · rw [opensList, token?_of_kind h] at hopen
      cases hopen
    · exact ih hright
  | phrase kind h _ ih =>
    rcases mem_seats_cons.1 hseat with rfl | hbelow | hright
    · cases hopen
    · exact isList_of_phrase h hbelow hopen
    · exact ih hright

/-- What the first pass does with the variables it has found in the list behind a word. -/
def takeIn (word : Node) (found : List (Variable × Span)) (state : State) : State :=
  match word.token? with
  | some (.dim _) => declareAll found state
  | _ => defineAll found state

theorem declareAt_of_opensList {seat : Seat} (h : opensList seat.node = true) (state : State) :
    declareAt seat state = .ok (.parentSibling,
      takeIn seat.node ((targets seat.following).take listLimit) state) := by
  obtain ⟨node, left, right⟩ := seat
  obtain ⟨text, span, ⟨type, rfl⟩ | ⟨type, rfl⟩ | rfl⟩ := exists_of_opensList h <;> rfl

/-- The word that opens a list is no variable of it. -/
theorem targets_of_opensList {node : Node} (h : opensList node = true) (more : List Node) :
    targets (node :: more) = targets more := by
  obtain ⟨text, span, ⟨type, rfl⟩ | ⟨type, rfl⟩ | rfl⟩ := exists_of_opensList h
  all_goals exact targets_lead rfl (by simp) more

/-- In a sound line that can be stored, with no tab before its number, every `DIM` and every `INPUT`
has fewer variables than the first pass reads of a list. The pass finds each of them, and takes in
all that it finds. -/
theorem lists_within_limit {row : Int} {s : List Char} {record : List UInt8}
    (htab : '\t' ∉ s.takeWhile Text.isGap) (sound : (line row s).hasError = false)
    (stored : Record.ofLine row s = .ok record) :
    ∀ seat ∈ (line row s).seats, opensList seat.node = true →
      (listedVariables (seat.node :: seat.following)).length < listLimit ∧
        List.Forall₂ IsFound (listedVariables (seat.node :: seat.following))
          (targets seat.following) ∧
        ∀ state, declareAt seat state =
          .ok (.parentSibling, takeIn seat.node (targets seat.following) state) := by
  intro seat hseat hopen
  have hlist := isList_of_phrases (phrases_line row s sound) hseat hopen
  have hfound := hlist.found
  rw [targets_of_opensList hopen] at hfound
  obtain ⟨bytes, ⟨hbody, hlimit⟩, -⟩ := Record.ofLine_ok_iff.1 stored
  have hbytes : 2 * (listedVariables (seat.node :: seat.following)).length ≤ bytes.length := calc
    2 * (listedVariables (seat.node :: seat.following)).length
    _ ≤ (Node.leavesOf (seat.node :: seat.following)).length := hlist.length_le
    _ ≤ (Node.leavesOf (line row s).children).length := (leavesOf_infix_of_mem_seats hseat).length_le
    _ ≤ bytes.length := Record.length_leaves_le htab sound hbody
  have hshort : (listedVariables (seat.node :: seat.following)).length < listLimit := by
    have hroom : Record.bodyLimit < 2 * listLimit := by decide
    omega
  refine ⟨hshort, hfound, fun state => ?_⟩
  rw [declareAt_of_opensList hopen, List.take_of_length_le (hfound.length_eq ▸ hshort.le)]

/-- A full record: a `DIM` with a subscript in an extent, and behind `THEN` an `INPUT` with a
prompt. -/
theorem lists_within_limit_full :
    let s := "10 DIM A$(B(1)),C(A):IF A THEN INPUT \"?\",C(D0)".toList ++
      (List.replicate 47 [',', 'A']).flatten
    ∃ record, Record.ofLine 3 s = .ok record ∧ record.length = 128 ∧
      ((line 3 s).seats.filter (opensList ·.node)).map
        (fun seat => (listedVariables (seat.node :: seat.following)).length) = [2, 48] ∧
      ∀ seat ∈ (line 3 s).seats, opensList seat.node = true →
        (listedVariables (seat.node :: seat.following)).length < listLimit ∧
          List.Forall₂ IsFound (listedVariables (seat.node :: seat.following))
            (targets seat.following) ∧
          ∀ state, declareAt seat state =
            .ok (.parentSibling, takeIn seat.node (targets seat.following) state) := by
  intro s
  have hlength : (Record.ofLine 3 s).toOption.map List.length = some 128 := by decide +kernel
  obtain ⟨record, hrecord, hlength⟩ := Option.map_eq_some_iff.1 hlength
  have hstored : Record.ofLine 3 s = .ok record := by
    cases h : Record.ofLine 3 s with
    | error => simp [h, Except.toOption] at hrecord
    | ok record' => simpa [h, Except.toOption] using hrecord
  exact ⟨record, hstored, hlength, by decide +kernel,
    lists_within_limit (by decide +kernel) (by decide +kernel) hstored⟩

end Analysis

end IntegerBasic
