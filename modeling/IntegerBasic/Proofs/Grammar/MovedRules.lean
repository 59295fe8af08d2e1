import IntegerBasic.Proofs.Grammar.AppendedText
import IntegerBasic.Proofs.Grammar.LetterCase
import IntegerBasic.Proofs.Grammar.Outcomes

/-!
# Rules on a moved line

A line is moved when its letters take another case, when it stands further to the right, and when a
colon and more text comes behind it. None of this changes what a rule makes of the line, whether the
rule goes on or is stopped: it reads the same tokens, in the other case and further to the right,
and stops before the same colon. Only a quote that is still open at the end of the line would let a
rule see what comes behind, and so would a word with a colon of its own.
-/

namespace IntegerBasic

def Point.right (k : Nat) (p : Point) : Point := ⟨p.row, p.col + k⟩

def Span.right (k : Nat) (s : Span) : Span := ⟨s.start.right k, s.stop.right k⟩

def Leaf.move (f : Char → Char) (k : Nat) (l : Leaf) : Leaf :=
  ⟨l.kind, l.text.map f, l.span.right k⟩

def Label.move (f : Char → Char) (k : Nat) (label : Label) : Label :=
  ⟨label.kind, label.text.map f, label.span.right k⟩

namespace Node

mutual
def move (f : Char → Char) (k : Nat) : Node → Node
  | .leaf l => .leaf (l.move f k)
  | .inner label children => .inner (label.move f k) (moveAll f k children)
def moveAll (f : Char → Char) (k : Nat) : List Node → List Node
  | [] => []
  | node :: more => node.move f k :: moveAll f k more
end

variable (f : Char → Char) (k : Nat)

@[simp] theorem move_leaf (l : Leaf) : (Node.leaf l).move f k = .leaf (l.move f k) := by
  simp [move]

theorem moveAll_eq (nodes : List Node) : moveAll f k nodes = nodes.map (move f k) := by
  induction nodes with
  | nil => simp [moveAll]
  | cons node nodes ih => simp [moveAll, ih]

@[simp] theorem move_inner (label : Label) (children : List Node) :
    (Node.inner label children).move f k =
      .inner (label.move f k) (children.map (move f k)) := by
  rw [move, moveAll_eq]

@[simp] theorem span_move (node : Node) : (node.move f k).span = node.span.right k := by
  cases node <;> simp [span, Leaf.move, Label.move]

mutual
/-- The leaves of a tree that is moved. -/
theorem leaves_move : (node : Node) → (node.move f k).leaves = node.leaves.map (Leaf.move f k)
  | .leaf l => by simp
  | .inner label children => by
    rw [move, leaves_inner, leaves_inner]
    exact leavesOf_moveAll children
theorem leavesOf_moveAll :
    (nodes : List Node) → leavesOf (moveAll f k nodes) = (leavesOf nodes).map (Leaf.move f k)
  | [] => by simp [moveAll]
  | node :: more => by
    rw [moveAll, leavesOf_cons, leavesOf_cons, List.map_append, leaves_move node,
      leavesOf_moveAll more]
end

end Node

theorem Paired.map {f : Char → Char} (hf : CaseChange f) {s : List Char} (h : Paired s) :
    Paired (s.map f) := by
  rw [Paired, List.count_eq_countP] at h ⊢
  rwa [List.countP_map, List.countP_congr (q := (· == '"')) fun c _ => by
    rw [Function.comp_apply, hf.beq_mark rfl]]

/-- How a line is moved: the case of its letters, how far it goes to the right, and what comes
behind it, which begins with a colon if it is there at all. -/
structure Move where
  letters : Char → Char
  right : Nat
  tail : List Char
  isCase : CaseChange letters
  begins : ∀ c ∈ tail.head?, c = ':'

namespace Move

variable (m : Move)

/-- The text up to the end of the line after the move. -/
def text (s : List Char) : List Char := s.map m.letters ++ m.tail

/-- No open quote lets in what comes behind the line. -/
def Fits (s : List Char) : Prop := m.tail = [] ∨ Paired s

/-- A word does not reach into what comes behind the line. -/
def Admits (t : Token) : Prop := m.tail = [] ∨ Grammar.hasColon t = false

variable {m}

theorem tail_cases : m.tail = [] ∨ ∃ t, m.tail = ':' :: t := by
  have hbegins := m.begins
  cases htail : m.tail with
  | nil => exact .inl rfl
  | cons c t =>
    rw [htail] at hbegins
    exact .inr ⟨t, by rw [hbegins c rfl]⟩

theorem Fits.right {text rest : List Char} (h : m.Fits (text ++ rest)) (hs : Paired text) :
    m.Fits rest :=
  h.imp_right fun h => h.right hs

/-- A question of a text that neither case nor a colon behind the text changes. -/
theorem ask {β : Type} {q : List Char → β} (hcase : ∀ s, q (s.map m.letters) = q s)
    (hbehind : ∀ s t, q (s ++ ':' :: t) = q s) (s : List Char) : q (m.text s) = q s := by
  rw [text]
  rcases tail_cases (m := m) with htail | ⟨t, htail⟩
  · rw [htail, List.append_nil, hcase]
  · rw [htail, hbehind, hcase]

theorem span_text {p : Char → Bool} (hcase : ∀ c, p (m.letters c) = p c) (hp : p ':' = false)
    (s : List Char) : (m.text s).takeWhile p = (s.takeWhile p).map m.letters ∧
      (m.text s).dropWhile p = m.text (s.dropWhile p) := by
  obtain ⟨htake, hdrop⟩ := Text.span_append (p := p) (s := s.map m.letters) (t := m.tail)
    (.inr fun c hc => by rw [m.begins c hc, hp])
  rw [text, htake, hdrop, CaseChange.takeWhile_map hcase, CaseChange.dropWhile_map hcase]
  exact ⟨rfl, rfl⟩

end Move

namespace Lexeme

structure Moves (m : Move) (reader : Reader) : Prop where
  moved : ∀ s, m.Fits s →
    reader (m.text s) = (reader s).map fun (text, rest) => (text.map m.letters, m.text rest)
  paired : ∀ {s text rest}, reader s = some (text, rest) → Paired text
  append : ∀ {s text rest}, reader s = some (text, rest) → text ++ rest = s

variable {m : Move}

theorem moved_of {reader : Reader} (hcase : Blind m.letters reader) {s : List Char}
    (hbehind : ∀ t, m.tail = ':' :: t → Paired (s.map m.letters) →
      reader (s.map m.letters ++ ':' :: t) =
        (reader (s.map m.letters)).map (followed (':' :: t))) (hs : m.Fits s) :
    reader (m.text s) = (reader s).map fun (text, rest) => (text.map m.letters, m.text rest) := by
  rw [Move.text]
  rcases m.tail_cases with htail | ⟨t, htail⟩
  · rw [htail, List.append_nil, hcase]
    simp [Move.text, htail]
  · have hpaired : Paired s := hs.resolve_left (by simp [htail])
    rw [htail, hbehind t htail (hpaired.map m.isCase), hcase, Option.map_map]
    simp [Move.text, htail, Function.comp_def, followed]

theorem not_mem_word {t : Token} {s text rest : List Char}
    (h : word t.spelling.toList s = some (text, rest)) : '"' ∉ text := by
  intro hmem
  rcases Grammar.mem_word h '"' hmem with hspace | ⟨letter, hl, hsame⟩
  · cases hspace
  · rw [Grammar.sameLetter_quote t letter hl] at hsame
    cases hsame

theorem moves_word {t : Token} (ht : m.Admits t) : Moves m (word t.spelling.toList) where
  moved _ := moved_of (blind_word m.isCase _) fun u htail _ => word_followed
    (Grammar.sameLetter_colon (ht.resolve_left (by simp [htail]))) _ u
  paired h := paired_of_not_mem (not_mem_word h)
  append := append_of_word

/-- Also a word that may reach beyond the line is read as before if it is read at all. -/
theorem moved_word {t : Token} {s : List Char} (hs : m.Fits s)
    (h : (word t.spelling.toList s).isSome = true) :
    word t.spelling.toList (m.text s) =
      (word t.spelling.toList s).map fun (text, rest) => (text.map m.letters, m.text rest) := by
  refine moved_of (blind_word m.isCase _) (fun u _ _ => ?_) hs
  refine (word_followed_or _ _ u).resolve_right fun hnone => ?_
  rw [← (blind_word m.isCase t.spelling.toList).isSome, hnone.1] at h
  cases h

theorem moves_integer : Moves m integer where
  moved _ := moved_of (blind_integer m.isCase) fun t _ _ => integer_followed _ t
  paired h := Grammar.paired_of_closed (Grammar.closed_integer h)
  append := append_of_integer

theorem moves_name : Moves m name where
  moved _ := moved_of (blind_name m.isCase) fun t _ _ => name_followed _ t
  paired h := Grammar.paired_of_closed (Grammar.closed_name h)
  append := append_of_name

theorem moves_string : Moves m string where
  moved _ := moved_of (blind_string m.isCase) fun t _ h => string_followed h t
  paired h := Grammar.paired_of_closed (Grammar.closed_string h)
  append := append_of_string

theorem moves_negation : Moves m Grammar.negation where
  moved _ := moved_of (Grammar.blind_negation m.isCase) fun t _ _ =>
    Grammar.negation_followed _ t
  paired h := paired_of_not_mem (not_mem_word (Grammar.word_of_negation h))
  append h := append_of_word (Grammar.word_of_negation h)

end Lexeme

namespace Grammar

open Rule

variable {α β σ : Type} {m : Move} {n : Nat}

def Input.move (m : Move) (i : Input) : Input := ⟨i.row, i.col + m.right, m.text i.rest⟩

def Reading.move (m : Move) (r : Reading α) : Reading α :=
  ⟨r.nodes.map (Node.move m.letters m.right), r.outcome.map fun (a, j) => (a, j.move m)⟩

structure Within (i : Input) (node : Node) : Prop where
  start : i.col ≤ node.span.start.col
  stop : i.col ≤ node.span.stop.col
  last : node.span.stop.col ≤ i.col + i.rest.length

/-- What was read from a place lies between it and the end of the line, and no quote has been
opened. -/
structure Stays (m : Move) (i : Input) (r : Reading α) : Prop where
  nodes : ∀ node ∈ r.nodes, Within i node
  place : ∀ {a j}, r.outcome = .ok (a, j) → m.Fits j.rest ∧ ∃ text, Passes i text j

def MovesAt (m : Move) (r r' : Rule α) (i : Input) : Prop :=
  r' (i.move m) = (r i).move m ∧ Stays m i (r i)

/-- Wherever less than `n` characters are left, the second rule makes of the moved line what the
first makes of the line. -/
def Moves (m : Move) (n : Nat) (r r' : Rule α) : Prop :=
  ∀ ⦃i : Input⦄, m.Fits i.rest → i.rest.length < n → MovesAt m r r' i

/-- A rule that reads at least one character when it goes on. -/
def Consumes (r : Rule α) : Prop :=
  ∀ ⦃i nodes a j⦄, r i = ⟨nodes, .ok (a, j)⟩ → j.rest.length < i.rest.length

section Input

variable (m) (i : Input)

@[simp] theorem rest_move : (i.move m).rest = m.text i.rest := rfl

@[simp] theorem point_move : (i.move m).point = i.point.right m.right := rfl

theorem length_move : (i.move m).rest.length = i.rest.length + m.tail.length := by
  rw [rest_move, Move.text, List.length_append, List.length_map]

theorem after_move (text rest : List Char) :
    (i.move m).after (text.map m.letters) (m.text rest) = (i.after text rest).move m := by
  simp [Input.move, Input.after, Nat.add_right_comm]

theorem leaf_move (kind : LeafKind) (text : List Char) :
    (i.move m).leaf kind (text.map m.letters) =
      (i.leaf kind text).move m.letters m.right := by
  simp [Input.move, Input.leaf, Leaf.move, Span.right, Point.right, Input.point,
    Nat.add_right_comm]

theorem skip_move : (i.move m).skip = i.skip.move m := by
  obtain ⟨htake, hdrop⟩ := Move.span_text (m := m) m.isCase.isGap rfl i.rest
  rw [Input.skip, rest_move, htake, hdrop, after_move, Input.skip]

/-- A stretch of the line is the same stretch of the moved line. -/
theorem slice_move {start stop : Nat} (hstart : i.col ≤ start)
    (hstop : stop ≤ i.col + i.rest.length) :
    (i.move m).slice (start + m.right) (stop + m.right) =
      (i.slice start stop).map m.letters := by
  have hdrop : start + m.right - (i.col + m.right) = start - i.col := by omega
  have htake : stop + m.right - (start + m.right) = stop - start := by omega
  rw [Input.slice, Input.slice, rest_move, show (i.move m).col = i.col + m.right from rfl, hdrop,
    htake, Move.text, List.map_take, List.map_drop]
  by_cases hcrossed : stop ≤ start
  · rw [Nat.sub_eq_zero_of_le hcrossed, List.take_zero, List.take_zero]
  · rw [List.drop_append_of_le_length (by rw [List.length_map]; omega),
      List.take_append_of_le_length (by rw [List.length_drop, List.length_map]; omega)]

variable {i} in
theorem within_enclose (kind : InnerKind) {nodes : List Node} (h : ∀ node ∈ nodes, Within i node) :
    Within i (i.enclose kind nodes) := by
  have hlast : i.col ≤ ((nodes.getLast?.map (·.span.stop)).getD i.point).col ∧
      ((nodes.getLast?.map (·.span.stop)).getD i.point).col ≤ i.col + i.rest.length := by
    cases hlast : nodes.getLast? with
    | none => exact ⟨Nat.le_refl _, Nat.le_add_right _ _⟩
    | some node =>
      have hwithin := h node (List.mem_of_getLast? hlast)
      exact ⟨hwithin.stop, hwithin.last⟩
  refine ⟨?_, hlast.1, hlast.2⟩
  cases nodes with
  | nil => exact Nat.le_refl _
  | cons node nodes => exact (h node List.mem_cons_self).start

theorem enclose_move (kind : InnerKind) {nodes : List Node} (h : ∀ node ∈ nodes, Within i node) :
    (i.move m).enclose kind (nodes.map (Node.move m.letters m.right)) =
      (i.enclose kind nodes).move m.letters m.right := by
  have hstart : ((nodes.map (Node.move m.letters m.right)).head?.map (·.span.start)).getD
      (i.move m).point = ((nodes.head?.map (·.span.start)).getD i.point).right m.right := by
    cases nodes <;> simp [Span.right]
  have hstop : ((nodes.map (Node.move m.letters m.right)).getLast?.map (·.span.stop)).getD
      (i.move m).point = ((nodes.getLast?.map (·.span.stop)).getD i.point).right m.right := by
    rw [List.getLast?_map]
    cases nodes.getLast? <;> simp [Span.right]
  have hslice : (i.move m).slice
      (((nodes.head?.map (·.span.start)).getD i.point).right m.right).col
      (((nodes.getLast?.map (·.span.stop)).getD i.point).right m.right).col =
      (i.slice ((nodes.head?.map (·.span.start)).getD i.point).col
        ((nodes.getLast?.map (·.span.stop)).getD i.point).col).map m.letters := by
    have hwithin := within_enclose kind h
    exact slice_move m i hwithin.start hwithin.last
  simp only [Input.enclose, hstart, hstop, hslice, Node.move_inner]
  rfl

end Input

theorem fits_skip {i : Input} (h : m.Fits i.rest) : m.Fits i.skip.rest := by
  rw [(Passes.skip i).rest] at h
  exact h.right (paired_of_closed (closed_gaps _))

namespace Stays

variable {i : Input}

/-- A reading without nodes that goes on from the next token. -/
theorem skip (h : m.Fits i.rest) (a : α) : Stays m i ⟨[], .ok (a, i.skip)⟩ where
  nodes := by simp
  place := by
    rintro _ _ ⟨⟩
    exact ⟨fits_skip h, _, Passes.skip i⟩

theorem stop (e : Mismatch) : Stays m i (⟨[], .error e⟩ : Reading α) where
  nodes := by simp
  place := by rintro _ _ ⟨⟩

/-- What was read from the place behind a first reading was read from the place before it. -/
theorem append {nodes : List Node} {a : α} {j : Input} {r : Reading β}
    (h : Stays m i ⟨nodes, .ok (a, j)⟩) (hr : Stays m j r) :
    Stays m i ⟨nodes ++ r.nodes, r.outcome⟩ := by
  obtain ⟨-, text, hpasses⟩ := h.place rfl
  have hcol := hpasses.col
  have hlength := congrArg List.length hpasses.rest
  rw [List.length_append] at hlength
  refine ⟨fun node hnode => ?_, fun hplace => ?_⟩
  · rcases List.mem_append.1 hnode with hnode | hnode
    · exact h.nodes node hnode
    · obtain ⟨hstart, hstop, hlast⟩ := hr.nodes node hnode
      exact ⟨by omega, by omega, by omega⟩
  · obtain ⟨hfits, more, hmore⟩ := hr.place hplace
    exact ⟨hfits, _, hpasses.trans hmore⟩

/-- A token that has been read here. -/
theorem token (h : m.Fits i.rest) {text rest : List Char} (happend : text ++ rest = i.skip.rest)
    (hpaired : Paired text) (kind : LeafKind) (a : α) :
    Stays m i ⟨[i.skip.leaf kind text], .ok (a, i.skip.after text rest)⟩ := by
  have hleaf : Stays m i.skip ⟨[i.skip.leaf kind text], .ok (a, i.skip.after text rest)⟩ := by
    constructor
    · intro node hnode
      obtain rfl := List.mem_singleton.1 hnode
      refine ⟨Nat.le_refl _, Nat.le_add_right _ _, ?_⟩
      show i.skip.col + text.length ≤ _
      rw [← happend, List.length_append]
      omega
    · rintro _ _ ⟨⟩
      have hfits := fits_skip h
      rw [← happend] at hfits
      exact ⟨hfits.right hpaired, text, .after happend.symm⟩
  exact (Stays.skip h ()).append hleaf

end Stays

theorem length_rest {i j : Input} {text : List Char} (h : Passes i text j) :
    j.rest.length ≤ i.rest.length := by
  rw [h.rest, List.length_append]
  exact Nat.le_add_left _ _

namespace MovesAt

variable {i : Input}

theorem bind {r r' : Rule α} {f f' : α → Rule β} (hr : MovesAt m r r' i)
    (hf : ∀ nodes a j, r i = ⟨nodes, .ok (a, j)⟩ → MovesAt m (f a) (f' a) j) :
    MovesAt m (r >>= f) (r' >>= f') i := by
  obtain ⟨hmove, hstays⟩ := hr
  show Rule.bind r' f' (i.move m) = (Rule.bind r f i).move m ∧ Stays m i (Rule.bind r f i)
  rw [Rule.bind, Rule.bind, hmove]
  rcases hread : r i with ⟨nodes, e | ⟨a, j⟩⟩
  · rw [hread] at hstays
    exact ⟨rfl, ⟨hstays.nodes, by rintro _ _ ⟨⟩⟩⟩
  · rw [hread] at hstays
    obtain ⟨hmore, hstays'⟩ := hf nodes a j hread
    refine ⟨?_, hstays.append hstays'⟩
    simp only [Reading.move, Except.map, hmore, List.map_append]

theorem pure (h : m.Fits i.rest) (a : α) : MovesAt m (Pure.pure a : Rule α) (Pure.pure a) i := by
  refine ⟨rfl, ⟨by rintro _ ⟨⟩, ?_⟩⟩
  rintro _ _ ⟨⟩
  exact ⟨h, [], .refl i⟩

/-- A token that may come next is read alike if its reader reads alike. -/
theorem token? {reader : Lexeme.Reader} (hfits : m.Fits i.rest)
    (hmoved : reader (m.text i.skip.rest) = (reader i.skip.rest).map fun (text, rest) =>
      (text.map m.letters, m.text rest))
    (hpaired : ∀ {s text rest}, reader s = some (text, rest) → Paired text)
    (happend : ∀ {s text rest}, reader s = some (text, rest) → text ++ rest = s)
    (kind : LeafKind) : MovesAt m (Rule.token? reader kind) (Rule.token? reader kind) i := by
  rw [MovesAt, Rule.token?, Rule.token?, skip_move, rest_move, hmoved]
  cases hread : reader i.skip.rest with
  | none => exact ⟨rfl, .skip hfits false⟩
  | some pair =>
    refine ⟨?_, .token hfits (happend hread) (hpaired hread) kind true⟩
    simp [Reading.move, Except.map, leaf_move, after_move]

/-- A word that comes next is expected on the moved line too, even if it has a colon. -/
theorem expect_of_isSome {t : Token} (hfits : m.Fits i.rest)
    (h : (Lexeme.word t.spelling.toList i.skip.rest).isSome = true) :
    MovesAt m (expect t) (Rule.expect t) i := by
  have hword : MovesAt m (word? t) (Rule.word? t) i :=
    token? hfits (Lexeme.moved_word (fits_skip hfits) h)
      (fun hread => paired_of_not_mem (Lexeme.not_mem_word hread)) Lexeme.append_of_word _
  refine hword.bind fun nodes found j hread => ?_
  have hfits' := (hword.2.place (congrArg Reading.outcome hread)).1
  cases found with
  | false => exact ⟨rfl, .stop _⟩
  | true => exact pure hfits' ()

end MovesAt

namespace Moves

theorem pure (a : α) : Moves m n (Pure.pure a : Rule α) (Pure.pure a) :=
  fun _ hfits _ => MovesAt.pure hfits a

theorem stop (cause : Mismatch) : Moves m n (stop cause : Rule α) (Rule.stop cause) :=
  fun _ _ _ => ⟨rfl, .stop cause⟩

theorem bind {r r' : Rule α} {f f' : α → Rule β} (hr : Moves m n r r')
    (hf : ∀ a, Moves m n (f a) (f' a)) : Moves m n (r >>= f) (r' >>= f') := by
  intro i hfits hlt
  refine MovesAt.bind (hr hfits hlt) fun nodes a j h => ?_
  obtain ⟨hfits', text, hpasses⟩ := (hr hfits hlt).2.place (congrArg Reading.outcome h)
  exact hf a hfits' (Nat.lt_of_le_of_lt (length_rest hpasses) hlt)

/-- Behind a rule that reads something fewer characters are left. -/
theorem bind_consumes {r r' : Rule α} {f f' : α → Rule β} (hr : Moves m (n + 1) r r')
    (hc : Consumes r) (hf : ∀ a, Moves m n (f a) (f' a)) :
    Moves m (n + 1) (r >>= f) (r' >>= f') := by
  intro i hfits hlt
  refine MovesAt.bind (hr hfits hlt) fun nodes a j h => ?_
  have hshort := hc h
  exact hf a ((hr hfits hlt).2.place (congrArg Reading.outcome h)).1 (by omega)

theorem mono {k : Nat} {r r' : Rule α} (h : Moves m n r r') (hk : k ≤ n) : Moves m k r r' :=
  fun _ hfits hlt => h hfits (Nat.lt_of_lt_of_le hlt hk)

theorem ite {c : Prop} [Decidable c] {r r' s s' : Rule α} (hr : Moves m n r r')
    (hs : Moves m n s s') : Moves m n (if c then r else s) (if c then r' else s') := by
  split
  · exact hr
  · exact hs

theorem enclose {kind : α → InnerKind} {r r' : Rule α} (hr : Moves m n r r') :
    Moves m n (enclose kind r) (Rule.enclose kind r') := by
  intro i hfits hlt
  obtain ⟨hmove, hstays⟩ := hr hfits hlt
  rw [MovesAt, Rule.enclose, Rule.enclose, hmove]
  rcases hread : r i with ⟨nodes, e | ⟨a, j⟩⟩
  · exact ⟨rfl, .stop e⟩
  · rw [hread] at hstays
    refine ⟨?_, ⟨?_, fun h => hstays.place h⟩⟩
    · simp only [Reading.move, Except.map, enclose_move m i (kind a) hstays.nodes, List.map_cons,
        List.map_nil]
    · intro node hnode
      obtain rfl := List.mem_singleton.1 hnode
      exact within_enclose (kind a) hstays.nodes

/-- The rounds of a loop, of which neither side runs out. -/
theorem rounds {step step' : σ → Rule (Option σ)} (hstep : ∀ s, Moves m n (step s) (step' s))
    (hadvance : Advancing step) {a b : Nat} (s : σ) {i : Input} (hfits : m.Fits i.rest)
    (hlt : i.rest.length < n) (ha : i.rest.length < a) (hb : i.rest.length < b) :
    MovesAt m (rounds step a s) (Rule.rounds step' b s) i := by
  induction a generalizing b s i with
  | zero => omega
  | succ a ih =>
    obtain ⟨b, rfl⟩ : ∃ b', b = b' + 1 := ⟨b - 1, by omega⟩
    rw [Rule.rounds, Rule.rounds]
    refine MovesAt.bind (hstep s hfits hlt) fun nodes next j h => ?_
    have hfits' := ((hstep s hfits hlt).2.place (congrArg Reading.outcome h)).1
    cases next with
    | none => exact .pure hfits' s
    | some s' =>
      have hshort := hadvance h
      exact ih s' hfits' (by omega) (by omega) (by omega)

theorem loop {step step' : σ → Rule (Option σ)} (hstep : ∀ s, Moves m n (step s) (step' s))
    (hadvance : Advancing step) (s : σ) : Moves m n (loop step s) (Rule.loop step' s) := by
  intro i hfits hlt
  have hlength : i.rest.length < (i.move m).rest.length + 1 := by
    rw [length_move]
    omega
  exact rounds hstep hadvance s hfits hlt (Nat.lt_succ_self _) hlength

/-- A rule that looks only for marks at the next character, of which a colon is none. -/
theorem peek {k k' : Option Char → Rule α} (hk : ∀ next, Moves m n (k next) (k' next))
    (hnext : ∀ c, k' (some (m.letters c)) = k' (some c)) (hcolon : k' (some ':') = k' none) :
    Moves m n (Rule.peek >>= k) (Rule.peek >>= k') := by
  have hbind : ∀ (k : Option Char → Rule α) (i : Input),
      (Rule.peek >>= k) i = k i.skip.rest.head? i.skip := fun k i => by
    show Rule.bind Rule.peek k i = _
    simp [Rule.bind, Rule.peek]
  intro i hfits hlt
  have hsame : k' (m.text i.skip.rest).head? = k' i.skip.rest.head? := by
    cases i.skip.rest with
    | nil =>
      rcases m.tail_cases with htail | ⟨t, htail⟩
      · rw [Move.text, htail]
        rfl
      · rw [Move.text, htail]
        exact hcolon
    | cons c rest => exact hnext c
  have hskipped := hk i.skip.rest.head? (fits_skip hfits)
    (Nat.lt_of_le_of_lt (length_skip_le i) hlt)
  rw [MovesAt, hbind, hbind, skip_move, rest_move, hsame]
  exact ⟨hskipped.1, (Stays.skip hfits ()).append hskipped.2⟩

theorem ahead {test : List Char → Bool} (htest : ∀ s, test (m.text s) = test s) :
    Moves m n (Rule.ahead test) (Rule.ahead test) := by
  intro i hfits _
  rw [MovesAt, Rule.ahead, Rule.ahead, skip_move, rest_move, htest]
  exact ⟨rfl, .skip hfits _⟩

theorem token? {reader : Lexeme.Reader} (h : Lexeme.Moves m reader) (kind : LeafKind) :
    Moves m n (Rule.token? reader kind) (Rule.token? reader kind) := fun _ hfits _ =>
  MovesAt.token? hfits (h.moved _ (fits_skip hfits)) h.paired h.append kind

theorem word? {t : Token} (ht : m.Admits t) : Moves m n (Rule.word? t) (Rule.word? t) :=
  token? (Lexeme.moves_word ht) _

theorem expect {t : Token} (ht : m.Admits t) : Moves m n (Rule.expect t) (Rule.expect t) :=
  bind (word? ht) fun _ => ite (pure _) (stop _)

theorem wordThen {t : Token} (ht : m.Admits t) {settle : α → Token} {body body' : Rule α}
    (hbody : Moves m n body body') :
    Moves m n (Rule.wordThen t settle body) (Rule.wordThen t settle body') := by
  intro i hfits hlt
  have hword := Lexeme.moves_word ht
  rw [MovesAt, Rule.wordThen, Rule.wordThen, skip_move, rest_move,
    hword.moved _ (fits_skip hfits)]
  cases hread : Lexeme.word t.spelling.toList i.skip.rest with
  | none => exact ⟨rfl, .stop _⟩
  | some pair =>
    obtain ⟨text, rest⟩ := pair
    have htoken := Stays.token (m := m) hfits (hword.append hread) (hword.paired hread)
      (.token (((body (i.skip.after text rest)).value?.map settle).getD t)) ()
    obtain ⟨hfits', _, hpasses⟩ := htoken.place rfl
    obtain ⟨hmove, hstays⟩ := hbody hfits' (Nat.lt_of_le_of_lt (length_rest hpasses) hlt)
    refine ⟨?_, htoken.append hstays⟩
    have hvalue : ∀ r : Reading α, (r.move m).value? = r.value? := by
      rintro ⟨nodes, e | ⟨a, j⟩⟩ <;> rfl
    rw [Option.map_some]
    dsimp only
    rw [after_move, hmove, hvalue, leaf_move]
    rfl

theorem variableName : Moves m n Grammar.variableName Grammar.variableName := by
  intro i hfits _
  have hname := Lexeme.moves_name (m := m)
  rw [MovesAt, Grammar.variableName, Grammar.variableName, skip_move, rest_move,
    hname.moved _ (fits_skip hfits)]
  cases hread : Lexeme.name i.skip.rest with
  | none => exact ⟨rfl, .stop _⟩
  | some pair =>
    refine ⟨?_, .token hfits (hname.append hread) (hname.paired hread) _ _⟩
    simp [Reading.move, Except.map, leaf_move, after_move, Lexeme.nameType_map m.isCase]

theorem stringLiteral : Moves m n Grammar.stringLiteral Grammar.stringLiteral :=
  bind (token? Lexeme.moves_string _) fun _ => ite (pure _) (stop _)

theorem binaryOperator (lhs : DataType) :
    Moves m n (Grammar.binaryOperator lhs) (Grammar.binaryOperator lhs) := by
  have hcolon : ∀ t ∈ binaryOperators, hasColon t = false := by decide
  intro i hfits hlt
  have hfirst : firstWord? binaryOperators (m.text i.skip.rest) =
      firstWord? binaryOperators i.skip.rest :=
    Move.ask (firstWord?_map m.isCase _) (firstWord?_followed hcolon) _
  rw [MovesAt, Grammar.binaryOperator, Grammar.binaryOperator, skip_move, rest_move, hfirst]
  cases hword : firstWord? binaryOperators i.skip.rest with
  | none => exact ⟨rfl, .skip hfits false⟩
  | some t =>
    exact token? (Lexeme.moves_word (.inr (hcolon t (List.mem_of_find?_eq_some hword)))) _ hfits hlt

theorem unaryOperator : Moves m n Grammar.unaryOperator Grammar.unaryOperator :=
  bind (word? (.inr rfl)) fun _ => ite (pure _) <|
    bind (word? (.inr rfl)) fun _ => ite (pure _) (token? Lexeme.moves_negation _)

end Moves

theorem consumes_expect (t : Token) : Consumes (expect t) := by
  intro i nodes a j h
  obtain ⟨text, rest, hread, -, rfl⟩ := expect_ok h
  have hne := List.length_pos_iff.2 (ne_nil_of_word (spelling_ne_nil t) hread)
  have happend := congrArg List.length (Lexeme.append_of_word hread)
  have hskip := length_skip_le i
  rw [List.length_append] at happend
  show rest.length < _
  omega

theorem consumes_variableName : Consumes variableName := by
  intro i nodes a j h
  obtain ⟨text, rest, hread, -, -, rfl⟩ := variableName_ok h
  have hne := List.length_pos_iff.2 (ne_nil_of_name hread)
  have happend := congrArg List.length (Lexeme.append_of_name hread)
  have hskip := length_skip_le i
  rw [List.length_append] at happend
  show rest.length < _
  omega

namespace Moves

section Expression

variable {e e' : Rule DataType} (he : Moves m n e e')
include he

theorem subscripted {opener : Token} (hopener : m.Admits opener) (kind : InnerKind) (pair : Bool) :
    Moves m (n + 1) (Grammar.subscripted e opener kind pair)
      (Grammar.subscripted e' opener kind pair) := by
  apply enclose
  apply bind_consumes variableName consumes_variableName
  intro type
  apply bind (expect hopener)
  intro _
  apply bind he
  intro _
  have hclose : Moves m n (do Rule.expect .close; return type)
      (do Rule.expect .close; return type) :=
    bind (expect (.inr rfl)) fun _ => pure _
  exact ite (bind (word? (.inr rfl)) fun _ => ite (bind he fun _ => hclose) hclose) hclose

omit he in
theorem variableBy {r r' s s' : Rule DataType} (hr : Moves m n r r') (hs : Moves m n s s') :
    Moves m n (Grammar.variableBy r s) (Grammar.variableBy r' s') := by
  have htype : ∀ s, (nextNameType (m.text s) == .string) = (nextNameType s == .string) :=
    fun s => congrArg (· == DataType.string)
      (Move.ask (nextNameType_map m.isCase) nextNameType_followed s)
  exact bind (ahead (Move.ask (isSubscripted_map m.isCase) isSubscripted_followed)) fun _ =>
    ite (bind (ahead htype) fun _ => ite hr hs) variableName

theorem target : Moves m (n + 1) (Grammar.target e) (Grammar.target e') :=
  variableBy (subscripted he (.inr rfl) _ _) (subscripted he (.inr rfl) _ _)

theorem reference : Moves m (n + 1) (Grammar.reference e) (Grammar.reference e') :=
  variableBy (subscripted he (.inr rfl) _ _) (subscripted he (.inr rfl) _ _)

theorem call {t : Token} (ht : m.Admits t) :
    Moves m (n + 1) (Grammar.call e t) (Grammar.call e' t) := by
  apply bind_consumes (expect ht) (consumes_expect t)
  intro _
  have hclose : Moves m n (do Rule.expect .close; return DataType.integer)
      (do Rule.expect .close; return DataType.integer) :=
    bind (expect (.inr rfl)) fun _ => pure _
  have hbody : Moves m n (do
      let _ ← e
      if t == .scrn then
        Rule.expect .scrnComma
        let _ ← e
      Rule.expect .close
      return DataType.integer) (do
      let _ ← e'
      if t == .scrn then
        Rule.expect .scrnComma
        let _ ← e'
      Rule.expect .close
      return DataType.integer) :=
    bind he fun _ =>
      ite (bind (expect (.inr rfl)) fun _ => bind he fun _ => hclose) hclose
  exact ite hbody (bind (expect (.inr rfl)) fun _ => hbody)

theorem named : Moves m (n + 1)
    (fun i => match function? i.skip.rest with
      | some t => Grammar.call e t i
      | none =>
        if (Lexeme.name i.skip.rest).isSome then Grammar.reference e i
        else Rule.stop .expression i)
    (fun i => match function? i.skip.rest with
      | some t => Grammar.call e' t i
      | none =>
        if (Lexeme.name i.skip.rest).isSome then Grammar.reference e' i
        else Rule.stop .expression i) := by
  have hcolon : ∀ t ∈ functions, hasColon t = false := by decide
  intro i hfits hlt
  have hname : (Lexeme.name (m.text i.skip.rest)).isSome = (Lexeme.name i.skip.rest).isSome := by
    rw [Lexeme.moves_name.moved _ (fits_skip hfits), Option.isSome_map]
  unfold MovesAt
  dsimp only
  rw [skip_move, rest_move, Move.ask (function?_map m.isCase) function?_followed, hname]
  cases hfunction : function? i.skip.rest with
  | some t => exact call he (.inr (hcolon t (List.mem_of_find?_eq_some hfunction))) hfits hlt
  | none =>
    dsimp only
    split
    · exact reference he hfits hlt
    · exact stop .expression hfits hlt

theorem primary : Moves m (n + 1) (Grammar.primary e) (Grammar.primary e') := by
  apply bind (token? Lexeme.moves_integer _)
  intro _
  refine ite (pure _) (peek (fun next => ?_) (fun c => ?_) rfl)
  · exact ite (bind stringLiteral fun _ => pure _) <|
      ite (bind_consumes (expect (.inr rfl)) (consumes_expect _) fun _ => bind he fun _ =>
        bind (expect (.inr rfl)) fun _ => pure _) (named he)
  · rw [m.isCase.some_beq_mark rfl, m.isCase.some_beq_mark rfl]

theorem operand : Moves m (n + 1) (Grammar.operand e) (Grammar.operand e') :=
  bind (loop (fun _ => bind unaryOperator fun _ => pure _) advancing_signStep _) fun _ =>
    bind (primary he) fun _ => pure _

theorem operands (htraced : Traced inExpression true e (fun _ => false)) :
    Moves m (n + 1) (Grammar.operands e) (Grammar.operands e') := by
  apply bind (operand he)
  intro first
  apply bind
  · apply loop
    · rintro ⟨lhs, alone⟩
      apply bind (binaryOperator lhs)
      intro _
      exact ite (bind (operand he) fun _ => pure _) (pure _)
    · exact advancing_operatorStep htraced
  · rintro ⟨type, alone⟩
    exact pure _

end Expression

/-- Deeper parentheses than there are characters make no difference on either side. -/
theorem expressionUpTo {n a b : Nat} (ha : n ≤ a) (hb : n ≤ b) :
    Moves m n (expressionUpTo a) (expressionUpTo b) := by
  induction n generalizing a b with
  | zero => exact fun _ _ hlt => absurd hlt (Nat.not_lt_zero _)
  | succ n ih =>
    obtain ⟨a, rfl⟩ : ∃ a', a = a' + 1 := ⟨a - 1, by omega⟩
    obtain ⟨b, rfl⟩ : ∃ b', b = b' + 1 := ⟨b - 1, by omega⟩
    exact operands (ih (by omega) (by omega)) (traced_expressionUpTo a)

theorem expression (n : Nat) : Moves m n Grammar.expression Grammar.expression := by
  intro i hfits _
  have hlength : i.rest.length + 1 ≤ (i.move m).rest.length + 1 := by
    rw [length_move]
    omega
  have hdeep := expressionUpTo (Nat.le_refl _) hlength hfits (Nat.lt_succ_self i.rest.length)
  rw [MovesAt, Grammar.expression, Grammar.expression]
  exact hdeep

end Moves

end Grammar

end IntegerBasic
