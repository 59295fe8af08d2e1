import IntegerBasic.Grammar.Program

/-!
# Traces of rules

What a rule has read is a trace: gaps, leaves read by the readers of their kinds, and inner nodes
around shorter traces. Every rule below statements leaves a trace, also one that was stopped. So
what holds of every trace holds of every rule: nothing is lost, and every leaf stands where it
was read. A trace also keeps apart where an operand may stand. Two operands never follow one
another, there is always a token between them.
-/

namespace IntegerBasic

/-- A leaf that stands for a value or a text, and that only a token can follow. -/
def LeafKind.isOperand : LeafKind → Bool
  | .lineArgument | .integer | .name _ | .string => true
  | _ => false

/-- A token that is read by its spelling alone, wherever a rule asks for it, whose spelling has no
colon, and behind which a line is read on as usual. -/
def Token.isPlain (t : Token) : Bool :=
  (t.group != .operator || t == .unaryMinus || t == .unaryPlus) &&
    t != .himem && t != .lomem && t != .colon && t != .rem

namespace Grammar

inductive Reads : LeafKind → List Char → List Char → List Char → Prop
  | word {t : Token} {s text rest : List Char} (plain : t.isPlain = true)
      (h : Lexeme.word t.spelling.toList s = some (text, rest)) : Reads (.token t) s text rest
  | operator {t : Token} {s text rest : List Char} (lhs : DataType)
      (first : firstWord? binaryOperators s = some t)
      (h : Lexeme.word t.spelling.toList s = some (text, rest)) :
      Reads (.token (operatorAfter lhs t)) s text rest
  | negation {s text rest : List Char} (h : Grammar.negation s = some (text, rest)) :
      Reads (.token .negation) s text rest
  | integer {s text rest : List Char} (h : Lexeme.integer s = some (text, rest)) :
      Reads .integer s text rest
  | lineArgument {s text rest : List Char} (h : Lexeme.integer s = some (text, rest)) :
      Reads .lineArgument s text rest
  | name {s text rest : List Char} (h : Lexeme.name s = some (text, rest)) :
      Reads (.name (Lexeme.nameType text)) s text rest
  | string {s text rest : List Char} (h : Lexeme.string s = some (text, rest)) :
      Reads .string s text rest

theorem spelling_ne_nil (t : Token) : t.spelling.toList ≠ [] := by
  have h : ∀ t ∈ Token.all, t.spelling ≠ "" := by decide
  simpa using h t (Token.mem_all t)

/-- The marks and letters that words are written with. -/
def alphabet : List Char :=
  ['#', '(', ')', '*', '+', ',', '-', '/', ':', ';', '<', '=', '>', '^', 'A', 'B', 'C', 'D', 'E',
    'F', 'G', 'H', 'I', 'J', 'K', 'L', 'M', 'N', 'O', 'P', 'Q', 'R', 'S', 'T', 'U', 'V', 'W', 'X',
    'Y', 'Z']

/-- What holds of the alphabet holds of the letters of a word. -/
theorem forall_spelling {P : Char → Prop} (h : ∀ c ∈ alphabet, P c) (t : Token) :
    ∀ c ∈ t.spelling.toList, P c := by
  have key : ∀ t ∈ Token.all, ∀ c ∈ t.spelling.toList, c ∈ alphabet := by decide +kernel
  exact fun c hc => h c (key t (Token.mem_all t) c hc)

/-- A quote is the same as no letter of a word. -/
theorem sameLetter_quote (t : Token) :
    ∀ letter ∈ t.spelling.toList, Lexeme.sameLetter letter '"' = false :=
  forall_spelling (by decide) t

theorem ne_nil_of_word {letters s text rest : List Char} (hl : letters ≠ [])
    (h : Lexeme.word letters s = some (text, rest)) : text ≠ [] := by
  cases letters with
  | nil => exact absurd rfl hl
  | cons letter letters =>
    obtain ⟨c, more, read, -, -, -, rfl⟩ := Lexeme.word_cons_some h
    exact List.cons_ne_nil _ _

theorem ne_nil_of_integer {s text rest : List Char}
    (h : Lexeme.integer s = some (text, rest)) : text ≠ [] := by
  obtain ⟨c, more, -, -, rfl, -⟩ := Lexeme.integer_eq_some h
  exact List.cons_ne_nil _ _

theorem ne_nil_of_lineNumber {s text rest : List Char}
    (h : Lexeme.lineNumber s = some (text, rest)) : text ≠ [] := by
  obtain ⟨⟨number, rest'⟩, hnumber, heq⟩ := Option.map_eq_some_iff.1 h
  cases heq
  exact List.append_ne_nil_of_right_ne_nil _ (ne_nil_of_integer hnumber)

theorem ne_nil_of_name {s text rest : List Char}
    (h : Lexeme.name s = some (text, rest)) : text ≠ [] := by
  obtain ⟨c, more, tail, -, -, -, rfl⟩ := Lexeme.name_eq_some h
  exact List.cons_ne_nil _ _

theorem ne_nil_of_string {s text rest : List Char}
    (h : Lexeme.string s = some (text, rest)) : text ≠ [] := by
  obtain ⟨more, -, -, rfl⟩ := Lexeme.string_eq_some h
  exact List.cons_ne_nil _ _

theorem word_of_negation {s text rest : List Char} (h : negation s = some (text, rest)) :
    Lexeme.word Token.negation.spelling.toList s = some (text, rest) :=
  (Option.filter_eq_some_iff.1 h).1

/-- The leaf and the rest make up the text. -/
theorem Reads.append {kind : LeafKind} {s text rest : List Char} (h : Reads kind s text rest) :
    text ++ rest = s := by
  cases h with
  | word _ h => exact Lexeme.append_of_word h
  | operator _ _ h => exact Lexeme.append_of_word h
  | negation h => exact Lexeme.append_of_word (word_of_negation h)
  | integer h => exact Lexeme.append_of_integer h
  | lineArgument h => exact Lexeme.append_of_integer h
  | name h => exact Lexeme.append_of_name h
  | string h => exact Lexeme.append_of_string h

theorem Reads.ne_nil {kind : LeafKind} {s text rest : List Char} (h : Reads kind s text rest) :
    text ≠ [] := by
  cases h with
  | word _ h => exact ne_nil_of_word (spelling_ne_nil _) h
  | operator _ _ h => exact ne_nil_of_word (spelling_ne_nil _) h
  | negation h => exact ne_nil_of_word (spelling_ne_nil _) (word_of_negation h)
  | integer h => exact ne_nil_of_integer h
  | lineArgument h => exact ne_nil_of_integer h
  | name h => exact ne_nil_of_name h
  | string h => exact ne_nil_of_string h

/-- Error leaves are not read, they are what is left over. -/
theorem Reads.isError_eq_false {kind : LeafKind} {s text rest : List Char}
    (h : Reads kind s text rest) : kind.isError = false := by
  cases h <;> rfl

/-- What stands between two places: gaps, leaves of the kinds in `K`, and inner nodes. The flags
say whether an operand may stand at the first place and whether one may stand at the second. -/
inductive Trace (K : LeafKind → Bool) : Bool → Input → List Node → Bool → Input → Prop
  | done {q q' : Bool} {i : Input} (h : q' = true → q = true) : Trace K q i [] q' i
  | skip {q q' : Bool} {i j : Input} {nodes : List Node} (h : Trace K q i.skip nodes q' j) :
      Trace K q i nodes q' j
  | leaf {q q' : Bool} {i j : Input} {kind : LeafKind} {text rest : List Char}
      {nodes : List Node} (known : K kind = true) (read : Reads kind i.rest text rest)
      (allowed : kind.isOperand = true → q = true)
      (h : Trace K (!kind.isOperand) (i.after text rest) nodes q' j) :
      Trace K q i (i.leaf kind text :: nodes) q' j
  | inner {q p q' : Bool} {i k j : Input} {kind : InnerKind} {inside nodes : List Node}
      (within : Trace K q i inside p k) (ne : inside ≠ []) (h : Trace K p k nodes q' j) :
      Trace K q i (i.enclose kind inside :: nodes) q' j

/-- The kinds of leaf that an expression is made of: no words of statements, and no line numbers
of commands. -/
def inExpression : LeafKind → Bool
  | .token t => t.group != .word
  | .lineArgument => false
  | _ => true

def anywhere : LeafKind → Bool := fun _ => true

namespace Trace

variable {K : LeafKind → Bool}

/-- A place where no operand need stand can be passed as well where one may stand. -/
theorem strengthen {q q' : Bool} {i j : Input} {nodes : List Node}
    (h : Trace K false i nodes q' j) : Trace K q i nodes q' j := by
  generalize hp : false = p at h
  induction h with
  | done h => exact .done fun hq => by rw [h hq] at hp; cases hp
  | skip _ ih => exact .skip (ih hp)
  | leaf known read allowed h _ =>
    exact .leaf known read (fun ha => by rw [allowed ha] at hp; cases hp) h
  | inner within ne h ih _ => exact .inner (ih hp) ne h

theorem append {q p q' : Bool} {i k j : Input} {xs ys : List Node} (hx : Trace K q i xs p k)
    (hy : Trace K p k ys q' j) : Trace K q i (xs ++ ys) q' j := by
  induction hx with
  | @done q p i h =>
    cases p with
    | true => rw [h rfl]; exact hy
    | false => exact strengthen hy
  | skip _ ih => exact .skip (ih hy)
  | leaf known read allowed _ ih => exact .leaf known read allowed (ih hy)
  | inner within ne _ _ ih => exact .inner within ne (ih hy)

theorem weaken {q q' p : Bool} {i j : Input} {nodes : List Node} (h : Trace K q i nodes q' j)
    (hp : p = true → q' = true) : Trace K q i nodes p j := by
  have := h.append (.done hp)
  rwa [List.append_nil] at this

/-- Gaps can be passed behind a trace. -/
theorem skipped {q q' : Bool} {i j : Input} {nodes : List Node} (h : Trace K q i nodes q' j) :
    Trace K q i nodes q' j.skip := by
  have := h.append (.skip (.done id))
  rwa [List.append_nil] at this

/-- A trace of few kinds is one of all. -/
theorem anywhere {q q' : Bool} {i j : Input} {nodes : List Node} (h : Trace K q i nodes q' j) :
    Trace Grammar.anywhere q i nodes q' j := by
  induction h with
  | done h => exact .done h
  | skip _ ih => exact .skip ih
  | leaf _ read allowed _ ih => exact .leaf rfl read allowed ih
  | inner _ ne _ ih₁ ih₂ => exact .inner ih₁ ne ih₂

end Trace

/-- A rule leaves a trace. One that goes on has been traced up to the place where it goes on. -/
structure Traced (K : LeafKind → Bool) {α : Type} (q : Bool) (r : Rule α) (post : α → Bool) :
    Prop where
  ok : ∀ {i nodes a j}, r i = ⟨nodes, .ok (a, j)⟩ → Trace K q i nodes (post a) j
  error : ∀ {i nodes e}, r i = ⟨nodes, .error e⟩ → ∃ p j, Trace K q i nodes p j

def Emits {α : Type} (r : Rule α) : Prop :=
  ∀ ⦃i nodes a j⦄, r i = ⟨nodes, .ok (a, j)⟩ → nodes ≠ []

open Rule

variable {α β σ : Type}

/-- What a sequence of two rules did: the first was stopped, or the second went on from where the
first was done. -/
theorem bind_cases (r : Rule α) (f : α → Rule β) (i : Input) :
    (∃ nodes e, r i = ⟨nodes, .error e⟩ ∧ (r >>= f) i = ⟨nodes, .error e⟩) ∨
      ∃ nodes a j, r i = ⟨nodes, .ok (a, j)⟩ ∧
        (r >>= f) i = ⟨nodes ++ (f a j).nodes, (f a j).outcome⟩ := by
  show (∃ nodes e, r i = ⟨nodes, .error e⟩ ∧ Rule.bind r f i = ⟨nodes, .error e⟩) ∨
    ∃ nodes a j, r i = ⟨nodes, .ok (a, j)⟩ ∧
      Rule.bind r f i = ⟨nodes ++ (f a j).nodes, (f a j).outcome⟩
  rcases hr : r i with ⟨nodes, e | ⟨a, j⟩⟩
  · exact .inl ⟨nodes, e, rfl, by simp [Rule.bind, hr]⟩
  · exact .inr ⟨nodes, a, j, rfl, by simp [Rule.bind, hr]⟩

theorem bind_ok {r : Rule α} {f : α → Rule β} {i : Input} {nodes : List Node} {b : β} {j : Input}
    (h : (r >>= f) i = ⟨nodes, .ok (b, j)⟩) :
    ∃ xs a k ys, r i = ⟨xs, .ok (a, k)⟩ ∧ f a k = ⟨ys, .ok (b, j)⟩ ∧ nodes = xs ++ ys := by
  rcases bind_cases r f i with ⟨xs, e, -, hb⟩ | ⟨xs, a, k, hr, hb⟩
  · rw [hb] at h
    cases h
  · rw [hb] at h
    simp only [Reading.mk.injEq] at h
    exact ⟨xs, a, k, (f a k).nodes, hr, by rw [← h.2], h.1.symm⟩

theorem bind_error {r : Rule α} {f : α → Rule β} {i : Input} {nodes : List Node} {e : Mismatch}
    (h : (r >>= f) i = ⟨nodes, .error e⟩) :
    r i = ⟨nodes, .error e⟩ ∨
      ∃ xs a k ys, r i = ⟨xs, .ok (a, k)⟩ ∧ f a k = ⟨ys, .error e⟩ ∧ nodes = xs ++ ys := by
  rcases bind_cases r f i with ⟨xs, e', hr, hb⟩ | ⟨xs, a, k, hr, hb⟩
  · rw [hb] at h
    cases h
    exact .inl hr
  · rw [hb] at h
    simp only [Reading.mk.injEq] at h
    exact .inr ⟨xs, a, k, (f a k).nodes, hr, by rw [← h.2], h.1.symm⟩

theorem bind_assoc {γ : Type} (r : Rule α) (f : α → Rule β) (g : β → Rule γ) :
    (r >>= f) >>= g = r >>= fun a => f a >>= g := by
  funext i
  show Rule.bind (Rule.bind r f) g i = Rule.bind r (fun a => Rule.bind (f a) g) i
  rcases hr : r i with ⟨nodes, e | ⟨a, j⟩⟩
  · simp [Rule.bind, hr]
  · rcases hf : f a j with ⟨more, e | ⟨b, k⟩⟩ <;> simp [Rule.bind, hr, hf]

/-- A reader of one token found nothing, or it left the leaf of the token. -/
theorem token?_ok {reader : Lexeme.Reader} {kind : LeafKind} {i j : Input} {nodes : List Node}
    {found : Bool} (h : token? reader kind i = ⟨nodes, .ok (found, j)⟩) :
    (reader i.skip.rest = none ∧ nodes = [] ∧ found = false ∧ j = i.skip) ∨
      ∃ text rest, reader i.skip.rest = some (text, rest) ∧ nodes = [i.skip.leaf kind text] ∧
        found = true ∧ j = i.skip.after text rest := by
  unfold token? at h
  cases hread : reader i.skip.rest with
  | none =>
    rw [hread] at h
    cases h
    exact .inl ⟨rfl, rfl, rfl, rfl⟩
  | some read =>
    rw [hread] at h
    cases h
    exact .inr ⟨read.1, read.2, rfl, rfl, rfl, rfl⟩

theorem token?_ne_error {reader : Lexeme.Reader} {kind : LeafKind} {i : Input}
    {nodes : List Node} {e : Mismatch} : token? reader kind i ≠ ⟨nodes, .error e⟩ := by
  intro h
  unfold token? at h
  cases hread : reader i.skip.rest <;> rw [hread] at h <;> cases h

/-- A word has been read and then its body, which has settled the token. -/
theorem wordThen_ok {t : Token} {settle : α → Token} {body : Rule α} {i j : Input}
    {nodes : List Node} {a : α} (h : wordThen t settle body i = ⟨nodes, .ok (a, j)⟩) :
    ∃ text rest more, Lexeme.word t.spelling.toList i.skip.rest = some (text, rest) ∧
      body (i.skip.after text rest) = ⟨more, .ok (a, j)⟩ ∧
      nodes = i.skip.leaf (.token (settle a)) text :: more := by
  unfold wordThen at h
  cases hread : Lexeme.word t.spelling.toList i.skip.rest with
  | none =>
    rw [hread] at h
    cases h
  | some read =>
    rw [hread] at h
    obtain ⟨rfl, hout⟩ := Reading.mk.inj h
    refine ⟨read.1, read.2, _, rfl, by rw [← hout], ?_⟩
    rw [Reading.value?, hout]
    rfl

/-- The word is not there, or its body was stopped and has settled nothing. -/
theorem wordThen_error {t : Token} {settle : α → Token} {body : Rule α} {i : Input}
    {nodes : List Node} {e : Mismatch} (h : wordThen t settle body i = ⟨nodes, .error e⟩) :
    nodes = [] ∨ ∃ text rest more, Lexeme.word t.spelling.toList i.skip.rest = some (text, rest) ∧
      body (i.skip.after text rest) = ⟨more, .error e⟩ ∧
      nodes = i.skip.leaf (.token t) text :: more := by
  unfold wordThen at h
  cases hread : Lexeme.word t.spelling.toList i.skip.rest with
  | none =>
    rw [hread] at h
    cases h
    exact .inl rfl
  | some read =>
    rw [hread] at h
    obtain ⟨rfl, hout⟩ := Reading.mk.inj h
    refine .inr ⟨read.1, read.2, _, rfl, by rw [← hout], ?_⟩
    rw [Reading.value?, hout]
    rfl

theorem enclose_ok {kind : α → InnerKind} {r : Rule α} {i j : Input} {nodes : List Node} {a : α}
    (h : enclose kind r i = ⟨nodes, .ok (a, j)⟩) :
    ∃ inside, r i = ⟨inside, .ok (a, j)⟩ ∧ nodes = [i.enclose (kind a) inside] := by
  unfold enclose at h
  cases hr : r i with
  | mk inside outcome =>
    rw [hr] at h
    cases outcome <;> cases h
    exact ⟨inside, rfl, rfl⟩

theorem enclose_error {kind : α → InnerKind} {r : Rule α} {i : Input} {nodes : List Node}
    {e : Mismatch} (h : enclose kind r i = ⟨nodes, .error e⟩) :
    nodes = [] ∧ ∃ inside, r i = ⟨inside, .error e⟩ := by
  unfold enclose at h
  cases hr : r i with
  | mk inside outcome =>
    rw [hr] at h
    cases outcome <;> cases h
    exact ⟨rfl, inside, rfl⟩

theorem Emits.bind_left {r : Rule α} {f : α → Rule β} (h : Emits r) : Emits (r >>= f) := by
  intro i nodes b j hb
  obtain ⟨xs, a, k, ys, hr, -, rfl⟩ := bind_ok hb
  exact List.append_ne_nil_of_left_ne_nil (h hr) ys

theorem Emits.bind_right {r : Rule α} {f : α → Rule β} (h : ∀ a, Emits (f a)) :
    Emits (r >>= f) := by
  intro i nodes b j hb
  obtain ⟨xs, a, k, ys, -, hf, rfl⟩ := bind_ok hb
  exact List.append_ne_nil_of_right_ne_nil xs (h a hf)

namespace Traced

variable {K : LeafKind → Bool}

/-- A rule traced with few kinds of leaf is traced with all. -/
theorem anywhere {q : Bool} {r : Rule α} {post : α → Bool} (h : Traced K q r post) :
    Traced Grammar.anywhere q r post := by
  constructor
  · intro i nodes a j hr
    exact (h.ok hr).anywhere
  · intro i nodes e hr
    obtain ⟨p, j, htrace⟩ := h.error hr
    exact ⟨p, j, htrace.anywhere⟩

theorem weaken {q : Bool} {r : Rule α} {post post' : α → Bool} (h : Traced K q r post)
    (hp : ∀ a, post' a = true → post a = true) : Traced K q r post' :=
  ⟨fun hr => (h.ok hr).weaken (hp _), h.error⟩

theorem pure {q : Bool} {post : α → Bool} (a : α) (h : post a = true → q = true) :
    Traced K q (Pure.pure a : Rule α) post := by
  constructor
  · intro i nodes b j hr
    cases hr
    exact .done h
  · intro i nodes e hr
    cases hr

theorem stop {q : Bool} {post : α → Bool} (cause : Mismatch) :
    Traced K q (stop cause : Rule α) post := by
  constructor
  · intro i nodes b j hr
    cases hr
  · intro i nodes e hr
    cases hr
    exact ⟨q, i, .done id⟩

theorem bind {q : Bool} {r : Rule α} {f : α → Rule β} {post : α → Bool} {post' : β → Bool}
    (hr : Traced K q r post) (hf : ∀ a, Traced K (post a) (f a) post') :
    Traced K q (r >>= f) post' := by
  constructor
  · intro i nodes b j h
    obtain ⟨xs, a, k, ys, h₁, h₂, rfl⟩ := bind_ok h
    exact (hr.ok h₁).append ((hf a).ok h₂)
  · intro i nodes e h
    rcases bind_error h with h | ⟨xs, a, k, ys, h₁, h₂, rfl⟩
    · exact hr.error h
    · obtain ⟨p, j, ht⟩ := (hf a).error h₂
      exact ⟨p, j, (hr.ok h₁).append ht⟩

theorem ite {q : Bool} {c : Prop} [Decidable c] {r s : Rule α} {post : α → Bool}
    (hr : c → Traced K q r post) (hs : ¬c → Traced K q s post) :
    Traced K q (if c then r else s) post := by
  by_cases h : c
  · simpa only [if_pos h] using hr h
  · simpa only [if_neg h] using hs h

theorem peek {q : Bool} : Traced K q peek (fun _ => q) := by
  constructor
  · intro i nodes a j h
    cases h
    exact .skip (.done id)
  · intro i nodes e h
    cases h

theorem ahead {q : Bool} (test : List Char → Bool) : Traced K q (ahead test) (fun _ => q) := by
  constructor
  · intro i nodes a j h
    cases h
    exact .skip (.done id)
  · intro i nodes e h
    cases h

theorem atEnd {q : Bool} : Traced K q atEnd (fun _ => q) :=
  bind peek fun _ => pure _ id

theorem token? {q : Bool} {reader : Lexeme.Reader} {kind : LeafKind}
    (hread : ∀ {s text rest}, reader s = some (text, rest) → Reads kind s text rest)
    (allowed : kind.isOperand = true → q = true) (known : K kind = true) :
    Traced K q (token? reader kind) (fun found => if found then !kind.isOperand else q) := by
  constructor
  · intro i nodes a j h
    rcases token?_ok h with ⟨-, rfl, rfl, rfl⟩ | ⟨text, rest, hr, rfl, rfl, rfl⟩
    · exact .skip (.done id)
    · exact .skip (.leaf known (hread hr) allowed (.done id))
  · intro i nodes e h
    exact absurd h token?_ne_error

theorem word? {q : Bool} {t : Token} (plain : t.isPlain = true)
    (known : K (.token t) = true) :
    Traced K q (word? t) (fun found => found || q) := by
  refine (token? (fun h => .word plain h) (by simp [LeafKind.isOperand]) known).weaken ?_
  intro found h
  cases found <;> simp_all [LeafKind.isOperand]

theorem expect {q : Bool} {t : Token} (plain : t.isPlain = true)
    (known : K (.token t) = true) : Traced K q (expect t) (fun _ => true) := by
  apply bind (word? plain known)
  intro found
  apply ite
  · intro h
    exact pure _ (by simp [h])
  · intro _
    exact stop _

/-- A word settled by its body is read by its spelling all the same. -/
theorem wordThen {q : Bool} {t : Token} {settle : α → Token} {body : Rule α} {post : α → Bool}
    (plain : t.isPlain = true) (hsettle : ∀ a, (settle a).isPlain = true)
    (hspell : ∀ a, (settle a).spelling = t.spelling)
    (hbody : Traced Grammar.anywhere true body post) :
    Traced Grammar.anywhere q (wordThen t settle body) post := by
  constructor
  · intro i nodes a j h
    obtain ⟨text, rest, more, hword, hr, rfl⟩ := wordThen_ok h
    have hread : Reads (.token (settle a)) i.skip.rest text rest :=
      .word (hsettle a) (by rwa [hspell])
    exact .skip (.leaf rfl hread (by simp [LeafKind.isOperand]) (hbody.ok hr))
  · intro i nodes e h
    rcases wordThen_error h with rfl | ⟨text, rest, more, hword, hr, rfl⟩
    · exact ⟨q, i, .done id⟩
    · obtain ⟨p, j, ht⟩ := hbody.error hr
      exact ⟨p, j, .skip (.leaf rfl (.word plain hword) (by simp [LeafKind.isOperand]) ht)⟩

theorem enclose {q : Bool} {kind : α → InnerKind} {r : Rule α} {post : α → Bool}
    (hr : Traced K q r post) (he : Emits r) :
    Traced K q (enclose kind r) post := by
  constructor
  · intro i nodes a j h
    obtain ⟨inside, hr', rfl⟩ := enclose_ok h
    exact .inner (hr.ok hr') (he hr') (.done id)
  · intro i nodes e h
    obtain ⟨rfl, -⟩ := enclose_error h
    exact ⟨q, i, .done id⟩

theorem rounds {q : Bool} {step : σ → Rule (Option σ)}
    (hstep : ∀ s, Traced K q (step s) (fun _ => q)) (n : Nat) (s : σ) :
    Traced K q (rounds step n s) (fun _ => q) := by
  induction n generalizing s with
  | zero => exact pure s id
  | succ n ih =>
    apply bind (hstep s)
    intro next
    cases next with
    | none => exact pure s id
    | some s' => exact ih s'

theorem loop {q : Bool} {step : σ → Rule (Option σ)}
    (hstep : ∀ s, Traced K q (step s) (fun _ => q)) (s : σ) :
    Traced K q (loop step s) (fun _ => q) :=
  ⟨fun h => (rounds hstep _ s).ok h, fun h => (rounds hstep _ s).error h⟩

end Traced

end Grammar

end IntegerBasic
