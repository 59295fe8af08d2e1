import IntegerBasic.Proofs.Grammar.Alignment

/-!
# Simulation of rules

A rule that goes on from one text goes on from every text that is aligned with it, with the same
value, and leaves similar nodes. The number of leaves that a rule has read bounds the depth of
parentheses and the rounds of loops, so it takes the place of the length of the text on both sides.
-/

namespace IntegerBasic.Grammar

open Rule

variable {α β σ : Type} {M : Match}

/-- The second rule follows the first wherever this goes on and reads less than `n` leaves. -/
def Follows (M : Match) (n : Nat) (r r' : Rule α) : Prop :=
  ∀ ⦃i i' : Input⦄ ⦃nodes : List Node⦄ ⦃a : α⦄ ⦃j : Input⦄ ⦃L : List Leaf⦄,
    r i = ⟨nodes, .ok (a, j)⟩ → (Node.leavesOf nodes).length < n →
      Aligned M (Node.leavesOf nodes ++ L) i.rest i'.rest →
        ∃ nodes' j', r' i' = ⟨nodes', .ok (a, j')⟩ ∧ Similar M nodes nodes' ∧
          Aligned M L j.rest j'.rest

/-- The second rule follows the first wherever this goes on and leaves with the property `P` come
next. -/
def FollowsBefore (P : List Leaf → Prop) (M : Match) (n : Nat) (r r' : Rule α) : Prop :=
  ∀ ⦃i i' : Input⦄ ⦃nodes : List Node⦄ ⦃a : α⦄ ⦃j : Input⦄ ⦃L : List Leaf⦄,
    r i = ⟨nodes, .ok (a, j)⟩ → (Node.leavesOf nodes).length < n → P L →
      Aligned M (Node.leavesOf nodes ++ L) i.rest i'.rest →
        ∃ nodes' j', r' i' = ⟨nodes', .ok (a, j')⟩ ∧ Similar M nodes nodes' ∧
          Aligned M L j.rest j'.rest

/-- Where leaves with the property come behind what a rule has read, they also come before it. -/
def Keeps (P : List Leaf → Prop) (r : Rule α) : Prop :=
  ∀ ⦃i : Input⦄ ⦃nodes : List Node⦄ ⦃a : α⦄ ⦃j : Input⦄ ⦃L : List Leaf⦄,
    r i = ⟨nodes, .ok (a, j)⟩ → P L → P (Node.leavesOf nodes ++ L)

def Leafy (r : Rule α) : Prop :=
  ∀ ⦃i nodes a j⦄, r i = ⟨nodes, .ok (a, j)⟩ → Node.leavesOf nodes ≠ []

theorem bind_of_ok {r : Rule α} {f : α → Rule β} {i : Input} {xs ys : List Node} {a : α} {b : β}
    {k j : Input} (hr : r i = ⟨xs, .ok (a, k)⟩) (hf : f a k = ⟨ys, .ok (b, j)⟩) :
    (r >>= f) i = ⟨xs ++ ys, .ok (b, j)⟩ := by
  show Rule.bind r f i = _
  simp [Rule.bind, hr, hf]

theorem Leafy.bind_left {r : Rule α} {f : α → Rule β} (h : Leafy r) : Leafy (r >>= f) := by
  intro i nodes b j hb
  obtain ⟨xs, a, k, ys, hr, -, rfl⟩ := bind_ok hb
  rw [Node.leavesOf_append]
  exact List.append_ne_nil_of_left_ne_nil (h hr) _

theorem Leafy.bind_right {r : Rule α} {f : α → Rule β} (h : ∀ a, Leafy (f a)) :
    Leafy (r >>= f) := by
  intro i nodes b j hb
  obtain ⟨xs, a, k, ys, -, hf, rfl⟩ := bind_ok hb
  rw [Node.leavesOf_append]
  exact List.append_ne_nil_of_right_ne_nil _ (h a hf)

theorem leavesOf_leaf (i : Input) (kind : LeafKind) (text : List Char) :
    Node.leavesOf [i.leaf kind text] = [⟨kind, text, ⟨i.point, ⟨i.row, i.col + text.length⟩⟩⟩] := by
  simp [Input.leaf]

/-- A word that comes next is read where it is expected. -/
theorem expect_of_word {t : Token} {i : Input} {text rest : List Char}
    (h : Lexeme.word t.spelling.toList i.skip.rest = some (text, rest)) :
    expect t i = ⟨[i.skip.leaf (.token t) text], .ok ((), i.skip.after text rest)⟩ := by
  have hword : word? t i = ⟨[i.skip.leaf (.token t) text], .ok (true, i.skip.after text rest)⟩ := by
    rw [word?, token?, h]
  exact bind_of_ok hword rfl

theorem stringLiteral_of_string {i : Input} {text rest : List Char}
    (h : Lexeme.string i.skip.rest = some (text, rest)) :
    stringLiteral i = ⟨[i.skip.leaf .string text], .ok ((), i.skip.after text rest)⟩ := by
  have htoken : token? Lexeme.string .string i =
      ⟨[i.skip.leaf .string text], .ok (true, i.skip.after text rest)⟩ := by
    rw [token?, h]
  exact bind_of_ok htoken rfl

theorem variableName_of_name {i : Input} {text rest : List Char}
    (h : Lexeme.name i.skip.rest = some (text, rest)) :
    variableName i = ⟨[i.skip.leaf (.name (Lexeme.nameType text)) text],
      .ok (Lexeme.nameType text, i.skip.after text rest)⟩ := by
  rw [variableName, h]

/-- A loop ends with a round that does not go on. -/
theorem rounds_of_none {step : σ → Rule (Option σ)} {n : Nat} {s : σ} {i j : Input}
    {nodes : List Node} (h : step s i = ⟨nodes, .ok (none, j)⟩) :
    rounds step (n + 1) s i = ⟨nodes, .ok (s, j)⟩ := by
  rw [rounds]
  exact (bind_of_ok h rfl).trans (by rw [List.append_nil])

theorem rounds_of_some {step : σ → Rule (Option σ)} {n : Nat} {s s' a : σ} {i k j : Input}
    {xs ys : List Node} (h : step s i = ⟨xs, .ok (some s', k)⟩)
    (hmore : rounds step n s' k = ⟨ys, .ok (a, j)⟩) :
    rounds step (n + 1) s i = ⟨xs ++ ys, .ok (a, j)⟩ := by
  rw [rounds]
  exact bind_of_ok h hmore

theorem leafy_expect (t : Token) : Leafy (expect t) := by
  intro i nodes a j h
  obtain ⟨text, rest, -, rfl, -⟩ := expect_ok h
  rw [leavesOf_leaf]
  exact List.cons_ne_nil _ _

theorem leafy_variableName : Leafy variableName := by
  intro i nodes a j h
  obtain ⟨text, rest, -, -, rfl, -⟩ := variableName_ok h
  rw [leavesOf_leaf]
  exact List.cons_ne_nil _ _

theorem Leafy.enclose {kind : α → InnerKind} {r : Rule α} (h : Leafy r) :
    Leafy (enclose kind r) := by
  intro i nodes a j he
  obtain ⟨inside, hr, rfl⟩ := enclose_ok he
  simpa [Input.enclose] using h hr

theorem keeps_rounds {P : List Leaf → Prop} {step : σ → Rule (Option σ)}
    (keeps : ∀ s, Keeps P (step s)) (m : Nat) :
    ∀ {s : σ} {i : Input} {nodes : List Node} {a : σ} {j : Input} {L : List Leaf},
      rounds step m s i = ⟨nodes, .ok (a, j)⟩ → P L → P (Node.leavesOf nodes ++ L) := by
  induction m with
  | zero =>
    intro s i nodes a j L h hL
    cases h
    exact hL
  | succ m ih =>
    intro s i nodes a j L h hL
    obtain ⟨xs, next, k, ys, hx, hy, rfl⟩ := bind_ok h
    rw [Node.leavesOf_append, List.append_assoc]
    refine keeps s hx ?_
    cases next with
    | none =>
      cases hy
      exact hL
    | some s' => exact ih hy hL

theorem Follows.before {P : List Leaf → Prop} {n : Nat} {r r' : Rule α} (h : Follows M n r r') :
    FollowsBefore P M n r r' :=
  fun _ _ _ _ _ _ hr hlt _ halign => h hr hlt halign

namespace FollowsBefore

variable {P : List Leaf → Prop} {n : Nat} {r r' : Rule α} {f f' : α → Rule β}

theorem bind (hr : FollowsBefore P M n r r') (hf : ∀ a, FollowsBefore P M n (f a) (f' a))
    (keeps : ∀ a, Keeps P (f a)) : FollowsBefore P M n (r >>= f) (r' >>= f') := by
  intro i i' nodes b j L h hlt hL halign
  obtain ⟨xs, a, k, ys, hx, hy, rfl⟩ := bind_ok h
  rw [Node.leavesOf_append, List.length_append] at hlt
  rw [Node.leavesOf_append, List.append_assoc] at halign
  obtain ⟨xs', k', hx', hxs, halign⟩ := hr hx (by omega) (keeps a hy hL) halign
  obtain ⟨ys', j', hy', hys, halign⟩ := hf a hy (by omega) hL halign
  exact ⟨xs' ++ ys', j', bind_of_ok hx' hy', hxs.append hys, halign⟩

/-- Before a rule whose leaves have the property nothing more is asked. -/
theorem bind_follows (hr : FollowsBefore P M n r r') (hf : ∀ a, Follows M n (f a) (f' a))
    (heads : ∀ ⦃a i nodes b j⦄, f a i = ⟨nodes, .ok (b, j)⟩ → ∀ L, P (Node.leavesOf nodes ++ L)) :
    Follows M n (r >>= f) (r' >>= f') := by
  intro i i' nodes b j L h hlt halign
  obtain ⟨xs, a, k, ys, hx, hy, rfl⟩ := bind_ok h
  rw [Node.leavesOf_append, List.length_append] at hlt
  rw [Node.leavesOf_append, List.append_assoc] at halign
  obtain ⟨xs', k', hx', hxs, halign⟩ := hr hx (by omega) (heads hy L) halign
  obtain ⟨ys', j', hy', hys, halign⟩ := hf a hy (by omega) halign
  exact ⟨xs' ++ ys', j', bind_of_ok hx' hy', hxs.append hys, halign⟩

end FollowsBefore

namespace Follows

variable {n : Nat}

theorem pure (a : α) : Follows M n (Pure.pure a : Rule α) (Pure.pure a) := by
  intro i i' nodes b j L h _ halign
  cases h
  exact ⟨[], i', rfl, .nil, halign⟩

theorem stop (cause : Mismatch) (r : Rule α) : Follows M n (stop cause : Rule α) r := by
  intro i i' nodes b j L h
  cases h

theorem bind {r r' : Rule α} {f f' : α → Rule β} (hr : Follows M n r r')
    (hf : ∀ a, Follows M n (f a) (f' a)) : Follows M n (r >>= f) (r' >>= f') := by
  intro i i' nodes b j L h hlt halign
  obtain ⟨xs, a, k, ys, hx, hy, rfl⟩ := bind_ok h
  rw [Node.leavesOf_append, List.length_append] at hlt
  rw [Node.leavesOf_append, List.append_assoc] at halign
  obtain ⟨xs', k', hx', hxs, halign⟩ := hr hx (by omega) halign
  obtain ⟨ys', j', hy', hys, halign⟩ := hf a hy (by omega) halign
  exact ⟨xs' ++ ys', j', bind_of_ok hx' hy', hxs.append hys, halign⟩

/-- Behind a leaf there are fewer leaves to read. -/
theorem bind_leafy {r r' : Rule α} {f f' : α → Rule β} (hr : Follows M (n + 1) r r')
    (leafy : Leafy r) (hf : ∀ a, Follows M n (f a) (f' a)) :
    Follows M (n + 1) (r >>= f) (r' >>= f') := by
  intro i i' nodes b j L h hlt halign
  obtain ⟨xs, a, k, ys, hx, hy, rfl⟩ := bind_ok h
  have hpos := List.length_pos_iff.2 (leafy hx)
  rw [Node.leavesOf_append, List.length_append] at hlt
  rw [Node.leavesOf_append, List.append_assoc] at halign
  obtain ⟨xs', k', hx', hxs, halign⟩ := hr hx (by omega) halign
  obtain ⟨ys', j', hy', hys, halign⟩ := hf a hy (by omega) halign
  exact ⟨xs' ++ ys', j', bind_of_ok hx' hy', hxs.append hys, halign⟩

theorem mono {m : Nat} {r r' : Rule α} (h : Follows M n r r') (hle : m ≤ n) : Follows M m r r' :=
  fun _ _ _ _ _ _ hr hlt halign => h hr (by omega) halign

theorem ite {c : Prop} [Decidable c] {r r' s s' : Rule α} (hr : c → Follows M n r r')
    (hs : ¬c → Follows M n s s') : Follows M n (if c then r else s) (if c then r' else s') := by
  by_cases h : c
  · simpa only [if_pos h] using hr h
  · simpa only [if_neg h] using hs h

/-- Two characters that come next and by which a rule does not tell the texts apart. -/
def SameMark (next next' : Option Char) : Prop :=
  (next = none ↔ next' = none) ∧ ∀ c ∈ marks, next = some c ↔ next' = some c

theorem peek {f f' : Option Char → Rule β}
    (hf : ∀ next next', SameMark next next' → Follows M n (f next) (f' next')) :
    Follows M n (peek >>= f) (peek >>= f') := by
  intro i i' nodes b j L h hlt halign
  have hsame : SameMark i.skip.rest.head? i'.skip.rest.head? := by
    have hempty := halign.alike.empty
    exact ⟨by simpa [rest_skip] using hempty, halign.alike.mark⟩
  have halign' : Aligned M (Node.leavesOf nodes ++ L) i.skip.rest i'.skip.rest :=
    Aligned.front_iff.2 halign
  exact hf _ _ hsame h hlt halign'

/-- A test of what comes next that gives the same answer for both texts. -/
theorem ahead {test : List Char → Bool}
    (htest : ∀ {s t}, Alike s t → test s = test t) : Follows M n (ahead test) (ahead test) := by
  intro i i' nodes b j L h hlt halign
  cases h
  have heq := htest halign.alike
  refine ⟨[], i'.skip, ?_, .nil, Aligned.front_iff.2 halign⟩
  rw [Rule.ahead, rest_skip, rest_skip, heq]

theorem endsStatement_congr {s t : List Char} (h : Alike s t) :
    endsStatement s = endsStatement t := by
  have hempty := h.empty
  have hcolon := h.mark ':' (by decide)
  rw [Bool.eq_iff_iff]
  simp only [endsStatement, Bool.or_eq_true, beq_iff_eq, List.head?_eq_none_iff]
  rw [hempty, hcolon]

theorem atEnd : Follows M n atEnd atEnd := by
  intro i i' nodes b j L h hlt halign
  rw [atEnd_eq] at h
  cases h
  refine ⟨[], i'.skip, ?_, .nil, Aligned.front_iff.2 halign⟩
  rw [atEnd_eq, rest_skip, rest_skip, endsStatement_congr halign.alike]

/-- A leaf that is read from both texts. -/
theorem similar_leaf {kind : LeafKind} {i i' : Input} {text text' : List Char}
    (same : M ⟨kind, text, ⟨i.point, ⟨i.row, i.col + text.length⟩⟩⟩ text') :
    Similar M [i.leaf kind text] [i'.leaf kind text'] := .leaf rfl same .nil

/-- The text of a leaf that has been read, in the other text. -/
theorem exists_leaf {kind : LeafKind} (hrem : kind ≠ .token .rem) {i i' : Input}
    {text rest : List Char} {L : List Leaf} (happend : text ++ rest = i.skip.rest)
    (halign : Aligned M (Node.leavesOf [i.skip.leaf kind text] ++ L) i.rest i'.rest) :
    ∃ text' rest', Takes kind i'.skip.rest text' rest' ∧
      Similar M [i.skip.leaf kind text] [i'.skip.leaf kind text'] ∧ Aligned M L rest rest' := by
  rw [leavesOf_leaf, List.singleton_append] at halign
  obtain ⟨text', rest', htakes, hsame, halign⟩ := halign.of_cons hrem happend.symm
  exact ⟨text', rest', htakes, similar_leaf hsame, halign⟩

/-- A token that both texts have, or none of them. -/
theorem token? {reader : Lexeme.Reader} {kind : LeafKind} (hrem : kind ≠ .token .rem)
    (happend : ∀ {s text rest}, reader s = some (text, rest) → text ++ rest = s)
    (htakes : ∀ {s text rest}, Takes kind s text rest → reader s = some (text, rest))
    (hnone : ∀ {s t}, Alike s t → reader s = none → reader t = none) :
    Follows M n (token? reader kind) (token? reader kind) := by
  intro i i' nodes b j L h hlt halign
  rcases token?_ok h with ⟨hread, rfl, rfl, rfl⟩ | ⟨text, rest, hread, rfl, rfl, rfl⟩
  · have hread' := hnone halign.alike hread
    refine ⟨[], i'.skip, ?_, .nil, Aligned.front_iff.2 halign⟩
    rw [Rule.token?, rest_skip, hread']
  · obtain ⟨text', rest', ht, hsimilar, halign⟩ := exists_leaf hrem (happend hread) halign
    refine ⟨_, i'.skip.after text' rest', ?_, hsimilar, halign⟩
    rw [Rule.token?, htakes ht]

theorem word? {t : Token} (ht : t.isSpelled = true) (hrem : t ≠ .rem)
    (hoptional : t.spelling ∈ optionalWords) : Follows M n (word? t) (word? t) := by
  refine token? (by simpa using hrem) Lexeme.append_of_word (fun h => h.word ht) ?_
  intro s s' halike hnone
  have hsame := halike.word _ hoptional
  rw [hnone] at hsame
  exact Option.isNone_iff_eq_none.1 (by simpa using hsame.symm)

theorem expect {t : Token} (ht : t.isSpelled = true) (hrem : t ≠ .rem) :
    Follows M n (expect t) (expect t) := by
  intro i i' nodes b j L h hlt halign
  obtain ⟨text, rest, hread, rfl, rfl⟩ := expect_ok h
  obtain ⟨text', rest', htakes, hsimilar, halign⟩ :=
    exists_leaf (by simpa using hrem) (Lexeme.append_of_word hread) halign
  refine ⟨_, i'.skip.after text' rest', ?_, hsimilar, halign⟩
  rw [expect_of_word (htakes.word ht)]

/-- A word whose token is settled alike by similar bodies. -/
theorem wordThen {t : Token} {settle : α → Token} {body body' : Rule α}
    (hspelled : ∀ a, (settle a).isSpelled = true) (hrem : ∀ a, settle a ≠ .rem)
    (hspelling : ∀ a, (settle a).spelling = t.spelling) (hbody : Follows M n body body') :
    Follows M n (wordThen t settle body) (wordThen t settle body') := by
  intro i i' nodes a j L h hlt halign
  obtain ⟨text, rest, more, hread, hmore, rfl⟩ := wordThen_ok h
  rw [← List.singleton_append, Node.leavesOf_append, List.length_append] at hlt
  rw [← List.singleton_append, Node.leavesOf_append, List.append_assoc] at halign
  obtain ⟨text', rest', htakes, hsimilar, halign⟩ :=
    exists_leaf (by simpa using hrem a) (Lexeme.append_of_word hread) halign
  have hread' : Lexeme.word t.spelling.toList i'.skip.rest = some (text', rest') := by
    rw [← hspelling a]
    exact htakes.word (hspelled a)
  have halign' : Aligned M (Node.leavesOf more ++ L) (i.skip.after text rest).rest
      (i'.skip.after text' rest').rest := halign
  obtain ⟨nodes', j', hbody', hnodes, halign⟩ := hbody hmore (by omega) halign'
  refine ⟨i'.skip.leaf (.token (settle a)) text' :: nodes', j', ?_, hsimilar.append hnodes, halign⟩
  rw [Rule.wordThen, hread']
  simp [hbody', Reading.value?]

theorem enclose {kind : α → InnerKind} {r r' : Rule α} (h : Follows M n r r') :
    Follows M n (enclose kind r) (enclose kind r') := by
  intro i i' nodes a j L he hlt halign
  obtain ⟨inside, hr, rfl⟩ := enclose_ok he
  have hleaves : Node.leavesOf [i.enclose (kind a) inside] = Node.leavesOf inside := by
    simp [Input.enclose]
  rw [hleaves] at hlt halign
  obtain ⟨inside', j', hr', hinside, halign⟩ := h hr hlt halign
  refine ⟨[i'.enclose (kind a) inside'], j', ?_, .inner rfl hinside .nil, halign⟩
  rw [Rule.enclose, hr']

/-- Rounds that read a leaf each, as long as they go on. -/
theorem rounds {P : List Leaf → Prop} {step step' : σ → Rule (Option σ)}
    (hstep : ∀ s, FollowsBefore P M n (step s) (step' s)) (keeps : ∀ s, Keeps P (step s))
    (leafy : ∀ {s i nodes s' j}, step s i = ⟨nodes, .ok (some s', j)⟩ →
      Node.leavesOf nodes ≠ []) (m : Nat) :
    ∀ {m' : Nat} {s : σ} {i i' : Input} {nodes : List Node} {a : σ} {j : Input} {L : List Leaf},
      rounds step m s i = ⟨nodes, .ok (a, j)⟩ → (Node.leavesOf nodes).length < n →
        (Node.leavesOf nodes).length < m → (Node.leavesOf nodes).length < m' → P L →
          Aligned M (Node.leavesOf nodes ++ L) i.rest i'.rest →
            ∃ nodes' j', rounds step' m' s i' = ⟨nodes', .ok (a, j')⟩ ∧ Similar M nodes nodes' ∧
              Aligned M L j.rest j'.rest := by
  induction m with
  | zero =>
    intro m' s i i' nodes a j L _ _ hm
    omega
  | succ m ih =>
    intro m' s i i' nodes a j L h hn hm hm' hL halign
    obtain ⟨m', rfl⟩ : ∃ k, m' = k + 1 := ⟨m' - 1, by omega⟩
    obtain ⟨xs, next, k, ys, hx, hy, rfl⟩ := bind_ok h
    rw [Node.leavesOf_append, List.length_append] at hn hm hm'
    rw [Node.leavesOf_append, List.append_assoc] at halign
    cases next with
    | none =>
      cases hy
      obtain ⟨xs', k', hx', hxs, halign⟩ := hstep s hx (by omega) (by simpa using hL) halign
      exact ⟨xs', k', rounds_of_none hx', by simpa using hxs, by simpa using halign⟩
    | some s' =>
      have hys := keeps_rounds keeps m hy hL
      obtain ⟨xs', k', hx', hxs, halign⟩ := hstep s hx (by omega) hys halign
      have hpos := List.length_pos_iff.2 (leafy hx)
      have hlt : (Node.leavesOf ys).length < m' := by omega
      obtain ⟨ys', j', hy', hys, halign⟩ := ih hy (by omega) (by omega) hlt hL halign
      exact ⟨xs' ++ ys', j', rounds_of_some hx' hy', hxs.append hys, halign⟩

theorem loop_before {P : List Leaf → Prop} {step step' : σ → Rule (Option σ)}
    (hstep : ∀ s, FollowsBefore P M n (step s) (step' s)) (keeps : ∀ s, Keeps P (step s))
    (leafy : ∀ {s i nodes s' j}, step s i = ⟨nodes, .ok (some s', j)⟩ →
      Node.leavesOf nodes ≠ []) (s : σ) : FollowsBefore P M n (loop step s) (loop step' s) := by
  intro i i' nodes a j L h hlt hL halign
  obtain ⟨hx, hy⟩ := halign.length_le
  rw [List.length_append] at hx hy
  exact rounds hstep keeps leafy _ h hlt (by omega) (by omega) hL halign

theorem loop {step step' : σ → Rule (Option σ)} (hstep : ∀ s, Follows M n (step s) (step' s))
    (leafy : ∀ {s i nodes s' j}, step s i = ⟨nodes, .ok (some s', j)⟩ →
      Node.leavesOf nodes ≠ []) (s : σ) : Follows M n (loop step s) (loop step' s) := by
  intro i i' nodes a j L h hlt halign
  exact @loop_before _ M n (fun _ => True) _ _ (fun s => (hstep s).before)
    (fun _ _ _ _ _ _ _ _ => trivial) leafy s _ _ _ _ _ _ h hlt trivial halign

theorem variableName : Follows M n variableName variableName := by
  intro i i' nodes type j L h hlt halign
  obtain ⟨text, rest, hread, rfl, rfl, rfl⟩ := variableName_ok h
  obtain ⟨text', rest', htakes, hsimilar, halign⟩ :=
    exists_leaf (by simp) (Lexeme.append_of_name hread) halign
  obtain ⟨hname, htype⟩ := htakes.name
  refine ⟨_, i'.skip.after text' rest', ?_, hsimilar, halign⟩
  rw [variableName_of_name hname, htype]

theorem stringLiteral : Follows M n stringLiteral stringLiteral := by
  intro i i' nodes a j L h hlt halign
  obtain ⟨text, rest, hread, rfl, rfl⟩ := stringLiteral_ok h
  obtain ⟨text', rest', htakes, hsimilar, halign⟩ :=
    exists_leaf (by simp) (Lexeme.append_of_string hread) halign
  exact ⟨_, i'.skip.after text' rest', stringLiteral_of_string htakes.string, hsimilar, halign⟩

end Follows

/-- The leaves do not begin with the word `NOTRACE`, in which `NOT` would be found. -/
def Untraced (L : List Leaf) : Prop := ∀ l ∈ L.head?, l.kind ≠ .token .notrace

def Heads (r : Rule α) : Prop :=
  ∀ ⦃i nodes a j⦄, r i = ⟨nodes, .ok (a, j)⟩ → ∃ l more,
    Node.leavesOf nodes = l :: more ∧ l.kind ≠ .token .notrace

theorem Heads.untraced {r : Rule α} (h : Heads r) {i j : Input} {nodes : List Node} {a : α}
    (hr : r i = ⟨nodes, .ok (a, j)⟩) (L : List Leaf) : Untraced (Node.leavesOf nodes ++ L) := by
  obtain ⟨l, more, hleaves, hl⟩ := h hr
  rw [hleaves]
  rintro _ ⟨⟩
  exact hl

theorem Heads.bind_left {r : Rule α} {f : α → Rule β} (h : Heads r) : Heads (r >>= f) := by
  intro i nodes b j hb
  obtain ⟨xs, a, k, ys, hr, -, rfl⟩ := bind_ok hb
  obtain ⟨l, more, hleaves, hl⟩ := h hr
  exact ⟨l, more ++ Node.leavesOf ys, by rw [Node.leavesOf_append, hleaves]; rfl, hl⟩

theorem Heads.ite {c : Prop} [Decidable c] {r s : Rule α} (hr : Heads r) (hs : Heads s) :
    Heads (if c then r else s) := by
  by_cases h : c
  · simpa only [if_pos h] using hr
  · simpa only [if_neg h] using hs

theorem heads_leaf {i : Input} {kind : LeafKind} (hkind : kind ≠ .token .notrace)
    (text : List Char) : ∃ l more, Node.leavesOf [i.leaf kind text] = l :: more ∧
      l.kind ≠ .token .notrace := ⟨_, [], leavesOf_leaf _ _ _, hkind⟩

theorem heads_expect {t : Token} (ht : t ≠ .notrace) : Heads (expect t) := by
  intro i nodes a j h
  obtain ⟨text, rest, -, rfl, -⟩ := expect_ok h
  exact heads_leaf (by simpa using ht) text

namespace Keeps

theorem pure (a : α) : Keeps Untraced (Pure.pure a : Rule α) := by
  intro i nodes b j L h hL
  cases h
  exact hL

theorem bind {P : List Leaf → Prop} {r : Rule α} {f : α → Rule β} (hr : Keeps P r)
    (hf : ∀ a, Keeps P (f a)) : Keeps P (r >>= f) := by
  intro i nodes b j L h hL
  obtain ⟨xs, a, k, ys, hx, hy, rfl⟩ := bind_ok h
  rw [Node.leavesOf_append, List.append_assoc]
  exact hr hx (hf a hy hL)

theorem ite {P : List Leaf → Prop} {c : Prop} [Decidable c] {r s : Rule α} (hr : Keeps P r)
    (hs : Keeps P s) : Keeps P (if c then r else s) := by
  by_cases h : c
  · simpa only [if_pos h] using hr
  · simpa only [if_neg h] using hs

theorem token? {reader : Lexeme.Reader} {kind : LeafKind} (hkind : kind ≠ .token .notrace) :
    Keeps Untraced (token? reader kind) := by
  intro i nodes a j L h hL
  rcases token?_ok h with ⟨-, rfl, rfl, rfl⟩ | ⟨text, rest, -, rfl, rfl, rfl⟩
  · exact hL
  · rw [leavesOf_leaf]
    rintro _ ⟨⟩
    exact hkind

end Keeps

/-- A sign before an operand, if there is one. -/
def signStep (_ : Bool) : Rule (Option Bool) := do
  return if ← unaryOperator then some true else none

/-- An operator and the operand behind it, if there is one. -/
def operatorStep (e : Rule DataType) (state : DataType × Bool) :
    Rule (Option (DataType × Bool)) := do
  if ← binaryOperator state.1 then
    let rhs ← operand e
    return some (rhs, false)
  else return none

theorem operand_eq (e : Rule DataType) : operand e = do
    let signed ← loop signStep false
    let type ← primary e
    return if signed then .integer else type := rfl

theorem operands_eq (e : Rule DataType) : operands e = do
    let first ← operand e
    let (type, alone) ← loop (operatorStep e) (first, true)
    return if alone then type else .integer := rfl

def Named (r : Rule α) : Prop :=
  ∀ ⦃i nodes a j⦄, r i = ⟨nodes, .ok (a, j)⟩ → ∃ text rest span more,
    Lexeme.name i.skip.rest = some (text, rest) ∧
      Node.leavesOf nodes = ⟨.name (Lexeme.nameType text), text, span⟩ :: more

theorem named_variableName : Named variableName := by
  intro i nodes a j h
  obtain ⟨text, rest, hread, rfl, rfl, -⟩ := variableName_ok h
  exact ⟨text, rest, _, [], hread, leavesOf_leaf _ _ _⟩

theorem Named.bind_left {r : Rule α} {f : α → Rule β} (h : Named r) : Named (r >>= f) := by
  intro i nodes b j hb
  obtain ⟨xs, a, k, ys, hr, -, rfl⟩ := bind_ok hb
  obtain ⟨text, rest, span, more, hread, hleaves⟩ := h hr
  refine ⟨text, rest, span, more ++ Node.leavesOf ys, hread, ?_⟩
  rw [Node.leavesOf_append, hleaves, List.cons_append]

theorem Named.enclose {kind : α → InnerKind} {r : Rule α} (h : Named r) :
    Named (enclose kind r) := by
  intro i nodes a j he
  obtain ⟨inside, hr, rfl⟩ := enclose_ok he
  obtain ⟨text, rest, span, more, hread, hleaves⟩ := h hr
  exact ⟨text, rest, span, more, hread, by simpa [Input.enclose] using hleaves⟩

theorem Named.ahead {test : List Char → Bool} {f : Bool → Rule β} (h : ∀ b, Named (f b)) :
    Named (ahead test >>= f) := by
  intro i nodes b j hb
  obtain ⟨xs, a, k, ys, hr, hf, rfl⟩ := bind_ok hb
  cases hr
  obtain ⟨text, rest, span, more, hread, hleaves⟩ := h _ hf
  rw [skip_skip] at hread
  exact ⟨text, rest, span, more, hread, hleaves⟩

theorem Named.ite {c : Prop} [Decidable c] {r s : Rule α} (hr : Named r) (hs : Named s) :
    Named (if c then r else s) := by
  by_cases h : c
  · simpa only [if_pos h] using hr
  · simpa only [if_neg h] using hs

theorem Named.leafy {r : Rule α} (h : Named r) : Leafy r := by
  intro i nodes a j hr
  obtain ⟨text, rest, span, more, -, hleaves⟩ := h hr
  rw [hleaves]
  exact List.cons_ne_nil _ _

/-- The name in the other text where a rule has read a name. -/
theorem exists_name {i i' : Input} {text rest : List Char} {span : Span} {L : List Leaf}
    (hread : Lexeme.name i.skip.rest = some (text, rest))
    (halign : Aligned M (⟨.name (Lexeme.nameType text), text, span⟩ :: L) i.rest i'.rest) :
    ∃ text' rest', Lexeme.name i'.skip.rest = some (text', rest') ∧
      Lexeme.nameType text' = Lexeme.nameType text ∧
      Lexeme.opensNext rest = Lexeme.opensNext rest' := by
  obtain ⟨text', rest', htakes, -, hmore⟩ :=
    halign.of_cons (by simp) (Lexeme.append_of_name hread).symm
  obtain ⟨hname, htype⟩ := htakes.name
  exact ⟨text', rest', hname, htype, hmore.opensNext⟩

/-- A test of the name that comes next, before a rule that reads the name. -/
theorem Follows.ahead_name {n : Nat} {test : List Char → Bool} {f f' : Bool → Rule β}
    (htest : ∀ {s t text text' rest rest'}, Lexeme.name s = some (text, rest) →
      Lexeme.name t = some (text', rest') → Lexeme.nameType text' = Lexeme.nameType text →
        Lexeme.opensNext rest = Lexeme.opensNext rest' → test s = test t)
    (named : ∀ b, Named (f b)) (hf : ∀ b, Follows M n (f b) (f' b)) :
    Follows M n (Rule.ahead test >>= f) (Rule.ahead test >>= f') := by
  intro i i' nodes b j L h hlt halign
  obtain ⟨text, rest, span, more, hread, hleaves⟩ := Named.ahead named h
  rw [hleaves, List.cons_append] at halign
  obtain ⟨text', rest', hread', htype, hopens⟩ := exists_name hread halign
  have hsame := htest hread hread' htype hopens
  rw [← List.cons_append, ← hleaves] at halign
  have halign' : Aligned M (Node.leavesOf nodes ++ L) i.skip.rest i'.skip.rest :=
    Aligned.front_iff.2 halign
  obtain ⟨nodes', j', h', hnodes, halign⟩ := hf _ h hlt halign'
  rw [hsame] at h'
  exact ⟨nodes', j', h', hnodes, halign⟩

theorem isSubscripted_congr {s t text text' rest rest' : List Char}
    (hs : Lexeme.name s = some (text, rest)) (ht : Lexeme.name t = some (text', rest'))
    (_ : Lexeme.nameType text' = Lexeme.nameType text)
    (hopens : Lexeme.opensNext rest = Lexeme.opensNext rest') :
    isSubscripted s = isSubscripted t := by
  simp [isSubscripted, hs, ht, hopens]

theorem nextNameType_congr {s t text text' rest rest' : List Char}
    (hs : Lexeme.name s = some (text, rest)) (ht : Lexeme.name t = some (text', rest'))
    (htype : Lexeme.nameType text' = Lexeme.nameType text)
    (_ : Lexeme.opensNext rest = Lexeme.opensNext rest') :
    (nextNameType s == .string) = (nextNameType t == .string) := by
  simp [nextNameType, hs, ht, htype]

theorem named_subscripted (e : Rule DataType) (opener : Token) (kind : InnerKind) (pair : Bool) :
    Named (subscripted e opener kind pair) :=
  Named.enclose (Named.bind_left named_variableName)

def variableBy (asString asInteger : Rule DataType) : Rule DataType := do
  if ← ahead isSubscripted then
    if ← ahead (nextNameType · == .string) then asString else asInteger
  else variableName

theorem named_variableBy {r s : Rule DataType} (hr : Named r) (hs : Named s) :
    Named (variableBy r s) :=
  .ahead fun _ => .ite (.ahead fun _ => .ite hr hs) named_variableName

theorem follows_variableBy {n : Nat} {r r' s s' : Rule DataType} (namedLeft : Named r)
    (namedRight : Named s) (hr : Follows M n r r') (hs : Follows M n s s') :
    Follows M n (variableBy r s) (variableBy r' s') := by
  apply Follows.ahead_name isSubscripted_congr
  · intro _
    exact .ite (.ahead fun _ => .ite namedLeft namedRight) named_variableName
  · intro _
    apply Follows.ite
    · intro _
      apply Follows.ahead_name nextNameType_congr
      · intro _
        exact .ite namedLeft namedRight
      · intro _
        exact .ite (fun _ => hr) (fun _ => hs)
    · intro _
      exact .variableName

theorem named_target (e : Rule DataType) : Named (target e) :=
  named_variableBy (named_subscripted _ _ _ _) (named_subscripted _ _ _ _)

theorem named_reference (e : Rule DataType) : Named (reference e) :=
  named_variableBy (named_subscripted _ _ _ _) (named_subscripted _ _ _ _)

section Expression

variable {e e' : Rule DataType} {n : Nat} (he : Follows M n e e')
include he

theorem follows_subscripted {opener : Token} (ht : opener.isSpelled = true) (hrem : opener ≠ .rem)
    (kind : InnerKind) (pair : Bool) :
    Follows M (n + 1) (subscripted e opener kind pair) (subscripted e' opener kind pair) := by
  apply Follows.enclose
  apply Follows.bind_leafy .variableName leafy_variableName
  intro type
  apply Follows.bind (.expect ht hrem)
  intro _
  apply Follows.bind he
  intro _
  have hclose : Follows M n (do expect .close; return type) (do expect .close; return type) :=
    .bind (.expect rfl (by simp)) fun _ => .pure _
  apply Follows.ite
  · intro _
    apply Follows.bind (.word? rfl (by simp) (by decide))
    intro found
    apply Follows.ite
    · intro _
      exact .bind he fun _ => hclose
    · intro _
      exact hclose
  · intro _
    exact hclose

theorem follows_target : Follows M (n + 1) (target e) (target e') :=
  follows_variableBy (named_subscripted _ _ _ _) (named_subscripted _ _ _ _)
    (follows_subscripted he rfl (by simp) _ _) (follows_subscripted he rfl (by simp) _ _)

theorem follows_reference : Follows M (n + 1) (reference e) (reference e') :=
  follows_variableBy (named_subscripted _ _ _ _) (named_subscripted _ _ _ _)
    (follows_subscripted he rfl (by simp) _ _) (follows_subscripted he rfl (by simp) _ _)

theorem follows_call {f : Token} (hf : f ∈ functions) :
    Follows M (n + 1) (call e f) (call e' f) := by
  have hspelled : ∀ f ∈ functions, f.isSpelled = true ∧ f ≠ .rem := by decide
  obtain ⟨ht, hrem⟩ := hspelled f hf
  apply Follows.bind_leafy (.expect ht hrem) (leafy_expect f)
  intro _
  have hclose : Follows M n (do expect .close; return DataType.integer)
      (do expect .close; return DataType.integer) :=
    .bind (.expect rfl (by simp)) fun _ => .pure _
  have hbody : Follows M n (do
      let _ ← e
      if f == .scrn then
        expect .scrnComma
        let _ ← e
      expect .close
      return DataType.integer) (do
      let _ ← e'
      if f == .scrn then
        expect .scrnComma
        let _ ← e'
      expect .close
      return DataType.integer) := by
    apply Follows.bind he
    intro _
    apply Follows.ite
    · intro _
      exact .bind (.expect rfl (by simp)) fun _ => .bind he fun _ => hclose
    · intro _
      exact hclose
  apply Follows.ite
  · intro _
    exact hbody
  · intro _
    exact .bind (.expect rfl (by simp)) fun _ => hbody

omit he in
theorem Follows.sameMark_beq {next next' : Option Char} (h : Follows.SameMark next next') {c : Char}
    (hc : c ∈ marks) : (next == some c) = (next' == some c) := by
  rw [Bool.eq_iff_iff, beq_iff_eq, beq_iff_eq]
  exact h.2 c hc

/-- A function or a variable. -/
theorem follows_named : Follows M (n + 1)
    (fun i => match function? i.skip.rest with
      | some f => call e f i
      | none => if (Lexeme.name i.skip.rest).isSome then reference e i else stop .expression i)
    (fun i => match function? i.skip.rest with
      | some f => call e' f i
      | none => if (Lexeme.name i.skip.rest).isSome then reference e' i else stop .expression i) := by
  intro i i' nodes a j L h hlt halign
  have hfunction : function? i.skip.rest = function? i'.skip.rest := halign.alike.function
  dsimp only at h ⊢
  rw [← hfunction]
  cases hf : function? i.skip.rest with
  | some f =>
    rw [hf] at h
    exact follows_call he (List.mem_of_find?_eq_some hf) h hlt halign
  | none =>
    rw [hf] at h
    dsimp only at h ⊢
    split at h
    · obtain ⟨text, rest, span, more, hread, hleaves⟩ := named_reference e h
      have hname := halign
      rw [hleaves, List.cons_append] at hname
      obtain ⟨text', rest', hread', -⟩ := exists_name hread hname
      rw [hread', Option.isSome_some, if_pos rfl]
      exact follows_reference he h hlt halign
    · cases h

theorem follows_primary : Follows M (n + 1) (primary e) (primary e') := by
  apply Follows.bind
  · refine Follows.token? (by simp) Lexeme.append_of_integer (fun h => h.integer (.inl rfl)) ?_
    intro s t halike hnone
    have hsame := halike.digit
    rw [hnone] at hsame
    exact Option.isNone_iff_eq_none.1 (by simpa using hsame.symm)
  · intro found
    apply Follows.ite
    · intro _
      exact .pure _
    · intro _
      apply Follows.peek
      intro next next' hsame
      rw [← Follows.sameMark_beq hsame (show '"' ∈ marks by decide),
        ← Follows.sameMark_beq hsame (show '(' ∈ marks by decide)]
      apply Follows.ite
      · intro _
        exact .bind .stringLiteral fun _ => .pure _
      · intro _
        apply Follows.ite
        · intro _
          exact .bind_leafy (.expect rfl (by simp)) (leafy_expect _) fun _ => .bind he fun _ =>
            .bind (.expect rfl (by simp)) fun _ => .pure _
        · intro _
          exact follows_named he

omit he in
theorem heads_named (name : Rule DataType) (hname : Named name) : Heads
    (fun i => match function? i.skip.rest with
      | some f => call e f i
      | none => if (Lexeme.name i.skip.rest).isSome then name i else stop .expression i) := by
  intro i nodes a j h
  dsimp only at h
  cases hf : function? i.skip.rest with
  | some f =>
    rw [hf] at h
    have key : ∀ f ∈ functions, f ≠ .notrace := by decide
    exact (heads_expect (key f (List.mem_of_find?_eq_some hf))).bind_left h
  | none =>
    simp only [hf] at h
    split at h
    · obtain ⟨text, rest, span, more, -, hleaves⟩ := hname h
      exact ⟨_, more, hleaves, by simp⟩
    · cases h

omit he in
theorem heads_primary (e : Rule DataType) : Heads (primary e) := by
  intro i nodes a j h
  obtain ⟨xs, found, k, ys, hx, hy, rfl⟩ := bind_ok h
  rw [Node.leavesOf_append]
  cases found with
  | true =>
    rcases token?_ok hx with ⟨-, -, ⟨⟩, -⟩ | ⟨text, rest, -, rfl, -, -⟩
    rw [leavesOf_leaf]
    exact ⟨_, _, rfl, by simp⟩
  | false =>
    rcases token?_ok hx with ⟨-, rfl, -, -⟩ | ⟨text, rest, -, -, ⟨⟩, -⟩
    rw [Node.leavesOf_nil, List.nil_append]
    obtain ⟨zs, next, l, ws, hz, hw, rfl⟩ := bind_ok hy
    cases hz
    rw [List.nil_append]
    have hstring : Heads stringLiteral := by
      intro i nodes a j h
      obtain ⟨text, rest, -, rfl, -⟩ := stringLiteral_ok h
      exact heads_leaf (by simp) text
    exact Heads.ite hstring.bind_left
      (.ite (heads_expect (by simp)).bind_left (heads_named _ (named_reference e))) hw

omit he in
theorem follows_unaryOperator : FollowsBefore Untraced M n unaryOperator unaryOperator := by
  have hnegation : FollowsBefore Untraced M n (token? negation (.token .negation))
      (token? negation (.token .negation)) := by
    intro i i' nodes a j L h hlt hL halign
    rcases token?_ok h with ⟨hread, rfl, rfl, rfl⟩ | ⟨text, rest, hread, rfl, rfl, rfl⟩
    · have hread' : negation i'.skip.rest = none := halign.sameNegation hL hread
      refine ⟨[], i'.skip, ?_, .nil, Aligned.front_iff.2 halign⟩
      rw [token?, hread']
    · obtain ⟨text', rest', ht, hsimilar, halign⟩ := Follows.exists_leaf (by simp)
        (Lexeme.append_of_word (word_of_negation hread)) halign
      refine ⟨_, i'.skip.after text' rest', ?_, hsimilar, halign⟩
      rw [token?, ht.negation]
  have hplus : FollowsBefore Untraced M n
      (do
        if ← word? .unaryPlus then return true
        token? negation (.token .negation))
      (do
        if ← word? .unaryPlus then return true
        token? negation (.token .negation)) := by
    apply FollowsBefore.bind (Follows.word? rfl (by simp) (by decide)).before
    · intro plus
      cases plus with
      | true => exact (Follows.pure true).before
      | false => exact hnegation
    · intro plus
      exact .ite (.pure _) (.token? (by simp))
  apply FollowsBefore.bind (Follows.word? rfl (by simp) (by decide)).before
  · intro minus
    cases minus with
    | true => exact (Follows.pure true).before
    | false => exact hplus
  · intro minus
    exact .ite (.pure _) (.bind (.token? (by simp)) fun _ => .ite (.pure _) (.token? (by simp)))

omit he in
theorem keeps_signStep (signed : Bool) : Keeps Untraced (signStep signed) :=
  .bind (.bind (.token? (by simp)) fun _ => .ite (.pure _) (.bind (.token? (by simp)) fun _ =>
    .ite (.pure _) (.token? (by simp)))) fun _ => .pure _

omit he in
theorem leaf_of_token? {reader : Lexeme.Reader} {kind : LeafKind} {i j : Input} {nodes : List Node}
    (h : token? reader kind i = ⟨nodes, .ok (true, j)⟩) : Node.leavesOf nodes ≠ [] := by
  rcases token?_ok h with ⟨-, -, ⟨⟩, -⟩ | ⟨text, rest, -, rfl, -, -⟩
  rw [leavesOf_leaf]
  exact List.cons_ne_nil _ _

omit he in
theorem leaf_of_unaryOperator {i j : Input} {nodes : List Node}
    (h : unaryOperator i = ⟨nodes, .ok (true, j)⟩) : Node.leavesOf nodes ≠ [] := by
  obtain ⟨xs, minus, k, ys, hx, hy, rfl⟩ := bind_ok h
  rw [Node.leavesOf_append]
  cases minus with
  | true => exact List.append_ne_nil_of_left_ne_nil (leaf_of_token? hx) _
  | false =>
    apply List.append_ne_nil_of_right_ne_nil
    obtain ⟨zs, plus, l, ws, hz, hw, rfl⟩ := bind_ok hy
    rw [Node.leavesOf_append]
    cases plus with
    | true => exact List.append_ne_nil_of_left_ne_nil (leaf_of_token? hz) _
    | false => exact List.append_ne_nil_of_right_ne_nil _ (leaf_of_token? hw)

omit he in
theorem leaf_of_signStep (signed : Bool) {signed' : Bool} {i j : Input} {nodes : List Node}
    (h : signStep signed i = ⟨nodes, .ok (some signed', j)⟩) : Node.leavesOf nodes ≠ [] := by
  obtain ⟨xs, found, k, ys, hx, hy, rfl⟩ := bind_ok h
  cases found with
  | true =>
    rw [Node.leavesOf_append]
    exact List.append_ne_nil_of_left_ne_nil (leaf_of_unaryOperator hx) _
  | false => cases hy

theorem follows_operand : Follows M (n + 1) (operand e) (operand e') := by
  rw [operand_eq, operand_eq]
  apply FollowsBefore.bind_follows
  · apply Follows.loop_before
    · intro signed
      exact .bind follows_unaryOperator (fun _ => (Follows.pure _).before) fun _ => .pure _
    · exact keeps_signStep
    · intro signed i nodes signed' j h
      exact leaf_of_signStep signed h
  · intro _
    exact .bind (follows_primary he) fun _ => .pure _
  · intro signed i nodes type j h
    exact (heads_primary e).bind_left.untraced h

omit he in
theorem follows_binaryOperator (lhs : DataType) :
    Follows M n (binaryOperator lhs) (binaryOperator lhs) := by
  intro i i' nodes found j L h hlt halign
  rcases binaryOperator_ok h with ⟨hnone, rfl, rfl, rfl⟩ | ⟨u, text, rest, hu, hread, rfl, rfl, rfl⟩
  · have hnone' := halign.alike.operator hnone
    refine ⟨[], i'.skip, ?_, .nil, Aligned.front_iff.2 halign⟩
    rw [binaryOperator, rest_skip, hnone']
  · have hmem := List.mem_of_find?_eq_some hu
    have hrem : LeafKind.token (operatorAfter lhs u) ≠ .token .rem := by
      have key : ∀ u ∈ binaryOperators, ∀ lhs ∈ [DataType.integer, DataType.string],
          LeafKind.token (operatorAfter lhs u) ≠ .token .rem := by decide
      exact key u hmem lhs (by cases lhs <;> simp)
    obtain ⟨text', rest', htakes, hsimilar, halign⟩ :=
      Follows.exists_leaf hrem (Lexeme.append_of_word hread) halign
    obtain ⟨t, hfirst, hword, hsame⟩ := htakes.operator hmem
    refine ⟨_, i'.skip.after text' rest', ?_, hsimilar, halign⟩
    rw [binaryOperator, hfirst]
    dsimp only
    rw [token?, hword, hsame]

omit he in
theorem leaf_of_binaryOperator {lhs : DataType} {i j : Input} {nodes : List Node}
    (h : binaryOperator lhs i = ⟨nodes, .ok (true, j)⟩) : Node.leavesOf nodes ≠ [] := by
  rcases binaryOperator_ok h with ⟨-, -, ⟨⟩, -⟩ | ⟨t, text, rest, -, -, rfl, -, -⟩
  rw [leavesOf_leaf]
  exact List.cons_ne_nil _ _

omit he in
theorem leaf_of_operatorStep {e : Rule DataType} {state state' : DataType × Bool} {i j : Input}
    {nodes : List Node} (h : operatorStep e state i = ⟨nodes, .ok (some state', j)⟩) :
    Node.leavesOf nodes ≠ [] := by
  obtain ⟨xs, found, k, ys, hx, hy, rfl⟩ := bind_ok h
  cases found with
  | true =>
    rw [Node.leavesOf_append]
    exact List.append_ne_nil_of_left_ne_nil (leaf_of_binaryOperator hx) _
  | false => cases hy

theorem follows_operands : Follows M (n + 1) (operands e) (operands e') := by
  rw [operands_eq, operands_eq]
  apply Follows.bind (follows_operand he)
  intro first
  apply Follows.bind
  · apply Follows.loop _ leaf_of_operatorStep
    rintro ⟨lhs, alone⟩
    apply Follows.bind (follows_binaryOperator lhs)
    intro found
    apply Follows.ite
    · intro _
      exact .bind (follows_operand he) fun _ => .pure _
    · intro _
      exact .pure _
  · rintro ⟨type, alone⟩
    exact .pure _

end Expression

theorem follows_expressionUpTo (n m : Nat) :
    Follows M m (expressionUpTo n) (expressionUpTo m) := by
  induction m generalizing n with
  | zero =>
    intro i i' nodes a j L _ hlt
    omega
  | succ m ih =>
    cases n with
    | zero => exact .stop _ _
    | succ n => exact follows_operands (ih n)

/-- An expression is read from every text that is aligned with one. -/
theorem follows_expression (n : Nat) : Follows M n expression expression := by
  intro i i' nodes a j L h hlt halign
  have hlength := halign.length_le.2
  rw [List.length_append] at hlength
  exact follows_expressionUpTo _ (i'.rest.length + 1) h (by omega) halign

end IntegerBasic.Grammar
