/-!
# Tables

Small tables that keep their entries in the order in which the keys first came.
-/

namespace IntegerBasic.Table

variable {κ α : Type} [BEq κ]

def get? (table : List (κ × α)) (key : κ) : Option α := (table.find? (·.1 == key)).map (·.2)

/-- The table with the entry of a key changed in its place, or with a new entry at the end. -/
def alter (table : List (κ × α)) (key : κ) (f : Option α → α) : List (κ × α) :=
  match table with
  | [] => [(key, f none)]
  | (k, a) :: more => if k == key then (k, f (some a)) :: more else (k, a) :: alter more key f

/-- The table with a value put under a key. A key that is there keeps its place. -/
def put (table : List (κ × α)) (key : κ) (value : α) : List (κ × α) :=
  alter table key fun _ => value

theorem get?_alter [LawfulBEq κ] [DecidableEq κ] (table : List (κ × α)) (key : κ)
    (f : Option α → α) (k : κ) :
    get? (alter table key f) k = if key = k then some (f (get? table k)) else get? table k := by
  induction table with
  | nil => by_cases h : key = k <;> simp [alter, get?, h]
  | cons entry table ih =>
    obtain ⟨k', a⟩ := entry
    rw [alter]
    by_cases hkey : k' = key
    · by_cases h : key = k
      · simp [get?, hkey, h]
      · simp [get?, hkey, h]
    · have hne : (k' == key) = false := by simpa using hkey
      simp only [hne]
      by_cases hk : k' = k
      · have h : key ≠ k := fun h => hkey (hk.trans h.symm)
        simp [get?, hk, h]
      · simpa [get?, hk] using ih

/-- A value under a new key goes to the end of the table. -/
theorem put_of_not_mem [LawfulBEq κ] {table : List (κ × α)} {key : κ}
    (h : ∀ entry ∈ table, entry.1 ≠ key) (value : α) :
    put table key value = table ++ [(key, value)] := by
  induction table with
  | nil => rfl
  | cons entry table ih =>
    obtain ⟨hentry, htable⟩ := List.forall_mem_cons.1 h
    unfold put at ih ⊢
    rw [alter, if_neg (by simpa using hentry), ih htable]
    rfl

/-- What was put under a key is its entry, and all other entries stay. -/
theorem get?_put [LawfulBEq κ] [DecidableEq κ] (table : List (κ × α)) (key : κ) (value : α)
    (k : κ) : get? (put table key value) k = if key = k then some value else get? table k :=
  get?_alter table key _ k

end IntegerBasic.Table
