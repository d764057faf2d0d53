set_option autoImplicit false

/-! # Bindings

Names bound to things, one thing for each name. The first binding of a name fixes its place; a later
one changes what is bound there. All that matters of bindings is `get?`, and the two laws of
`insert` say everything about it. -/

namespace Scriptlet

/-- A table from names to things. -/
structure Bindings (α : Type) where
  entries : List (String × α) := []
deriving DecidableEq

namespace Bindings

variable {α : Type}

instance : Inhabited (Bindings α) := ⟨{}⟩

/-- What a name is bound to. -/
def get? (b : Bindings α) (name : String) : Option α :=
  (b.entries.find? (·.1 == name)).map (·.2)

/-- Whether a name is bound. -/
def contains (b : Bindings α) (name : String) : Bool :=
  (b.get? name).isSome

/-- Changes the entry of a name, or adds one at the end. -/
def insertEntry (name : String) (a : α) : List (String × α) → List (String × α)
  | [] => [(name, a)]
  | entry :: entries =>
    if entry.1 = name then (name, a) :: entries else entry :: insertEntry name a entries

/-- Binds a name, whatever it was bound to before. -/
def insert (b : Bindings α) (name : String) (a : α) : Bindings α :=
  ⟨insertEntry name a b.entries⟩

/-- Binds names in order; of a name that occurs twice, the last binding counts. -/
def insertAll (b : Bindings α) (pairs : List (String × α)) : Bindings α :=
  pairs.foldl (fun b (name, a) => b.insert name a) b

/-- The bound names, in the order of their first binding. -/
def names (b : Bindings α) : List String :=
  b.entries.map (·.1)

@[simp]
theorem get?_empty (name : String) : ({} : Bindings α).get? name = none := rfl

@[simp]
theorem get?_insert_self (b : Bindings α) (name : String) (a : α) :
    (b.insert name a).get? name = some a := by
  obtain ⟨entries⟩ := b
  simp only [insert, get?]
  induction entries with
  | nil => simp [insertEntry]
  | cons entry entries ih =>
    by_cases h : entry.1 = name
    · simp [insertEntry, h]
    · simpa [insertEntry, h, List.find?_cons] using ih

theorem get?_insert_of_ne (b : Bindings α) {name other : String} (a : α) (ne : name ≠ other) :
    (b.insert name a).get? other = b.get? other := by
  obtain ⟨entries⟩ := b
  simp only [insert, get?]
  induction entries with
  | nil => simp [insertEntry, ne]
  | cons entry entries ih =>
    by_cases h : entry.1 = name
    · subst h
      simp [insertEntry, ne]
    · simp only [insertEntry, h, if_false, List.find?_cons]
      split
      · rfl
      · exact ih

end Bindings

end Scriptlet
