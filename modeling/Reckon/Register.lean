/-! # Registers

    A *register* keeps values under names, in the order in which the names first came. Putting a
    value under a name that is already there replaces the old value at its place. -/

namespace Reckon

/-- Values under names, in order. -/
abbrev Register (α : Type) := List (String × α)

namespace Register

variable {α : Type}

/-- The value under a name. -/
def find? (r : Register α) (name : String) : Option α :=
  (List.find? (fun entry => entry.1 = name) r).map (·.2)

/-- Puts a value under a name. -/
def put (name : String) (a : α) : Register α → Register α
  | [] => [(name, a)]
  | entry :: rest => if entry.1 = name then (name, a) :: rest else entry :: put name a rest

/-- Whether something is kept under a name. -/
def has (r : Register α) (name : String) : Bool := (find? r name).isSome

/-- The register in which the given entries were put one after another. -/
def ofEntries (entries : List (String × α)) : Register α :=
  entries.foldl (fun r entry => put entry.1 entry.2 r) []

/-! ### Look-up after a put -/

theorem find?_nil (name : String) : find? ([] : Register α) name = none := rfl

theorem find?_cons (entry : String × α) (r : Register α) (name : String) :
    find? (entry :: r) name = if entry.1 = name then some entry.2 else find? r name := by
  by_cases h : entry.1 = name <;> simp [find?, h]

theorem find?_put_self (r : Register α) (name : String) (a : α) :
    find? (put name a r) name = some a := by
  induction r with
  | nil => simp [put, find?_cons]
  | cons entry rest ih =>
    by_cases h : entry.1 = name
    · simp [put, h, find?_cons]
    · simp [put, h, find?_cons, ih]

theorem find?_put_of_ne (r : Register α) {name other : String} (a : α) (h : name ≠ other) :
    find? (put name a r) other = find? r other := by
  induction r with
  | nil => simp [put, find?_cons, h]
  | cons entry rest ih =>
    by_cases he : entry.1 = name
    · simp [put, he, find?_cons, h]
    · simp [put, he, find?_cons, ih]

/-- The names of a register, in order. -/
def names (r : Register α) : List String := r.map (·.1)

/-- A new name comes last, and an old one stays where it is. -/
theorem names_put (r : Register α) (name : String) (a : α) :
    names (put name a r) = if name ∈ names r then names r else names r ++ [name] := by
  induction r with
  | nil => simp [put, names]
  | cons entry rest ih =>
    by_cases h : entry.1 = name
    · simp [put, names, h]
    · have h' : name ≠ entry.1 := fun e => h e.symm
      simp only [names] at ih
      by_cases hm : name ∈ rest.map (·.1)
      · simp [put, names, h, ih, hm]
      · simp [put, names, h, h', ih, hm]

/-- What is in a register after an entry was put there. -/
theorem mem_put {name : String} {a : α} {r : Register α} {entry : String × α}
    (h : entry ∈ put name a r) : entry = (name, a) ∨ entry ∈ r := by
  induction r with
  | nil => simpa [put] using h
  | cons first rest ih =>
    unfold put at h
    split at h
    · rcases List.mem_cons.mp h with h | h
      · exact .inl h
      · exact .inr (List.mem_cons_of_mem _ h)
    · rcases List.mem_cons.mp h with h | h
      · exact .inr (h ▸ List.mem_cons_self)
      · exact (ih h).imp_right (List.mem_cons_of_mem _)

end Register

end Reckon
