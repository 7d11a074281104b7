/-!
# Bindings

Names bound to values, in the order in which the names were first bound. Binding a
name again keeps its place.
-/

namespace TreeWalk

/-- Names bound to values. -/
structure Bindings (α : Type) where
  entries : List (String × α)

namespace Bindings

variable {α : Type}

/-- No bindings. -/
def empty : Bindings α := ⟨[]⟩

instance : Inhabited (Bindings α) := ⟨empty⟩

/-- The value of a name. -/
def get? (b : Bindings α) (name : String) : Option α := b.entries.lookup name

/-- Whether a name is bound. -/
def contains (b : Bindings α) (name : String) : Bool := (b.get? name).isSome

/-- Replace the value of a name in place, or add the name at the end. -/
def putEntry (name : String) (value : α) : List (String × α) → List (String × α)
  | [] => [(name, value)]
  | entry :: rest =>
    if name == entry.1 then (name, value) :: rest else entry :: putEntry name value rest

/-- Bind a name to a value. -/
def put (b : Bindings α) (name : String) (value : α) : Bindings α :=
  ⟨putEntry name value b.entries⟩

/-- Change the value of a name that is bound. -/
def modify (b : Bindings α) (name : String) (f : α → α) : Bindings α :=
  ⟨b.entries.map fun entry => if name == entry.1 then (entry.1, f entry.2) else entry⟩

/-- The bindings of a row of pairs, a later pair winning. -/
def ofList (pairs : List (String × α)) : Bindings α :=
  pairs.foldl (fun b pair => b.put pair.1 pair.2) empty

/-- The bindings in the order of their names by code points. -/
def sorted (b : Bindings α) : List (String × α) :=
  b.entries.mergeSort fun one other => decide (one.1 ≤ other.1)

@[simp] theorem get?_empty (name : String) : (empty : Bindings α).get? name = none := rfl

theorem lookup_entry (name : String) (entry : String × α) (rest : List (String × α)) :
    (entry :: rest).lookup name = if name = entry.1 then some entry.2 else rest.lookup name := by
  obtain ⟨key, value⟩ := entry
  rw [List.lookup_cons]
  by_cases same : name = key
  · rw [same, beq_self_eq_true, if_pos rfl]
  · rw [beq_false_of_ne same, if_neg same]

theorem lookup_putEntry (name other : String) (value : α) (entries : List (String × α)) :
    (putEntry name value entries).lookup other =
      if other = name then some value else entries.lookup other := by
  induction entries with
  | nil => exact lookup_entry other (name, value) []
  | cons entry rest ih =>
    rw [putEntry]
    by_cases first : name = entry.1
    · rw [if_pos (beq_iff_eq.2 first), lookup_entry, lookup_entry, ← first]
      split <;> rfl
    · rw [if_neg (mt beq_iff_eq.1 first), lookup_entry, lookup_entry, ih]
      by_cases same : other = entry.1
      · rw [if_pos same, if_neg fun named => first (named.symm.trans same), if_pos same]
      · rw [if_neg same, if_neg same]

/-- A name has the value it was last bound to. -/
@[simp] theorem get?_put (b : Bindings α) (name other : String) (value : α) :
    (b.put name value).get? other = if other = name then some value else b.get? other :=
  lookup_putEntry name other value b.entries

theorem lookup_map_modify (name other : String) (f : α → α) (entries : List (String × α)) :
    (entries.map fun entry =>
        if name == entry.1 then (entry.1, f entry.2) else entry).lookup other =
      if other = name then (entries.lookup other).map f else entries.lookup other := by
  induction entries with
  | nil => simp
  | cons entry rest ih =>
    rw [List.map_cons, lookup_entry, lookup_entry, ih]
    by_cases first : name = entry.1
    · rw [if_pos (beq_iff_eq.2 first), first]
      split <;> rfl
    · rw [if_neg (mt beq_iff_eq.1 first)]
      by_cases same : other = entry.1
      · rw [if_pos same, if_pos same, if_neg fun named => first (named.symm.trans same)]
      · rw [if_neg same, if_neg same]

/-- Changing the value of a name leaves the others alone. -/
@[simp] theorem get?_modify (b : Bindings α) (name other : String) (f : α → α) :
    (b.modify name f).get? other = if other = name then (b.get? other).map f else b.get? other :=
  lookup_map_modify name other f b.entries

end Bindings

end TreeWalk
