/-!
# Bindings

A finite map from names, kept in ascending order of the names so that equal
maps are equal lists. Binding a name anew replaces its value.
-/

set_option autoImplicit false

namespace EmbeddedLisp

abbrev Bindings (α : Type) := List (String × α)

namespace Bindings
variable {α : Type}

def insert (name : String) (value : α) : Bindings α → Bindings α
  | [] => [(name, value)]
  | (n, v) :: rest =>
    if name < n then (name, value) :: (n, v) :: rest
    else if name = n then (name, value) :: rest
    else (n, v) :: insert name value rest

def find? (name : String) : Bindings α → Option α
  | [] => none
  | (n, v) :: rest => if name = n then some v else find? name rest

/-- Later entries win. -/
def ofEntries (entries : List (String × α)) : Bindings α :=
  entries.foldl (fun b entry => insert entry.1 entry.2 b) []

@[simp] theorem find?_insert_self (name : String) (value : α) (b : Bindings α) :
    find? name (insert name value b) = some value := by
  induction b with
  | nil => simp [insert, find?]
  | cons entry rest ih =>
    obtain ⟨n, v⟩ := entry
    simp only [insert]
    split
    · simp [find?]
    · split
      · simp [find?]
      · next h => simp [find?, h, ih]

theorem find?_insert_of_ne {name other : String} (h : other ≠ name) (value : α)
    (b : Bindings α) : find? other (insert name value b) = find? other b := by
  induction b with
  | nil => simp [insert, find?, h]
  | cons entry rest ih =>
    obtain ⟨n, v⟩ := entry
    simp only [insert]
    split
    · simp [find?, h]
    · split
      · next hn => simp [find?, h, ← hn]
      · simp [find?, ih]

end Bindings

end EmbeddedLisp
