import Tacit.Word

/-!
The binding table: names with the words they are bound to, sorted by name, so that a listing
needs no further order.

* `lookup_insert_self`, `lookup_insert_of_ne`: a binding is found again and hides no other.
-/

namespace Tacit

/-- Bindings, sorted by name without repetition. -/
abbrev Bindings := List (String × Word)

namespace Bindings

def lookup (name : String) : Bindings → Option Word
  | [] => none
  | (key, w) :: rest => if name = key then some w else lookup name rest

/-- Binds a name; an earlier binding of the name is replaced. -/
def insert (name : String) (w : Word) : Bindings → Bindings
  | [] => [(name, w)]
  | (key, v) :: rest =>
    if name = key then (name, w) :: rest
    else if name < key then (name, w) :: (key, v) :: rest
    else (key, v) :: insert name w rest

/-- What was bound last is found. -/
@[simp] theorem lookup_insert_self (name : String) (w : Word) (b : Bindings) :
    lookup name (insert name w b) = some w := by
  induction b with
  | nil => simp [insert, lookup]
  | cons entry rest ih =>
    obtain ⟨key, v⟩ := entry
    by_cases heq : name = key
    · simp [insert, lookup, heq]
    · by_cases hlt : name < key
      · simp [insert, lookup, heq, hlt]
      · simp [insert, lookup, heq, hlt, ih]

/-- Binding one name does not change what another one is bound to. -/
theorem lookup_insert_of_ne {name other : String} (ne : other ≠ name) (w : Word) (b : Bindings) :
    lookup other (insert name w b) = lookup other b := by
  induction b with
  | nil => simp [insert, lookup, ne]
  | cons entry rest ih =>
    obtain ⟨key, v⟩ := entry
    by_cases heq : name = key
    · subst heq
      simp [insert, lookup, ne]
    · by_cases hlt : name < key
      · simp [insert, lookup, ne, heq, hlt]
      · simp [insert, lookup, heq, hlt, ih]

def names (b : Bindings) : List String := b.map Prod.fst

end Bindings

end Tacit
