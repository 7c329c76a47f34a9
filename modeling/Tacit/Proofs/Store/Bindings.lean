import Tacit.Proofs.Pointwise
import Tacit.Store.Bindings

/-!
Binding tables as finite maps. A sorted table is determined by what is found in it, so that two
tables in which the same is found are listed in the same way.

* `Sorted.insert`: tables that are built by `insert` are sorted.
* `related_of_lookup`: tables with related words under the same names are related item by item.
-/

namespace Tacit

namespace Bindings

variable {b b' : Bindings} {name other : String} {w v : Word}

/-- The names are in order, and none is there twice. -/
def Sorted (b : Bindings) : Prop := b.Pairwise fun entry later => entry.1 < later.1

/-- An entry of a table with a new binding is that binding or was there before. -/
theorem mem_insert (mem : (other, v) ∈ Bindings.insert name w b) :
    (other, v) = (name, w) ∨ (other, v) ∈ b := by
  induction b with
  | nil => simpa [Bindings.insert] using mem
  | cons entry rest ih =>
    obtain ⟨key, u⟩ := entry
    rw [Bindings.insert] at mem
    split at mem
    · rcases List.mem_cons.mp mem with eq | mem
      · exact .inl eq
      · exact .inr (.tail _ mem)
    · split at mem
      · rcases List.mem_cons.mp mem with eq | mem
        · exact .inl eq
        · exact .inr mem
      · rcases List.mem_cons.mp mem with eq | mem
        · exact .inr (eq ▸ .head _)
        · exact (ih mem).imp_right (.tail _)

theorem mem_of_lookup (found : b.lookup name = some w) : (name, w) ∈ b := by
  induction b with
  | nil => cases found
  | cons entry rest ih =>
    obtain ⟨key, u⟩ := entry
    rw [Bindings.lookup] at found
    split at found
    · next eq =>
      cases found
      subst eq
      exact .head _
    · exact .tail _ (ih found)

/-- Binding a name keeps a table sorted. -/
theorem Sorted.insert (h : b.Sorted) (name : String) (w : Word) :
    (Bindings.insert name w b).Sorted := by
  induction b with
  | nil => exact List.pairwise_singleton _ _
  | cons entry rest ih =>
    obtain ⟨key, u⟩ := entry
    obtain ⟨first, sorted⟩ := List.pairwise_cons.mp h
    rw [Bindings.insert]
    split
    · next eq =>
      subst eq
      exact List.pairwise_cons.mpr ⟨first, sorted⟩
    · next ne =>
      split
      · next lt =>
        refine List.pairwise_cons.mpr ⟨fun later mem => ?_, h⟩
        rcases List.mem_cons.mp mem with rfl | mem
        · exact lt
        · exact String.lt_trans lt (first later mem)
      · next ge =>
        refine List.pairwise_cons.mpr ⟨fun later mem => ?_, ih sorted⟩
        obtain ⟨other, v⟩ := later
        rcases mem_insert mem with eq | mem
        · cases eq
          exact Std.lt_of_le_of_ne (Std.not_lt.mp ge) (Ne.symm ne)
        · exact first _ mem

/-! ### Tables with the same names -/

variable {key : String} {u : Word} {rest : Bindings}

theorem Sorted.lookup_rest (h : Sorted ((key, u) :: rest)) (le : ¬ key < name) :
    rest.lookup name = none := by
  cases found : rest.lookup name with
  | none => rfl
  | some v => exact absurd ((List.pairwise_cons.mp h).1 _ (mem_of_lookup found)) le

/-- A name before the first one of a sorted table is not bound. -/
theorem Sorted.lookup_of_lt (h : Sorted ((key, u) :: rest)) (lt : name < key) :
    Bindings.lookup name ((key, u) :: rest) = none := by
  have ne : name ≠ key := by
    rintro rfl
    exact String.lt_irrefl _ lt
  rw [Bindings.lookup, if_neg ne, h.lookup_rest (String.lt_asymm lt)]

/-- Sorted tables that relate what each name is bound to have the same names in the same order. -/
theorem related_of_lookup {R : Word → Word → Prop} (h : b.Sorted) (h' : b'.Sorted)
    (same : ∀ name, Option.Rel R (b.lookup name) (b'.lookup name)) :
    List.Forall₂ (fun entry entry' => entry.1 = entry'.1 ∧ R entry.2 entry'.2) b b' := by
  induction b generalizing b' with
  | nil =>
    cases b' with
    | nil => exact .nil
    | cons entry' rest' =>
      have related := same entry'.1
      simp only [Bindings.lookup, if_true] at related
      cases related
  | cons entry rest ih =>
    cases b' with
    | nil =>
      have related := same entry.1
      simp only [Bindings.lookup, if_true] at related
      cases related
    | cons entry' rest' =>
      obtain ⟨key, u⟩ := entry
      obtain ⟨key', u'⟩ := entry'
      have first := same key
      have first' := same key'
      -- The first names are equal: the lesser of two would be missing in the other table.
      have ge : ¬ key < key' := by
        intro lt
        rw [h'.lookup_of_lt lt] at first
        simp only [Bindings.lookup, if_true] at first
        cases first
      have le : ¬ key' < key := by
        intro lt
        rw [h.lookup_of_lt lt] at first'
        simp only [Bindings.lookup, if_true] at first'
        cases first'
      obtain rfl : key = key' := Std.le_antisymm (Std.not_lt.mp le) (Std.not_lt.mp ge)
      simp only [Bindings.lookup, if_true] at first
      cases first with
      | some related =>
        refine .cons ⟨rfl, related⟩ ?_
        refine ih (List.pairwise_cons.mp h).2 (List.pairwise_cons.mp h').2 fun name => ?_
        have related := same name
        by_cases eq : name = key
        · subst eq
          rw [h.lookup_rest (String.lt_irrefl _), h'.lookup_rest (String.lt_irrefl _)]
          exact .none
        · simpa only [Bindings.lookup, if_neg eq] using related

end Bindings

end Tacit
