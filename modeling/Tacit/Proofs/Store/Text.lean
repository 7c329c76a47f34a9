import Mathlib.Data.List.Nodup
import Mathlib.Data.List.Range
import Tacit.Proofs.Store.Tree
import Tacit.Eval.Error

/-!
The text of a word is that of its deep value: the bound on the nesting, which `display` computes
from the sizes of the columns, is never reached.

* `Unfolds.display`: a word with a deep value has a text, which is that of the value.
-/

namespace Tacit

namespace Tree

mutual

/-- How a deep value is shown. The name that a tuple is connected to is not. -/
def text : Tree → List Char
  | .datum d => d.text
  | .name text => text.toList
  | .tuple _ items => '[' :: spaced (textAll items) ++ [']']
  | .executor items => '|' :: spaced (textAll items) ++ ['|']
  | .block _ => blockText
  | .placeholder n => placeholderText n
  | .assignment => [':']

def textAll : List Tree → List (List Char)
  | [] => []
  | t :: rest => t.text :: textAll rest

end

/-- The items of a tuple are smaller trees. -/
theorem sizeOf_lt_tuple {t : Tree} {items : List Tree} (connectedName : Option String)
    (mem : t ∈ items) : sizeOf t < sizeOf (tuple connectedName items) := by
  have lt := List.sizeOf_lt_of_mem mem
  simp only [tuple.sizeOf_spec]
  omega

theorem sizeOf_lt_executor {t : Tree} {items : List Tree} (mem : t ∈ items) :
    sizeOf t < sizeOf (executor items) := by
  have lt := List.sizeOf_lt_of_mem mem
  simp only [executor.sizeOf_spec]
  omega

end Tree

namespace Store

variable {s : Store} {w : Word} {t : Tree}

def nesting (s : Store) : List Word :=
  (List.range s.tuples.size).map .tuple ++ (List.range s.executors.size).map .executor

/-- The words around one with the deep value `t`, when a text is made: they are all different,
since their deep values are larger and larger. -/
private structure Around (s : Store) (t : Tree) (seen : List Word) : Prop where
  nodup : seen.Nodup
  nested : seen ⊆ s.nesting
  larger : ∀ v ∈ seen, ∃ u, s.Unfolds v u ∧ sizeOf t < sizeOf u

private theorem Around.nil : Around s t [] :=
  ⟨.nil, List.nil_subset _, fun _ mem => nomatch mem⟩

/-- Under a word with a larger tree come words with smaller ones, so none comes twice. -/
private theorem Around.cons {seen : List Word} {u : Tree} (around : Around s t seen)
    (h : s.Unfolds w t) (nested : w ∈ s.nesting) (smaller : sizeOf u < sizeOf t) :
    Around s u (w :: seen) := by
  refine ⟨List.nodup_cons.mpr ⟨fun mem => ?_, around.nodup⟩,
    List.cons_subset.mpr ⟨nested, around.nested⟩, fun v mem => ?_⟩
  · obtain ⟨t', h', lt⟩ := around.larger w mem
    cases h.unique h'
    exact Nat.lt_irrefl _ lt
  · rcases List.mem_cons.mp mem with rfl | mem
    · exact ⟨t, h, smaller⟩
    · obtain ⟨t', h', lt⟩ := around.larger v mem
      exact ⟨t', h', Nat.lt_trans smaller lt⟩

/-- There are no more words around than the columns are long, so some depth is always left. -/
private theorem Around.exists_depth {seen : List Word} {depth : Nat} (around : Around s t seen)
    (enough : s.nestingBound ≤ seen.length + depth) : ∃ rest, depth = rest + 1 := by
  have le := (around.nodup.subperm around.nested).length_le
  simp only [nesting, List.length_append, List.length_map, List.length_range] at le
  rw [nestingBound] at enough
  exact Nat.exists_eq_add_one.mpr (by omega)

/-- The texts of the items of a group, if an item has its text at every depth that is enough. -/
private theorem Around.mapM_textWithin {seen : List Word} {depth : Nat} {words : List Word}
    {items : List Tree} (around : Around s t seen) (h : s.Unfolds w t) (nested : w ∈ s.nesting)
    (smaller : ∀ u ∈ items, sizeOf u < sizeOf t)
    (enough : s.nestingBound ≤ seen.length + (depth + 1))
    (parts : List.Forall₂ s.Unfolds words items)
    (text : ∀ u ∈ items, ∀ {v seen depth}, s.Unfolds v u → Around s u seen →
      s.nestingBound ≤ seen.length + (depth + 1) → s.textWithin (depth + 1) v = .ok u.text) :
    words.mapM (s.textWithin depth) = .ok (Tree.textAll items) := by
  induction parts with
  | nil => rfl
  | cons first _ ih =>
    have around' := around.cons h nested (smaller _ (.head _))
    have enough' : s.nestingBound ≤ (w :: seen).length + depth := by
      rw [List.length_cons]
      omega
    obtain ⟨depth, rfl⟩ := around'.exists_depth enough'
    rw [List.mapM_cons, text _ (.head _) first around' enough',
      ih (fun u mem => smaller u (.tail _ mem)) fun u mem => text u (.tail _ mem)]
    rfl

/-- With enough depth for the words that are not yet seen, a word is written as its tree. -/
private theorem textWithin_of_unfolds {seen : List Word} {depth : Nat} (h : s.Unfolds w t)
    (around : Around s t seen) (enough : s.nestingBound ≤ seen.length + (depth + 1)) :
    s.textWithin (depth + 1) w = .ok t.text := by
  induction t generalizing w seen depth with
  | datum d =>
    cases h with
    | scalar found =>
      rw [textWithin, scalar_eq_ok found]
      rfl
    | array found =>
      rw [textWithin, array_eq_ok found]
      rfl
  | name text =>
    cases h with
    | name found =>
      rw [textWithin, name_eq_ok found]
      rfl
  | tuple connectedName items ih =>
    cases id h with
    | @tuple i _ _ _ found _ parts =>
      have nested : .tuple i ∈ s.nesting := by
        simp [nesting, (Array.getElem?_eq_some_iff.mp found).1]
      rw [textWithin, tuple_eq_ok found]
      show (List.mapM (s.textWithin depth) _ >>= _) = _
      rw [around.mapM_textWithin h nested (fun _ => Tree.sizeOf_lt_tuple connectedName) enough
        parts ih]
      rfl
  | executor items ih =>
    cases id h with
    | @executor i _ _ found parts =>
      have nested : .executor i ∈ s.nesting := by
        simp [nesting, (Array.getElem?_eq_some_iff.mp found).1]
      rw [textWithin, executor_eq_ok found]
      show (List.mapM (s.textWithin depth) _ >>= _) = _
      rw [around.mapM_textWithin h nested (fun _ => Tree.sizeOf_lt_executor) enough parts ih]
      rfl
  | block items ih =>
    cases h
    rfl
  | placeholder n =>
    cases h
    rfl
  | assignment =>
    cases h
    rfl

/-- A word is shown as its deep value. -/
theorem Unfolds.display (h : s.Unfolds w t) : s.display w = .ok (String.ofList t.text) := by
  rw [Store.display, nestingBound, textWithin_of_unfolds h .nil (by simp [nestingBound])]
  rfl

end Store

end Tacit
