import Tacit.Proofs.Eval.Halting

/-!
Trees in which a bound name stands in places of its value, or the value in places of the name.
What evaluation reads of two such trees, before it folds any further, is the same or again such
trees.

* `Interchangeable.matches`: such trees match, if they hold no assignment marker: down to the
  interchanged places, they are built alike.
* `arguments_eq`, `substitute_matches`, `completion_matches`, `stages_matches`: the arguments of a
  call, the items that fill a tuple and the stages of an executor.
-/

namespace Tacit

namespace Tree

def parts : Tree → List Tree
  | .tuple _ items | .executor items | .block items => items
  | _ => []

/-- Induction on trees, for properties that a tree has if its parts do. -/
theorem parts_induct {motive : Tree → Prop} (step : ∀ t, (∀ u ∈ t.parts, motive u) → motive t)
    (t : Tree) : motive t := by
  induction t with
  | tuple _ _ ih | executor _ ih | block _ ih => exact step _ ih
  | _ => exact step _ (List.forall_mem_nil _)

/-- What is inside a part is inside the whole. -/
theorem inside_of_mem_parts {t u v : Tree} (mem : u ∈ t.parts) (inside : Inside v u) :
    Inside v t := by
  cases t with
  | tuple => exact .tuple mem inside
  | executor => exact .executor mem inside
  | block => exact .block mem inside
  | _ => cases mem

/-! ### Trees that are built alike -/

/-- The trees are no assignment markers and are built alike, of items that are related. -/
inductive Congruent (R : Tree → Tree → Prop) : Tree → Tree → Prop where
  | datum (d : Datum) : Congruent R (.datum d) (.datum d)
  | name (text : String) : Congruent R (.name text) (.name text)
  | tuple {connectedName : Option String} {items items' : List Tree} :
      List.Forall₂ R items items' →
      Congruent R (.tuple connectedName items) (.tuple connectedName items')
  | executor {items items' : List Tree} : List.Forall₂ R items items' →
      Congruent R (.executor items) (.executor items')
  | block {items items' : List Tree} : List.Forall₂ R items items' →
      Congruent R (.block items) (.block items')
  | placeholder (number : Nat) : Congruent R (.placeholder number) (.placeholder number)

namespace Congruent

variable {R Q : Tree → Tree → Prop} {t t' : Tree}

theorem imp (h : Congruent R t t') (imp : ∀ u ∈ t.parts, ∀ u' ∈ t'.parts, R u u' → Q u u') :
    Congruent Q t t' := by
  cases h with
  | datum d => exact .datum d
  | name text => exact .name text
  | tuple related => exact .tuple (related_imp_of_mem imp related)
  | executor related => exact .executor (related_imp_of_mem imp related)
  | block related => exact .block (related_imp_of_mem imp related)
  | placeholder number => exact .placeholder number

theorem flip (h : Congruent R t t') : Congruent (fun u u' => R u' u) t' t := by
  cases h with
  | datum d => exact .datum d
  | name text => exact .name text
  | tuple related => exact .tuple related.flip
  | executor related => exact .executor related.flip
  | block related => exact .block related.flip
  | placeholder number => exact .placeholder number

theorem self (unmarked : t ≠ .assignment) (each : ∀ u ∈ t.parts, R u u) : Congruent R t t := by
  cases t with
  | datum d => exact .datum d
  | name text => exact .name text
  | tuple => exact .tuple (List.forall₂_same.mpr each)
  | executor => exact .executor (List.forall₂_same.mpr each)
  | block => exact .block (List.forall₂_same.mpr each)
  | placeholder number => exact .placeholder number
  | assignment => exact absurd rfl unmarked

theorem isAssignment_eq (h : Congruent R t t') : t.isAssignment = false := by
  cases h <;> rfl

theorem not_name (h : Congruent R t t') (other : ∀ text, t ≠ .name text) :
    ∀ text, t' ≠ .name text := by
  rintro text rfl
  cases h
  exact other text rfl

end Congruent

/-! ### Names and their values -/

/-- The trees differ only in places where the one has the name and the other has the value. -/
inductive Interchangeable (name : String) (value : Tree) : Tree → Tree → Prop where
  | refl (t : Tree) : Interchangeable name value t t
  | toValue : Interchangeable name value (.name name) value
  | toName : Interchangeable name value value (.name name)
  | alike {t t' : Tree} : Congruent (Interchangeable name value) t t' →
      Interchangeable name value t t'

/-- Interchangeable trees without assignment markers. -/
inductive Matches (name : String) (value : Tree) : Tree → Tree → Prop where
  | toValue : Matches name value (.name name) value
  | toName : Matches name value value (.name name)
  | alike {t t' : Tree} : Congruent (Matches name value) t t' → Matches name value t t'

variable {name : String} {value t t' : Tree}

/-- A tree without markers matches itself, part by part. -/
theorem congruent_self (unmarked : ¬ Inside .assignment t) :
    Congruent (Matches name value) t t := by
  induction t using parts_induct with
  | _ t ih =>
    apply Congruent.self (by rintro rfl; exact unmarked .self)
    intro u mem
    exact .alike (ih u mem fun inside => unmarked (inside_of_mem_parts mem inside))

/-- Interchangeable trees match, if there is no marker in them. -/
theorem Interchangeable.matches (h : Interchangeable name value t t')
    (unmarked : ¬ Inside .assignment t) (unmarked' : ¬ Inside .assignment t') :
    Matches name value t t' := by
  induction t using parts_induct generalizing t' with
  | _ t ih =>
    cases h with
    | refl => exact .alike (congruent_self unmarked)
    | toValue => exact .toValue
    | toName => exact .toName
    | alike h =>
      apply Matches.alike
      apply h.imp
      intro u mem u' mem' related
      exact ih u mem related (fun inside => unmarked (inside_of_mem_parts mem inside))
        fun inside => unmarked' (inside_of_mem_parts mem' inside)

/-- Trees that match are interchangeable. -/
theorem Matches.interchangeable (h : Matches name value t t') :
    Interchangeable name value t t' := by
  induction t using parts_induct generalizing t' with
  | _ t ih =>
    cases h with
    | toValue => exact .toValue
    | toName => exact .toName
    | alike h => exact .alike (h.imp fun u mem _ _ related => ih u mem related)

/-- Matching has no direction, since the name and the value may stand in either tree. -/
theorem Matches.symm (h : Matches name value t t') : Matches name value t' t := by
  induction t using parts_induct generalizing t' with
  | _ t ih =>
    cases h with
    | toValue => exact .toName
    | toName => exact .toValue
    | alike h => exact .alike (h.flip.imp fun _ _ u mem related => ih u mem related)

/-! ### What is read of such trees -/

/-- The name is bound to the value, which stands for itself and belongs to no other name. No
marker is found in what names are bound to. -/
structure Denotes (env : String → Option Tree) (name : String) (value : Tree) : Prop where
  found : env name = some value
  not_name : ∀ text, value ≠ .name text
  not_placeholder : ∀ number, value ≠ .placeholder number
  apart : value.isConnected = false
  unmarked : ∀ {other v}, env other = some v → ¬ Inside .assignment v

section Reading

variable {env : String → Option Tree} {u u' : Tree}
  {items items' components components' : List Tree}

/-- Trees of one build have components that match. -/
theorem components_matches (h : Congruent (Matches name value) u u') :
    List.Forall₂ (Matches name value) u.components u'.components := by
  cases id h with
  | tuple parts => exact parts
  | _ => exact .cons (.alike h) .nil

variable (denotes : Denotes env name value)

include denotes

/-- The value is built like itself, since it has no marker. -/
theorem Denotes.congruent : Congruent (Matches name value) value value :=
  congruent_self (denotes.unmarked denotes.found)

theorem Matches.isAssignment_eq (h : Matches name value t t') : t.isAssignment = false := by
  cases h with
  | toValue => rfl
  | toName => exact denotes.congruent.isAssignment_eq
  | alike h => exact h.isAssignment_eq

/-- A call sees the value of a name, so it cannot tell the two apart. -/
theorem Matches.argument_eq (h : Matches name value t t') :
    ((Deep.idle env).substitute t).argument = ((Deep.idle env).substitute t').argument := by
  have ofName : (Deep.idle env).substitute (.name name) = value := by
    simp [Scene.substitute, Deep.idle, denotes.found]
  have ofValue : (Deep.idle env).substitute value = value := by
    cases value with
    | name text => exact absurd rfl (denotes.not_name text)
    | _ => rfl
  cases h with
  | toValue => rw [ofName, ofValue]
  | toName => rw [ofName, ofValue]
  | alike h => cases h <;> rfl

/-- A call of trees of one build has the same arguments, names in them being substituted. -/
theorem arguments_eq (h : Congruent (Matches name value) u u') :
    (Deep.idle env).arguments u = (Deep.idle env).arguments u' := by
  have parts := components_matches h
  rw [Scene.arguments, Scene.arguments]
  generalize u.components = components at parts ⊢
  generalize u'.components = components' at parts ⊢
  induction parts with
  | nil => rfl
  | cons first _ ih => rw [List.map_cons, List.map_cons, first.argument_eq denotes, ih]

omit denotes in
/-- A tree that is no placeholder is substituted by itself. -/
theorem substitute_cons (ordinary : ∀ number, t ≠ .placeholder number) (rest : List Tree) :
    substitute components (t :: rest) = List.cons t <$> substitute components rest := by
  cases t with
  | placeholder number => exact absurd rfl (ordinary number)
  | _ => rfl

/-- Items are filled alike, or lack a component for the same placeholder. -/
theorem substitute_matches (hc : List.Forall₂ (Matches name value) components components')
    (h : List.Forall₂ (Matches name value) items items') :
    OutcomeRel Eq (List.Forall₂ (Matches name value)) (substitute components items)
      (substitute components' items') := by
  have ordinary : ∀ number, Tree.name name ≠ .placeholder number := by rintro _ ⟨⟩
  induction h with
  | nil => exact .ok .nil
  | cons first _ ih =>
    cases id first with
    | toValue =>
      rw [substitute_cons ordinary, substitute_cons denotes.not_placeholder]
      exact ih.map fun _ _ => .cons first
    | toName =>
      rw [substitute_cons ordinary, substitute_cons denotes.not_placeholder]
      exact ih.map fun _ _ => .cons first
    | alike same =>
      cases same with
      | placeholder number =>
        cases number with
        | zero => exact ih.map fun _ _ rest => List.rel_append hc rest
        | succ n =>
          rw [substitute, substitute]
          rcases rel_cases (getElem?_related hc n) with ⟨out, out'⟩ | ⟨v, v', found, found', hv⟩
          · rw [out, out']
            exact .error rfl
          · rw [found, found']
            exact ih.map fun _ _ => .cons hv
      | _ => exact ih.map fun _ _ => .cons first

/-- Trees that match pick the same components, since a value is no placeholder. -/
theorem Matches.picks_eq (h : Matches name value t t') (i : Nat) : picks i t = picks i t' := by
  have ofValue : picks i value = false := by
    cases value with
    | placeholder number => exact absurd rfl (denotes.not_placeholder number)
    | _ => rfl
  cases h with
  | toValue => exact ofValue.symm
  | toName => exact ofValue
  | alike h => cases h <;> rfl

/-- Items that match are completed by trees that match. -/
theorem completion_matches (arity : Nat)
    (hc : List.Forall₂ (Matches name value) components components')
    (h : List.Forall₂ (Matches name value) items items') {filled filled' : List Tree}
    (hf : filled.length = filled'.length) : List.Forall₂ (Matches name value)
      (completion arity components items filled) (completion arity components' items' filled') := by
  have picked : ∀ i, items.any (picks i) = items'.any (picks i) := by
    intro i
    induction h with
    | nil => rfl
    | cons first _ ih => rw [List.any_cons, List.any_cons, first.picks_eq denotes, ih]
  rw [completion, completion, hf]
  simp only [picked]
  exact List.forall₂_take _ (filter_zipIdx_related hc (fun i => !items'.any (picks i)) 0)

/-- Of trees that match, both are connected or neither is. -/
theorem Matches.isConnected_eq (h : Matches name value t t') :
    t.isConnected = t'.isConnected := by
  cases h with
  | toValue => exact denotes.apart.symm
  | toName => exact denotes.apart
  | alike h =>
    cases h with
    | @tuple connectedName => cases connectedName <;> rfl
    | _ => rfl

/-- Items are cut into stages at the same places, since a value that is no connected tuple begins
a stage as a name does. -/
theorem stages_matches (h : List.Forall₂ (Matches name value) items items') :
    List.Forall₂ (List.Forall₂ (Matches name value)) (stages items) (stages items') := by
  induction h with
  | nil => exact .nil
  | @cons t t' items items' first rest ih =>
    have connected : items.head?.elim false isConnected = items'.head?.elim false isConnected := by
      cases rest with
      | nil => rfl
      | cons next _ => exact next.isConnected_eq denotes
    rw [stages, stages, connected]
    generalize stages items = trees at ih
    generalize stages items' = trees' at ih
    cases ih with
    | nil => exact .cons (.cons first .nil) .nil
    | cons stage later =>
      cases items'.head?.elim false isConnected with
      | false => exact .cons (.cons first .nil) (.cons stage later)
      | true => exact .cons (.cons first stage) later

end Reading

end Tree

end Tacit
