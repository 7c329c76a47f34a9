import Tacit.Proofs.Eval.Halting

/-!
Evaluation without assignment. Where no assignment marker is to be found, in the trees that are
folded or in those that names are bound to, no fold binds a name, and none comes to a tree with a
marker. So whatever has succeeded has left the scene as it was.

* `Keeps.bind`, `keeps_foldOnto`, `mapM_cases_of_keeps`: what is kept part by part, and what is then
  known of a list of parts.
* `keeps_fold`: what one fold keeps, for every depth.
-/

namespace Tacit

namespace Tree

def Unmarked (t : Tree) : Prop := ¬ Inside .assignment t

variable {t : Tree} {items : List Tree}

/-- What nests to some depth has no marker inside. -/
theorem Nests.unmarked {env : String → Option Tree} {n : Nat} (h : Nests env n t) :
    t.Unmarked := by
  intro inside
  induction h with
  | datum | free | bound | placeholder => cases inside
  | tuple _ ih =>
    cases inside with
    | tuple mem inside => exact ih _ mem inside
  | executor _ ih =>
    cases inside with
    | executor mem inside => exact ih _ mem inside
  | block _ ih =>
    cases inside with
    | block mem inside => exact ih _ mem inside

/-- Without markers, a tree nests to some depth where nothing is bound. -/
theorem Unmarked.exists_nests (h : t.Unmarked) : ∃ n, Nests (fun _ => none) n t :=
  exists_nests_of_bound nofun h

/-- Where nothing is bound, trees without markers nest to some depth. -/
theorem exists_nests_of_unmarked (h : ∀ t ∈ items, t.Unmarked) :
    ∃ n, ∀ t ∈ items, Nests (fun _ => none) n t :=
  exists_nests_all fun t mem => (h t mem).exists_nests

theorem unmarked_tuple {connectedName : Option String} (h : ∀ t ∈ items, t.Unmarked) :
    (Tree.tuple connectedName items).Unmarked := by
  intro inside
  cases inside with
  | tuple mem inside => exact h _ mem inside

theorem Unmarked.of_mem_tuple {connectedName : Option String}
    (h : (Tree.tuple connectedName items).Unmarked) : ∀ t ∈ items, t.Unmarked :=
  fun _ mem inside => h (.tuple mem inside)

theorem Unmarked.of_mem_executor (h : (Tree.executor items).Unmarked) :
    ∀ t ∈ items, t.Unmarked :=
  fun _ mem inside => h (.executor mem inside)

theorem Unmarked.of_mem_block (h : (Tree.block items).Unmarked) : ∀ t ∈ items, t.Unmarked :=
  fun _ mem inside => h (.block mem inside)

theorem Unmarked.isAssignment_eq (h : t.Unmarked) : t.isAssignment = false := by
  obtain ⟨n, nests⟩ := h.exists_nests
  exact nests.isAssignment_eq

end Tree

namespace Deep

open Tacit.Tree (Unmarked)

/-- If the evaluation succeeds in the scene, it leaves it as it was, and its value satisfies `P`. -/
def Keeps {α : Type} (P : α → Prop) (c : Scene) (m : Deep α) : Prop :=
  ∀ a c', m c = .ok a c' → P a ∧ c' = c

section Combinators

variable {α β : Type} {m m' : Deep α} {f : α → Deep β} {P Q : α → Prop} {R : β → Prop} {c : Scene}

theorem keeps_pure {a : α} (value : P a) : Keeps P c (pure a) := by
  rintro _ _ ⟨⟩
  exact ⟨value, rfl⟩

theorem keeps_fail (kind : EvalError.Kind) (trees : List Tree) :
    Keeps P c (Deep.fail kind trees) := nofun

/-- What comes to an end in every scene leaves it as it was. -/
theorem Settles.keeps (h : Settles m Q) (imp : ∀ a, Q a → P a) : Keeps P c m := by
  intro a c' eq
  have halted := h c
  rw [eq] at halted
  cases halted with
  | ok value => exact ⟨imp a value, rfl⟩

theorem Keeps.of_eq (h : Keeps P c m') (eq : m c = m' c) : Keeps P c m :=
  fun a c' ok => h a c' (eq.symm.trans ok)

/-- A sequence keeps the scene if both parts do. -/
theorem Keeps.bind (h : Keeps P c m) (next : ∀ a, P a → Keeps R c (f a)) :
    Keeps R c (m >>= f) := by
  intro b c' eq
  obtain ⟨a, t, first, later⟩ := Eval.bind_eq_ok eq
  obtain ⟨value, rfl⟩ := h a t first
  exact next a value b c' later

end Combinators

section Lists

variable {α β : Type} {fold : Folding} {c : Scene}

/-- Trees that are folded one after the other keep the scene, if each of them does. -/
theorem keeps_foldOnto {seed : Tree} {items : List Tree} (value : seed.Unmarked)
    (each : ∀ t ∈ items, ∀ u : Tree, u.Unmarked → Keeps Unmarked c (fold t u)) :
    Keeps Unmarked c (foldOnto fold seed items) := by
  induction items with
  | nil => exact keeps_pure value
  | cons t rest ih =>
    obtain ⟨first, later⟩ := List.forall_mem_cons.mp each
    rw [foldOnto, List.foldrM_cons]
    exact (ih later).bind first

/-- Evaluations one after the other, of which each leaves the scene as it was: all of them succeed
in that scene, or the first that does not succeed in it decides. -/
theorem mapM_cases_of_keeps {f : α → Deep β} {P : β → Prop} {items : List α}
    (keeps : ∀ a ∈ items, Keeps P c (f a)) :
    (∃ bs, List.Forall₂ (fun a b => f a c = .ok b c ∧ P b) items bs ∧ items.mapM f c = .ok bs c) ∨
    ∃ before a after e c', items = before ++ a :: after ∧ (∀ a ∈ before, ∃ b, f a c = .ok b c) ∧
      f a c = .error e c' ∧ items.mapM f c = .error e c' := by
  induction items with
  | nil => exact .inl ⟨[], .nil, rfl⟩
  | cons a rest ih =>
    obtain ⟨first, later⟩ := List.forall_mem_cons.mp keeps
    cases result : f a c with
    | error e c' =>
      refine .inr ⟨[], a, rest, e, c', rfl, nofun, result, ?_⟩
      rw [List.mapM_cons]
      exact Eval.bind_of_error result
    | ok b c' =>
      obtain ⟨value, rfl⟩ := first b c' result
      have step : (a :: rest).mapM f c' =
          (do return b :: (← rest.mapM f) : Deep (List β)) c' := by
        rw [List.mapM_cons]
        exact Eval.bind_of_ok result
      rcases ih later with ⟨bs, each, eq⟩ | ⟨before, a', after, e, c₁, rfl, earlier, fails, eq⟩
      · exact .inl ⟨b :: bs, .cons ⟨result, value⟩ each, step.trans (Eval.bind_of_ok eq)⟩
      · refine .inr ⟨a :: before, a', after, e, c₁, rfl, ?_, fails,
          step.trans (Eval.bind_of_error eq)⟩
        exact List.forall_mem_cons.mpr ⟨⟨b, result⟩, earlier⟩

end Lists

/-! ### The fold -/

section Fold

variable {env : String → Option Tree} {depth : Nat} {t u : Tree} {items : List Tree}

theorem keeps_callBuiltin (name : String) (u : Tree) (c : Scene) :
    Keeps Unmarked c (callBuiltin name u) := by
  have settles : Settles (callBuiltin name u) (Tree.Nests (fun _ => none) 0) :=
    settles_callBuiltin name u
  exact settles.keeps fun _ => Tree.Nests.unmarked

/-- Filling a tuple adds no marker. -/
theorem keeps_fillTuple (connectedName : Option String) (h : ∀ t ∈ items, t.Unmarked)
    (hu : u.Unmarked) (c : Scene) : Keeps Unmarked c (fillTuple connectedName items u) := by
  obtain ⟨n, each⟩ := Tree.exists_nests_of_unmarked (List.forall_mem_cons.mpr ⟨hu, h⟩)
  obtain ⟨argument, each⟩ := List.forall_mem_cons.mp each
  exact (settles_fillTuple connectedName each argument).keeps fun _ => Tree.Nests.unmarked

theorem keeps_foldPlaceholder (number : Nat) (hu : u.Unmarked) (c : Scene) :
    Keeps Unmarked c (foldPlaceholder number u) := by
  obtain ⟨n, nests⟩ := hu.exists_nests
  exact (settles_foldPlaceholder number nests).keeps fun _ => Tree.Nests.unmarked

/-- Folds of trees without markers keep the scene. -/
def KeepsUnmarked (c : Scene) (fold : Folding) : Prop :=
  ∀ t u : Tree, t.Unmarked → u.Unmarked → Keeps Unmarked c (fold t u)

variable {fold : Folding} {c : Scene} (inner : KeepsUnmarked c fold)

include inner

theorem KeepsUnmarked.foldOnto (h : ∀ t ∈ items, t.Unmarked) (hu : u.Unmarked) :
    Keeps Unmarked c (foldOnto fold u items) :=
  keeps_foldOnto hu fun t mem u => inner t u (h t mem)

/-- An executor without markers keeps the scene, as its stages do. -/
theorem KeepsUnmarked.fanOut (h : ∀ t ∈ items, t.Unmarked) (hu : u.Unmarked) :
    Keeps Unmarked c (fanOut fold items u) := by
  have stages : ∀ stage ∈ Tree.stages items, Keeps Unmarked c (Deep.foldOnto fold u stage) :=
    fun stage mem => inner.foldOnto (fun t inside => h t (Tree.mem_of_mem_stages mem inside)) hu
  have results : Keeps (fun ts => ∀ t ∈ ts, t.Unmarked) c
      ((Tree.stages items).mapM (Deep.foldOnto fold u)) := by
    intro ts c' eq
    rcases mapM_cases_of_keeps stages with ⟨ts', each, eq'⟩ | ⟨_, _, _, _, _, -, -, -, eq'⟩
    · cases eq'.symm.trans eq
      refine ⟨fun t mem => ?_, rfl⟩
      obtain ⟨stage, -, -, value⟩ := exists_of_mem_related each mem
      exact value
    · cases eq'.symm.trans eq
  exact results.bind fun ts values => keeps_pure (Tree.unmarked_tuple values)

/-- The rules for the kinds of trees keep the scene, if there is no marker in them. -/
theorem KeepsUnmarked.foldValues (ht : t.Unmarked) (hu : u.Unmarked) :
    Keeps Unmarked c (foldValues fold t u) := by
  by_cases block : ∃ body, u = .block body
  · obtain ⟨body, rfl⟩ := block
    have each := hu.of_mem_block
    simp only [Deep.foldValues, foldOntoBlock]
    cases last : body.getLast? with
    | none => exact keeps_pure ht
    | some seed =>
      refine inner.foldOnto ?_ (each seed (List.mem_of_getLast? last))
      exact List.forall_mem_cons.mpr ⟨ht, fun b mem => each b (List.mem_of_mem_dropLast mem)⟩
  · rw [foldValues_of_not_block fun body eq => block ⟨body, eq⟩]
    cases t with
    | name text => exact keeps_callBuiltin text u c
    | tuple connectedName items => exact keeps_fillTuple connectedName ht.of_mem_tuple hu c
    | placeholder number => exact keeps_foldPlaceholder number hu c
    | executor items => exact inner.fanOut ht.of_mem_executor hu
    | block body => exact inner.foldOnto ht.of_mem_block hu
    | datum | assignment => exact keeps_fail _ _

omit inner

/-- No fold binds a name where there is no marker to ask for it. -/
theorem keeps_fold (values : ∀ {name v}, env name = some v → v.Unmarked) (depth : Nat) :
    KeepsUnmarked (idle env) (Deep.fold depth) := by
  induction depth with
  | zero => exact fun _ _ _ _ => nofun
  | succ depth ih =>
    intro t u ht hu
    by_cases name : ∃ text, u = .name text
    · obtain ⟨text, rfl⟩ := name
      cases found : env text with
      | none => exact (keeps_fail _ _).of_eq (fold_onto_unbound ht.isAssignment_eq found depth)
      | some v =>
        exact (ih t v ht (values found)).of_eq (fold_onto_bound ht.isAssignment_eq found depth)
    · have value : ∀ text, u ≠ .name text := fun text eq => name ⟨text, eq⟩
      by_cases bound : ∃ text v, t = .name text ∧ env text = some v
      · obtain ⟨text, v, rfl, found⟩ := bound
        exact (ih v u (values found) hu).of_eq (fold_of_bound value found depth)
      · have unbound : bound? t (idle env) = .ok none (idle env) := by
          cases t with
          | name text =>
            have free : env text = none := Option.eq_none_iff_forall_ne_some.mpr
              fun v found => bound ⟨text, v, rfl, found⟩
            rw [← free]
            rfl
          | _ => rfl
        exact (ih.foldValues ht hu).of_eq (fold_of_unbound value ht.isAssignment_eq unbound depth)

end Fold

end Deep

end Tacit
