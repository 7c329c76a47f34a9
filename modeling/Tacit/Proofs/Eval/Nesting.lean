import Tacit.Proofs.Eval.Deep

/-!
How deep blocks nest. Evaluation makes no blocks, it only moves them around, and to run one is to
be rid of one level of nesting. Names count as what they are bound to, so that a nesting depth
exists only where no name leads back to itself.

* `Ranked.exists_nests`: with ranked names, every tree without the assignment marker has a depth.
* `mem_or_mem_of_mem_substitute`, `mem_of_mem_completion`, `mem_of_mem_stages`: filling and cutting
  give what was there before.
-/

namespace Tacit

namespace Tree

/-- The first tree is the second or is found in it, at any depth of tuples, executors and
blocks. -/
inductive Inside (u : Tree) : Tree → Prop where
  | self : Inside u u
  | tuple {connectedName : Option String} {items : List Tree} {t : Tree} : t ∈ items →
      Inside u t → Inside u (.tuple connectedName items)
  | executor {items : List Tree} {t : Tree} : t ∈ items → Inside u t → Inside u (.executor items)
  | block {items : List Tree} {t : Tree} : t ∈ items → Inside u t → Inside u (.block items)

/-- In the tree, blocks nest at most so many levels deep, and the assignment marker is nowhere
found. A bound name nests as deep as what it is bound to. -/
inductive Nests (env : String → Option Tree) : Nat → Tree → Prop where
  | datum {n : Nat} {d : Datum} : Nests env n (.datum d)
  | free {n : Nat} {text : String} : env text = none → Nests env n (.name text)
  | bound {n : Nat} {text : String} {v : Tree} : env text = some v → Nests env n v →
      Nests env n (.name text)
  | tuple {n : Nat} {connectedName : Option String} {items : List Tree} :
      (∀ t ∈ items, Nests env n t) → Nests env n (.tuple connectedName items)
  | executor {n : Nat} {items : List Tree} : (∀ t ∈ items, Nests env n t) →
      Nests env n (.executor items)
  | block {n : Nat} {items : List Tree} : (∀ t ∈ items, Nests env n t) →
      Nests env (n + 1) (.block items)
  | placeholder {n number : Nat} : Nests env n (.placeholder number)

/-- What a name is bound to mentions only bound names of a lower rank, and no assignment marker. -/
structure Ranked (env : String → Option Tree) (rank : String → Nat) : Prop where
  descends : ∀ {name v other}, env name = some v → (env other).isSome = true →
    Inside (.name other) v → rank other < rank name
  unmarked : ∀ {name v}, env name = some v → ¬ Inside .assignment v

variable {env : String → Option Tree} {m n : Nat} {t u : Tree}

/-- What nests at most so deep nests at most as deep as anything deeper. -/
theorem Nests.mono (h : Nests env m t) (le : m ≤ n) : Nests env n t := by
  induction h generalizing n with
  | datum => exact .datum
  | free unbound => exact .free unbound
  | bound found _ ih => exact .bound found (ih le)
  | tuple _ ih => exact .tuple fun t mem => ih t mem le
  | executor _ ih => exact .executor fun t mem => ih t mem le
  | @block k items _ ih =>
    obtain ⟨n, rfl⟩ : ∃ n', n = n' + 1 := ⟨n - 1, by omega⟩
    exact .block fun t mem => ih t mem (by omega)
  | placeholder => exact .placeholder

theorem Nests.isAssignment_eq (h : Nests env n t) : t.isAssignment = false := by
  cases h <;> rfl

@[simp]
theorem inside_datum {d : Datum} : Inside u (.datum d) ↔ u = .datum d := by
  constructor
  · rintro ⟨⟩
    rfl
  · rintro rfl
    exact .self

@[simp]
theorem inside_name {text : String} : Inside u (.name text) ↔ u = .name text := by
  constructor
  · rintro ⟨⟩
    rfl
  · rintro rfl
    exact .self

@[simp]
theorem inside_placeholder {number : Nat} :
    Inside u (.placeholder number) ↔ u = .placeholder number := by
  constructor
  · rintro ⟨⟩
    rfl
  · rintro rfl
    exact .self

/-- Inside a tuple are the tuple and what is inside its items. -/
@[simp]
theorem inside_tuple {connectedName : Option String} {items : List Tree} :
    Inside u (.tuple connectedName items) ↔
      u = .tuple connectedName items ∨ ∃ t ∈ items, Inside u t := by
  constructor
  · intro inside
    cases inside with
    | self => exact .inl rfl
    | tuple mem inside => exact .inr ⟨_, mem, inside⟩
  · rintro (rfl | ⟨t, mem, inside⟩)
    · exact .self
    · exact .tuple mem inside

/-- Inside a block are the block and what is inside its items. -/
@[simp]
theorem inside_block {items : List Tree} :
    Inside u (.block items) ↔ u = .block items ∨ ∃ t ∈ items, Inside u t := by
  constructor
  · intro inside
    cases inside with
    | self => exact .inl rfl
    | block mem inside => exact .inr ⟨_, mem, inside⟩
  · rintro (rfl | ⟨t, mem, inside⟩)
    · exact .self
    · exact .block mem inside

/-- Inside an executor are the executor and what is inside its items. -/
@[simp]
theorem inside_executor {items : List Tree} :
    Inside u (.executor items) ↔ u = .executor items ∨ ∃ t ∈ items, Inside u t := by
  constructor
  · intro inside
    cases inside with
    | self => exact .inl rfl
    | executor mem inside => exact .inr ⟨_, mem, inside⟩
  · rintro (rfl | ⟨t, mem, inside⟩)
    · exact .self
    · exact .executor mem inside

/-! ### Every tree has a depth -/

/-- Trees that each nest to some depth have a common one. -/
theorem exists_nests_all {items : List Tree} (each : ∀ t ∈ items, ∃ n, Nests env n t) :
    ∃ n, ∀ t ∈ items, Nests env n t :=
  exists_bound_all (fun le nests => nests.mono le) each

/-- A tree has a depth if what its bound names are bound to has one. -/
theorem exists_nests_of_bound
    (bound : ∀ {name v}, env name = some v → Inside (.name name) t → ∃ n, Nests env n v)
    (unmarked : ¬ Inside .assignment t) : ∃ n, Nests env n t := by
  induction t with
  | datum d => exact ⟨0, .datum⟩
  | name text =>
    cases found : env text with
    | none => exact ⟨0, .free found⟩
    | some v =>
      obtain ⟨n, nests⟩ := bound found .self
      exact ⟨n, .bound found nests⟩
  | tuple connectedName items ih =>
    obtain ⟨n, nests⟩ := exists_nests_all fun t mem => ih t mem
      (fun found inside => bound found (.tuple mem inside))
      fun inside => unmarked (.tuple mem inside)
    exact ⟨n, .tuple nests⟩
  | executor items ih =>
    obtain ⟨n, nests⟩ := exists_nests_all fun t mem => ih t mem
      (fun found inside => bound found (.executor mem inside))
      fun inside => unmarked (.executor mem inside)
    exact ⟨n, .executor nests⟩
  | block items ih =>
    obtain ⟨n, nests⟩ := exists_nests_all fun t mem => ih t mem
      (fun found inside => bound found (.block mem inside))
      fun inside => unmarked (.block mem inside)
    exact ⟨n + 1, .block nests⟩
  | placeholder number => exact ⟨0, .placeholder⟩
  | assignment => exact absurd .self unmarked

/-- Where bound names are ranked, the value of each nests to some depth, by induction on its
rank. -/
theorem Ranked.exists_nests_bound {rank : String → Nat} (h : Ranked env rank) {name : String}
    {v : Tree} (found : env name = some v) : ∃ n, Nests env n v := by
  induction eq : rank name using Nat.strong_induction_on generalizing name v with
  | _ r ih =>
    apply exists_nests_of_bound ?_ (h.unmarked found)
    intro other v' found' inside
    have lower := h.descends found (by rw [found']; rfl) inside
    exact ih (rank other) (by omega) found' rfl

/-- Where bound names are ranked, every tree without markers nests to some depth. -/
theorem Ranked.exists_nests {rank : String → Nat} (h : Ranked env rank)
    (unmarked : ¬ Inside .assignment t) : ∃ n, Nests env n t :=
  exists_nests_of_bound (fun found _ => h.exists_nests_bound found) unmarked

/-! ### Taking apart and putting together -/

/-- Components nest no deeper than the tree. -/
theorem Nests.of_mem_components (h : Nests env n t) : ∀ u ∈ t.components, Nests env n u := by
  intro u mem
  cases h with
  | tuple each => exact each u mem
  | datum => exact List.mem_singleton.mp mem ▸ .datum
  | free unbound => exact List.mem_singleton.mp mem ▸ .free unbound
  | bound found nests => exact List.mem_singleton.mp mem ▸ .bound found nests
  | executor each => exact List.mem_singleton.mp mem ▸ .executor each
  | block each => exact List.mem_singleton.mp mem ▸ .block each
  | placeholder => exact List.mem_singleton.mp mem ▸ .placeholder

/-- What is substituted comes from the components or from the items. -/
theorem mem_or_mem_of_mem_substitute {components items filled : List Tree}
    (eq : substitute components items = .ok filled) (mem : t ∈ filled) :
    t ∈ components ∨ t ∈ items := by
  fun_induction substitute components items generalizing filled with
  | case1 =>
    cases eq
    exact .inr mem
  | case2 rest ih =>
    obtain ⟨others, rest', rfl⟩ := exists_of_bind_eq_ok eq
    rcases List.mem_append.mp mem with mem | mem
    · exact .inl mem
    · exact (ih rest' mem).imp_right (.tail _)
  | case3 n rest v found ih =>
    obtain ⟨others, rest', rfl⟩ := exists_of_bind_eq_ok eq
    rcases List.mem_cons.mp mem with rfl | mem
    · exact .inl (List.mem_of_getElem? found)
    · exact (ih rest' mem).imp_right (.tail _)
  | case4 => cases eq
  | case5 v rest _ _ ih =>
    obtain ⟨others, rest', rfl⟩ := exists_of_bind_eq_ok eq
    rcases List.mem_cons.mp mem with rfl | mem
    · exact .inr (.head _)
    · exact (ih rest' mem).imp_right (.tail _)

/-- What completes a tuple comes from the components. -/
theorem mem_of_mem_completion {arity : Nat} {components items filled : List Tree}
    (mem : t ∈ completion arity components items filled) : t ∈ components := by
  obtain ⟨entry, unused, rfl⟩ := List.mem_map.mp (List.mem_of_mem_take mem)
  exact List.fst_mem_of_mem_zipIdx (List.mem_filter.mp unused).1

/-- Cutting trees into stages loses none of them and moves none. -/
theorem stages_flatten (items : List Tree) : (stages items).flatten = items := by
  induction items with
  | nil => rfl
  | cons t rest ih =>
    rw [stages]
    split
    · next stage later eq _ =>
      rw [eq] at ih
      simpa using ih
    · simpa using ih

theorem mem_of_mem_stages {items stage : List Tree} (mem : stage ∈ stages items)
    (inside : t ∈ stage) : t ∈ items := by
  rw [← stages_flatten items]
  exact List.mem_flatten.mpr ⟨stage, mem, inside⟩

end Tree

end Tacit
