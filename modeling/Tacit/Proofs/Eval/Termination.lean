import Tacit.Proofs.Eval.Depth
import Tacit.Proofs.Eval.Halting
import Tacit.Proofs.Session.Reachable

/-!
Termination. Evaluation can go on for ever only by names that lead back to themselves. Where they do
not, and nothing is left to be bound, each tree has a depth of nesting, and so each reduction comes
to an end.

* `reduce_terminates`: the reduction of a sentence terminates.
-/

namespace Tacit

/-- What a bound name stands for mentions only bound names of a lower rank, at any depth. -/
def Store.Ranked (s : Store) (rank : String → Nat) : Prop :=
  ∀ {name w t other}, s.lookup name = some w → s.Unfolds w t → s.isBound other = true →
    Tree.Inside (.name other) t → rank other < rank name

/-- There is no assignment marker in the deep value of the word. -/
def Store.Unmarked (s : Store) (w : Word) : Prop :=
  ∀ t, s.Unfolds w t → ¬ Tree.Inside .assignment t

namespace Eval

variable {s : Store} {c : Scene} {rank : String → Nat}

/-- Names that are ranked in a store are ranked in the scene that it shows. -/
theorem ranked_env (same : s.Shows c) (ranked : s.Ranked rank)
    (unmarked : ∀ {name w}, s.lookup name = some w → s.Unmarked w) : Tree.Ranked c.env rank where
  descends := by
    intro name v other found bound inside
    obtain ⟨w, found, unfolds⟩ := same.exists_lookup found
    refine ranked found unfolds ?_ inside
    rw [Store.isBound, isSome_eq_of_rel (same.env other)]
    exact bound
  unmarked := by
    intro name v found
    obtain ⟨w, found, unfolds⟩ := same.exists_lookup found
    exact unmarked found v unfolds

/-- Programs whose names do not lead back to themselves terminate: with enough depth the reduction
of a sentence comes to a result or to an error, and no greater depth changes that. -/
theorem reduce_terminates {words : Sentence} (reachable : s.Reachable) (idle : s.pending = false)
    (ranked : s.Ranked rank) (bound : ∀ {name w}, s.lookup name = some w → s.Unmarked w)
    (valid : ∀ w ∈ words, s.Valid w) (unmarked : ∀ w ∈ words, s.Unmarked w) :
    ∃ depth, (∀ depth', depth ≤ depth' → reduce depth' words s = reduce depth words s) ∧
      ((∃ result t, reduce depth words s = .ok result t) ∨
        ∃ e t, reduce depth words s = .error (.error e) t) := by
  obtain ⟨⟨env, pending⟩, same⟩ := Store.Shows.of_wellFormed reachable.wellFormed
  obtain rfl : pending = false := same.pending.symm.trans idle
  obtain ⟨items, unfolds⟩ := reachable.wellFormed.exists_unfolds_all valid
  have ranked := ranked_env same ranked bound
  obtain ⟨n, nests⟩ : ∃ n, ∀ t ∈ items, Tree.Nests env n t := by
    apply Tree.exists_nests_all
    intro t mem
    obtain ⟨w, mem', unfolds⟩ := exists_of_mem_related unfolds mem
    exact ranked.exists_nests (unmarked w mem' t unfolds)
  obtain ⟨r, halted, depth, eq⟩ := Deep.halts_reduce nests
  have agrees := agrees_reduce depth same unfolds
  rw [show Deep.reduce depth items ⟨env, false⟩ = r from eq depth (Nat.le_refl _)] at agrees
  refine ⟨depth, ?_, ?_⟩
  · intro depth' le
    apply eq_of_deepens (fun depth => reduce_deepens depth words) ?_ le
    intro t cut
    rw [cut] at agrees
    cases halted <;> cases agrees
  · revert agrees
    cases reduce depth words s with
    | ok result t => exact fun _ => .inl ⟨result, t, rfl⟩
    | error e t =>
      intro agrees
      cases agrees with
      | error => exact .inr ⟨_, t, rfl⟩
      | depthExceeded => cases halted

/-- A name for a block that mentions another name twice, in front of a block that mentions it
itself: no name leads back to itself, so this comes to an end. -/
theorem reduce_terminates_nested :
    ∃ depth, (∃ result t, reduce depth [.name 5, .block 2] (Source.parse
        ((Session.mk .empty).run 20 "f: {inc}\ng: {f f}").2.store "g {g 5}").2 = .ok result t) ∨
      ∃ e t, reduce depth [.name 5, .block 2] (Source.parse
        ((Session.mk .empty).run 20 "f: {inc}\ng: {f f}").2.store "g {g 5}").2 =
          .error (.error e) t := by
  have reachable := (Store.Reachable.empty.run 20 "f: {inc}\ng: {f f}").parse "g {g 5}"
  have shape : (fun s : Store =>
      s.bindings = [("f", .block 0), ("g", .block 1)] ∧ s.pending = false ∧
      s.names = #["f", "inc", "g", "f", "f", "g", "g"] ∧
      s.blocks = #[[.name 1], [.name 3, .name 4], [.name 6, .scalar .int 0]] ∧
      (s.columns .int).scalars = #[5]) (Source.parse
        ((Session.mk .empty).run 20 "f: {inc}\ng: {f f}").2.store "g {g 5}").2 := by
    decide +kernel
  revert reachable shape
  generalize (Source.parse
    ((Session.mk .empty).run 20 "f: {inc}\ng: {f f}").2.store "g {g 5}").2 = s
  rintro reachable ⟨bindings, idle, names, blocks, ints⟩
  have f : s.Unfolds (.block 0) (.block [.name "inc"]) :=
    .block (by rw [blocks]; rfl) (.cons (.name (by rw [names]; rfl)) .nil)
  have g : s.Unfolds (.block 1) (.block [.name "f", .name "f"]) :=
    .block (by rw [blocks]; rfl)
      (.cons (.name (by rw [names]; rfl)) (.cons (.name (by rw [names]; rfl)) .nil))
  have first : s.Unfolds (.name 5) (.name "g") := .name (by rw [names]; rfl)
  have second : s.Unfolds (.block 2) (.block [.name "g", .datum (.scalar .int 5)]) :=
    .block (by rw [blocks]; rfl)
      (.cons (.name (by rw [names]; rfl)) (.cons (.scalar (by rw [ints]; rfl)) .nil))
  have bound : ∀ {name w}, s.lookup name = some w →
      (name = "f" ∧ w = .block 0) ∨ (name = "g" ∧ w = .block 1) := by
    intro name w found
    simp only [Store.lookup, bindings, Bindings.lookup] at found
    split at found
    · next eq => exact .inl ⟨eq, (Option.some.inj found).symm⟩
    · split at found
      · next eq => exact .inr ⟨eq, (Option.some.inj found).symm⟩
      · cases found
  have ranked : s.Ranked fun name => if name = "g" then 1 else 0 := by
    intro name w t other found unfolds isBound inside
    rcases bound found with ⟨rfl, rfl⟩ | ⟨rfl, rfl⟩
    · obtain rfl := unfolds.unique f
      obtain rfl : other = "inc" := by simpa using inside
      simp [Store.isBound, Store.lookup, bindings, Bindings.lookup] at isBound
    · obtain rfl := unfolds.unique g
      obtain rfl : other = "f" := by simpa using inside
      decide
  have unmarked : ∀ {name w}, s.lookup name = some w → s.Unmarked w := by
    intro name w found t unfolds
    rcases bound found with ⟨-, rfl⟩ | ⟨-, rfl⟩
    · obtain rfl := unfolds.unique f
      simp
    · obtain rfl := unfolds.unique g
      simp
  have valid : ∀ w ∈ [Word.name 5, .block 2], s.Valid w :=
    List.forall_mem_cons.mpr ⟨first.valid, List.forall_mem_singleton.mpr second.valid⟩
  have clear : ∀ w ∈ [Word.name 5, .block 2], s.Unmarked w := by
    refine List.forall_mem_cons.mpr ⟨?_, List.forall_mem_singleton.mpr ?_⟩
    · intro t unfolds
      obtain rfl := unfolds.unique first
      simp
    · intro t unfolds
      obtain rfl := unfolds.unique second
      simp
  obtain ⟨depth, -, ends⟩ := reduce_terminates reachable idle ranked unmarked valid clear
  exact ⟨depth, ends⟩

end Eval

end Tacit
