import Tacit.Proofs.Eval.Transparency
import Tacit.Proofs.Eval.Unmarked

/-!
The stages of an executor. They run one after the other, each in the store that the one before it
has left, but where nothing is assigned each of them does what it does alone.

* `fansOut`: at each depth, a fan-out is told by the reductions of the stages alone.
* `stages_independent`: the same for what is not cut off, and for executors that share stages.
-/

namespace Tacit

/-- A sentence of trees is folded onto its last one. -/
theorem Deep.reduce_concat (depth : Nat) (items : List Tree) (u : Tree) :
    Deep.reduce depth (items ++ [u]) =
      (do return some (← Deep.foldOnto (Deep.fold depth) u items)) := by
  rw [Deep.reduce, List.getLast?_concat, List.dropLast_concat]

namespace Eval

open Store (SameValue)

/-- The fan-out of an executor comes to the outcome, and is not cut off. -/
def FansOutTo (s : Store) (executor argument : Word) (r : EStateM.Result Failure Store Word) :
    Prop :=
  (∃ depth, fanOut (fold depth) executor argument s = r) ∧ ∀ t, r ≠ .error .depthExceeded t

/-- With the depth, the stage alone has a result. -/
def Succeeds (s : Store) (argument : Word) (depth : Nat) (stage : List Word) : Prop :=
  ∃ w t, reduce depth (stage ++ [argument]) s = .ok (some w) t

/-- The outcome of a fan-out, told by what the stages come to alone. -/
inductive FansOut (s : Store) (argument : Word) (depth : Nat) (stages : List (List Word)) :
    EStateM.Result Failure Store Word → Prop where
  | ok {v : Word} {results : List Word} {t : Store} :
      t.get? v = some (.tuple (.unconnected results)) →
      List.Forall₂ (fun stage result => ∃ w t',
        reduce depth (stage ++ [argument]) s = .ok (some w) t' ∧ SameValue t t' result w)
        stages results →
      FansOut s argument depth stages (.ok v t)
  | error {before after : List (List Word)} {stage : List Word} {e e' : EvalError} {t t' : Store} :
      stages = before ++ stage :: after → (∀ b ∈ before, Succeeds s argument depth b) →
      reduce depth (stage ++ [argument]) s = .error (.error e') t' → e'.kind = e.kind →
      FansOut s argument depth stages (.error (.error e) t)
  | depthExceeded {stage : List Word} {t t' : Store} : stage ∈ stages →
      reduce depth (stage ++ [argument]) s = .error .depthExceeded t' →
      FansOut s argument depth stages (.error .depthExceeded t)

/-! ### One depth -/

section Depth

variable {s : Store} {env : String → Option Tree} {argument : Word} {u : Tree} {depth : Nat}
  (same : s.Shows (Deep.idle env)) (hu : s.Unfolds argument u)

include same hu

/-- A stage that is reduced with the argument agrees with its trees, folded onto that of the
argument. -/
theorem agrees_stage (depth : Nat) {stage : List Word} {items : List Tree}
    (h : List.Forall₂ s.Unfolds stage items) :
    Agrees (fun s => Option.Rel s.Unfolds) s (reduce depth (stage ++ [argument]) s)
      ((do return some (← Deep.foldOnto (Deep.fold depth) u items) : Deep (Option Tree))
        (Deep.idle env)) := by
  rw [← Deep.reduce_concat]
  exact agrees_reduce depth same (List.rel_append h (.cons hu .nil))

/-- A stage whose trees come to a value is reduced to a word for it. -/
theorem exists_reduce_eq_ok {stage : List Word} {items : List Tree}
    (h : List.Forall₂ s.Unfolds stage items) {t : Tree}
    (ok : Deep.foldOnto (Deep.fold depth) u items (Deep.idle env) = .ok t (Deep.idle env)) :
    ∃ w t', reduce depth (stage ++ [argument]) s = .ok (some w) t' ∧ t'.Unfolds w t := by
  have agrees := agrees_stage same hu depth h
  rw [bind_of_ok ok] at agrees
  generalize reduce depth (stage ++ [argument]) s = r at agrees
  cases agrees with
  | ok _ _ related =>
    cases related with
    | some unfolds => exact ⟨_, _, rfl, unfolds⟩

/-- At one depth, the stages come to what they come to alone: none of them binds a name, and what
the earlier ones have added to the store is not seen by the later ones. -/
theorem fansOut (depth : Nat) {i : Nat} {words : List Word} {items : List Tree}
    (found : s.executors[i]? = some words) (parts : List.Forall₂ s.Unfolds words items)
    (values : ∀ {name v}, env name = some v → v.Unmarked) (clear : ∀ t ∈ items, t.Unmarked)
    (unmarked : u.Unmarked) {stages : List (List Word)} (cut : s.stages words = .ok stages) :
    FansOut s argument depth stages (fanOut (fold depth) (.executor i) argument s) := by
  obtain ⟨stages', eq, related⟩ := stages_eq_ok parts
  cases cut.symm.trans eq
  have keeps : ∀ stage ∈ Tree.stages items,
      Deep.Keeps Tree.Unmarked (Deep.idle env) (Deep.foldOnto (Deep.fold depth) u stage) :=
    fun stage mem => (Deep.keeps_fold values depth).foldOnto
      (fun t inside => clear t (Tree.mem_of_mem_stages mem inside)) unmarked
  have agrees := agrees_mapM_foldOnto (agrees_fold depth) related (.refl s) same hu
  rw [fanOut, ask_bind (Store.executor_eq_ok found), ask_bind cut]
  rcases Deep.mapM_cases_of_keeps keeps with
    ⟨trees, each, eq⟩ | ⟨before, stage, after, e, c', split, earlier, fails, eq⟩
  · rw [eq] at agrees
    generalize run : stages.mapM (foldOnto (fold depth) argument) s = r at agrees
    cases agrees with
    | @ok results _ t _ _ _ unfolds =>
      rw [bind_of_ok run]
      have alone : List.Forall₂ (fun stage tree => ∃ w t',
          reduce depth (stage ++ [argument]) s = .ok (some w) t' ∧ t'.Unfolds w tree)
          stages trees :=
        related_trans (fun _ _ _ parts given => exists_reduce_eq_ok same hu parts given.1)
          related each
      have made := Store.get?_create_self t (.tuple (.unconnected results))
      refine .ok made (related_trans ?_ alone unfolds.flip)
      rintro stage tree result ⟨w, t', reduced, unfolds⟩ unfolds'
      have grows := Store.growsTo_create t (.tuple (.unconnected results))
      exact ⟨w, t', reduced, tree, unfolds'.mono grows, unfolds⟩
  · rw [eq] at agrees
    rw [split] at related
    obtain ⟨before', stage', after', rfl, related, parts⟩ := exists_split related
    have earlier : ∀ b ∈ before', Succeeds s argument depth b := by
      intro b mem
      obtain ⟨items, mem', parts⟩ := exists_of_mem_related related.flip mem
      obtain ⟨t, ok⟩ := earlier items mem'
      obtain ⟨w, t', reduced, -⟩ := exists_reduce_eq_ok same hu parts ok
      exact ⟨w, t', reduced⟩
    have alone := agrees_stage same hu depth parts
    rw [bind_of_error fails] at alone
    generalize run : (before' ++ stage' :: after').mapM (foldOnto (fold depth) argument) s = r
      at agrees
    generalize reduced : reduce depth (stage' ++ [argument]) s = r' at alone
    cases agrees with
    | error _ _ kind =>
      rw [bind_of_error run]
      cases alone with
      | error _ _ kind' => exact .error rfl earlier reduced (kind'.trans kind.symm)
    | depthExceeded =>
      rw [bind_of_error run]
      cases alone with
      | depthExceeded => exact .depthExceeded (List.mem_append_right _ (.head _)) reduced

end Depth

/-! ### Outcomes that are not cut off -/

section Outcomes

variable {s : Store} {argument : Word} {stages : List (List Word)} {stage : List Word}

/-- A stage that succeeds at some depth can be reduced. -/
theorem Succeeds.reducesTo {depth : Nat} (h : Succeeds s argument depth stage) :
    ∃ w t, ReducesTo s (stage ++ [argument]) (.ok (some w) t) := by
  obtain ⟨w, t, eq⟩ := h
  exact ⟨w, t, ⟨depth, eq⟩, by rintro _ ⟨⟩⟩

/-- A stage that succeeds at some depth succeeds at every greater one. -/
theorem Succeeds.mono {depth depth' : Nat} (le : depth ≤ depth')
    (h : Succeeds s argument depth stage) : Succeeds s argument depth' stage := by
  obtain ⟨w, t, eq⟩ := h
  refine ⟨w, t, (eq_of_deepens (fun depth => reduce_deepens depth _) ?_ le).trans eq⟩
  rw [eq]
  rintro _ ⟨⟩

/-- Each of the stages succeeds alone with a depth of its own, so one depth serves all of them. -/
theorem exists_succeeds_all
    (h : ∀ stage ∈ stages, ∃ w t, ReducesTo s (stage ++ [argument]) (.ok (some w) t)) :
    ∃ depth, ∀ stage ∈ stages, Succeeds s argument depth stage := by
  refine exists_bound_all (fun le => Succeeds.mono le) fun stage mem => ?_
  obtain ⟨w, t, ⟨depth, eq⟩, -⟩ := h stage mem
  exact ⟨depth, w, t, eq⟩

/-- Sentences of the same deep values have results of the same deep value. -/
theorem ReducesTo.exists_same (wellFormed : s.WellFormed) {words words' : Sentence}
    (same : List.Forall₂ (SameValue s s) words words') {w : Word} {t : Store}
    (h : ReducesTo s words (.ok (some w) t)) :
    ∃ w' t', ReducesTo s words' (.ok (some w') t') ∧ SameValue t t' w w' := by
  obtain ⟨c, shows⟩ := Store.Shows.of_wellFormed wellFormed
  obtain ⟨items, unfolds, unfolds'⟩ := exists_common id same
  obtain ⟨⟨depth, eq⟩, -⟩ := h
  have agrees := agrees_reduce depth shows unfolds
  have agrees' := agrees_reduce depth shows unfolds'
  rw [eq] at agrees
  generalize reduced : reduce depth words' s = r at agrees'
  generalize Deep.reduce depth items c = d at agrees agrees'
  cases agrees with
  | ok _ _ left =>
    cases agrees' with
    | ok _ _ right =>
      cases left with
      | some left =>
        cases right with
        | some right => exact ⟨_, _, ⟨⟨depth, reduced⟩, by rintro _ ⟨⟩⟩, _, left, right⟩

end Outcomes

/-- An executor and an argument without assignment markers, in a store where no assignment is
pending and no name is bound to a marker. -/
structure Assignless (s : Store) (i : Nat) (words : List Word) (argument : Word) : Prop where
  reachable : s.Reachable
  idle : s.pending = false
  bound : ∀ {name w}, s.lookup name = some w → s.Unmarked w
  found : s.executors[i]? = some words
  valid : s.Valid argument
  executor : s.Unmarked (.executor i)
  argument : s.Unmarked argument

namespace Assignless

variable {s : Store} {i : Nat} {words : List Word} {argument : Word} {stages : List (List Word)}
  (h : Assignless s i words argument)

include h

/-- The words and the argument stand for trees without markers, in a scene without them. -/
theorem exists_unfolds : ∃ env items u, s.Shows (Deep.idle env) ∧
    List.Forall₂ s.Unfolds words items ∧ s.Unfolds argument u ∧
    (∀ {name v}, env name = some v → v.Unmarked) ∧ (∀ t ∈ items, t.Unmarked) ∧ u.Unmarked := by
  have wellFormed := h.reachable.wellFormed
  obtain ⟨⟨env, pending⟩, same⟩ := Store.Shows.of_wellFormed wellFormed
  obtain rfl : pending = false := same.pending.symm.trans h.idle
  have valid : s.Valid (.executor i) := (Array.getElem?_eq_some_iff.mp h.found).1
  obtain ⟨u, hu⟩ := wellFormed.exists_unfolds h.valid
  obtain ⟨t, unfolds⟩ := wellFormed.exists_unfolds valid
  have clear := h.executor t unfolds
  cases unfolds with
  | @executor _ _ items found parts =>
    cases found.symm.trans h.found
    refine ⟨env, items, u, same, parts, hu, ?_, Tree.Unmarked.of_mem_executor clear,
      h.argument u hu⟩
    intro name v bound
    obtain ⟨w, bound, unfolds⟩ := same.exists_lookup bound
    exact h.bound bound v unfolds

/-- The words can be cut into stages. -/
theorem exists_stages : ∃ stages, s.stages words = .ok stages := by
  obtain ⟨_, _, _, -, parts, -⟩ := h.exists_unfolds
  obtain ⟨stages, cut, -⟩ := stages_eq_ok parts
  exact ⟨stages, cut⟩

section Cut

variable (cut : s.stages words = .ok stages)

include cut

theorem fansOut (depth : Nat) :
    FansOut s argument depth stages (fanOut (fold depth) (.executor i) argument s) := by
  obtain ⟨_, _, _, same, parts, hu, values, clear, unmarked⟩ := h.exists_unfolds
  exact Eval.fansOut same hu depth h.found parts values clear unmarked cut

/-- An executor succeeds if and only if each of its stages does alone. -/
theorem fansOutTo_iff : (∃ v t, FansOutTo s (.executor i) argument (.ok v t)) ↔
    ∀ stage ∈ stages, ∃ w t, ReducesTo s (stage ++ [argument]) (.ok (some w) t) := by
  constructor
  · rintro ⟨v, t, ⟨depth, eq⟩, -⟩ stage mem
    have fans := h.fansOut cut depth
    rw [eq] at fans
    cases fans with
    | ok _ each =>
      obtain ⟨_, -, w, t', reduced, -⟩ := exists_of_mem_related each.flip mem
      exact Succeeds.reducesTo ⟨w, t', reduced⟩
  · intro each
    obtain ⟨depth, each⟩ := exists_succeeds_all each
    have fans := h.fansOut cut depth
    generalize eq : fanOut (fold depth) (.executor i) argument s = r at fans
    cases fans with
    | ok => exact ⟨_, _, ⟨depth, eq⟩, by rintro _ ⟨⟩⟩
    | @error _ _ stage _ _ _ _ split _ failed =>
      obtain ⟨w, t, reduced⟩ := each stage (by simp [split])
      cases reduced.symm.trans failed
    | @depthExceeded stage _ _ mem cut =>
      obtain ⟨w, t, reduced⟩ := each stage mem
      cases reduced.symm.trans cut

/-- The components of the result have the deep values of what the stages come to alone. -/
theorem exists_components {v : Word} {t : Store}
    (fans : FansOutTo s (.executor i) argument (.ok v t)) : ∃ results,
      t.get? v = some (.tuple (.unconnected results)) ∧
      List.Forall₂ (fun stage result => ∃ w t',
        ReducesTo s (stage ++ [argument]) (.ok (some w) t') ∧ SameValue t t' result w)
        stages results := by
  obtain ⟨⟨depth, eq⟩, -⟩ := fans
  have fans := h.fansOut cut depth
  rw [eq] at fans
  cases fans with
  | ok made each =>
    refine ⟨_, made, each.imp fun stage result => ?_⟩
    rintro ⟨w, t', reduced, alike⟩
    exact ⟨w, t', ⟨⟨depth, reduced⟩, by rintro _ ⟨⟩⟩, alike⟩

/-- An executor fails as the leftmost of the stages that fail alone. -/
theorem exists_leftmost {failure : Failure} {t : Store}
    (fans : FansOutTo s (.executor i) argument (.error failure t)) :
    ∃ e before stage after, failure = .error e ∧ stages = before ++ stage :: after ∧
      (∀ b ∈ before, ∃ w t, ReducesTo s (b ++ [argument]) (.ok (some w) t)) ∧
      ∃ e' t', ReducesTo s (stage ++ [argument]) (.error (.error e') t') ∧ e'.kind = e.kind := by
  obtain ⟨⟨depth, eq⟩, uncut⟩ := fans
  have fans := h.fansOut cut depth
  rw [eq] at fans
  cases fans with
  | error split earlier failed kind =>
    refine ⟨_, _, _, _, rfl, split, fun b mem => (earlier b mem).reducesTo, _, _, ⟨⟨depth, failed⟩,
      by rintro _ ⟨⟩⟩, kind⟩
  | depthExceeded => exact absurd rfl (uncut t)

end Cut

/-! ### Shared stages -/

theorem unmarked_of_mem {w : Word} (mem : w ∈ words) : s.Unmarked w := by
  intro t unfolds inside
  obtain ⟨_, items, _, -, parts, -, -, clear, -⟩ := h.exists_unfolds
  obtain ⟨t', mem', unfolds'⟩ := exists_of_mem_related parts.flip mem
  obtain rfl := unfolds'.unique unfolds
  exact clear t' mem' inside

/-- Another executor, of which each stage has the deep values of one of these, is without assignment
as well. -/
theorem of_shared (cut : s.stages words = .ok stages) {j : Nat} {words' : List Word}
    {stages' : List (List Word)} (found : s.executors[j]? = some words')
    (cut' : s.stages words' = .ok stages')
    (shared : ∀ stage' ∈ stages', ∃ stage ∈ stages,
      List.Forall₂ (SameValue s s) stage stage') : Assignless s j words' argument := by
  refine { h with found := found, executor := fun t unfolds inside => ?_ }
  cases unfolds with
  | executor found' parts =>
    cases found'.symm.trans found
    cases inside with
    | executor mem inside =>
      obtain ⟨w', mem', unfolds'⟩ := exists_of_mem_related parts mem
      rw [← Store.stages_flatten cut'] at mem'
      obtain ⟨stage', listed', mem'⟩ := List.mem_flatten.mp mem'
      obtain ⟨stage, listed, same⟩ := shared stage' listed'
      obtain ⟨w, mem₀, t, unfolds, unfolds''⟩ := exists_of_mem_related same mem'
      obtain rfl := unfolds''.unique unfolds'
      refine h.unmarked_of_mem ?_ t unfolds inside
      rw [← Store.stages_flatten cut]
      exact List.mem_flatten.mpr ⟨stage, listed, mem₀⟩

/-- Stages of the same values are so with the argument behind them. -/
theorem sameValue_concat {stage stage' : List Word}
    (same : List.Forall₂ (SameValue s s) stage stage') :
    List.Forall₂ (SameValue s s) (stage ++ [argument]) (stage' ++ [argument]) := by
  obtain ⟨u, hu⟩ := h.reachable.wellFormed.exists_unfolds h.valid
  exact List.rel_append same (.cons ⟨u, hu, hu⟩ .nil)

/-- Stages that each have the values of one that succeeds succeed. -/
theorem succeeds_of_shared {stages' : List (List Word)}
    (alone : ∀ stage ∈ stages, ∃ w t, ReducesTo s (stage ++ [argument]) (.ok (some w) t))
    (shared : ∀ stage' ∈ stages', ∃ stage ∈ stages,
      List.Forall₂ (SameValue s s) stage stage') :
    ∀ stage' ∈ stages', ∃ w t, ReducesTo s (stage' ++ [argument]) (.ok (some w) t) := by
  intro stage' mem'
  obtain ⟨stage, mem, same⟩ := shared stage' mem'
  obtain ⟨w, t, reduces⟩ := alone stage mem
  obtain ⟨w', t', reduces', -⟩ :=
    reduces.exists_same h.reachable.wellFormed (h.sameValue_concat same)
  exact ⟨w', t', reduces'⟩

/-- What the components of two results are, for stages of the same deep values. -/
theorem sameValue_of_sameStages {t t' : Store} {stages' : List (List Word)}
    {results results' : List Word}
    (each : List.Forall₂ (fun stage result => ∃ w r,
      ReducesTo s (stage ++ [argument]) (.ok (some w) r) ∧ SameValue t r result w) stages results)
    (each' : List.Forall₂ (fun stage result => ∃ w r,
      ReducesTo s (stage ++ [argument]) (.ok (some w) r) ∧ SameValue t' r result w)
      stages' results')
    {p q : Nat} {stage stage' : List Word} {result result' : Word}
    (at_p : stages[p]? = some stage) (at_q : stages'[q]? = some stage')
    (same : List.Forall₂ (SameValue s s) stage stage') (result_p : results[p]? = some result)
    (result_q : results'[q]? = some result') : SameValue t t' result result' := by
  have here := getElem?_related each p
  have there := getElem?_related each' q
  rw [at_p, result_p] at here
  rw [at_q, result_q] at there
  cases here with
  | some given =>
    cases there with
    | some given' =>
      obtain ⟨w, r, reduces, value⟩ := given
      obtain ⟨w', r', reduces', value'⟩ := given'
      obtain ⟨w'', r'', reduces'', same⟩ :=
        reduces.exists_same h.reachable.wellFormed (h.sameValue_concat same)
      cases reduces'.unique reduces''
      exact (value.trans same).trans value'.symm

end Assignless

variable {s : Store} {i : Nat} {words : List Word} {argument : Word}

/-- The stages of an executor that assigns nothing do not depend on each other. It succeeds if and
only if each stage, reduced alone in the store as it was before, succeeds; the components of its
result have the deep values that the stages have alone. It fails as the leftmost of the stages that
fail alone. Any executor with the same stages, in another order or some of them only, succeeds with
it, and has the same components where it has the same stages. -/
theorem stages_independent (h : Assignless s i words argument) :
    ∃ stages, s.stages words = .ok stages ∧
      ((∃ v t, FansOutTo s (.executor i) argument (.ok v t)) ↔
        ∀ stage ∈ stages, ∃ w t, ReducesTo s (stage ++ [argument]) (.ok (some w) t)) ∧
      (∀ v t, FansOutTo s (.executor i) argument (.ok v t) → ∃ results,
        t.get? v = some (.tuple (.unconnected results)) ∧
        List.Forall₂ (fun stage result => ∃ w t',
          ReducesTo s (stage ++ [argument]) (.ok (some w) t') ∧ SameValue t t' result w)
          stages results) ∧
      (∀ failure t, FansOutTo s (.executor i) argument (.error failure t) →
        ∃ e before stage after, failure = .error e ∧ stages = before ++ stage :: after ∧
          (∀ b ∈ before, ∃ w t, ReducesTo s (b ++ [argument]) (.ok (some w) t)) ∧
          ∃ e' t', ReducesTo s (stage ++ [argument]) (.error (.error e') t') ∧
            e'.kind = e.kind) ∧
      ∀ j words' stages', s.executors[j]? = some words' → s.stages words' = .ok stages' →
        (∀ stage' ∈ stages', ∃ stage ∈ stages, List.Forall₂ (SameValue s s) stage stage') →
        ∀ v t, FansOutTo s (.executor i) argument (.ok v t) →
          ∃ v' t' results results', FansOutTo s (.executor j) argument (.ok v' t') ∧
            t.get? v = some (.tuple (.unconnected results)) ∧ results.length = stages.length ∧
            t'.get? v' = some (.tuple (.unconnected results')) ∧
            results'.length = stages'.length ∧
            ∀ (p q : Nat) (stage stage' : List Word) (result result' : Word),
              stages[p]? = some stage → stages'[q]? = some stage' →
              List.Forall₂ (SameValue s s) stage stage' →
              results[p]? = some result → results'[q]? = some result' →
              SameValue t t' result result' := by
  obtain ⟨stages, cut⟩ := h.exists_stages
  refine ⟨stages, cut, h.fansOutTo_iff cut, fun v t => h.exists_components cut,
    fun failure t => h.exists_leftmost cut, ?_⟩
  intro j words' stages' found cut' shared v t fans
  have h' := h.of_shared cut found cut' shared
  obtain ⟨results, made, each⟩ := h.exists_components cut fans
  have alone := (h.fansOutTo_iff cut).mp ⟨v, t, fans⟩
  obtain ⟨v', t', fans'⟩ := (h'.fansOutTo_iff cut').mpr (h.succeeds_of_shared alone shared)
  obtain ⟨results', made', each'⟩ := h'.exists_components cut' fans'
  exact ⟨v', t', results, results', fans', made, each.length_eq.symm, made',
    each'.length_eq.symm, fun p q stage stage' result result' =>
      h.sameValue_of_sameStages each each'⟩

/-- Two stages, and the same two the other way round. -/
theorem stages_independent_swapped : ∃ s,
    s = (Source.parse .empty "|add[1 _] neg| 5\n|neg add[1 _]| 5").2 ∧
    ∃ v t v' t' first second first' second',
      FansOutTo s (.executor 0) (.scalar .int 1) (.ok v t) ∧
      t.get? v = some (.tuple (.unconnected [first, second])) ∧
      FansOutTo s (.executor 1) (.scalar .int 1) (.ok v' t') ∧
      t'.get? v' = some (.tuple (.unconnected [first', second'])) ∧
      SameValue t t' first second' ∧ SameValue t t' second first' := by
  have reachable := Store.Reachable.empty.parse "|add[1 _] neg| 5\n|neg add[1 _]| 5"
  have shape : (fun s : Store => s.bindings = [] ∧ s.pending = false ∧
      s.names = #["add", "neg", "neg", "add"] ∧ (s.columns .int).scalars = #[1, 5, 1, 5] ∧
      s.tuples = #[⟨[.scalar .int 0, .placeholder 0], some 0⟩,
        ⟨[.scalar .int 2, .placeholder 0], some 3⟩] ∧
      s.executors = #[[.name 0, .tuple 0, .name 1], [.name 2, .name 3, .tuple 1]] ∧
      s.stages [.name 0, .tuple 0, .name 1] = .ok [[.name 0, .tuple 0], [.name 1]] ∧
      s.stages [.name 2, .name 3, .tuple 1] = .ok [[.name 2], [.name 3, .tuple 1]] ∧
      ((fanOut (fold 20) (.executor 0) (.scalar .int 1)).result? s).isSome = true)
      (Source.parse .empty "|add[1 _] neg| 5\n|neg add[1 _]| 5").2 := by
    decide +kernel
  refine ⟨_, rfl, ?_⟩
  revert reachable shape
  generalize (Source.parse .empty "|add[1 _] neg| 5\n|neg add[1 _]| 5").2 = s
  rintro reachable ⟨bindings, idle, names, ints, tuples, executors, cut, cut', succeeds⟩
  have free : ∀ name, s.lookup name = none := by
    intro name
    rw [Store.lookup, bindings]
    rfl
  have add : s.Unfolds (.name 0) (.name "add") := .name (by rw [names]; rfl)
  have add' : s.Unfolds (.name 3) (.name "add") := .name (by rw [names]; rfl)
  have neg : s.Unfolds (.name 1) (.name "neg") := .name (by rw [names]; rfl)
  have neg' : s.Unfolds (.name 2) (.name "neg") := .name (by rw [names]; rfl)
  have five : s.Unfolds (.scalar .int 1) (.datum (.scalar .int 5)) := .scalar (by rw [ints]; rfl)
  have plus : ∀ {i j k : Nat}, s.tuples[i]? = some ⟨[.scalar .int j, .placeholder 0], some k⟩ →
      s.names[k]? = some "add" → (s.columns .int).scalars[j]? = some (1 : Int32) →
      s.Unfolds (.tuple i) (.tuple (some "add") [.datum (.scalar .int 1), .placeholder 0]) :=
    fun tuple named scalar =>
      .tuple tuple (.some named) (.cons (.scalar scalar) (.cons .placeholder .nil))
  have one : s.Unfolds (.tuple 0) _ :=
    plus (by rw [tuples]; rfl) (by rw [names]; rfl) (by rw [ints]; rfl)
  have one' : s.Unfolds (.tuple 1) _ :=
    plus (by rw [tuples]; rfl) (by rw [names]; rfl) (by rw [ints]; rfl)
  have found : s.executors[0]? = some [.name 0, .tuple 0, .name 1] := by rw [executors]; rfl
  have executor := Store.Unfolds.executor found (.cons add (.cons one (.cons neg .nil)))
  have assignless : Assignless s 0 [.name 0, .tuple 0, .name 1] (.scalar .int 1) := by
    refine ⟨reachable, idle, fun bound => ?_, found, five.valid, fun t unfolds => ?_,
      fun t unfolds => ?_⟩
    · cases (free _).symm.trans bound
    · obtain rfl := unfolds.unique executor
      simp
    · obtain rfl := unfolds.unique five
      simp
  have shared : ∀ stage' ∈ [[Word.name 2], [.name 3, .tuple 1]],
      ∃ stage ∈ [[Word.name 0, .tuple 0], [.name 1]],
        List.Forall₂ (SameValue s s) stage stage' :=
    List.forall_mem_cons.mpr ⟨⟨_, .tail _ (.head _), .cons ⟨_, neg, neg'⟩ .nil⟩,
      List.forall_mem_singleton.mpr
        ⟨_, .head _, .cons ⟨_, add, add'⟩ (.cons ⟨_, one, one'⟩ .nil)⟩⟩
  obtain ⟨stages, eq, -, -, -, swaps⟩ := stages_independent assignless
  cases cut.symm.trans eq
  obtain ⟨v, t, result⟩ := exists_eq_ok succeeds
  have fans : FansOutTo s (.executor 0) (.scalar .int 1) (.ok v t) :=
    ⟨⟨20, result⟩, by rintro _ ⟨⟩⟩
  obtain ⟨v', t', results, results', fans', made, length, made', length', alike⟩ :=
    swaps 1 _ _ (by rw [executors]; rfl) cut' shared v t fans
  obtain ⟨first, second, rfl⟩ := List.length_eq_two.mp length
  obtain ⟨first', second', rfl⟩ := List.length_eq_two.mp length'
  exact ⟨v, t, v', t', first, second, first', second', fans, made, fans', made',
    alike 0 1 _ _ _ _ rfl rfl (.cons ⟨_, add, add'⟩ (.cons ⟨_, one, one'⟩ .nil)) rfl rfl,
    alike 1 0 _ _ _ _ rfl rfl (.cons ⟨_, neg, neg'⟩ .nil) rfl rfl⟩

end Eval

end Tacit
