import Tacit.Proofs.Eval.Interchange
import Tacit.Proofs.Eval.Termination
import Tacit.Proofs.Session.Names

/-!
Referential transparency: a bound name can be used wherever its value can, and the value wherever
the name can. The two take different numbers of steps, because a name is looked up first, so runs
are compared by what they come to when the depth is great enough.

* `Follows.bind`, `follows_foldOnto`, `follows_mapM`: what follows part by part follows.
* `foldsFollow`: folds of matching trees come to matching trees, or to errors of one kind.
* `names_transparent`: the reductions of sentences with names in place of values, or values in
  place of names, come to an end together, and to such results again.
-/

namespace Tacit

namespace Deep

open Tacit.Tree (Matches Congruent Denotes)

/-! ### Evaluations that come to the same -/

/-- At every depth that is great enough, the evaluation comes to the outcome. -/
def Eventually {β : Type} (m : Nat → Deep β) (c : Scene)
    (r : EStateM.Result Scene.Failure Scene β) : Prop :=
  ∃ enough, ∀ depth, enough ≤ depth → m depth c = r

/-- Whatever the outcome is, unless it is cut off, the evaluation comes to one like it with enough
depth: to a related result in the scene it was started in, or to an error of the same kind. -/
inductive Follows {α β : Type} (R : α → β → Prop) (c : Scene) (m : Nat → Deep β) :
    EStateM.Result Scene.Failure Scene α → Prop where
  | ok {a : α} {b : β} : R a b → Eventually m c (.ok b c) → Follows R c m (.ok a c)
  | error {kind : EvalError.Kind} {trees trees' : List Tree} {c₁ c₂ : Scene} :
      Eventually m c (.error (.error kind trees') c₂) →
      Follows R c m (.error (.error kind trees) c₁)
  | depthExceeded {c₁ : Scene} : Follows R c m (.error .depthExceeded c₁)

section Combinators

variable {α β γ δ : Type} {R : α → β → Prop} {Q : γ → δ → Prop} {c : Scene} {m m' : Nat → Deep β}

theorem Eventually.always (d : Deep β) (c : Scene) : Eventually (fun _ => d) c (d c) :=
  ⟨0, fun _ _ => rfl⟩

/-- What does one level deeper what another does comes to the same. -/
theorem Eventually.of_succ {r : EStateM.Result Scene.Failure Scene β} (h : Eventually m' c r)
    (step : ∀ depth, m (depth + 1) c = m' depth c) : Eventually m c r := by
  obtain ⟨enough, eq⟩ := h
  refine ⟨enough + 1, ?_⟩
  intro depth le
  obtain ⟨depth, rfl⟩ : ∃ d, depth = d + 1 := ⟨depth - 1, by omega⟩
  rw [step]
  exact eq depth (by omega)

/-- A sequence comes to what its second part comes to. -/
theorem Eventually.bind {f : Nat → β → Deep δ} {b : β} {r : EStateM.Result Scene.Failure Scene δ}
    (h : Eventually m c (.ok b c)) (next : Eventually (fun depth => f depth b) c r) :
    Eventually (fun depth => m depth >>= f depth) c r := by
  obtain ⟨enough, eq⟩ := h
  obtain ⟨enough', eq'⟩ := next
  refine ⟨max enough enough', ?_⟩
  intro depth le
  exact (Eval.bind_of_ok (eq depth (by omega))).trans (eq' depth (by omega))

/-- A sequence fails as its first part does. -/
theorem Eventually.bind_error {f : Nat → β → Deep δ} {e : Scene.Failure} {c' : Scene}
    (h : Eventually m c (.error e c')) :
    Eventually (fun depth => m depth >>= f depth) c (.error e c') := by
  obtain ⟨enough, eq⟩ := h
  exact ⟨enough, fun depth le => Eval.bind_of_error (eq depth le)⟩

theorem Follows.imp {r : EStateM.Result Scene.Failure Scene α} (h : Follows R c m r)
    (imp : ∀ r', Eventually m c r' → Eventually m' c r') : Follows R c m' r := by
  cases h with
  | ok value eventually => exact .ok value (imp _ eventually)
  | error eventually => exact .error (imp _ eventually)
  | depthExceeded => exact .depthExceeded

theorem Follows.of_succ {r : EStateM.Result Scene.Failure Scene α} (h : Follows R c m' r)
    (step : ∀ depth, m (depth + 1) c = m' depth c) : Follows R c m r :=
  h.imp fun _ eventually => eventually.of_succ step

theorem Follows.pure {a : α} {b : β} (value : R a b) :
    Follows R c (fun _ => Pure.pure b) ((Pure.pure a : Deep α) c) :=
  .ok value (.always _ c)

theorem Follows.fail (kind : EvalError.Kind) (trees trees' : List Tree) :
    Follows R c (fun _ => Deep.fail kind trees') ((Deep.fail kind trees : Deep α) c) :=
  .error (.always _ c)

/-- Sequences follow each other if their parts do. -/
theorem Follows.bind {d : Deep α} {f : α → Deep γ} {f' : Nat → β → Deep δ}
    (h : Follows R c m (d c))
    (next : ∀ a b, R a b → Follows Q c (fun depth => f' depth b) (f a c)) :
    Follows Q c (fun depth => m depth >>= f' depth) ((d >>= f) c) := by
  cases eq : d c with
  | ok a c' =>
    rw [eq] at h
    cases h with
    | ok value eventually =>
      rw [Eval.bind_of_ok eq]
      exact (next a _ value).imp fun _ later => eventually.bind later
  | error e c' =>
    rw [eq] at h
    rw [Eval.bind_of_error eq]
    cases h with
    | error eventually => exact .error eventually.bind_error
    | depthExceeded => exact .depthExceeded

end Combinators

/-! ### The rules of the fold -/

section Rules

variable {env : String → Option Tree} {name : String} {value t t' u u' : Tree}
  {items items' : List Tree}

/-- The fold of trees that match is followed by the fold of what they match. -/
def FoldsFollow (env : String → Option Tree) (name : String) (value : Tree) (inner : Folding) :
    Prop :=
  ∀ {t t' u u'}, Matches name value t t' → Matches name value u u' →
    Follows (Matches name value) (idle env) (fun depth => fold depth t' u') (inner t u (idle env))

section Inner

variable {inner : Folding} (follow : FoldsFollow env name value inner)

include follow

/-- Trees that match follow each other when they are folded one after the other. -/
theorem follows_foldOnto (hu : Matches name value u u')
    (h : List.Forall₂ (Matches name value) items items') :
    Follows (Matches name value) (idle env) (fun depth => foldOnto (fold depth) u' items')
      (foldOnto inner u items (idle env)) := by
  induction h with
  | nil => exact .pure hu
  | cons first _ ih =>
    simp only [foldOnto, List.foldrM_cons] at ih ⊢
    exact ih.bind fun _ _ => follow first

theorem follows_foldOntoBlock (ht : Matches name value t t')
    (h : List.Forall₂ (Matches name value) items items') :
    Follows (Matches name value) (idle env) (fun depth => foldOntoBlock (fold depth) t' items')
      (foldOntoBlock inner t items (idle env)) := by
  unfold foldOntoBlock
  rcases rel_cases (getLast?_related h) with ⟨empty, empty'⟩ | ⟨_, _, last, last', related⟩
  · rw [empty, empty']
    exact .pure ht
  · rw [last, last']
    exact follows_foldOnto follow related (.cons ht (dropLast_related h))

/-- Stages that match follow each other. -/
theorem follows_mapM {stages stages' : List (List Tree)} (hu : Matches name value u u')
    (h : List.Forall₂ (List.Forall₂ (Matches name value)) stages stages') :
    Follows (List.Forall₂ (Matches name value)) (idle env)
      (fun depth => stages'.mapM (foldOnto (fold depth) u'))
      (stages.mapM (foldOnto inner u) (idle env)) := by
  induction h with
  | nil => exact .pure .nil
  | cons first _ ih =>
    simp only [List.mapM_cons]
    apply (follows_foldOnto follow hu first).bind
    intro result result' related
    apply ih.bind
    intro results results' others
    exact .pure (.cons related others)

variable (denotes : Denotes env name value)

include denotes

/-- Executors that match follow each other, being cut into stages at the same places. -/
theorem follows_fanOut (hu : Matches name value u u')
    (h : List.Forall₂ (Matches name value) items items') :
    Follows (Matches name value) (idle env) (fun depth => fanOut (fold depth) items' u')
      (fanOut inner items u (idle env)) := by
  apply (follows_mapM follow hu (Tree.stages_matches denotes h)).bind
  intro results results' related
  exact .pure (.alike (.tuple related))

omit follow in
/-- Calls with arguments of one build give the same. -/
theorem follows_callBuiltin (function : String) (hu : Congruent (Matches name value) u u') :
    Follows (Matches name value) (idle env) (fun _ => callBuiltin function u')
      (callBuiltin function u (idle env)) := by
  unfold callBuiltin
  split
  · refine Follows.bind (R := fun c c' => c = idle env ∧ c' = idle env)
      (.ok ⟨rfl, rfl⟩ (.always _ _)) ?_
    rintro _ _ ⟨rfl, rfl⟩
    rw [Tree.arguments_eq denotes hu]
    cases Builtin.call function ((idle env).arguments u') with
    | none => exact .fail _ _ _
    | some result =>
      cases result with
      | ok d => exact .pure (.alike (.datum d))
      | error e => exact .fail _ _ _
  · exact .fail _ _ _

omit follow in
/-- Tuples that match are filled with items that match, or lack the same component. -/
theorem follows_fillTuple (connectedName : Option String)
    (h : List.Forall₂ (Matches name value) items items')
    (hu : Congruent (Matches name value) u u') :
    Follows (Matches name value) (idle env) (fun _ => fillTuple connectedName items' u')
      (fillTuple connectedName items u (idle env)) := by
  have components := Tree.components_matches hu
  unfold fillTuple
  rcases (Tree.substitute_matches denotes components h).cases with
    ⟨filled, filled', full, full', related⟩ | ⟨n, _, lacks, lacks', rfl⟩
  · rw [full, full']
    have extra := Tree.completion_matches denotes (Tree.arity connectedName) components h
      related.length_eq
    exact .pure (.alike (.tuple (List.rel_append related extra)))
  · rw [lacks, lacks']
    exact .fail _ _ _

omit follow denotes in
/-- A placeholder picks components that match, or lacks one in both. -/
theorem follows_foldPlaceholder (number : Nat) (hu : Congruent (Matches name value) u u') :
    Follows (Matches name value) (idle env) (fun _ => foldPlaceholder number u')
      (foldPlaceholder number u (idle env)) := by
  cases id hu with
  | placeholder => exact .fail _ _ _
  | @tuple _ items items' parts =>
    have picked : Option.Rel (Matches name value) ((componentIndex number).bind (items[·]?))
        ((componentIndex number).bind (items'[·]?)) := by
      cases componentIndex number with
      | none => exact .none
      | some i => exact getElem?_related parts i
    simp only [foldPlaceholder]
    rcases rel_cases picked with ⟨out, out'⟩ | ⟨v, v', picks, picks', related⟩
    · rw [out, out']
      exact .fail _ _ _
    · rw [picks, picks']
      exact .pure related
  | datum | name | executor | block =>
    simp only [foldPlaceholder]
    split
    · exact .pure (.alike hu)
    · exact .fail _ _ _

/-- The rules for the kinds of trees follow each other, for trees of one build. -/
theorem follows_foldValues (ht : Congruent (Matches name value) t t')
    (hu : Congruent (Matches name value) u u') :
    Follows (Matches name value) (idle env) (fun depth => foldValues (fold depth) t' u')
      (foldValues inner t u (idle env)) := by
  cases id hu with
  | block body => exact follows_foldOntoBlock follow (.alike ht) body
  | datum | name | tuple | executor | placeholder =>
    cases ht with
    | datum => exact .fail _ _ _
    | name text => exact follows_callBuiltin denotes text hu
    | tuple parts => exact follows_fillTuple denotes _ parts hu
    | executor parts => exact follows_fanOut follow denotes (.alike hu) parts
    | block body => exact follows_foldOnto follow (.alike hu) body
    | placeholder number => exact follows_foldPlaceholder number hu

end Inner

/-! ### The fold -/

section Fold

variable {depth : Nat} (denotes : Denotes env name value)
  (follow : FoldsFollow env name value (fold depth))

include denotes follow

/-- Neither tree is a name in one place and a value in the other. -/
theorem follows_of_congruent (ht : Congruent (Matches name value) t t')
    (hu : Congruent (Matches name value) u u') (other : ∀ text, u ≠ .name text) :
    Follows (Matches name value) (idle env) (fun depth => fold depth t' u')
      (fold (depth + 1) t u (idle env)) := by
  have other' := hu.not_name other
  have values : bound? t (idle env) = .ok none (idle env) →
      bound? t' (idle env) = .ok none (idle env) → Follows (Matches name value) (idle env)
        (fun depth => fold depth t' u') (fold (depth + 1) t u (idle env)) := by
    intro unbound unbound'
    rw [fold_of_unbound other ht.isAssignment_eq unbound]
    exact (follows_foldValues follow denotes ht hu).of_succ
      (fold_of_unbound other' ht.flip.isAssignment_eq unbound')
  cases ht with
  | name text =>
    cases found : env text with
    | none =>
      have unbound : bound? (.name text) (idle env) = .ok none (idle env) := by
        rw [← found]
        rfl
      exact values unbound unbound
    | some v =>
      rw [fold_of_bound other found]
      have self : Matches name value v v := .alike (Tree.congruent_self (denotes.unmarked found))
      exact (follow self (.alike hu)).of_succ (fold_of_bound other' found)
  | _ => exact values rfl rfl

/-- A name on the left is looked up first, which takes one more level of depth. -/
theorem follows_onto_congruent (ht : Matches name value t t')
    (hu : Congruent (Matches name value) u u') (other : ∀ text, u ≠ .name text) :
    Follows (Matches name value) (idle env) (fun depth => fold depth t' u')
      (fold (depth + 1) t u (idle env)) := by
  cases ht with
  | alike ht => exact follows_of_congruent denotes follow ht hu other
  | toValue =>
    rw [fold_of_bound other denotes.found]
    exact follow (.alike denotes.congruent) (.alike hu)
  | toName =>
    exact (follows_of_congruent denotes follow denotes.congruent hu other).of_succ
      (fold_of_bound (hu.not_name other) denotes.found)

/-- One more level of depth, of which one end is a name and the other its value. -/
theorem foldsFollow_succ : FoldsFollow env name value (fold (depth + 1)) := by
  intro t t' u u' ht hu
  have unmarked := ht.isAssignment_eq denotes
  have unmarked' := ht.symm.isAssignment_eq denotes
  cases hu with
  | toValue =>
    rw [fold_onto_bound unmarked denotes.found]
    exact follow ht (.alike denotes.congruent)
  | toName =>
    exact (follows_onto_congruent denotes follow ht denotes.congruent denotes.not_name).of_succ
      (fold_onto_bound unmarked' denotes.found)
  | alike hu =>
    cases id hu with
    | name text =>
      cases found : env text with
      | none =>
        rw [fold_onto_unbound unmarked found]
        exact (Follows.fail _ _ _).of_succ (fold_onto_unbound unmarked' found)
      | some v =>
        rw [fold_onto_bound unmarked found]
        have self : Matches name value v v := .alike (Tree.congruent_self (denotes.unmarked found))
        exact (follow ht self).of_succ (fold_onto_bound unmarked' found)
    | datum | tuple | executor | block | placeholder =>
      exact follows_onto_congruent denotes follow ht hu (by rintro _ ⟨⟩)

end Fold

/-- Folds follow, whatever the depth, where names may stand for values and values for names. -/
theorem foldsFollow (denotes : Denotes env name value) (depth : Nat) :
    FoldsFollow env name value (fold depth) := by
  induction depth with
  | zero => exact fun _ _ => .depthExceeded
  | succ depth ih => exact foldsFollow_succ denotes ih

/-- Sentences of trees that match are reduced to trees that match. -/
theorem follows_reduce (denotes : Denotes env name value) (depth : Nat)
    (h : List.Forall₂ (Matches name value) items items') :
    Follows (Option.Rel (Matches name value)) (idle env) (fun depth => reduce depth items')
      (reduce depth items (idle env)) := by
  unfold reduce
  rcases rel_cases (getLast?_related h) with ⟨empty, empty'⟩ | ⟨_, _, last, last', related⟩
  · rw [empty, empty']
    exact .pure .none
  · rw [last, last']
    apply (follows_foldOnto (foldsFollow denotes depth) related (dropLast_related h)).bind
    intro t t' result
    exact .pure (.some result)

end Rules

end Deep

/-! ### Words -/

/-- The words, in two stores, differ only in places where the one has the name and the other has
the value. -/
def Store.Interchangeable (name : String) (value : Tree) (s s' : Store) (w w' : Word) : Prop :=
  ∃ t t', s.Unfolds w t ∧ s'.Unfolds w' t' ∧ Tree.Interchangeable name value t t'

namespace Eval

/-- The reduction of a sentence comes to the outcome, and is not cut off. -/
def ReducesTo (s : Store) (words : Sentence) (r : EStateM.Result Failure Store (Option Word)) :
    Prop :=
  (∃ depth, reduce depth words s = r) ∧ ∀ t, r ≠ .error .depthExceeded t

/-- Outcomes of one sort: errors of the same kind, or interchangeable results, if any. -/
inductive Interchanged (name : String) (value : Tree) :
    EStateM.Result Failure Store (Option Word) → EStateM.Result Failure Store (Option Word) →
      Prop where
  | ok {result result' : Option Word} {t t' : Store} :
      Option.Rel (Store.Interchangeable name value t t') result result' →
      Interchanged name value (.ok result t) (.ok result' t')
  | error {e e' : EvalError} {t t' : Store} : e.kind = e'.kind →
      Interchanged name value (.error (.error e) t) (.error (.error e') t')

variable {s : Store} {name : String} {value : Tree} {words words' : Sentence}

/-- There is one outcome, since a greater depth changes nothing that is not cut off. -/
theorem ReducesTo.unique {r r' : EStateM.Result Failure Store (Option Word)}
    (h : ReducesTo s words r) (h' : ReducesTo s words r') : r = r' := by
  obtain ⟨⟨depth, rfl⟩, uncut⟩ := h
  obtain ⟨⟨depth', rfl⟩, uncut'⟩ := h'
  have deepens := fun depth => reduce_deepens depth words
  rw [← eq_of_deepens deepens uncut (Nat.le_max_left depth depth'),
    eq_of_deepens deepens uncut' (Nat.le_max_right depth depth')]

section Outcomes

variable {env : String → Option Tree} {items items' : List Tree}

/-- What a sentence of trees comes to, the words for it come to at some depth. -/
theorem exists_agrees_reduce {c : Scene} (same : s.Shows c)
    (unfolds : List.Forall₂ s.Unfolds words items)
    {r : EStateM.Result Scene.Failure Scene (Option Tree)}
    (h : Deep.Eventually (fun depth => Deep.reduce depth items) c r) :
    ∃ depth, Agrees (fun s => Option.Rel s.Unfolds) s (reduce depth words s) r := by
  obtain ⟨enough, eq⟩ := h
  refine ⟨enough, ?_⟩
  rw [← show Deep.reduce enough items c = r from eq enough (Nat.le_refl _)]
  exact agrees_reduce enough same unfolds

/-- What the one sentence comes to, the other comes to up to interchanged places. -/
theorem exists_interchanged (same : s.Shows (Deep.idle env))
    (denotes : Tree.Denotes env name value) (unfolds : List.Forall₂ s.Unfolds words items)
    (unfolds' : List.Forall₂ s.Unfolds words' items')
    (related : List.Forall₂ (Tree.Matches name value) items items')
    {r : EStateM.Result Failure Store (Option Word)} (h : ReducesTo s words r) :
    ∃ r', ReducesTo s words' r' ∧ Interchanged name value r r' := by
  obtain ⟨⟨depth, rfl⟩, uncut⟩ := h
  have agrees := agrees_reduce depth same unfolds
  have follows := Deep.follows_reduce denotes depth related
  generalize reduce depth words s = r at agrees uncut
  generalize Deep.reduce depth items (Deep.idle env) = d at agrees follows
  cases agrees with
  | depthExceeded => exact absurd rfl (uncut _)
  | ok _ _ left =>
    cases follows with
    | ok middle eventually =>
      obtain ⟨depth', agrees'⟩ := exists_agrees_reduce same unfolds' eventually
      generalize eq : reduce depth' words' s = r' at agrees'
      cases agrees' with
      | ok _ _ right =>
        refine ⟨_, ⟨⟨depth', eq⟩, by rintro _ ⟨⟩⟩, .ok ?_⟩
        cases middle with
        | none =>
          cases left
          cases right
          exact .none
        | some matched =>
          cases left with
          | some left =>
            cases right with
            | some right => exact .some ⟨_, _, left, right, matched.interchangeable⟩
  | error _ _ kind =>
    cases follows with
    | error eventually =>
      obtain ⟨depth', agrees'⟩ := exists_agrees_reduce same unfolds' eventually
      generalize eq : reduce depth' words' s = r' at agrees'
      cases agrees' with
      | error _ _ kind' =>
        exact ⟨_, ⟨⟨depth', eq⟩, by rintro _ ⟨⟩⟩, .error (kind.trans kind'.symm)⟩

end Outcomes

/-- In a reachable store a name is bound to a value. -/
theorem denotes_of_lookup {env : String → Option Tree} (sound : s.Sound)
    (same : s.Shows (Deep.idle env)) {b : Word} (found : s.lookup name = some b)
    (denoted : s.Unfolds b value) (apart : value.isConnected = false)
    (bound : ∀ {other w}, s.lookup other = some w → s.Unmarked w) :
    Tree.Denotes env name value where
  found := same.env_eq_some found denoted
  not_name := by
    rintro text rfl
    cases denoted with
    | name => exact (sound.resolved_of_lookup found).1 rfl
  not_placeholder := by
    rintro number rfl
    cases denoted with
    | placeholder => exact (sound.resolved_of_lookup found).2.1 rfl
  apart := apart
  unmarked := by
    intro other v leads
    obtain ⟨w, found, unfolds⟩ := same.exists_lookup leads
    exact bound found v unfolds

/-- Interchangeable words without markers stand for trees that match. -/
theorem matches_of_interchangeable
    (related : List.Forall₂ (Store.Interchangeable name value s s) words words')
    (unmarked : ∀ w ∈ words, s.Unmarked w) (unmarked' : ∀ w ∈ words', s.Unmarked w) :
    ∃ items items', List.Forall₂ s.Unfolds words items ∧ List.Forall₂ s.Unfolds words' items' ∧
      List.Forall₂ (Tree.Matches name value) items items' := by
  induction related with
  | nil => exact ⟨[], [], .nil, .nil, .nil⟩
  | cons first _ ih =>
    obtain ⟨t, t', unfolds, unfolds', interchangeable⟩ := first
    obtain ⟨clear, unmarked⟩ := List.forall_mem_cons.mp unmarked
    obtain ⟨clear', unmarked'⟩ := List.forall_mem_cons.mp unmarked'
    obtain ⟨items, items', all, all', matched⟩ := ih unmarked unmarked'
    have first := interchangeable.matches (clear t unfolds) (clear' t' unfolds')
    exact ⟨t :: items, t' :: items', .cons unfolds all, .cons unfolds' all', .cons first matched⟩

/-- A bound name can be used wherever its value can, if that is no connected tuple. Reductions of
sentences that differ in such places only terminate together; then both fail with errors of one
kind, or both come to results that differ in such places only. -/
theorem names_transparent (reachable : s.Reachable) (idle : s.pending = false) {b : Word}
    (found : s.lookup name = some b) (denoted : s.Unfolds b value)
    (apart : value.isConnected = false)
    (bound : ∀ {other w}, s.lookup other = some w → s.Unmarked w)
    (related : List.Forall₂ (Store.Interchangeable name value s s) words words')
    (unmarked : ∀ w ∈ words, s.Unmarked w) (unmarked' : ∀ w ∈ words', s.Unmarked w) :
    ((∃ r, ReducesTo s words r) ↔ ∃ r, ReducesTo s words' r) ∧
      ∀ r r', ReducesTo s words r → ReducesTo s words' r' → Interchanged name value r r' := by
  obtain ⟨⟨env, pending⟩, same⟩ := Store.Shows.of_wellFormed reachable.wellFormed
  obtain rfl : pending = false := same.pending.symm.trans idle
  have denotes := denotes_of_lookup reachable.sound same found denoted apart bound
  obtain ⟨items, items', unfolds, unfolds', matched⟩ :=
    matches_of_interchangeable related unmarked unmarked'
  have matched' : List.Forall₂ (Tree.Matches name value) items' items :=
    matched.flip.imp fun _ _ => Tree.Matches.symm
  refine ⟨⟨?_, ?_⟩, ?_⟩
  · rintro ⟨r, reduces⟩
    obtain ⟨r', reduces', -⟩ := exists_interchanged same denotes unfolds unfolds' matched reduces
    exact ⟨r', reduces'⟩
  · rintro ⟨r, reduces⟩
    obtain ⟨r', reduces', -⟩ := exists_interchanged same denotes unfolds' unfolds matched' reduces
    exact ⟨r', reduces'⟩
  · intro r r' reduces reduces'
    obtain ⟨r'', reduces'', interchanged⟩ :=
      exists_interchanged same denotes unfolds unfolds' matched reduces
    rwa [reduces'.unique reduces'']

/-- A name among the stages of an executor, and its value, a block, in the same place. -/
theorem names_transparent_stage : ∃ r r',
    ReducesTo (Source.parse ((Session.mk .empty).run 20 "f: {inc}").2.store
      "|f dec| 3\n|{inc} dec| 3").2 [.executor 0, .scalar .int 0] r ∧
    ReducesTo (Source.parse ((Session.mk .empty).run 20 "f: {inc}").2.store
      "|f dec| 3\n|{inc} dec| 3").2 [.executor 1, .scalar .int 1] r' ∧
    Interchanged "f" (.block [.name "inc"]) r r' := by
  have reachable := (Store.Reachable.empty.run 20 "f: {inc}").parse "|f dec| 3\n|{inc} dec| 3"
  have shape : (fun s : Store => s.bindings = [("f", .block 0)] ∧ s.pending = false ∧
      s.names = #["f", "inc", "f", "dec", "inc", "dec"] ∧
      s.executors = #[[.name 2, .name 3], [.block 1, .name 5]] ∧
      s.blocks = #[[.name 1], [.name 4]] ∧ (s.columns .int).scalars = #[3, 3] ∧
      ((reduce 20 [.executor 0, .scalar .int 0]).result? s).isSome = true ∧
      ((reduce 20 [.executor 1, .scalar .int 1]).result? s).isSome = true)
      (Source.parse ((Session.mk .empty).run 20 "f: {inc}").2.store
        "|f dec| 3\n|{inc} dec| 3").2 := by
    decide +kernel
  revert reachable shape
  generalize (Source.parse ((Session.mk .empty).run 20 "f: {inc}").2.store
    "|f dec| 3\n|{inc} dec| 3").2 = s
  rintro reachable ⟨bindings, idle, names, executors, blocks, ints, reduces, reduces'⟩
  have comes : ∀ {words}, ((reduce 20 words).result? s).isSome = true →
      ReducesTo s words (reduce 20 words s) := by
    intro words ok
    refine ⟨⟨20, rfl⟩, ?_⟩
    intro t cut
    rw [result?, cut] at ok
    cases ok
  have value : s.Unfolds (.block 0) (.block [.name "inc"]) :=
    .block (by rw [blocks]; rfl) (.cons (.name (by rw [names]; rfl)) .nil)
  have literal : s.Unfolds (.block 1) (.block [.name "inc"]) :=
    .block (by rw [blocks]; rfl) (.cons (.name (by rw [names]; rfl)) .nil)
  have withName : s.Unfolds (.executor 0) (.executor [.name "f", .name "dec"]) :=
    .executor (by rw [executors]; rfl)
      (.cons (.name (by rw [names]; rfl)) (.cons (.name (by rw [names]; rfl)) .nil))
  have withValue : s.Unfolds (.executor 1) (.executor [.block [.name "inc"], .name "dec"]) :=
    .executor (by rw [executors]; rfl) (.cons literal (.cons (.name (by rw [names]; rfl)) .nil))
  have three : s.Unfolds (.scalar .int 0) (.datum (.scalar .int 3)) :=
    .scalar (by rw [ints]; rfl)
  have three' : s.Unfolds (.scalar .int 1) (.datum (.scalar .int 3)) :=
    .scalar (by rw [ints]; rfl)
  have found : s.lookup "f" = some (.block 0) := by
    simp [Store.lookup, bindings, Bindings.lookup]
  have bound : ∀ {other w}, s.lookup other = some w → s.Unmarked w := by
    intro other w found t unfolds
    have same : w = .block 0 := by
      simp only [Store.lookup, bindings, Bindings.lookup] at found
      split at found <;> simp_all
    obtain rfl := unfolds.unique (same ▸ value)
    simp
  have related : List.Forall₂ (Store.Interchangeable "f" (.block [.name "inc"]) s s)
      [.executor 0, .scalar .int 0] [.executor 1, .scalar .int 1] :=
    .cons ⟨_, _, withName, withValue, .alike (.executor (.cons .toValue (.cons (.refl _) .nil)))⟩
      (.cons ⟨_, _, three, three', .refl _⟩ .nil)
  have unmarked : ∀ {w t}, s.Unfolds w t → ¬ Tree.Inside .assignment t → s.Unmarked w := by
    intro w t unfolds clear u unfolds'
    rwa [unfolds'.unique unfolds]
  refine ⟨_, _, comes reduces, comes reduces', (names_transparent reachable idle found value rfl
    bound related ?_ ?_).2 _ _ (comes reduces) (comes reduces')⟩
  · exact List.forall_mem_cons.mpr ⟨unmarked withName (by simp),
      List.forall_mem_singleton.mpr (unmarked three (by simp))⟩
  · exact List.forall_mem_cons.mpr ⟨unmarked withValue (by simp),
      List.forall_mem_singleton.mpr (unmarked three' (by simp))⟩

end Eval

end Tacit
