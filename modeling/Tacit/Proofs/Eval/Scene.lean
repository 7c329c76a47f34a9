import Tacit.Proofs.Eval.Deep
import Tacit.Proofs.Eval.Filling

/-!
What evaluation reads of words, it could as well read of their deep values: the components of a
tuple, the arguments of a call, the words that fill a tuple and the stages of an executor.

* `Shows`: a store and a scene with the same bindings, up to deep values.
* `arguments_eq_ok`, `substitute_related`, `completion_related`, `stages_eq_ok`: reading never fails
  on words that have deep values, and gives what reading of the trees gives.
-/

namespace Tacit

/-- The scene that a well-formed store shows when it is read deep. -/
structure Store.Shows (s : Store) (c : Scene) : Prop where
  wellFormed : s.WellFormed
  env : ∀ name, Option.Rel s.Unfolds (s.lookup name) (c.env name)
  pending : s.pending = c.pending

namespace Store.Shows

variable {s s' : Store} {c : Scene}

/-- A name is taken in a store if it is in the scene. -/
theorem isTaken_eq (same : s.Shows c) (name : String) : s.isTaken name = c.isTaken name := by
  rw [Store.isTaken, Scene.isTaken, Store.isBound, isSome_eq_of_rel (same.env name)]

theorem exists_lookup (same : s.Shows c) {name : String} {t : Tree} (found : c.env name = some t) :
    ∃ w, s.lookup name = some w ∧ s.Unfolds w t := by
  rcases rel_cases (same.env name) with ⟨-, free⟩ | ⟨w, u, bound, bound', unfolds⟩
  · cases free.symm.trans found
  · cases bound'.symm.trans found
    exact ⟨w, bound, unfolds⟩

theorem env_eq_some (same : s.Shows c) {name : String} {w : Word} {t : Tree}
    (found : s.lookup name = some w) (unfolds : s.Unfolds w t) : c.env name = some t := by
  rcases rel_cases (same.env name) with ⟨free, -⟩ | ⟨v, u, bound, bound', unfolds'⟩
  · cases free.symm.trans found
  · cases bound.symm.trans found
    rw [bound', unfolds.unique unfolds']

/-- Making words does not change what a store shows. -/
theorem create (same : s.Shows c) {v : Value} {t : Tree} (unfolds : s.UnfoldsValue v t) :
    (s.create v).2.Shows c where
  wellFormed := same.wellFormed.create_of_unfolds unfolds
  env := by
    intro name
    rw [Store.lookup, Store.bindings_create, ← Store.lookup]
    exact rel_imp (fun _ _ => Store.Unfolds.mono (Store.growsTo_create s v)) (same.env name)
  pending := by rw [Store.pending_create, same.pending]

theorem setPending (same : s.Shows c) (p : Bool) :
    Store.Shows { s with pending := p } { c with pending := p } where
  wellFormed := same.wellFormed.setPending p
  env := fun name =>
    rel_imp (fun _ _ => Store.Unfolds.mono (Store.growsTo_setPending s p)) (same.env name)
  pending := rfl

/-- A new binding shows as the tree of its word. -/
theorem bind (same : s.Shows c) {name : String} (free : s.isBound name = false) {w : Word}
    {t : Tree} (unfolds : s.Unfolds w t) : (s.bind name w).Shows (c.bind name t) where
  wellFormed := same.wellFormed.bind unfolds.valid name
  env := by
    intro other
    have grows := Store.growsTo_bind free w
    rw [Store.lookup_bind, Scene.bind]
    by_cases eq : other = name
    · simp only [if_pos eq]
      exact .some (unfolds.mono grows)
    · simp only [if_neg eq]
      exact rel_imp (fun _ _ => Store.Unfolds.mono grows) (same.env other)
  pending := same.pending

/-- Each well-formed store shows some scene. -/
theorem of_wellFormed (h : s.WellFormed) : ∃ c, s.Shows c := by
  have value : ∀ name, ∃ t : Option Tree, Option.Rel s.Unfolds (s.lookup name) t := by
    intro name
    cases found : s.lookup name with
    | none => exact ⟨none, .none⟩
    | some w =>
      obtain ⟨t, unfolds⟩ := h.exists_unfolds (Store.valid_of_lookup h found)
      exact ⟨some t, .some unfolds⟩
  choose env related using value
  exact ⟨⟨env, s.pending⟩, h, related, rfl⟩

/-- Words can be made for any data. -/
theorem exists_data (same : s.Shows c) (ds : List Datum) : ∃ s' words,
    s.GrowsTo s' ∧ s'.Shows c ∧ List.Forall₂ s'.Unfolds words (ds.map .datum) := by
  induction ds generalizing s with
  | nil => exact ⟨s, [], .refl s, same, .nil⟩
  | cons d rest ih =>
    have first : s.UnfoldsValue (.datum d) (.datum d) := .datum
    obtain ⟨s', words, grows, same', later⟩ := ih (same.create first)
    exact ⟨s', _ :: words, (Store.growsTo_create s _).trans grows, same',
      .cons (first.create.mono grows) later⟩

end Store.Shows

namespace Eval

variable {s : Store} {c : Scene} {w : Word} {t : Tree}

/-! ### Arguments -/

/-- The components of a word stand for those of its tree. -/
theorem components_eq_ok (hw : s.Unfolds w t) :
    ∃ words, s.components w = .ok words ∧ List.Forall₂ s.Unfolds words t.components := by
  cases id hw with
  | tuple found _ parts =>
    refine ⟨_, ?_, parts⟩
    rw [Store.components, Store.tuple_eq_ok found]
    rfl
  | _ => exact ⟨_, rfl, .cons hw .nil⟩

theorem argument_eq_ok (hw : s.Unfolds w t) : s.argument w = .ok t.argument := by
  cases hw with
  | scalar found =>
    rw [Store.argument, Store.scalar_eq_ok found]
    rfl
  | array found =>
    rw [Store.argument, Store.array_eq_ok found]
    rfl
  | name found =>
    rw [Store.argument, Store.name_eq_ok found]
    rfl
  | _ => rfl

/-- Substituting names for a word can be done on its tree. -/
theorem substitute_eq_ok (same : s.Shows c) (hw : s.Unfolds w t) :
    ∃ v, s.substitute w = .ok v ∧ s.Unfolds v (c.substitute t) := by
  cases id hw with
  | @name slot text found =>
    refine ⟨(s.lookup text).getD (.name slot), ?_, ?_⟩
    · rw [Store.substitute, Store.name_eq_ok found]
      rfl
    · rw [Scene.substitute]
      rcases rel_cases (same.env text) with ⟨free, free'⟩ | ⟨v, u, bound, bound', unfolds⟩
      · rw [free, free']
        exact hw
      · rw [bound, bound']
        exact unfolds
  | _ => exact ⟨_, rfl, hw⟩

/-- What a call sees of its arguments can be told from the tree. -/
theorem arguments_eq_ok (same : s.Shows c) (hw : s.Unfolds w t) :
    s.arguments w = .ok (c.arguments t) := by
  obtain ⟨words, eq, parts⟩ := components_eq_ok hw
  rw [Store.arguments, eq]
  refine mapM_eq_ok parts fun v u unfolds => ?_
  obtain ⟨v', substituted, unfolds'⟩ := substitute_eq_ok same unfolds
  rw [substituted]
  exact argument_eq_ok unfolds'

/-! ### Filling -/

/-- Words and trees are filled together, or lack a component for the same placeholder. -/
theorem substitute_related {components words : List Word} {trees items : List Tree}
    (hc : List.Forall₂ s.Unfolds components trees) (h : List.Forall₂ s.Unfolds words items) :
    OutcomeRel (fun w n => w = .placeholder n) (List.Forall₂ s.Unfolds)
      (Filling.substitute components words) (Tree.substitute trees items) := by
  induction h with
  | nil => exact .ok .nil
  | cons first _ ih =>
    cases id first with
    | @placeholder n =>
      cases n with
      | zero => exact ih.map fun _ _ rest => List.rel_append hc rest
      | succ n =>
        rw [Filling.substitute, Tree.substitute]
        rcases rel_cases (getElem?_related hc n) with ⟨out, out'⟩ | ⟨v, u, found, found', unfolds⟩
        · rw [out, out']
          exact .error rfl
        · rw [found, found']
          exact ih.map fun _ _ => .cons unfolds
    | _ => exact ih.map fun _ _ => .cons first

theorem picks_eq (h : s.Unfolds w t) (i : Nat) : Filling.picks i w = Tree.picks i t := by
  cases h <;> rfl

/-- Words pick the components that their trees pick. -/
theorem any_picks_eq {words : List Word} {items : List Tree}
    (h : List.Forall₂ s.Unfolds words items) (i : Nat) :
    words.any (Filling.picks i) = items.any (Tree.picks i) := by
  induction h with
  | nil => rfl
  | cons first _ ih => rw [List.any_cons, List.any_cons, picks_eq first, ih]

/-- A tuple is completed by words for the trees that complete its tree. -/
theorem completion_related {components words filled : List Word} {trees items filled' : List Tree}
    (arity : Nat) (hc : List.Forall₂ s.Unfolds components trees)
    (h : List.Forall₂ s.Unfolds words items) (hf : filled.length = filled'.length) :
    List.Forall₂ s.Unfolds (Filling.completion arity components words filled)
      (Tree.completion arity trees items filled') := by
  rw [Filling.completion, Filling.unused, Tree.completion, hf]
  simp only [any_picks_eq h]
  exact List.forall₂_take _ (filter_zipIdx_related hc (fun i => !items.any (Tree.picks i)) 0)

/-- The arity of a tuple is that of the name that its tree is connected to. -/
theorem arity_eq_ok {tuple : Tuple} {connectedName : Option String}
    (h : Option.Rel (fun slot text => s.names[slot]? = some text) tuple.connectedName
      connectedName) : arity tuple s = .ok (Tree.arity connectedName) s := by
  rw [arity]
  rcases rel_cases h with ⟨free, rfl⟩ | ⟨slot, name, connected, rfl, found⟩
  · rw [free]
    rfl
  · simp only [connected, bind, EStateM.bind, ask, Store.name_eq_ok found]
    rfl

theorem isAssignment_eq (h : s.Unfolds w t) : t.isAssignment = decide (w = .assignment) := by
  cases h <;> rfl

/-! ### Stages -/

/-- A word is connected if its tree is. -/
theorem isConnected_eq_ok (h : s.Unfolds w t) : s.isConnected w = .ok t.isConnected := by
  cases h with
  | @tuple i tuple connectedName items found connected parts =>
    rw [Store.isConnected, Store.tuple_eq_ok found]
    have same := isSome_eq_of_rel connected
    change Except.ok tuple.isConnected = _
    rw [Tuple.isConnected, same]
    cases connectedName <;> rfl
  | _ => rfl

/-- Words are cut into stages where their trees are. -/
theorem stages_eq_ok {words : List Word} {items : List Tree}
    (h : List.Forall₂ s.Unfolds words items) :
    ∃ stages, s.stages words = .ok stages ∧
      List.Forall₂ (List.Forall₂ s.Unfolds) stages (Tree.stages items) := by
  induction h with
  | nil => exact ⟨[], rfl, .nil⟩
  | @cons w t words items first rest ih =>
    obtain ⟨stages, eq, related⟩ := ih
    have connected : words.head?.elim (.ok false) s.isConnected =
        .ok (items.head?.elim false Tree.isConnected) := by
      cases rest with
      | nil => rfl
      | cons next _ => exact isConnected_eq_ok next
    rw [Store.stages, connected, eq, Tree.stages]
    generalize Tree.stages items = trees at related
    cases related with
    | nil => exact ⟨_, rfl, .cons (.cons first .nil) .nil⟩
    | cons stage later =>
      cases items.head?.elim false Tree.isConnected with
      | false => exact ⟨_, rfl, .cons (.cons first .nil) (.cons stage later)⟩
      | true => exact ⟨_, rfl, .cons (.cons first stage) later⟩

end Eval

end Tacit
