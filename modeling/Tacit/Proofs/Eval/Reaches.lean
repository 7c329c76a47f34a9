import Tacit.Proofs.Eval.Stages

/-!
What evaluations come to, whatever the depth. Evaluations that deepen have at most one outcome that
is not cut off. A sequence is told by the outcomes of its parts, so evaluations can be put together
and compared without counting the folds inside each other.

* `reaches_bind`, `reaches_bind_congr`: sequences, by the outcome of their first part.
* `reaches_of_succ`: evaluations that differ by one level of depth.
* `reducesTo_cases`, `reducesTo_concat_congr`: sentences, by what their words are folded to.
-/

namespace Tacit

namespace Eval

section Reaches

variable {α β : Type}

/-- The evaluation comes to the outcome when the depth is great enough. -/
def Reaches (m : Nat → Eval α) (s : Store) (r : EStateM.Result Failure Store α) : Prop :=
  (∃ depth, m depth s = r) ∧ ∀ t, r ≠ .error .depthExceeded t

/-- A greater depth changes nothing that is not cut off. -/
def Deepening (m : Nat → Eval α) : Prop := ∀ depth, Deepens (m depth) (m (depth + 1))

/-- Evaluation goes on with a result, and ends with an error. -/
def Continues (next : α → Store → EStateM.Result Failure Store β → Prop) :
    EStateM.Result Failure Store α → EStateM.Result Failure Store β → Prop
  | .ok a t, r => next a t r
  | .error e t, r => r = .error e t

variable {m m' : Nat → Eval α} {f f' : α → Nat → Eval β} {s s' : Store}

theorem deepening_const (m : Eval α) : Deepening fun _ => m := fun _ => .refl m

/-- There is one outcome with enough depth, since a greater depth changes nothing. -/
theorem Reaches.unique (hm : Deepening m) {r r' : EStateM.Result Failure Store α}
    (h : Reaches m s r) (h' : Reaches m s r') : r = r' := by
  obtain ⟨⟨depth, rfl⟩, uncut⟩ := h
  obtain ⟨⟨depth', rfl⟩, uncut'⟩ := h'
  rw [← eq_of_deepens hm uncut (Nat.le_max_left depth depth'),
    eq_of_deepens hm uncut' (Nat.le_max_right depth depth')]

/-- What needs no depth has the one outcome. -/
theorem reaches_const {m : Eval α} {r r' : EStateM.Result Failure Store α} (eq : m s = r')
    (uncut : ∀ t, r' ≠ .error .depthExceeded t) : Reaches (fun _ => m) s r ↔ r = r' := by
  constructor
  · rintro ⟨⟨_, rfl⟩, -⟩
    exact eq
  · rintro rfl
    exact ⟨⟨0, eq⟩, uncut⟩

/-- An evaluation that does, one level deeper, what another does. -/
theorem reaches_of_succ (hm : Deepening m) (eq : ∀ depth, m (depth + 1) s = m' depth s')
    (r : EStateM.Result Failure Store α) : Reaches m s r ↔ Reaches m' s' r := by
  constructor
  · rintro ⟨⟨depth, rfl⟩, uncut⟩
    refine ⟨⟨depth, ?_⟩, uncut⟩
    rw [← eq, eq_of_deepens hm uncut (Nat.le_succ depth)]
  · rintro ⟨⟨depth, rfl⟩, uncut⟩
    exact ⟨⟨depth + 1, eq depth⟩, uncut⟩

/-- A sequence that ends has a first part that ends, and goes on with its outcome. -/
theorem exists_reaches_of_bind {r : EStateM.Result Failure Store β}
    (h : Reaches (fun depth => m depth >>= fun a => f a depth) s r) :
    ∃ o, Reaches m s o ∧ Continues (fun a => Reaches (f a)) o r := by
  obtain ⟨⟨depth, eq⟩, uncut⟩ := h
  cases first : m depth s with
  | ok a t =>
    exact ⟨_, ⟨⟨depth, first⟩, by rintro _ ⟨⟩⟩, ⟨depth, (bind_of_ok first).symm.trans eq⟩, uncut⟩
  | error e t =>
    obtain rfl : .error e t = r := (bind_of_error first).symm.trans eq
    refine ⟨_, ⟨⟨depth, first⟩, ?_⟩, rfl⟩
    rintro _ ⟨⟩
    exact uncut t rfl

theorem reaches_bind_of_continues (hm : Deepening m) (hf : ∀ a, Deepening (f a))
    {o : EStateM.Result Failure Store α} {r : EStateM.Result Failure Store β}
    (first : Reaches m s o) (next : Continues (fun a => Reaches (f a)) o r) :
    Reaches (fun depth => m depth >>= fun a => f a depth) s r := by
  obtain ⟨⟨depth, eq⟩, uncut⟩ := first
  cases o with
  | error e t =>
    obtain rfl : r = .error e t := next
    refine ⟨⟨depth, bind_of_error eq⟩, ?_⟩
    rintro t' ⟨⟩
    exact uncut t rfl
  | ok a t =>
    obtain ⟨⟨depth', eq'⟩, uncut'⟩ := next
    have first := eq_of_deepens hm (by rw [eq]; exact uncut) (Nat.le_max_left depth depth')
    have later := eq_of_deepens (hf a) (by rw [eq']; exact uncut') (Nat.le_max_right depth depth')
    exact ⟨⟨max depth depth', (bind_of_ok (first.trans eq)).trans (later.trans eq')⟩, uncut'⟩

/-- A sequence reaches what its second part reaches from the outcome of the first one. -/
theorem reaches_bind (hm : Deepening m) (hf : ∀ a, Deepening (f a))
    {o : EStateM.Result Failure Store α} (first : Reaches m s o)
    (r : EStateM.Result Failure Store β) :
    Reaches (fun depth => m depth >>= fun a => f a depth) s r ↔
      Continues (fun a => Reaches (f a)) o r := by
  constructor
  · intro h
    obtain ⟨o', first', next⟩ := exists_reaches_of_bind h
    rwa [first.unique hm first']
  · exact reaches_bind_of_continues hm hf first

/-- Sequences come to the same if their first parts do, and go on from each result to the same. -/
theorem reaches_bind_congr (hm : Deepening m) (hm' : Deepening m') (hf : ∀ a, Deepening (f a))
    (hf' : ∀ a, Deepening (f' a)) (first : ∀ o, Reaches m s o ↔ Reaches m' s' o)
    (next : ∀ a t, Reaches m s (.ok a t) → ∀ r, Reaches (f a) t r ↔ Reaches (f' a) t r)
    (r : EStateM.Result Failure Store β) :
    Reaches (fun depth => m depth >>= fun a => f a depth) s r ↔
      Reaches (fun depth => m' depth >>= fun a => f' a depth) s' r := by
  constructor
  · intro h
    obtain ⟨o, ends, continues⟩ := exists_reaches_of_bind h
    apply reaches_bind_of_continues hm' hf' ((first o).mp ends)
    cases o with
    | ok a t => exact (next a t ends r).mp continues
    | error e t => exact continues
  · intro h
    obtain ⟨o, ends, continues⟩ := exists_reaches_of_bind h
    apply reaches_bind_of_continues hm hf ((first o).mpr ends)
    cases o with
    | ok a t => exact (next a t ((first _).mpr ends) r).mpr continues
    | error e t => exact continues

end Reaches

/-! ### Folds and sentences -/

/-- Folding the one word onto the other comes to the outcome, and is not cut off. -/
abbrev FoldsTo (s : Store) (left right : Word) : EStateM.Result Failure Store Word → Prop :=
  Reaches (fun depth => fold depth left right) s

/-- Folding the words onto a seed, the last one first, comes to the outcome. -/
abbrev FoldsOntoTo (s : Store) (seed : Word) (words : List Word) :
    EStateM.Result Failure Store Word → Prop :=
  Reaches (fun depth => foldOnto (fold depth) seed words) s

variable {s t : Store} {left right seed v : Word} {words : List Word}

/-- A greater depth changes no fold that is not cut off. -/
theorem deepening_fold (left right : Word) : Deepening fun depth => fold depth left right :=
  fun depth => fold_deepens depth left right

/-- The same holds of words that are folded one after the other. -/
theorem deepening_foldOnto (seed : Word) (words : List Word) :
    Deepening fun depth => foldOnto (fold depth) seed words :=
  fun depth => deepens_congruence.foldOnto (fold_deepens depth) seed words

/-- Words are folded from right to left, so the later ones first. -/
theorem foldOnto_append (fold : Folding) (seed : Word) (words words' : List Word) :
    foldOnto fold seed (words ++ words') =
      foldOnto fold seed words' >>= fun w => foldOnto fold w words :=
  List.foldrM_append

theorem foldOnto_singleton (fold : Folding) (seed w : Word) :
    foldOnto fold seed [w] = fold w seed := by
  rw [foldOnto, List.foldrM_cons, List.foldrM_nil, pure_bind]

theorem foldsOntoTo_append_eq (s : Store) (seed : Word) (words words' : List Word) :
    FoldsOntoTo s seed (words ++ words') = Reaches (fun depth =>
      foldOnto (fold depth) seed words' >>= fun w => foldOnto (fold depth) w words) s :=
  congrArg (Reaches · s) (funext fun depth => foldOnto_append (fold depth) seed words words')

theorem foldsOntoTo_singleton_eq (s : Store) (seed w : Word) :
    FoldsOntoTo s seed [w] = FoldsTo s w seed :=
  congrArg (Reaches · s) (funext fun depth => foldOnto_singleton (fold depth) seed w)

/-- The last word is folded first, and the others onto what it comes to. -/
theorem foldsOntoTo_concat_eq (s : Store) (seed w : Word) (words : List Word) :
    FoldsOntoTo s seed (words ++ [w]) = Reaches (fun depth =>
      fold depth w seed >>= fun u => foldOnto (fold depth) u words) s := by
  rw [foldsOntoTo_append_eq]
  simp only [foldOnto_singleton]

/-- Words that are folded onto what the same words come to, from the same seed or another. -/
theorem foldsOntoTo_append_congr {seed seed' : Word} {words words' later later' : List Word}
    (first : ∀ o, FoldsOntoTo s seed later o ↔ FoldsOntoTo s seed' later' o)
    (next : ∀ w t, FoldsOntoTo s seed later (.ok w t) →
      ∀ r, FoldsOntoTo t w words r ↔ FoldsOntoTo t w words' r)
    (r : EStateM.Result Failure Store Word) :
    FoldsOntoTo s seed (words ++ later) r ↔ FoldsOntoTo s seed' (words' ++ later') r := by
  rw [foldsOntoTo_append_eq, foldsOntoTo_append_eq]
  exact reaches_bind_congr (deepening_foldOnto seed later) (deepening_foldOnto seed' later')
    (fun w => deepening_foldOnto w words) (fun w => deepening_foldOnto w words') first next r

theorem reduce_concat (depth : Nat) (words : List Word) (last : Word) :
    reduce depth (words ++ [last]) =
      foldOnto (fold depth) last words >>= fun w => pure (some w) := by
  rw [reduce, List.getLast?_concat, List.dropLast_concat]

/-- A sentence is reduced by folding its words onto the last one. -/
theorem reducesTo_concat_eq (s : Store) (words : List Word) (last : Word) :
    ReducesTo s (words ++ [last]) =
      Reaches (fun depth => foldOnto (fold depth) last words >>= fun w => pure (some w)) s :=
  congrArg (Reaches · s) (funext fun depth => reduce_concat depth words last)

/-- Sentences come to the same if their words are folded to the same. -/
theorem reducesTo_concat_congr {last last' : Word} {words words' : List Word}
    (h : ∀ o, FoldsOntoTo s last words o ↔ FoldsOntoTo s last' words' o)
    (r : EStateM.Result Failure Store (Option Word)) :
    ReducesTo s (words ++ [last]) r ↔ ReducesTo s (words' ++ [last']) r := by
  rw [reducesTo_concat_eq, reducesTo_concat_eq]
  exact reaches_bind_congr (deepening_foldOnto last words) (deepening_foldOnto last' words')
    (fun w => deepening_const (pure (some w))) (fun w => deepening_const (pure (some w))) h
    (fun _ _ _ _ => Iff.rfl) r

/-- What a sentence comes to is what its words are folded to, unless it is empty. -/
theorem reducesTo_cases {r : EStateM.Result Failure Store (Option Word)} (h : ReducesTo s words r) :
    (words = [] ∧ r = .ok none s) ∨ ∃ init last o, words = init ++ [last] ∧
      FoldsOntoTo s last init o ∧ Continues (fun w t r => r = .ok (some w) t) o r := by
  rcases List.eq_nil_or_concat words with rfl | ⟨init, last, rfl⟩
  · obtain ⟨⟨depth, rfl⟩, -⟩ := h
    exact .inl ⟨rfl, rfl⟩
  · rw [List.concat_eq_append] at h ⊢
    rw [reducesTo_concat_eq] at h
    obtain ⟨o, ends, next⟩ := exists_reaches_of_bind h
    refine .inr ⟨init, last, o, rfl, ends, ?_⟩
    cases o with
    | ok w t => exact (reaches_const rfl (by rintro _ ⟨⟩)).mp next
    | error e t => exact next

/-- A sentence with a result has a last word, and the others are folded onto it. -/
theorem exists_foldsOntoTo_ok (h : ReducesTo s words (.ok (some v) t)) :
    ∃ init last, words = init ++ [last] ∧ FoldsOntoTo s last init (.ok v t) := by
  rcases reducesTo_cases h with ⟨-, eq⟩ | ⟨init, last, o, rfl, ends, eq⟩
  · cases eq
  · cases o with
    | ok w t' =>
      cases eq
      exact ⟨init, last, rfl, ends⟩
    | error e t' => cases eq

/-- A sentence that fails has a last word, since one without words succeeds. -/
theorem exists_foldsOntoTo_error {e : Failure} (h : ReducesTo s words (.error e t)) :
    ∃ init last, words = init ++ [last] ∧ FoldsOntoTo s last init (.error e t) := by
  rcases reducesTo_cases h with ⟨-, eq⟩ | ⟨init, last, o, rfl, ends, eq⟩
  · cases eq
  · cases o with
    | ok w t' => cases eq
    | error e' t' =>
      cases eq
      exact ⟨init, last, rfl, ends⟩

/-- What the words come to, folded onto the last one, is what the sentence is reduced to. -/
theorem reducesTo_of_foldsOntoTo {last : Word} {o : EStateM.Result Failure Store Word}
    {r : EStateM.Result Failure Store (Option Word)} (h : FoldsOntoTo s last words o)
    (next : Continues (fun w t r => r = .ok (some w) t) o r) : ReducesTo s (words ++ [last]) r := by
  rw [reducesTo_concat_eq]
  refine reaches_bind_of_continues (deepening_foldOnto last words)
    (fun w => deepening_const (pure (some w))) h ?_
  cases o with
  | ok w t => exact (reaches_const rfl (by rintro _ ⟨⟩)).mpr next
  | error e t => exact next

end Eval

end Tacit
