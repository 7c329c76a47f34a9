import Tacit.Eval.Fold
import Tacit.Proofs.Store.Growth

/-!
Words in stages, as a source arranges them: a connected tuple comes right after the very name that
it is connected to, and any other word is a stage of its own.

* `stages_of_isStage`: words that are made of such stages are cut into just these stages.
* `Arranged.push`, `Arranged.push_connected`: words are arranged one after the other.
* `WellStaged.create`: a store keeps its executors arranged if each new one is.
-/

namespace Tacit

namespace Store

/-- A stage as it is written: a word that is no connected tuple, or a name and the tuple that is
connected to its slot. -/
inductive IsStage (s : Store) : List Word → Prop where
  | single {w : Word} (plain : s.isConnected w = .ok false) : IsStage s [w]
  | connected {slot i : Nat} {words : List Word}
      (found : s.tuples[i]? = some ⟨words, some slot⟩) : IsStage s [.name slot, .tuple i]

/-- The words are made of stages. -/
def Arranged (s : Store) (words : List Word) : Prop :=
  ∃ stages : List (List Word), stages.flatten = words ∧ ∀ stage ∈ stages, s.IsStage stage

/-- The words that an executor has where it is written: stages, and no executor among them. -/
structure Staged (s : Store) (words : List Word) : Prop where
  arranged : s.Arranged words
  flat : ∀ w ∈ words, w.kind ≠ .executor

/-- All executors have words as they are written. -/
def WellStaged (s : Store) : Prop :=
  ∀ (i : Nat) (words : List Word), s.executors[i]? = some words → s.Staged words

variable {s s' : Store} {w : Word} {words : List Word}

/-! ### Connected tuples -/

/-- A tuple is connected as its entry in the store says. -/
theorem isConnected_tuple {i : Nat} {t : Tuple} (found : s.tuples[i]? = some t) :
    s.isConnected (.tuple i) = .ok t.isConnected := by
  rw [isConnected, tuple_eq_ok found]
  rfl

/-- Only tuples are connected. -/
theorem isConnected_of_kind_ne (other : w.kind ≠ .tuple) : s.isConnected w = .ok false := by
  cases w with
  | tuple => exact absurd rfl other
  | _ => rfl

section Mono

variable (kept : ∀ {i : Nat} {t : Tuple}, s.tuples[i]? = some t → s'.tuples[i]? = some t)

include kept

/-- Whether a word is connected does not change while tuples are kept. -/
theorem isConnected_mono {connected : Bool} (h : s.isConnected w = .ok connected) :
    s'.isConnected w = .ok connected := by
  cases w with
  | tuple i =>
    cases found : s.tuples[i]? with
    | none =>
      rw [isConnected, tuple, found] at h
      cases h
    | some t =>
      rw [isConnected_tuple found] at h
      rw [isConnected_tuple (kept found), h]
  | _ => exact h

theorem IsStage.mono (h : s.IsStage words) : s'.IsStage words := by
  cases h with
  | single plain => exact .single (isConnected_mono kept plain)
  | connected found => exact .connected (kept found)

theorem Arranged.mono (h : s.Arranged words) : s'.Arranged words := by
  obtain ⟨stages, flat, each⟩ := h
  exact ⟨stages, flat, fun stage mem => (each stage mem).mono kept⟩

theorem Staged.mono (h : s.Staged words) : s'.Staged words :=
  ⟨h.arranged.mono kept, h.flat⟩

/-- Executors stay arranged where no tuple is lost and no executor comes. -/
theorem WellStaged.mono (same : s'.executors = s.executors) (h : s.WellStaged) :
    s'.WellStaged := by
  intro i words found
  rw [same] at found
  exact (h i words found).mono kept

end Mono

/-! ### Cutting into stages -/

/-- A word that the next one is not connected to is a stage of its own. -/
theorem stages_cons {stages : List (List Word)}
    (next : words.head?.elim (.ok false) s.isConnected = .ok false)
    (rest : s.stages words = .ok stages) : s.stages (w :: words) = .ok ([w] :: stages) := by
  rw [Store.stages, next, rest]
  cases stages <;> rfl

/-- No stage begins with a connected tuple. -/
theorem head?_flatten_of_isStage {stages : List (List Word)}
    (each : ∀ stage ∈ stages, s.IsStage stage) :
    stages.flatten.head?.elim (.ok false) s.isConnected = .ok false := by
  cases stages with
  | nil => rfl
  | cons stage later =>
    cases each stage (.head _) with
    | single plain => exact plain
    | connected => rfl

/-- What is put together from stages is cut into the same stages. -/
theorem stages_of_isStage {stages : List (List Word)}
    (each : ∀ stage ∈ stages, s.IsStage stage) : s.stages stages.flatten = .ok stages := by
  induction stages with
  | nil => rfl
  | cons stage later ih =>
    obtain ⟨first, others⟩ := List.forall_mem_cons.mp each
    have next := head?_flatten_of_isStage others
    have rest := ih others
    cases first with
    | single => exact stages_cons next rest
    | @connected slot i words found =>
      have joins : s.isConnected (.tuple i) = .ok true := isConnected_tuple found
      simp only [List.flatten_cons, List.cons_append, List.nil_append]
      rw [Store.stages, stages_cons next rest, List.head?_cons, Option.elim_some, joins]
      rfl

/-! ### Arranging words -/

theorem arranged_nil (s : Store) : s.Arranged [] := ⟨[], rfl, fun _ mem => nomatch mem⟩

/-- Stages and one more stage are an arrangement. -/
theorem arranged_append {stages : List (List Word)} {stage : List Word}
    (each : ∀ stage ∈ stages, s.IsStage stage) (last : s.IsStage stage) :
    s.Arranged (stages.flatten ++ stage) := by
  refine ⟨stages ++ [stage], by simp, ?_⟩
  exact List.forall_mem_append.mpr ⟨each, List.forall_mem_singleton.mpr last⟩

/-- A word that is not connected begins another stage. -/
theorem Arranged.push (h : s.Arranged words) (plain : s.isConnected w = .ok false) :
    s.Arranged (words ++ [w]) := by
  obtain ⟨stages, rfl, each⟩ := h
  exact arranged_append each (.single plain)

/-- A name that comes last is a stage by itself, until a tuple that is connected to it joins. -/
theorem Arranged.push_connected {slot i : Nat} {items : List Word}
    (h : s.Arranged (words ++ [.name slot])) (found : s.tuples[i]? = some ⟨items, some slot⟩) :
    s.Arranged (words ++ [.name slot] ++ [.tuple i]) := by
  obtain ⟨stages, flat, each⟩ := h
  rcases List.eq_nil_or_concat' stages with rfl | ⟨earlier, stage, rfl⟩
  · simp at flat
  · obtain ⟨before, last⟩ := List.forall_mem_append.mp each
    rw [List.flatten_append, List.flatten_singleton] at flat
    cases List.forall_mem_singleton.mp last with
    | single plain =>
      obtain ⟨rfl, -⟩ := List.append_inj' flat rfl
      rw [List.append_assoc]
      exact arranged_append before (.connected found)
    | connected =>
      have ends := congrArg List.getLast? flat
      simp at ends

/-! ### Executors -/

theorem wellStaged_empty : empty.WellStaged := by
  intro i words found
  cases found

/-- A new value keeps executors cut into stages, if it is no executor or is cut so itself. -/
theorem WellStaged.create {v : Value} (h : s.WellStaged)
    (staged : ∀ {words}, v = .executor words → s.Staged words) : (s.create v).2.WellStaged := by
  have grows := growsTo_create s v
  cases v with
  | executor words =>
    intro i body found
    simp only [Store.create, Array.getElem?_push] at found
    split at found
    · cases found
      exact (staged rfl).mono grows.tuple
    · exact (h i body found).mono grows.tuple
  | datum d =>
    rcases d with ⟨e, x⟩ | ⟨e, xs⟩ <;> cases e <;> exact h.mono grows.tuple rfl
  | name | tuple | block => exact h.mono grows.tuple rfl

end Store

end Tacit
