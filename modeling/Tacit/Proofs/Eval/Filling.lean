import Tacit.Eval.Tuple
import Tacit.Proofs.Pointwise

/-!
How a tuple is filled, word by word. Each word of the tuple adds what it stands for and takes the
components that it picks, so that a run over the words adds all that they stand for and leaves the
components that none of them picks.

* `step_eq`, `run_eq`: one word, and all of them.
* `run_of_substitute_eq_ok`: the same by recursion on the words, which is how trees are filled.
-/

namespace Tacit

namespace Filling

/-- What a word of a tuple stands for. -/
def expand (components : List Word) : Word → List Word
  | .placeholder 0 => components
  | .placeholder (n + 1) => components[n]?.toList
  | w => [w]

def lacks (count : Nat) : Word → Bool
  | .placeholder n => count < n
  | _ => false

def picks (i : Nat) : Word → Bool
  | .placeholder n => n == 0 || n == i + 1
  | _ => false

/-- What is filled after some words that lack nothing. -/
def after (components : List Word) (f : Filling) (words : List Word) : Filling where
  filled := f.filled ++ words.flatMap (expand components)
  taken := f.taken.mapIdx fun i taken => taken || words.any (picks i)

/-! ### Steps and runs -/

/-- A word that lacks its component stops the filling, and any other adds what it stands for and
takes what it picks. -/
theorem step_eq (components : List Word) (f : Filling) (w : Word) :
    step components f w =
      if lacks components.length w then .error w else .ok (f.after components [w]) := by
  cases w with
  | placeholder n =>
    cases n with
    | zero =>
      have all : f.taken.map (fun _ => true) = f.taken.mapIdx fun _ _ => true :=
        List.ext_getElem (by simp) (by simp)
      simp [step, lacks, after, expand, picks, all]
    | succ n =>
      by_cases lt : n < components.length
      · have one : f.taken.set n true = f.taken.mapIdx fun i taken => taken || n == i := by
          apply List.ext_getElem (by simp)
          intro i _ _
          by_cases eq : n = i <;> simp [eq]
        have kept : ¬ components.length < n + 1 := by omega
        simp [step, lacks, after, expand, picks, lt, one, kept]
      · have lacking : components.length < n + 1 := by omega
        simp [step, lacks, lt, lacking]
  | _ =>
    have same : f.taken.mapIdx (fun _ taken => taken) = f.taken :=
      List.ext_getElem (by simp) (by simp)
    simp [step, lacks, after, expand, picks, same]

/-- What is filled after a word and then others is what is filled after all of them. -/
theorem after_cons (components : List Word) (f : Filling) (w : Word) (rest : List Word) :
    (f.after components [w]).after components rest = f.after components (w :: rest) := by
  simp [after, List.mapIdx_mapIdx, Function.comp_def, Bool.or_assoc]

/-- A run over the words stops at the first that lacks its component, or adds all that they stand
for. -/
theorem foldlM_step (components : List Word) (f : Filling) (words : List Word) :
    words.foldlM (step components) f =
      match words.find? (lacks components.length) with
      | some p => .error p
      | none => .ok (f.after components words) := by
  induction words generalizing f with
  | nil =>
    have same : f.taken.mapIdx (fun _ taken => taken) = f.taken :=
      List.ext_getElem (by simp) (by simp)
    simp [after, same, pure, Except.pure]
  | cons w rest ih =>
    rw [List.foldlM_cons, step_eq, List.find?_cons]
    cases lacks components.length w with
    | true => rfl
    | false => exact (ih (f.after components [w])).trans (by rw [after_cons])

/-- A run over the words of a tuple stops at the first that lacks a component. Otherwise it fills in
what the words stand for, and the components that are left are those that no word picks. -/
theorem run_eq (components words : List Word) :
    run components words =
      match words.find? (lacks components.length) with
      | some p => .error p
      | none => .ok ((start components).after components words) :=
  foldlM_step components _ words

/-! ### Components that are left -/

def unused (components words : List Word) : List Word :=
  (components.zipIdx.filter fun entry => !words.any (picks entry.2)).map Prod.fst

/-- The components that complete a filled tuple up to an arity. -/
def completion (arity : Nat) (components words filled : List Word) : List Word :=
  (unused components words).take (arity - filled.length)

/-- What is left at the end is what no word picks. -/
theorem untaken_after (components words : List Word) :
    ((start components).after components words).untaken components = unused components words := by
  have taken : components.zip ((start components).after components words).taken =
      components.zipIdx.map fun entry => (entry.1, words.any (picks entry.2)) := by
    apply List.ext_getElem (by simp [start, after])
    intro i _ _
    simp [start, after]
  rw [untaken, unused, taken, List.filter_map, List.map_map]
  rfl

/-- The filled words of a run that lacks nothing, completed up to an arity. -/
theorem complete_after (arity : Nat) (components words : List Word) :
    ((start components).after components words).complete arity components =
      words.flatMap (expand components) ++
        completion arity components words (words.flatMap (expand components)) := by
  rw [complete, untaken_after, completion]
  rfl

def unusedPositions (count : Nat) (words : List Word) : List Nat :=
  (List.range count).filter fun i => .placeholder 0 ∉ words ∧ .placeholder (i + 1) ∉ words

/-- A component is picked by the bare placeholder, or by the one with its number. -/
theorem any_picks_iff {words : List Word} {i : Nat} :
    words.any (picks i) = true ↔ .placeholder 0 ∈ words ∨ .placeholder (i + 1) ∈ words := by
  rw [List.any_eq_true]
  constructor
  · rintro ⟨w, mem, picked⟩
    cases w with
    | placeholder n =>
      simp only [picks, Bool.or_eq_true, beq_iff_eq] at picked
      rcases picked with rfl | rfl
      · exact .inl mem
      · exact .inr mem
    | _ => cases picked
  · rintro (mem | mem)
    · exact ⟨_, mem, rfl⟩
    · exact ⟨_, mem, by simp [picks]⟩

/-- The components that are left stand at the positions that are left. -/
theorem unused_related (components words : List Word) :
    List.Forall₂ (fun i w => components[i]? = some w) (unusedPositions components.length words)
      (unused components words) := by
  have positions : unusedPositions components.length words =
      ((List.range components.length).zipIdx.filter fun entry =>
        !words.any (picks entry.2)).map Prod.fst := by
    have numbered : (List.range components.length).zipIdx =
        (List.range components.length).map fun i => (i, i) :=
      List.ext_getElem (by simp) (by simp)
    rw [numbered, List.filter_map, List.map_map]
    refine Eq.trans ?_ (List.map_id _).symm
    apply List.filter_congr
    intro i _
    rw [Bool.eq_iff_iff, decide_eq_true_iff, Function.comp_apply, Bool.not_eq_true',
      Bool.eq_false_iff, ne_eq, any_picks_iff, not_or]
  have all : List.Forall₂ (fun i w => components[i]? = some w) (List.range components.length)
      components := by
    rw [List.forall₂_iff_get]
    simp
  rw [positions, unused]
  exact filter_zipIdx_related all (fun i => !words.any (picks i)) 0

/-! ### Filling by recursion -/

/-- The words of a tuple filled with components: the bare placeholder stands for all of them, a
numbered one for the one it counts to, and other words for themselves. The first placeholder
without a component is the error. -/
def substitute (components : List Word) : List Word → Except Word (List Word)
  | [] => .ok []
  | .placeholder 0 :: rest => return components ++ (← substitute components rest)
  | .placeholder (n + 1) :: rest =>
    match components[n]? with
    | some w => return w :: (← substitute components rest)
    | none => .error (.placeholder (n + 1))
  | w :: rest => return w :: (← substitute components rest)

/-- Words are substituted by expanding them all, unless one lacks its component. -/
theorem substitute_eq (components words : List Word) :
    substitute components words =
      match words.find? (lacks components.length) with
      | some p => .error p
      | none => .ok (words.flatMap (expand components)) := by
  fun_induction substitute components words with
  | case1 => rfl
  | case2 rest ih =>
    have kept : lacks components.length (.placeholder 0) = false := by simp [lacks]
    rw [ih, List.find?_cons, kept]
    cases rest.find? (lacks components.length) <;> rfl
  | case3 n rest w found ih =>
    have lt : n < components.length := (List.getElem?_eq_some_iff.mp found).1
    have kept : lacks components.length (.placeholder (n + 1)) = false := by
      simp only [lacks, decide_eq_false_iff_not]
      omega
    rw [ih, List.find?_cons, kept, List.flatMap_cons, expand, found]
    cases rest.find? (lacks components.length) <;> rfl
  | case4 n rest missing =>
    rw [List.getElem?_eq_none_iff] at missing
    have lacking : lacks components.length (.placeholder (n + 1)) = true := by
      simp only [lacks, decide_eq_true_eq]
      omega
    rw [List.find?_cons, lacking]
  | case5 w rest not0 notN ih =>
    have other : lacks components.length w = false ∧ expand components w = [w] := by
      cases w with
      | placeholder n =>
        cases n with
        | zero => exact absurd rfl not0
        | succ n => exact absurd rfl (notN n)
      | _ => exact ⟨rfl, rfl⟩
    rw [ih, List.find?_cons, other.1, List.flatMap_cons, other.2]
    cases rest.find? (lacks components.length) <;> rfl

/-- Where the substitution succeeds, so does the run, and it completes to the same words. -/
theorem run_of_substitute_eq_ok {components words filled : List Word}
    (h : substitute components words = .ok filled) :
    ∃ f, run components words = .ok f ∧
      ∀ arity, f.complete arity components = filled ++ completion arity components words filled := by
  rw [substitute_eq] at h
  rw [run_eq]
  cases found : words.find? (lacks components.length) with
  | some p =>
    rw [found] at h
    cases h
  | none =>
    rw [found] at h
    cases h
    exact ⟨_, rfl, fun arity => complete_after arity components words⟩

/-- Where the substitution fails, the run fails for the same placeholder. -/
theorem run_of_substitute_eq_error {components words : List Word} {p : Word}
    (h : substitute components words = .error p) : run components words = .error p := by
  rw [substitute_eq] at h
  rw [run_eq]
  cases found : words.find? (lacks components.length) with
  | some p' =>
    rw [found] at h
    cases h
    rfl
  | none =>
    rw [found] at h
    cases h

end Filling

end Tacit
