import Tacit.Proofs.Eval.Reaches

/-!
Folding onto a word is folding onto what the word comes to. A name is looked up and the words of a
block are reduced before anything is folded onto them, until there is a value that no rule looks up
or reduces first. All of this is said of stores in which nothing is to be assigned.

* `calm_of_foldsOntoTo`: where nothing is to be assigned, nothing comes to be assigned.
* `foldsTo_onto_bound`, `foldsTo_of_bound`, `foldsTo_onto_block`: the rules for names and blocks.
* `foldsTo_unwraps`, `exists_unwraps`: what a fold onto a word comes to, if it comes to an end.
-/

namespace Tacit

namespace Store

/-- The word has a deep value, and there is no assignment marker in it. -/
def Clear (s : Store) (w : Word) : Prop := ∃ t, s.Unfolds w t ∧ t.Unmarked

/-- Nothing is to be assigned, and there is no assignment marker in what names are bound to. -/
structure Calm (s : Store) : Prop where
  wellFormed : s.WellFormed
  sound : s.Sound
  idle : s.pending = false
  bound : ∀ {name w}, s.lookup name = some w → s.Unmarked w

variable {s t : Store} {w v : Word} {words : List Word} {name : String}

/-- In a well-formed store a valid word without markers has a deep value without them. -/
theorem WellFormed.clear (h : s.WellFormed) (valid : s.Valid w) (unmarked : s.Unmarked w) :
    s.Clear w := by
  obtain ⟨t, unfolds⟩ := h.exists_unfolds valid
  exact ⟨t, unfolds, unmarked t unfolds⟩

theorem Clear.valid (h : s.Clear w) : s.Valid w := by
  obtain ⟨t, unfolds, -⟩ := h
  exact unfolds.valid

theorem Clear.ne_assignment (h : s.Clear w) : w ≠ .assignment := by
  rintro rfl
  obtain ⟨t, unfolds, unmarked⟩ := h
  cases unfolds
  exact unmarked .self

/-- What has no marker has none in any later store. -/
theorem Clear.mono (grows : s.GrowsTo t) (h : s.Clear w) : t.Clear w := by
  obtain ⟨tree, unfolds, unmarked⟩ := h
  exact ⟨tree, unfolds.mono grows, unmarked⟩

theorem valid_block {i : Nat} (found : s.blocks[i]? = some words) : s.Valid (.block i) :=
  (Array.getElem?_eq_some_iff.mp found).1

/-- The words of a block have no marker if the block has none. -/
theorem clear_of_mem_block {i : Nat} (h : s.Clear (.block i)) (found : s.blocks[i]? = some words) :
    ∀ w ∈ words, s.Clear w := by
  obtain ⟨t, unfolds, unmarked⟩ := h
  cases unfolds with
  | block found' parts =>
    cases found'.symm.trans found
    intro w mem
    obtain ⟨item, mem', unfolds⟩ := exists_of_mem_related parts.flip mem
    exact ⟨item, unfolds, unmarked.of_mem_block item mem'⟩

/-- In a calm store no name is bound to a marker. -/
theorem Calm.clear_of_lookup (calm : s.Calm) (found : s.lookup name = some w) : s.Clear w :=
  calm.wellFormed.clear (valid_of_lookup calm.wellFormed found) (calm.bound found)

/-- A calm store shows a scene without markers in which nothing is pending. -/
theorem Calm.exists_scene (calm : s.Calm) : ∃ env, s.Shows (Deep.idle env) ∧
    ∀ {name v}, env name = some v → v.Unmarked := by
  obtain ⟨⟨env, pending⟩, same⟩ := Shows.of_wellFormed calm.wellFormed
  obtain rfl : pending = false := same.pending.symm.trans calm.idle
  refine ⟨env, same, ?_⟩
  intro name v leads
  obtain ⟨w, found, unfolds⟩ := same.exists_lookup leads
  exact calm.bound found v unfolds

end Store

namespace Eval

open Store (Calm Clear)

variable {s t : Store} {left w v seed : Word} {words : List Word}

/-- Where there is no assignment marker, folding brings about none and binds no name. -/
theorem calm_of_foldsOntoTo (calm : s.Calm) (hseed : s.Clear seed) (h : ∀ w ∈ words, s.Clear w)
    (ends : FoldsOntoTo s seed words (.ok v t)) : s.GrowsTo t ∧ t.Calm ∧ t.Clear v := by
  obtain ⟨⟨depth, result⟩, -⟩ := ends
  obtain ⟨env, same, values⟩ := calm.exists_scene
  obtain ⟨u, unfolds, unmarked⟩ := hseed
  obtain ⟨items, parts⟩ : ∃ items,
      List.Forall₂ (fun w t => s.Unfolds w t ∧ t.Unmarked) words items := exists_related h
  have clear : ∀ item ∈ items, item.Unmarked := by
    intro item mem
    obtain ⟨w, -, -, clear⟩ := exists_of_mem_related parts mem
    exact clear
  have agrees := agrees_foldOnto (agrees_fold depth) same unfolds (parts.imp fun _ _ h => h.1)
  have keeps : Deep.Keeps Tree.Unmarked (Deep.idle env)
      (Deep.foldOnto (Deep.fold depth) u items) :=
    (Deep.keeps_fold values depth).foldOnto clear unmarked
  have stepwise : Stepwise (foldOnto (fold depth) seed words) :=
    @Congruence.foldOnto _ stepwise_congruence _ (fold depth) (stepwise_fold depth) seed words
  have sound := calm.sound.steps (stepwise.of_eq_ok result)
  rw [show foldOnto (fold depth) seed words s = .ok v t from result] at agrees
  generalize eq : Deep.foldOnto (Deep.fold depth) u items (Deep.idle env) = r at agrees
  cases agrees with
  | ok grows same' unfolds' =>
    obtain ⟨unmarked', rfl⟩ := keeps _ _ eq
    refine ⟨grows, ⟨same'.wellFormed, sound, same'.pending, ?_⟩, _, unfolds', unmarked'⟩
    intro name w found tree unfolds
    exact values (same'.env_eq_some found unfolds)

/-! ### Names and blocks -/

section Rules

variable {slot i : Nat} {name : String} {last : Word} {r : EStateM.Result Failure Store Word}

/-- A name on the right is folded like the word that it is bound to. -/
theorem foldsTo_onto_bound (idle : s.pending = false) (unmarked : left ≠ .assignment)
    (named : s.names[slot]? = some name) (found : s.lookup name = some v) :
    FoldsTo s left (.name slot) r ↔ FoldsTo s left v r := by
  have resolved : resolve (.name slot) s = .ok v s := by
    rw [resolve_name named, found]
  exact reaches_of_succ (deepening_fold left _)
    (fun depth => fold_resolve_right idle unmarked depth resolved) r

/-- Nothing is folded onto a name that is not bound. -/
theorem foldsTo_onto_unbound (idle : s.pending = false) (unmarked : left ≠ .assignment)
    (named : s.names[slot]? = some name) (free : s.lookup name = none) :
    FoldsTo s left (.name slot) r ↔ r = .error (.error (.nameNotFound (.name slot))) s := by
  have unbound : bound? (.name slot) s = .ok none s := by
    rw [bound?_name named, free]
  have fails := fun depth => fold_of_unbound idle unmarked depth unbound
  constructor
  · intro h
    exact h.unique (deepening_fold left _) ⟨⟨1, fails 0⟩, by rintro _ ⟨⟩⟩
  · rintro rfl
    exact ⟨⟨1, fails 0⟩, by rintro _ ⟨⟩⟩

/-- A word that can be read is a bound name, or is not looked up. -/
theorem bound?_cases (valid : s.Valid w) : bound? w s = .ok none s ∨
    ∃ slot name v, w = .name slot ∧ s.names[slot]? = some name ∧ s.lookup name = some v := by
  cases w with
  | name slot =>
    obtain ⟨name, named⟩ : ∃ name, s.names[slot]? = some name :=
      ⟨_, Array.getElem?_eq_getElem valid⟩
    rw [bound?_name named]
    cases found : s.lookup name with
    | none => exact .inl rfl
    | some v => exact .inr ⟨slot, _, v, rfl, named, found⟩
  | _ => exact .inl rfl

/-- A name on the left is folded like the word that it is bound to. -/
theorem foldsTo_of_bound (sound : s.Sound) (idle : s.pending = false)
    (named : s.names[slot]? = some name) (found : s.lookup name = some v) (valid : s.Valid w) :
    FoldsTo s (.name slot) w r ↔ FoldsTo s v w r := by
  have leads : bound? (.name slot) s = .ok (some v) s := by
    rw [bound?_name named, found]
  have unmarked : Word.name slot ≠ .assignment := nofun
  have unmarked' : v ≠ .assignment := by
    rintro rfl
    exact (sound.resolved_of_lookup found).2.2 rfl
  have onto : ∀ {u}, u.kind ≠ .name → (FoldsTo s (.name slot) u r ↔ FoldsTo s v u r) :=
    fun value => reaches_of_succ (deepening_fold _ _)
      (fun depth => fold_resolve_left idle unmarked depth value leads) r
  cases w with
  | name other =>
    obtain ⟨text, named'⟩ : ∃ text, s.names[other]? = some text :=
      ⟨_, Array.getElem?_eq_getElem valid⟩
    cases found' : s.lookup text with
    | none =>
      rw [foldsTo_onto_unbound idle unmarked named' found',
        foldsTo_onto_unbound idle unmarked' named' found']
    | some u =>
      rw [foldsTo_onto_bound idle unmarked named' found',
        foldsTo_onto_bound idle unmarked' named' found']
      exact onto (sound.resolved_of_lookup found').1
  | scalar | array | tuple | executor | block | placeholder | assignment =>
    exact onto (by rintro ⟨⟩)

/-- The rule for a block on the right that is not empty. -/
theorem fold_onto_block (idle : s.pending = false) (unmarked : left ≠ .assignment)
    (unbound : bound? left s = .ok none s) (found : s.blocks[i]? = some (words ++ [last]))
    (depth : Nat) : fold (depth + 1) left (.block i) s =
      (foldOnto (fold depth) last words >>= fold depth left) s := by
  have value : (Word.block i).kind ≠ .name := nofun
  rw [fold_eq_foldValues idle unmarked depth value unbound, foldValues, foldOntoBlock,
    ask_bind (Store.block_eq_ok found), List.getLast?_concat, List.dropLast_concat]
  exact congrFun List.foldrM_cons s

/-- A block on the right is folded like its words behind the left word. -/
theorem foldsTo_onto_block (calm : s.Calm) (unmarked : left ≠ .assignment) (valid : s.Valid left)
    (found : s.blocks[i]? = some (words ++ [last])) (clear : ∀ w ∈ words ++ [last], s.Clear w) :
    FoldsTo s left (.block i) r ↔ FoldsOntoTo s last (left :: words) r := by
  have onto : ∀ {w}, w ≠ .assignment → bound? w s = .ok none s →
      (FoldsTo s w (.block i) r ↔ FoldsOntoTo s last (w :: words) r) := by
    intro w unmarked unbound
    refine reaches_of_succ (deepening_fold _ _) (fun depth => ?_) r
    rw [fold_onto_block calm.idle unmarked unbound found]
    exact (congrFun List.foldrM_cons s).symm
  rcases bound?_cases valid with unbound | ⟨slot, name, v, rfl, named, leads⟩
  · exact onto unmarked unbound
  · have resolved := calm.sound.resolved_of_lookup leads
    have unmarked' : v ≠ .assignment := by
      rintro rfl
      exact resolved.2.2 rfl
    rw [foldsTo_of_bound calm.sound calm.idle named leads (Store.valid_block found),
      onto unmarked' (bound?_of_resolved resolved s)]
    change FoldsOntoTo s last ([v] ++ words) r ↔ FoldsOntoTo s last ([.name slot] ++ words) r
    refine foldsOntoTo_append_congr (fun _ => Iff.rfl) (fun w t ends r => ?_) r
    rw [foldsOntoTo_singleton_eq, foldsOntoTo_singleton_eq]
    obtain ⟨init, final⟩ := List.forall_mem_append.mp clear
    obtain ⟨grows, calm', clear'⟩ :=
      calm_of_foldsOntoTo calm (final _ (List.mem_singleton_self _)) init ends
    exact (foldsTo_of_bound calm'.sound calm'.idle (grows.name named) (grows.bound leads)
      clear'.valid).symm

end Rules

/-! ### Looking up and reducing -/

/-- What a word comes to when bound names are looked up and the words of blocks that are not empty
are reduced until neither applies: a value, with the store that is left, or an error. -/
inductive Unwraps : Store → Word → EStateM.Result Failure Store Word → Prop where
  | value {s : Store} {w : Word} : w.kind ≠ .name → w.kind ≠ .block → Unwraps s w (.ok w s)
  | empty {s : Store} {i : Nat} : s.blocks[i]? = some [] → Unwraps s (.block i) (.ok (.block i) s)
  | unbound {s : Store} {slot : Nat} {name : String} : s.names[slot]? = some name →
      s.lookup name = none →
      Unwraps s (.name slot) (.error (.error (.nameNotFound (.name slot))) s)
  | bound {s : Store} {slot : Nat} {name : String} {v : Word}
      {o : EStateM.Result Failure Store Word} : s.names[slot]? = some name →
      s.lookup name = some v → Unwraps s v o → Unwraps s (.name slot) o
  | fails {s t : Store} {i : Nat} {body : List Word} {e : Failure} : s.blocks[i]? = some body →
      ReducesTo s body (.error e t) → Unwraps s (.block i) (.error e t)
  | block {s t : Store} {i : Nat} {body : List Word} {v : Word}
      {o : EStateM.Result Failure Store Word} : s.blocks[i]? = some body →
      ReducesTo s body (.ok (some v) t) → Unwraps t v o → Unwraps s (.block i) o

/-- Looking up and reducing arrives at an empty block, which is no value. -/
def ArrivesEmpty (s : Store) (w : Word) : Prop := ∃ i t, Unwraps s w (.ok (.block i) t)

section Unwraps

variable {i : Nat} {o : EStateM.Result Failure Store Word}

/-- What is looked up and reduced to the end is no name, and no block but an empty one. -/
theorem kind_of_unwraps (h : Unwraps s w (.ok v t)) :
    v.kind ≠ .name ∧ (v.kind = .block → ∃ i, v = .block i ∧ t.blocks[i]? = some []) := by
  generalize eq : EStateM.Result.ok v t = o at h
  induction h with
  | value name block =>
    cases eq
    exact ⟨name, fun kind => absurd kind block⟩
  | empty found =>
    cases eq
    exact ⟨nofun, fun _ => ⟨_, rfl, found⟩⟩
  | unbound | fails => cases eq
  | bound _ _ _ ih => exact ih eq
  | block _ _ _ ih => exact ih eq

/-- Reducing words without markers leaves a calm store and a result without markers. -/
theorem calm_of_reducesTo (calm : s.Calm) (clear : ∀ w ∈ words, s.Clear w)
    (h : ReducesTo s words (.ok (some v) t)) : s.GrowsTo t ∧ t.Calm ∧ t.Clear v := by
  obtain ⟨init, last, rfl, ends⟩ := exists_foldsOntoTo_ok h
  obtain ⟨clear, final⟩ := List.forall_mem_append.mp clear
  exact calm_of_foldsOntoTo calm (final _ (List.mem_singleton_self _)) clear ends

/-- So does looking up and reducing to the end. -/
theorem calm_of_unwraps (h : Unwraps s w (.ok v t)) (calm : s.Calm) (clear : s.Clear w) :
    s.GrowsTo t ∧ t.Calm ∧ t.Clear v := by
  generalize eq : EStateM.Result.ok v t = o at h
  induction h with
  | value | empty =>
    cases eq
    exact ⟨.refl _, calm, clear⟩
  | unbound | fails => cases eq
  | bound _ leads _ ih => exact ih calm (calm.clear_of_lookup leads) eq
  | block found reduces _ ih =>
    obtain ⟨grows, calm', clear'⟩ :=
      calm_of_reducesTo calm (Store.clear_of_mem_block clear found) reduces
    obtain ⟨grows', rest⟩ := ih calm' clear' eq
    exact ⟨grows.trans grows', rest⟩

/-- Folding onto a block is folding onto what its words come to. -/
theorem foldsTo_onto_folded {init : List Word} {last : Word} (calm : s.Calm)
    (clear : s.Clear (.block i)) (unmarked : left ≠ .assignment) (valid : s.Valid left)
    (found : s.blocks[i]? = some (init ++ [last])) (ends : FoldsOntoTo s last init o)
    (r : EStateM.Result Failure Store Word) :
    FoldsTo s left (.block i) r ↔ Continues (fun v t => FoldsTo t left v) o r := by
  rw [foldsTo_onto_block calm unmarked valid found (Store.clear_of_mem_block clear found)]
  have cons := foldsOntoTo_append_eq s last [left] init
  rw [List.singleton_append] at cons
  rw [cons, reaches_bind (deepening_foldOnto _ _) (fun w => deepening_foldOnto w _) ends]
  cases o with
  | ok v t => exact iff_of_eq (congrFun (foldsOntoTo_singleton_eq t v left) r)
  | error e t => exact Iff.rfl

/-- Folding onto a word is folding onto what the word comes to, where it comes to that. -/
theorem foldsTo_unwraps (h : Unwraps s w o) (calm : s.Calm) (clear : s.Clear w)
    (unmarked : left ≠ .assignment) (valid : s.Valid left)
    (r : EStateM.Result Failure Store Word) :
    FoldsTo s left w r ↔ Continues (fun v t => FoldsTo t left v) o r := by
  induction h with
  | value | empty => exact Iff.rfl
  | unbound named free => exact foldsTo_onto_unbound calm.idle unmarked named free
  | bound named leads _ ih =>
    rw [foldsTo_onto_bound calm.idle unmarked named leads]
    exact ih calm (calm.clear_of_lookup leads) valid
  | fails found reduces =>
    obtain ⟨init, last, rfl, ends⟩ := exists_foldsOntoTo_error reduces
    exact foldsTo_onto_folded calm clear unmarked valid found ends r
  | block found reduces _ ih =>
    obtain ⟨grows, calm', clear'⟩ :=
      calm_of_reducesTo calm (Store.clear_of_mem_block clear found) reduces
    obtain ⟨init, last, rfl, ends⟩ := exists_foldsOntoTo_ok reduces
    rw [foldsTo_onto_folded calm clear unmarked valid found ends]
    exact ih calm' clear' (grows.valid valid)

/-- A fold that ends has looked up and reduced the right word to the end. -/
theorem exists_unwraps (calm : s.Calm) (clear : s.Clear w) (unmarked : left ≠ .assignment)
    (valid : s.Valid left) {r : EStateM.Result Failure Store Word} (h : FoldsTo s left w r) :
    ∃ o, Unwraps s w o := by
  obtain ⟨⟨depth, eq⟩, uncut⟩ := h
  induction depth generalizing s left w with
  | zero =>
    obtain rfl : .error .depthExceeded s = r := eq
    exact absurd rfl (uncut s)
  | succ depth ih =>
    have eq : fold (depth + 1) left w s = r := eq
    cases w with
    | name slot =>
      obtain ⟨name, named⟩ : ∃ name, s.names[slot]? = some name :=
        ⟨_, Array.getElem?_eq_getElem clear.valid⟩
      cases leads : s.lookup name with
      | none => exact ⟨_, .unbound named leads⟩
      | some v =>
        have resolved : resolve (.name slot) s = .ok v s := by
          rw [resolve_name named, leads]
        rw [fold_resolve_right calm.idle unmarked depth resolved] at eq
        obtain ⟨o, unwraps⟩ := ih calm (calm.clear_of_lookup leads) unmarked valid eq
        exact ⟨o, .bound named leads unwraps⟩
    | block i =>
      obtain ⟨body, found⟩ : ∃ body, s.blocks[i]? = some body :=
        ⟨_, Array.getElem?_eq_getElem clear.valid⟩
      rcases List.eq_nil_or_concat body with rfl | ⟨init, last, rfl⟩
      · exact ⟨_, .empty found⟩
      rw [List.concat_eq_append] at found
      rcases bound?_cases valid with unbound | ⟨slot, name, v, rfl, named, leads⟩
      · rw [fold_onto_block calm.idle unmarked unbound found] at eq
        cases first : foldOnto (fold depth) last init s with
        | error e t =>
          obtain rfl : .error e t = r := (bind_of_error first).symm.trans eq
          have ends : FoldsOntoTo s last init (.error e t) := by
            refine ⟨⟨depth, first⟩, ?_⟩
            rintro _ ⟨⟩
            exact uncut t rfl
          exact ⟨_, .fails found (reducesTo_of_foldsOntoTo ends rfl)⟩
        | ok v t =>
          have eq : fold depth left v t = r := (bind_of_ok first).symm.trans eq
          have ends : FoldsOntoTo s last init (.ok v t) :=
            ⟨⟨depth, first⟩, by rintro _ ⟨⟩⟩
          have reduces : ReducesTo s (init ++ [last]) (.ok (some v) t) :=
            reducesTo_of_foldsOntoTo ends rfl
          obtain ⟨grows, calm', clear'⟩ :=
            calm_of_reducesTo calm (Store.clear_of_mem_block clear found) reduces
          obtain ⟨o, unwraps⟩ := ih calm' clear' unmarked (grows.valid valid) eq
          exact ⟨o, .block found reduces unwraps⟩
      · have leads' : bound? (.name slot) s = .ok (some v) s := by
          rw [bound?_name named, leads]
        have value : (Word.block i).kind ≠ .name := nofun
        rw [fold_resolve_left calm.idle unmarked depth value leads'] at eq
        have clear' := calm.clear_of_lookup leads
        exact ih calm clear clear'.ne_assignment clear'.valid eq
    | scalar | array | tuple | executor | placeholder | assignment =>
      exact ⟨_, .value nofun nofun⟩

end Unwraps

end Eval

end Tacit
