import Tacit.Proofs.Eval.Scene
import Tacit.Proofs.Eval.Steps

/-!
Evaluating words and evaluating their deep values is the same: from a well-formed store and the
scene it shows, the two come to results, errors or the end of the depth together, and the words
that the one gives have the trees that the other gives.

* `agrees_fold`, `agrees_reduce`, `agrees_execute`: the agreement, for every depth.

In particular a fault never arises: there is no such failure among those of trees.
-/

namespace Tacit

namespace Eval

/-- Outcomes that are the same up to deep values. The store may have grown, but shows the scene
again; values are related by `R` in the store that is left. -/
inductive Agrees {α β : Type} (R : Store → α → β → Prop) (s : Store) :
    EStateM.Result Failure Store α → EStateM.Result Scene.Failure Scene β → Prop where
  | ok {a : α} {b : β} {s' : Store} {c' : Scene} (grows : s.GrowsTo s') (same : s'.Shows c')
      (value : R s' a b) : Agrees R s (.ok a s') (.ok b c')
  | error {e : EvalError} {kind : EvalError.Kind} {trees : List Tree} {s' : Store} {c' : Scene}
      (grows : s.GrowsTo s') (same : s'.Shows c') (eq : e.kind = kind)
      (words : List.Forall₂ s'.Unfolds e.words trees) :
      Agrees R s (.error (.error e) s') (.error (.error kind trees) c')
  | depthExceeded {s' : Store} {c' : Scene} (grows : s.GrowsTo s') (same : s'.Shows c') :
      Agrees R s (.error .depthExceeded s') (.error .depthExceeded c')

section Combinators

variable {α β γ δ : Type} {R : Store → α → β → Prop} {Q : Store → γ → δ → Prop} {s s' : Store}
  {c : Scene} {m : Eval α} {d : Deep β} {f : α → Eval γ} {g : β → Deep δ}

/-- What agrees from a store on agrees from an earlier one. -/
theorem Agrees.earlier {r : EStateM.Result Failure Store α}
    {r' : EStateM.Result Scene.Failure Scene β} (grows : s.GrowsTo s') (h : Agrees R s' r r') :
    Agrees R s r r' := by
  cases h with
  | ok later same value => exact .ok (grows.trans later) same value
  | error later same eq words => exact .error (grows.trans later) same eq words
  | depthExceeded later same => exact .depthExceeded (grows.trans later) same

/-- Evaluations in sequence agree, the later ones from any store that the first may leave. -/
theorem Agrees.bind (h : Agrees R s (m s) (d c))
    (next : ∀ {a b s' c'}, s.GrowsTo s' → s'.Shows c' → R s' a b → Agrees Q s' (f a s') (g b c')) :
    Agrees Q s ((m >>= f) s) ((d >>= g) c) := by
  simp only [Bind.bind, EStateM.bind]
  revert h
  cases m s with
  | ok a s' =>
    cases d c with
    | ok b c' =>
      rintro (⟨grows, same, value⟩)
      exact (next grows same value).earlier grows
    | error e c' => exact fun h => nomatch h
  | error e s' =>
    cases d c with
    | ok b c' => exact fun h => nomatch h
    | error e' c' =>
      intro h
      cases h with
      | error grows same eq words => exact .error grows same eq words
      | depthExceeded grows same => exact .depthExceeded grows same

theorem Agrees.pure {a : α} {b : β} (same : s.Shows c) (value : R s a b) :
    Agrees R s ((Pure.pure a : Eval α) s) ((Pure.pure b : Deep β) c) :=
  .ok (.refl s) same value

/-- Failures agree if the words of the error stand for its trees. -/
theorem Agrees.fail {e : EvalError} {trees : List Tree} (same : s.Shows c)
    (words : List.Forall₂ s.Unfolds e.words trees) :
    Agrees R s ((Eval.fail e : Eval α) s) ((Deep.fail e.kind trees : Deep β) c) :=
  .error (.refl s) same rfl words

/-- An evaluation that changes no store leaves the one it began with. -/
theorem Agrees.of_quiet {r : EStateM.Result Scene.Failure Scene β} (h : Agrees R s (m s) r)
    (quiet : Quiet m) : Agrees (fun s' a b => s' = s ∧ R s' a b) s (m s) r := by
  have unchanged := quiet s
  rw [after] at unchanged
  revert h unchanged
  cases m s with
  | ok a s' =>
    rintro (⟨grows, same, value⟩) unchanged
    exact .ok grows same ⟨unchanged, value⟩
  | error e s' =>
    intro h _
    cases h with
    | error grows same eq words => exact .error grows same eq words
    | depthExceeded grows same => exact .depthExceeded grows same

end Combinators

variable {s : Store} {c : Scene} {w v : Word} {t u : Tree}

/-! ### Names and assignments -/

theorem agrees_armAssignment (same : s.Shows c) :
    Agrees (fun _ _ _ => True) s (armAssignment s) (Deep.setPending true c) :=
  .ok (Store.growsTo_setPending s true) (same.setPending true) trivial

theorem agrees_resetAssignment (same : s.Shows c) :
    Agrees (fun _ _ _ => True) s (resetAssignment s) (Deep.setPending false c) :=
  .ok (Store.growsTo_setPending s false) (same.setPending false) trivial

/-- A pending assignment is taken from both, or there is none. -/
theorem agrees_takeAssignment (same : s.Shows c) :
    Agrees (fun _ a b => a = b) s (takeAssignment s) (Deep.takeAssignment c) :=
  .ok (Store.growsTo_setPending s false) (same.setPending false) same.pending

/-- A name is bound in both, to a word and to the tree that it stands for, or in neither. -/
theorem agrees_bound? (same : s.Shows c) (hw : s.Unfolds w t) :
    Agrees (fun s => Option.Rel s.Unfolds) s (bound? w s) (Deep.bound? t c) := by
  cases hw with
  | name found =>
    rw [bound?_name found]
    exact .ok (.refl s) same (same.env _)
  | _ => exact .pure same .none

/-- Resolving a word agrees with resolving its tree. -/
theorem agrees_resolve (same : s.Shows c) (hw : s.Unfolds w t) :
    Agrees Store.Unfolds s (resolve w s) (Deep.resolve t c) := by
  cases id hw with
  | @name slot text found =>
    rw [resolve_name found, Deep.resolve, get_bind]
    rcases rel_cases (same.env text) with ⟨free, free'⟩ | ⟨v, u, bound, bound', unfolds⟩
    · rw [free, free']
      exact .fail same (.cons hw .nil)
    · rw [bound, bound']
      exact .pure same unfolds
  | placeholder => exact .fail same (.cons hw .nil)
  | assignment => exact .fail same (.cons hw .nil)
  | scalar | array | tuple | executor | block => exact .pure same hw

/-- A name is bound in both, or is refused in both. -/
theorem agrees_assign (same : s.Shows c) (hw : s.Unfolds w t) (hv : s.Unfolds v u) :
    Agrees Store.Unfolds s (assign w v s) (Deep.assign t u c) := by
  cases id hw with
  | @name slot text found =>
    simp only [assign, Deep.assign]
    rw [ask_bind (Store.name_eq_ok found), get_bind, get_bind, same.isTaken_eq]
    cases taken : c.isTaken text with
    | true => exact .fail same (.cons hw .nil)
    | false =>
      rw [← same.isTaken_eq] at taken
      have free := Store.not_isBound_of_not_isTaken taken
      refine ((agrees_resolve same hv).of_quiet (quiet_resolve v)).bind ?_
      rintro value tree s' c' - same' ⟨rfl, unfolds⟩
      have grows := Store.growsTo_bind free value
      exact .ok grows (same'.bind free unfolds) (hw.mono grows)
  | _ => exact .fail same (.cons hw (.cons hv .nil))

/-! ### Calls, tuples and placeholders -/

/-- A new word stands for the tree of its value. -/
theorem agrees_make (same : s.Shows c) {value : Value} (unfolds : s.UnfoldsValue value t) :
    Agrees Store.Unfolds s (make value s) ((Pure.pure t : Deep Tree) c) :=
  .ok (Store.growsTo_create s value) (same.create unfolds) unfolds.create

/-- A call depends on the trees of its arguments only. -/
theorem agrees_callBuiltin (same : s.Shows c) {name : String} (hw : s.Unfolds w (.name name))
    (hv : s.Unfolds v u) :
    Agrees Store.Unfolds s (callBuiltin w v s) (Deep.callBuiltin name u c) := by
  cases id hw with
  | name found =>
    simp only [callBuiltin, Deep.callBuiltin]
    rw [ask_bind (Store.name_eq_ok found)]
    cases Builtin.isBuiltin name with
    | false => exact .fail same (.cons hw .nil)
    | true =>
      simp only [if_true]
      rw [ask_bind (arguments_eq_ok same hv), get_bind]
      cases Builtin.call name (c.arguments u) with
      | none => exact .fail same (.cons hw (.cons hv .nil))
      | some result =>
        cases result with
        | ok d => exact agrees_make same .datum
        | error e => exact .fail same .nil

/-- How a tuple is filled depends on the trees of the two words only. -/
theorem agrees_fillTuple (same : s.Shows c) {connectedName : Option String} {items : List Tree}
    (hw : s.Unfolds w (.tuple connectedName items)) (hv : s.Unfolds v u) :
    Agrees Store.Unfolds s (fillTuple w v s) (Deep.fillTuple connectedName items u c) := by
  cases id hw with
  | @tuple _ tuple _ _ found connected parts =>
    obtain ⟨components, eq, related⟩ := components_eq_ok hv
    have filled := substitute_related related parts
    simp only [fillTuple, Deep.fillTuple]
    rw [ask_bind (Store.tuple_eq_ok found), ask_bind eq]
    rcases filled.cases with ⟨words, trees, full, full', filled⟩ | ⟨_, n, lacks, lacks', rfl⟩
    · have extra := completion_related (Tree.arity connectedName) related parts filled.length_eq
      obtain ⟨f, run, complete⟩ := Filling.run_of_substitute_eq_ok full
      simp only [run, full', bind, EStateM.bind, arity_eq_ok connected, complete]
      exact agrees_make same (.tuple .none (List.rel_append filled extra))
    · rw [Filling.run_of_substitute_eq_error lacks, lacks']
      exact .fail same (.cons .placeholder (.cons hv .nil))

theorem agrees_foldPlaceholder (same : s.Shows c) {n : Nat} (hv : s.Unfolds v u) :
    Agrees Store.Unfolds s (foldPlaceholder (.placeholder n) v s) (Deep.foldPlaceholder n u c) := by
  have outOfRange : Agrees Store.Unfolds s
      ((Eval.fail (.placeholderOutOfRange (.placeholder n) v) : Eval Word) s)
      ((Deep.fail (.placeholderOutOfRange n) [.placeholder n, u] : Deep Tree) c) :=
    .fail same (.cons .placeholder (.cons hv .nil))
  cases id hv with
  | placeholder => exact .fail same (.cons .placeholder (.cons hv .nil))
  | @tuple _ tuple _ items found _ parts =>
    simp only [foldPlaceholder, Deep.foldPlaceholder]
    rw [ask_bind (Store.tuple_eq_ok found)]
    have picked : Option.Rel s.Unfolds ((componentIndex n).bind (tuple.words[·]?))
        ((componentIndex n).bind (items[·]?)) := by
      cases componentIndex n with
      | none => exact .none
      | some i => exact getElem?_related parts i
    rw [Word.index]
    rcases rel_cases picked with ⟨out, out'⟩ | ⟨v, u, picks, picks', unfolds⟩
    · rw [out, out']
      exact outOfRange
    · rw [picks, picks']
      exact .pure same unfolds
  | _ =>
    have index : (Word.placeholder n).index = n := rfl
    simp only [foldPlaceholder, Deep.foldPlaceholder]
    by_cases first : n = 1
    · rw [if_pos (index.trans first), if_pos first]
      exact .pure same hv
    · rw [if_neg (index ▸ first), if_neg first]
      exact outOfRange

/-! ### The fold -/

/-- Two folds agree: on words and trees of the same deep value, wherever they are used. -/
def FoldsAgree (fold : Folding) (fold' : Deep.Folding) : Prop :=
  ∀ {s : Store} {c : Scene} {w v : Word} {t u : Tree}, s.Shows c → s.Unfolds w t →
    s.Unfolds v u → Agrees Store.Unfolds s (fold w v s) (fold' t u c)

section Fold

variable {fold : Folding} {fold' : Deep.Folding} (agree : FoldsAgree fold fold')
  {words : List Word} {items : List Tree}

include agree

/-- Words agree with their trees, folded from right to left onto a word. -/
theorem agrees_foldOnto (same : s.Shows c) (hv : s.Unfolds v u)
    (h : List.Forall₂ s.Unfolds words items) :
    Agrees Store.Unfolds s (foldOnto fold v words s) (Deep.foldOnto fold' u items c) := by
  induction h with
  | nil => exact .pure same hv
  | cons first _ ih =>
    simp only [foldOnto, Deep.foldOnto, List.foldrM_cons] at ih ⊢
    exact ih.bind fun grows same' unfolds => agree same' (first.mono grows) unfolds

theorem agrees_foldOntoBlock (same : s.Shows c) (hw : s.Unfolds w t)
    (hv : s.Unfolds v (.block items)) :
    Agrees Store.Unfolds s (foldOntoBlock fold w v s) (Deep.foldOntoBlock fold' t items c) := by
  cases hv with
  | @block _ body _ found parts =>
    simp only [foldOntoBlock, Deep.foldOntoBlock]
    rw [ask_bind (Store.block_eq_ok found)]
    rcases rel_cases (getLast?_related parts) with ⟨empty, empty'⟩ | ⟨_, _, last, last', unfolds⟩
    · rw [empty, empty']
      exact .pure same hw
    · rw [last, last']
      exact agrees_foldOnto agree same unfolds (.cons hw (dropLast_related parts))

/-- Stages agree one by one, all of them on the same argument. -/
theorem agrees_mapM_foldOnto {stages : List (List Word)} {trees : List (List Tree)} {s₀ : Store}
    (h : List.Forall₂ (List.Forall₂ s₀.Unfolds) stages trees) (grows : s₀.GrowsTo s)
    (same : s.Shows c) (hv : s.Unfolds v u) :
    Agrees (fun s => List.Forall₂ s.Unfolds) s (stages.mapM (foldOnto fold v) s)
      (trees.mapM (Deep.foldOnto fold' u) c) := by
  induction h generalizing s c with
  | nil => exact .pure same .nil
  | cons first rest ih =>
    rw [List.mapM_cons, List.mapM_cons]
    have first := Store.unfolds_all_mono grows first
    refine (agrees_foldOnto agree same hv first).bind fun grows' same' unfolds => ?_
    refine (ih (grows.trans grows') same' (hv.mono grows')).bind fun grows'' same'' results => ?_
    exact .pure same'' (.cons (unfolds.mono grows'') results)

/-- Cutting an executor into stages agrees with cutting its trees. -/
theorem agrees_fanOut (same : s.Shows c) (hw : s.Unfolds w (.executor items))
    (hv : s.Unfolds v u) :
    Agrees Store.Unfolds s (fanOut fold w v s) (Deep.fanOut fold' items u c) := by
  cases hw with
  | executor found parts =>
    obtain ⟨stages, eq, related⟩ := stages_eq_ok parts
    simp only [fanOut, Deep.fanOut]
    rw [ask_bind (Store.executor_eq_ok found), ask_bind eq]
    refine (agrees_mapM_foldOnto agree related (.refl s) same hv).bind fun _ same' results => ?_
    exact agrees_make same' (.tuple .none results)

/-- The rules for the kinds of words agree with those for trees. -/
theorem agrees_foldValues (same : s.Shows c) (hw : s.Unfolds w t) (hv : s.Unfolds v u) :
    Agrees Store.Unfolds s (foldValues fold w v s) (Deep.foldValues fold' t u c) := by
  cases id hv with
  | block => exact agrees_foldOntoBlock agree same hw hv
  | scalar | array | name | tuple | executor | placeholder | assignment =>
    cases id hw with
    | name => exact agrees_callBuiltin same hw hv
    | tuple => exact agrees_fillTuple same hw hv
    | placeholder => exact agrees_foldPlaceholder same hv
    | executor => exact agrees_fanOut agree same hw hv
    | block found parts =>
      simp only [foldValues, Deep.foldValues]
      rw [ask_bind (Store.block_eq_ok found)]
      exact agrees_foldOnto agree same hv parts
    | scalar | array | assignment => exact .fail same (.cons hw (.cons hv .nil))

/-- One step of folding agrees, if the folds inside it do. -/
theorem agrees_foldStep : FoldsAgree (foldStep fold) (Deep.foldStep fold') := by
  intro s c w v t u same hw hv
  refine (agrees_takeAssignment same).bind fun grows same pending => ?_
  have hw := hw.mono grows
  have hv := hv.mono grows
  subst pending
  rw [isAssignment_eq hw]
  split
  · exact agrees_assign same hw hv
  by_cases marker : w = .assignment
  · simp only [marker, decide_true, if_true]
    exact (agrees_armAssignment same).bind fun grows same _ => .pure same (hv.mono grows)
  · simp only [marker, decide_false, if_false]
    cases id hv with
    | name =>
      exact (agrees_resolve same hv).bind fun grows same unfolds =>
        agree same (hw.mono grows) unfolds
    | scalar | array | tuple | executor | block | placeholder | assignment =>
      refine (agrees_bound? same hw).bind fun grows same related => ?_
      cases related with
      | some unfolds => exact agree same unfolds (hv.mono grows)
      | none => exact agrees_foldValues agree same (hw.mono grows) (hv.mono grows)

end Fold

/-- Folding words agrees with folding trees, at every depth. -/
theorem agrees_fold (depth : Nat) : FoldsAgree (fold depth) (Deep.fold depth) := by
  induction depth with
  | zero => exact fun same _ _ => .depthExceeded (.refl _) same
  | succ depth ih => exact agrees_foldStep ih

/-- Reducing a sentence agrees with reducing its trees. -/
theorem agrees_reduce (depth : Nat) {words : Sentence} {items : List Tree} (same : s.Shows c)
    (h : List.Forall₂ s.Unfolds words items) :
    Agrees (fun s => Option.Rel s.Unfolds) s (reduce depth words s)
      (Deep.reduce depth items c) := by
  rw [reduce, Deep.reduce]
  rcases rel_cases (getLast?_related h) with ⟨empty, empty'⟩ | ⟨_, _, last, last', unfolds⟩
  · rw [empty, empty']
    exact .pure same .none
  · rw [last, last']
    refine (agrees_foldOnto (agrees_fold depth) same unfolds (dropLast_related h)).bind ?_
    intro _ _ _ _ _ same unfolds
    exact .pure same (.some unfolds)

theorem agrees_executeSentence (depth : Nat) {words : Sentence} {items : List Tree}
    {result : Option Word} {result' : Option Tree} (same : s.Shows c)
    (hr : Option.Rel s.Unfolds result result') (h : List.Forall₂ s.Unfolds words items) :
    Agrees (fun s => Option.Rel s.Unfolds) s (executeSentence depth result words s)
      (Deep.executeSentence depth result' items c) := by
  refine (agrees_resetAssignment same).bind fun grows same _ => ?_
  refine (agrees_reduce depth same (Store.unfolds_all_mono grows h)).bind
    fun grows' same reduced => .pure same ?_
  cases reduced with
  | none => exact rel_imp (fun _ _ => Store.Unfolds.mono (grows.trans grows')) hr
  | some unfolds => exact .some unfolds

theorem agrees_sentences (depth : Nat) {sentences : List Sentence} {trees : List (List Tree)}
    {s₀ : Store} (h : List.Forall₂ (List.Forall₂ s₀.Unfolds) sentences trees)
    (grows : s₀.GrowsTo s) {result : Option Word} {result' : Option Tree} (same : s.Shows c)
    (hr : Option.Rel s.Unfolds result result') :
    Agrees (fun s => Option.Rel s.Unfolds) s
      (sentences.foldlM (executeSentence depth) result s)
      (trees.foldlM (Deep.executeSentence depth) result' c) := by
  induction h generalizing s c result result' with
  | nil => exact .pure same hr
  | cons first _ ih =>
    rw [List.foldlM_cons, List.foldlM_cons]
    refine (agrees_executeSentence depth same hr (Store.unfolds_all_mono grows first)).bind ?_
    exact fun grows' same reduced => ih (grows.trans grows') same reduced

/-- Executing sentences agrees with executing their trees. -/
theorem agrees_execute (depth : Nat) {sentences : List Sentence} {trees : List (List Tree)}
    (same : s.Shows c) (h : List.Forall₂ (List.Forall₂ s.Unfolds) sentences trees) :
    Agrees (fun s => Option.Rel s.Unfolds) s (execute depth sentences s)
      (Deep.execute depth trees c) := by
  refine (agrees_sentences depth h (.refl s) same .none).bind fun _ same result => ?_
  refine (agrees_resetAssignment same).bind fun grows same _ => ?_
  cases result with
  | none => exact .pure same .none
  | some unfolds =>
    exact (agrees_resolve same (unfolds.mono grows)).bind fun _ same unfolds =>
      .pure same (.some unfolds)

end Eval

end Tacit
