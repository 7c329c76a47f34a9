import Tacit.Proofs.Eval.Unwraps

/-!
Words can be taken out of a sentence and put into a block, which then stands for them, by itself or
by a name. The block is folded in one, and its words one after the other, so what they are folded
onto is looked up and reduced at different times. It comes to the same value in both cases, and on a
value the block does what its words do, unless the value is an empty block.

* `foldsTo_block_iff`: a block and its words, folded onto the same word.
* `Abbreviates.reducesTo_iff`, `Abbreviates.reducesTo_iff_at_end`: the same within a sentence.
* `block_abstracts`: a block does what its words do.
-/

namespace Tacit

namespace Eval

open Store (Calm Clear)

variable {s t : Store} {v : Word} {words : List Word}

/-! ### Blocks in place of words -/

section Blocks

variable {i : Nat} {f acc p : Word} {mid : List Word} {r : EStateM.Result Failure Store Word}

/-- Onto a value, the rule for a block on the left is what its words do. -/
theorem foldsTo_block_of_value (idle : s.pending = false) (found : s.blocks[i]? = some mid)
    (name : v.kind ≠ .name) (block : v.kind ≠ .block) :
    FoldsTo s (.block i) v r ↔ FoldsOntoTo s v mid r := by
  have unmarked : Word.block i ≠ .assignment := nofun
  refine reaches_of_succ (deepening_fold _ _) (fun depth => ?_) r
  rw [fold_eq_foldValues idle unmarked depth name rfl]
  cases v with
  | name | block => contradiction
  | scalar | array | tuple | executor | placeholder | assignment =>
    exact ask_bind (Store.block_eq_ok found) _

/-- A block does what its words do, one after the other. -/
theorem foldsTo_block_iff (calm : s.Calm) (clear : s.Clear acc) (found : s.blocks[i]? = some mid)
    (nonempty : mid ≠ []) (parts : ∀ w ∈ mid, s.Clear w) (arrives : ¬ ArrivesEmpty s acc) :
    FoldsTo s (.block i) acc r ↔ FoldsOntoTo s acc mid r := by
  obtain ⟨init, last, rfl⟩ : ∃ init last, mid = init ++ [last] :=
    ⟨_, _, (List.dropLast_append_getLast nonempty).symm⟩
  obtain ⟨-, final⟩ := List.forall_mem_append.mp parts
  have hlast := final last (List.mem_singleton_self _)
  have valid := Store.valid_block found
  have unmarked : Word.block i ≠ .assignment := nofun
  rw [foldsOntoTo_concat_eq]
  by_cases unwraps : ∃ o, Unwraps s acc o
  · obtain ⟨o, unwraps⟩ := unwraps
    have onto := foldsTo_unwraps unwraps calm clear hlast.ne_assignment hlast.valid
    rw [foldsTo_unwraps unwraps calm clear unmarked valid]
    cases o with
    | error e t =>
      have fails : FoldsTo s last acc (.error e t) := (onto _).mpr rfl
      exact (reaches_bind (deepening_fold _ _) (fun w => deepening_foldOnto w init) fails r).symm
    | ok v t =>
      obtain ⟨grows, calm', -⟩ := calm_of_unwraps unwraps calm clear
      obtain ⟨name, kind⟩ := kind_of_unwraps unwraps
      have block : v.kind ≠ .block := by
        intro eq
        obtain ⟨j, rfl, -⟩ := kind eq
        exact arrives ⟨j, t, unwraps⟩
      refine (foldsTo_block_of_value calm'.idle (grows.block found) name block).trans ?_
      rw [foldsOntoTo_concat_eq]
      exact (reaches_bind_congr (deepening_fold _ _) (deepening_fold _ _)
        (fun w => deepening_foldOnto w init) (fun w => deepening_foldOnto w init) onto
        (fun _ _ _ _ => Iff.rfl) r).symm
  · refine iff_of_false ?_ ?_
    · intro h
      exact unwraps (exists_unwraps calm clear unmarked valid h)
    · intro h
      obtain ⟨o, ends, -⟩ := exists_reaches_of_bind h
      exact unwraps (exists_unwraps calm clear hlast.ne_assignment hlast.valid ends)

/-- What gives a block when it is substituted is that block or a name that is bound to it. -/
theorem eq_block_or_bound (h : s.substitute f = .ok (.block i)) : f = .block i ∨
    ∃ slot name, f = .name slot ∧ s.names[slot]? = some name ∧
      s.lookup name = some (.block i) := by
  cases f with
  | name slot =>
    cases named : s.names[slot]? with
    | none =>
      rw [Store.substitute, Store.name_eq_error named] at h
      cases h
    | some name =>
      rw [Store.substitute, Store.name_eq_ok named] at h
      have eq : Except.ok ((s.lookup name).getD (.name slot)) = .ok (Word.block i) := h
      cases leads : s.lookup name with
      | none =>
        rw [leads] at eq
        cases eq
      | some v =>
        rw [leads] at eq
        cases eq
        exact .inr ⟨slot, name, rfl, named, leads⟩
  | block =>
    cases h
    exact .inl rfl
  | scalar | array | tuple | executor | placeholder | assignment => cases h

/-- A word that stands for a block stands for it in any later store. -/
theorem substitute_block_mono (grows : s.GrowsTo t) (h : s.substitute f = .ok (.block i)) :
    t.substitute f = .ok (.block i) := by
  rcases eq_block_or_bound h with rfl | ⟨slot, name, rfl, named, leads⟩
  · rfl
  · rw [Store.substitute, Store.name_eq_ok (grows.name named)]
    exact congrArg (fun v => Except.ok (v.getD (.name slot))) (grows.bound leads)

/-- What stands for a block is folded like the block. -/
theorem foldsTo_of_substitute (sound : s.Sound) (idle : s.pending = false)
    (stands : s.substitute f = .ok (.block i)) (valid : s.Valid acc) :
    FoldsTo s f acc r ↔ FoldsTo s (.block i) acc r := by
  rcases eq_block_or_bound stands with rfl | ⟨slot, name, rfl, named, leads⟩
  · exact Iff.rfl
  · exact foldsTo_of_bound sound idle named leads valid

/-- To be folded onto a name bound to a block is to be folded onto the block. -/
theorem foldsTo_onto_substitute (idle : s.pending = false) (unmarked : p ≠ .assignment)
    (stands : s.substitute f = .ok (.block i)) : FoldsTo s p f r ↔ FoldsTo s p (.block i) r := by
  rcases eq_block_or_bound stands with rfl | ⟨slot, name, rfl, named, leads⟩
  · exact Iff.rfl
  · exact foldsTo_onto_bound idle unmarked named leads

/-- The word stands for a block with these words, some, and none of them with a marker. -/
structure Abbreviates (s : Store) (f : Word) (mid : List Word) : Prop where
  stands : ∃ i, s.substitute f = .ok (.block i) ∧ s.blocks[i]? = some mid
  nonempty : mid ≠ []
  clear : ∀ w ∈ mid, s.Clear w

/-- What stands for words in a store stands for them in any later one. -/
theorem Abbreviates.mono (h : Abbreviates s f mid) (grows : s.GrowsTo t) : Abbreviates t f mid where
  stands := by
    obtain ⟨i, stands, found⟩ := h.stands
    exact ⟨i, substitute_block_mono grows stands, grows.block found⟩
  nonempty := h.nonempty
  clear := fun w mem => (h.clear w mem).mono grows

/-- The word can be folded in place of the words. -/
theorem Abbreviates.foldsTo_iff (h : Abbreviates s f mid) (calm : s.Calm) (clear : s.Clear acc)
    (arrives : ¬ ArrivesEmpty s acc) : FoldsTo s f acc r ↔ FoldsOntoTo s acc mid r := by
  obtain ⟨i, stands, found⟩ := h.stands
  rw [foldsTo_of_substitute calm.sound calm.idle stands clear.valid]
  exact foldsTo_block_iff calm clear found h.nonempty h.clear arrives

/-- So it can in front of others, from whatever these come to. -/
theorem Abbreviates.reducesTo_iff (h : Abbreviates s f mid) {pre post : List Word}
    (nonempty : post ≠ []) (clear : ∀ acc t, ReducesTo s post (.ok (some acc) t) →
      s.GrowsTo t ∧ t.Calm ∧ t.Clear acc ∧ ¬ ArrivesEmpty t acc)
    (r : EStateM.Result Failure Store (Option Word)) :
    ReducesTo s (pre ++ mid ++ post) r ↔ ReducesTo s (pre ++ f :: post) r := by
  obtain ⟨init, last, rfl⟩ : ∃ init last, post = init ++ [last] :=
    ⟨_, _, (List.dropLast_append_getLast nonempty).symm⟩
  rw [← List.append_assoc, List.append_cons pre f, ← List.append_assoc (pre ++ [f])]
  refine reducesTo_concat_congr ?_ r
  refine foldsOntoTo_append_congr (fun _ => Iff.rfl) fun acc t ends => ?_
  obtain ⟨grows, calm, clear, arrives⟩ := clear acc t (reducesTo_of_foldsOntoTo ends rfl)
  refine foldsOntoTo_append_congr (fun o => ?_) fun _ _ _ _ => Iff.rfl
  rw [foldsOntoTo_singleton_eq]
  exact ((h.mono grows).foldsTo_iff calm clear arrives).symm

/-- At the end of a sentence, behind another word, too. -/
theorem Abbreviates.reducesTo_iff_at_end (h : Abbreviates s f mid) (calm : s.Calm) {pre : List Word}
    (valid : s.Valid p) (unmarked : p ≠ .assignment)
    (r : EStateM.Result Failure Store (Option Word)) :
    ReducesTo s (pre ++ p :: mid) r ↔ ReducesTo s (pre ++ [p, f]) r := by
  obtain ⟨i, stands, found⟩ := h.stands
  obtain ⟨init, last, rfl⟩ : ∃ init last, mid = init ++ [last] :=
    ⟨_, _, (List.dropLast_append_getLast h.nonempty).symm⟩
  rw [← List.cons_append, ← List.append_assoc, List.append_cons pre p [f]]
  refine reducesTo_concat_congr ?_ r
  refine foldsOntoTo_append_congr (fun o => ?_) fun _ _ _ _ => Iff.rfl
  rw [foldsOntoTo_singleton_eq, foldsTo_onto_substitute calm.idle unmarked stands]
  exact (foldsTo_onto_block calm unmarked valid found h.clear).symm

/-- What a sentence comes to is a word that can be read, in a store without faults. -/
theorem calm_after (reachable : s.Reachable) (valid : ∀ w ∈ words, s.Valid w)
    (h : ReducesTo s words (.ok (some v) t)) (idle : t.pending = false)
    (bound : ∀ name w, t.lookup name = some w → t.Unmarked w) (unmarked : t.Unmarked v) :
    s.GrowsTo t ∧ t.Calm ∧ t.Clear v := by
  obtain ⟨⟨depth, result⟩, -⟩ := h
  obtain ⟨c, same⟩ := Store.Shows.of_wellFormed reachable.wellFormed
  obtain ⟨items, parts⟩ := reachable.wellFormed.exists_unfolds_all valid
  have sound := reachable.sound.steps ((stepwise_reduce depth words).of_eq_ok result)
  have agrees := agrees_reduce depth same parts
  rw [result] at agrees
  generalize Deep.reduce depth items c = r at agrees
  cases agrees with
  | ok grows same' value =>
    have calm : t.Calm := ⟨same'.wellFormed, sound, idle, fun found => bound _ _ found⟩
    cases value with
    | some unfolds => exact ⟨grows, calm, calm.wellFormed.clear unfolds.valid unmarked⟩

/-- A block does what its words do, one after the other, and so does a name that is bound to it:
folded onto a word, it comes to the same result in the same store, or to the same error, or neither
comes to an end, unless the word comes to an empty block when it is looked up and reduced. So words
in a sentence can be replaced by their block if others come after them, and from what these come to
the same holds. At the end of a sentence a block is a value of its own; there it can replace the
words if another word comes before them. -/
theorem block_abstracts (reachable : s.Reachable) (idle : s.pending = false)
    (bound : ∀ name w, s.lookup name = some w → s.Unmarked w)
    (stands : s.substitute f = .ok (.block i)) (found : s.blocks[i]? = some mid)
    (nonempty : mid ≠ []) (unmarked : ∀ w ∈ mid, s.Unmarked w) :
    (∀ acc, s.Valid acc → s.Unmarked acc → ¬ ArrivesEmpty s acc →
      ∀ r, FoldsTo s f acc r ↔ FoldsOntoTo s acc mid r) ∧
    (∀ pre post, post ≠ [] → (∀ w ∈ post, s.Valid w) →
      (∀ acc t, ReducesTo s post (.ok (some acc) t) → t.pending = false ∧
        (∀ name w, t.lookup name = some w → t.Unmarked w) ∧ t.Unmarked acc ∧
        ¬ ArrivesEmpty t acc) →
      ∀ r, ReducesTo s (pre ++ mid ++ post) r ↔ ReducesTo s (pre ++ f :: post) r) ∧
    ∀ pre p, s.Valid p → p ≠ .assignment →
      ∀ r, ReducesTo s (pre ++ p :: mid) r ↔ ReducesTo s (pre ++ [p, f]) r := by
  have calm : s.Calm := ⟨reachable.wellFormed, reachable.sound, idle, fun found => bound _ _ found⟩
  have parts : ∀ w ∈ mid, s.Clear w := by
    intro w mem
    have inside : s.Contains (.block i) w := ⟨.block mid, by rw [Store.get?, found]; rfl, mem⟩
    exact calm.wellFormed.clear (calm.wellFormed.parts inside) (unmarked w mem)
  have abbreviates : Abbreviates s f mid := ⟨⟨i, stands, found⟩, nonempty, parts⟩
  refine ⟨?_, ?_, ?_⟩
  · intro acc valid clear arrives r
    exact abbreviates.foldsTo_iff calm (calm.wellFormed.clear valid clear) arrives
  · intro pre post nonempty valid after r
    refine abbreviates.reducesTo_iff nonempty ?_ r
    intro acc t reduces
    obtain ⟨idle, bound, clear, arrives⟩ := after acc t reduces
    obtain ⟨grows, calm, clear⟩ := calm_after reachable valid reduces idle bound clear
    exact ⟨grows, calm, clear, arrives⟩
  · intro pre p valid unmarked r
    exact abbreviates.reducesTo_iff_at_end calm valid unmarked r

/-- Two words in front of a name that is bound to a block, and a name bound to the two in their
place. -/
theorem block_abstracts_in_sentence : ∃ s,
    s = (Source.parse ((Session.mk .empty).run 20 "f: {inc neg}\nn: {5}").2.store "neg f n").2 ∧
    ∃ result t, ReducesTo s [.name 4, .name 1, .name 2, .name 6] (.ok result t) ∧
      ReducesTo s [.name 4, .name 5, .name 6] (.ok result t) := by
  have reachable := (Store.Reachable.empty.run 20 "f: {inc neg}\nn: {5}").parse "neg f n"
  have shape : (fun s : Store => s.bindings = [("f", .block 0), ("n", .block 1)] ∧
      s.pending = false ∧ s.names = #["f", "inc", "neg", "n", "neg", "f", "n"] ∧
      s.blocks = #[[.name 1, .name 2], [.scalar .int 0]] ∧ (s.columns .int).scalars = #[5] ∧
      ((reduce 20 [.name 4, .name 5, .name 6]).result? s).isSome = true)
      (Source.parse ((Session.mk .empty).run 20 "f: {inc neg}\nn: {5}").2.store "neg f n").2 := by
    decide +kernel
  refine ⟨_, rfl, ?_⟩
  revert reachable shape
  generalize (Source.parse ((Session.mk .empty).run 20 "f: {inc neg}\nn: {5}").2.store
    "neg f n").2 = s
  rintro reachable ⟨bindings, idle, names, blocks, ints, succeeds⟩
  have named : s.names[6]? = some "n" := by rw [names]; rfl
  have leads : s.lookup "n" = some (.block 1) := by rw [Store.lookup, bindings]; rfl
  have inc : s.Unfolds (.name 1) (.name "inc") := .name (by rw [names]; rfl)
  have neg : s.Unfolds (.name 2) (.name "neg") := .name (by rw [names]; rfl)
  have n : s.Unfolds (.name 6) (.name "n") := .name named
  have five : s.Unfolds (.scalar .int 0) (.datum (.scalar .int 5)) := .scalar (by rw [ints]; rfl)
  have body : s.blocks[1]? = some [.scalar .int 0] := by rw [blocks]; rfl
  have mid : s.blocks[0]? = some [.name 1, .name 2] := by rw [blocks]; rfl
  have first : s.Unfolds (.block 0) _ := .block mid (.cons inc (.cons neg .nil))
  have second : s.Unfolds (.block 1) _ := .block body (.cons five .nil)
  have unmarked : ∀ {w t}, s.Unfolds w t → ¬ Tree.Inside .assignment t → s.Unmarked w := by
    intro w t unfolds clear u unfolds'
    rwa [unfolds'.unique unfolds]
  have bound : ∀ name w, s.lookup name = some w → s.Unmarked w := by
    intro name w found
    have mem : (name, w) ∈ [("f", Word.block 0), ("n", .block 1)] :=
      bindings ▸ Bindings.mem_of_lookup found
    rcases List.mem_pair.mp mem with eq | eq
    · cases eq
      exact unmarked first (by simp)
    · cases eq
      exact unmarked second (by simp)
  -- The words behind are one name, which the sentence does not look up.
  have alone : ∀ w, ReducesTo s [w] (.ok (some w) s) :=
    fun w => ⟨⟨0, rfl⟩, by rintro _ ⟨⟩⟩
  have arrives : ¬ ArrivesEmpty s (.name 6) := by
    rintro ⟨j, t, unwraps⟩
    cases unwraps with
    | bound named' leads' unwraps =>
      cases named.symm.trans named'
      cases leads.symm.trans leads'
      cases unwraps with
      | value _ block => exact block rfl
      | empty none => cases none.symm.trans body
      | block body' reduces unwraps =>
        cases body.symm.trans body'
        cases reduces.unique (alone (.scalar .int 0))
        cases unwraps
  have after : ∀ acc t, ReducesTo s [.name 6] (.ok (some acc) t) → t.pending = false ∧
      (∀ name w, t.lookup name = some w → t.Unmarked w) ∧ t.Unmarked acc ∧
      ¬ ArrivesEmpty t acc := by
    intro acc t reduces
    cases reduces.unique (alone (.name 6))
    exact ⟨idle, bound, unmarked n (by simp), arrives⟩
  have stands : s.substitute (.name 5) = .ok (.block 0) := by
    have named : s.names[5]? = some "f" := by rw [names]; rfl
    have leads : s.lookup "f" = some (.block 0) := by rw [Store.lookup, bindings]; rfl
    rw [Store.substitute, Store.name_eq_ok named]
    exact congrArg (fun v => Except.ok (v.getD (.name 5))) leads
  have clear : ∀ w ∈ [Word.name 1, .name 2], s.Unmarked w :=
    List.forall_mem_cons.mpr ⟨unmarked inc (by simp),
      List.forall_mem_singleton.mpr (unmarked neg (by simp))⟩
  obtain ⟨result, t, eq⟩ := exists_eq_ok succeeds
  have reduces : ReducesTo s [.name 4, .name 5, .name 6] (.ok result t) :=
    ⟨⟨20, eq⟩, by rintro _ ⟨⟩⟩
  obtain ⟨-, replace, -⟩ :=
    block_abstracts reachable idle bound stands mid (List.cons_ne_nil _ _) clear
  have valid : ∀ w ∈ [Word.name 6], s.Valid w := List.forall_mem_singleton.mpr n.valid
  exact ⟨result, t, (replace [.name 4] [.name 6] (List.cons_ne_nil _ _) valid after _).mpr reduces,
    reduces⟩

end Blocks

end Eval

end Tacit
