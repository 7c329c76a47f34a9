import Mathlib.Data.List.Forall2

/-!
Options, lists and outcomes that are related item by item. Runs that do the same with different
slots are compared through such relations.
-/

namespace Tacit

variable {α β : Type} {R Q : α → β → Prop}

/-! ### Options -/

section Options

variable {a : Option α} {b : Option β}

/-- Options that are related are both empty, or both hold something. -/
theorem rel_cases (h : Option.Rel R a b) :
    (a = none ∧ b = none) ∨ ∃ x y, a = some x ∧ b = some y ∧ R x y := by
  cases h with
  | none => exact .inl ⟨rfl, rfl⟩
  | some related => exact .inr ⟨_, _, rfl, rfl, related⟩

theorem rel_imp (imp : ∀ x y, R x y → Q x y) (h : Option.Rel R a b) : Option.Rel Q a b := by
  cases h with
  | none => exact .none
  | some related => exact .some (imp _ _ related)

/-- Options whose contents have something in common are both related to one option. -/
theorem rel_common_iff {γ : Type} {P : α → γ → Prop} {S : β → γ → Prop} :
    Option.Rel (fun x y => ∃ z, P x z ∧ S y z) a b ↔
      ∃ c, Option.Rel P a c ∧ Option.Rel S b c := by
  constructor
  · intro related
    cases related with
    | none => exact ⟨none, .none, .none⟩
    | some common =>
      obtain ⟨z, left, right⟩ := common
      exact ⟨some z, .some left, .some right⟩
  · rintro ⟨c, left, right⟩
    cases left with
    | none =>
      cases right
      exact .none
    | some left =>
      cases right with
      | some right => exact .some ⟨_, left, right⟩

theorem isSome_eq_of_rel (h : Option.Rel R a b) : a.isSome = b.isSome := by
  cases h with
  | none => rfl
  | some => rfl

end Options

/-! ### Lists -/

section Lists

variable {as : List α} {bs : List β}

/-- Lists that are related are both empty, or both have a first item. -/
theorem related_cases (h : List.Forall₂ R as bs) :
    (as = [] ∧ bs = []) ∨ ∃ a as' b bs', as = a :: as' ∧ bs = b :: bs' ∧ R a b ∧
      List.Forall₂ R as' bs' := by
  cases h with
  | nil => exact .inl ⟨rfl, rfl⟩
  | cons first rest => exact .inr ⟨_, _, _, _, rfl, rfl, first, rest⟩

theorem getElem?_related (h : List.Forall₂ R as bs) (i : Nat) : Option.Rel R as[i]? bs[i]? := by
  induction h generalizing i with
  | nil => exact .none
  | cons first _ ih =>
    cases i with
    | zero => exact .some first
    | succ i => exact ih i

theorem getLast?_related (h : List.Forall₂ R as bs) : Option.Rel R as.getLast? bs.getLast? := by
  rw [List.getLast?_eq_getElem?, List.getLast?_eq_getElem?, h.length_eq]
  exact getElem?_related h _

theorem dropLast_related (h : List.Forall₂ R as bs) : List.Forall₂ R as.dropLast bs.dropLast := by
  rw [List.dropLast_eq_take, List.dropLast_eq_take, h.length_eq]
  exact List.forall₂_take _ h

/-- What follows for the left of each pair holds of all on the left. -/
theorem forall_mem_of_related {P : α → Prop} (h : List.Forall₂ R as bs)
    (imp : ∀ {a b}, R a b → P a) : ∀ a ∈ as, P a := by
  induction h with
  | nil => exact fun _ mem => nomatch mem
  | cons first _ ih => exact List.forall_mem_cons.mpr ⟨imp first, ih⟩

theorem related_imp_of_mem (imp : ∀ a ∈ as, ∀ b ∈ bs, R a b → Q a b)
    (h : List.Forall₂ R as bs) : List.Forall₂ Q as bs := by
  induction h with
  | nil => exact .nil
  | cons first _ ih =>
    exact .cons (imp _ (.head _) _ (.head _) first)
      (ih fun a mem b mem' => imp a (.tail _ mem) b (.tail _ mem'))

/-- Each one on the right has a partner on the left. -/
theorem exists_of_mem_related {b : β} (h : List.Forall₂ R as bs) (mem : b ∈ bs) :
    ∃ a ∈ as, R a b := by
  obtain ⟨i, found⟩ := List.mem_iff_getElem?.mp mem
  rcases rel_cases (getElem?_related h i) with ⟨-, out⟩ | ⟨a, b', found', eq, related⟩
  · rw [out] at found
    cases found
  · cases found.symm.trans eq
    exact ⟨a, List.mem_of_getElem? found', related⟩

/-- Partners for each one on the left make a list of partners. -/
theorem exists_related (h : ∀ a ∈ as, ∃ b, R a b) : ∃ bs, List.Forall₂ R as bs := by
  induction as with
  | nil => exact ⟨[], .nil⟩
  | cons a rest ih =>
    obtain ⟨b, first⟩ := h a (.head _)
    obtain ⟨bs, later⟩ := ih fun a mem => h a (.tail _ mem)
    exact ⟨b :: bs, .cons first later⟩

/-- Items that each have a bound have one in common. -/
theorem exists_bound_all {P : Nat → α → Prop} (mono : ∀ {m n a}, m ≤ n → P m a → P n a)
    (each : ∀ a ∈ as, ∃ n, P n a) : ∃ n, ∀ a ∈ as, P n a := by
  induction as with
  | nil => exact ⟨0, nofun⟩
  | cons a rest ih =>
    obtain ⟨⟨m, first⟩, others⟩ := List.forall_mem_cons.mp each
    obtain ⟨n, later⟩ := ih others
    refine ⟨max m n, List.forall_mem_cons.mpr ⟨mono (Nat.le_max_left m n) first, ?_⟩⟩
    exact fun a mem => mono (Nat.le_max_right m n) (later a mem)

/-- Where items have something in common, lists have something in common item by item. -/
theorem exists_common {γ : Type} {P : α → γ → Prop} {S : β → γ → Prop}
    (common : ∀ {a b}, R a b → ∃ c, P a c ∧ S b c) (h : List.Forall₂ R as bs) :
    ∃ cs, List.Forall₂ P as cs ∧ List.Forall₂ S bs cs := by
  induction h with
  | nil => exact ⟨[], .nil, .nil⟩
  | cons first _ ih =>
    obtain ⟨c, left, right⟩ := common first
    obtain ⟨cs, lefts, rights⟩ := ih
    exact ⟨c :: cs, .cons left lefts, .cons right rights⟩

/-- Relations that chain for the elements chain for the lists. -/
theorem related_trans {γ : Type} {S : β → γ → Prop} {T : α → γ → Prop} {cs : List γ}
    (trans : ∀ a b c, R a b → S b c → T a c) (h : List.Forall₂ R as bs)
    (h' : List.Forall₂ S bs cs) : List.Forall₂ T as cs := by
  induction h generalizing cs with
  | nil =>
    cases h'
    exact .nil
  | cons first _ ih =>
    cases h' with
    | cons first' rest' => exact .cons (trans _ _ _ first first') (ih rest')

/-- What is related to a list is divided as the list is. -/
theorem exists_split {before after : List β} {b : β}
    (h : List.Forall₂ R as (before ++ b :: after)) : ∃ before' a after',
      as = before' ++ a :: after' ∧ List.Forall₂ R before' before ∧ R a b := by
  induction before generalizing as with
  | nil =>
    cases h with
    | cons first _ => exact ⟨[], _, _, rfl, .nil, first⟩
  | cons _ _ ih =>
    cases h with
    | cons first rest =>
      obtain ⟨before', a, after', rfl, earlier, related⟩ := ih rest
      exact ⟨_ :: before', a, after', rfl, .cons first earlier, related⟩

/-- Items that are kept for their positions alone stay related. -/
theorem filter_zipIdx_related (h : List.Forall₂ R as bs) (keep : Nat → Bool) (k : Nat) :
    List.Forall₂ R (((as.zipIdx k).filter fun entry => keep entry.2).map Prod.fst)
      (((bs.zipIdx k).filter fun entry => keep entry.2).map Prod.fst) := by
  induction h generalizing k with
  | nil => exact .nil
  | cons first _ ih =>
    rw [List.zipIdx_cons, List.zipIdx_cons, List.filter_cons, List.filter_cons]
    cases keep k with
    | true => exact .cons first (ih (k + 1))
    | false => exact ih (k + 1)

/-- A function that succeeds on each element succeeds on the list. -/
theorem mapM_eq_ok {ε γ : Type} {f : α → Except ε γ} {g : β → γ} (h : List.Forall₂ R as bs)
    (each : ∀ a b, R a b → f a = .ok (g b)) : as.mapM f = .ok (bs.map g) := by
  induction h with
  | nil => rfl
  | cons first _ ih =>
    rw [List.mapM_cons, each _ _ first, ih]
    rfl

/-- A traversal gives a result for every item, or fails at one. -/
theorem mapM_cases (f : α → Option β) (as : List α) :
    (∃ bs, as.mapM f = some bs ∧ List.Forall₂ (fun a b => f a = some b) as bs) ∨
      (as.mapM f = none ∧ ∃ a ∈ as, f a = none) := by
  induction as with
  | nil => exact .inl ⟨[], rfl, .nil⟩
  | cons a rest ih =>
    rw [List.mapM_cons]
    cases first : f a with
    | none => exact .inr ⟨rfl, a, .head _, first⟩
    | some b =>
      rcases ih with ⟨bs, eq, later⟩ | ⟨eq, a', mem, fails⟩
      · exact .inl ⟨b :: bs, by rw [eq]; rfl, .cons first later⟩
      · exact .inr ⟨by rw [eq]; rfl, a', .tail _ mem, fails⟩

end Lists

/-! ### Outcomes -/

/-- A result that is computed from another one comes from a success. -/
theorem exists_of_bind_eq_ok {ε α β : Type} {r : Except ε α} {f : α → β} {b : β}
    (h : (do return f (← r)) = Except.ok b) : ∃ a, r = .ok a ∧ f a = b := by
  cases r with
  | error e => cases h
  | ok a =>
    cases h
    exact ⟨a, rfl, rfl⟩

/-- Two outcomes of one sort: results that are related by `R`, or errors that are by `E`. -/
inductive OutcomeRel {ε ε' : Type} (E : ε → ε' → Prop) (R : α → β → Prop) :
    Except ε α → Except ε' β → Prop where
  | ok {a : α} {b : β} : R a b → OutcomeRel E R (.ok a) (.ok b)
  | error {e : ε} {e' : ε'} : E e e' → OutcomeRel E R (.error e) (.error e')

/-- Related outcomes both succeed, with related results, or both fail, with related errors. -/
theorem OutcomeRel.cases {ε ε' : Type} {E : ε → ε' → Prop} {r : Except ε α} {r' : Except ε' β}
    (h : OutcomeRel E R r r') : (∃ a b, r = .ok a ∧ r' = .ok b ∧ R a b) ∨
      ∃ e e', r = .error e ∧ r' = .error e' ∧ E e e' := by
  cases h with
  | ok related => exact .inl ⟨_, _, rfl, rfl, related⟩
  | error related => exact .inr ⟨_, _, rfl, rfl, related⟩

theorem OutcomeRel.map {ε ε' γ δ : Type} {E : ε → ε' → Prop} {P : γ → δ → Prop} {r : Except ε α}
    {r' : Except ε' β} {f : α → γ} {g : β → δ} (h : OutcomeRel E R r r')
    (each : ∀ a b, R a b → P (f a) (g b)) : OutcomeRel E P (f <$> r) (g <$> r') := by
  cases h with
  | ok related => exact .ok (each _ _ related)
  | error e => exact .error e

end Tacit
