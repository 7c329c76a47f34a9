import Tacit.Builtin.Call
import Tacit.Proofs.Pointwise

/-!
Operations on scalars, applied to arrays. The slice of arguments at an index has the element with
that index in place of each array, and keeps the scalars.

* `zip_cases`: operands of which one is an array are matched pair by pair, in their order.
* `apply_elementwise`: what an operation makes of arrays is told by what it makes of the slices.
-/

namespace Tacit.Builtin

/-! ### Operands -/

namespace Operand

variable {α β : Type} {p q : Operand α}

/-- The operand at an index. One scalar serves at all of them. -/
def get? (i : Nat) : Operand α → Option α
  | .one x => some x
  | .many xs => xs[i]?

def isMany : Operand α → Bool
  | .one _ => false
  | .many _ => true

/-- An array has so many elements. A scalar is as long as is asked for. -/
def HasLength (n : Nat) : Operand α → Prop
  | .one _ => True
  | .many xs => xs.length = n

/-- An operand of some length has an element at each index below it. -/
theorem exists_get? {n i : Nat} (length : p.HasLength n) (lt : i < n) : ∃ x, p.get? i = some x := by
  cases p with
  | one x => exact ⟨x, rfl⟩
  | many xs => exact ⟨_, List.getElem?_eq_getElem (length.symm ▸ lt)⟩

/-- The pairs that two operands of one length are matched in. -/
structure Pairs (p q : Operand α) (pairs : List (α × α)) : Prop where
  left : p.HasLength pairs.length
  right : q.HasLength pairs.length
  get?_eq_some : ∀ {i x y}, pairs[i]? = some (x, y) → p.get? i = some x ∧ q.get? i = some y

/-- A scalar is paired with every element of an array. -/
theorem pairs_one_many (x : α) (ys : List α) :
    Pairs (.one x) (.many ys) (ys.map fun y => (x, y)) := by
  refine ⟨trivial, (List.length_map _).symm, ?_⟩
  intro i x' y found
  rw [List.getElem?_map, Option.map_eq_some_iff] at found
  obtain ⟨y', found', eq⟩ := found
  cases eq
  exact ⟨rfl, found'⟩

/-- Every element of an array is paired with a scalar. -/
theorem pairs_many_one (xs : List α) (y : α) :
    Pairs (.many xs) (.one y) (xs.map fun x => (x, y)) := by
  refine ⟨(List.length_map _).symm, trivial, ?_⟩
  intro i x y' found
  rw [List.getElem?_map, Option.map_eq_some_iff] at found
  obtain ⟨x', found', eq⟩ := found
  cases eq
  exact ⟨found', rfl⟩

/-- Arrays of the same length are paired index by index. -/
theorem pairs_many_many {xs ys : List α} (same : xs.length = ys.length) :
    Pairs (.many xs) (.many ys) (xs.zip ys) := by
  have length : (xs.zip ys).length = xs.length := by simp [same]
  refine ⟨length.symm, same.symm.trans length.symm, ?_⟩
  intro i x y found
  exact List.getElem?_zip_eq_some.mp found

/-- Two operands of which one is an array: either their elements are paired, or they are arrays of
different lengths. -/
theorem zip_cases (f : α → α → Option β) (many : p.isMany || q.isMany) :
    (∃ pairs, Pairs p q pairs ∧
      zip f p q = defined ((pairs.mapM fun pair => f pair.1 pair.2).map .many)) ∨
    ∃ left right, zip f p q = .error (.lengthMismatch left right) ∧
      ∀ n, p.HasLength n → ¬ q.HasLength n := by
  cases p with
  | one x =>
    cases q with
    | one y => cases many
    | many ys =>
      refine .inl ⟨_, pairs_one_many x ys, ?_⟩
      rw [List.mapM_map]
      rfl
  | many xs =>
    cases q with
    | one y =>
      refine .inl ⟨_, pairs_many_one xs y, ?_⟩
      rw [List.mapM_map]
      rfl
    | many ys =>
      by_cases same : xs.length = ys.length
      · exact .inl ⟨_, pairs_many_many same, if_pos same⟩
      · refine .inr ⟨xs.length, ys.length, if_neg same, ?_⟩
        intro n left right
        exact same (left.trans right.symm)

end Operand

/-! ### Arguments -/

namespace Argument

def isArray : Argument → Bool
  | .datum (.array _ _) => true
  | _ => false

/-- The argument at an index: the element of an array, and any other argument itself. Beyond the
end of an array there is none. -/
def slice (i : Nat) : Argument → Argument
  | .datum (.array e xs) => xs[i]?.elim .other fun x => .datum (.scalar e x)
  | x => x

/-- An array has so many elements. -/
def HasLength (n : Nat) : Argument → Prop
  | .datum (.array _ xs) => xs.length = n
  | _ => True

variable {x : Argument} {e : Elem} {p : Operand e.Carrier}

theorem exists_of_isArray (h : x.isArray = true) : ∃ e xs, x = .datum (.array e xs) := by
  cases x with
  | datum d =>
    cases d with
    | scalar => cases h
    | array e xs => exact ⟨e, xs, rfl⟩
  | function | other => cases h

/-- An operand is read of a scalar, or of an array of just the type that is asked for. -/
theorem operand?_eq_some (h : x.operand? e = some p) :
    (∃ e' u v, x = .datum (.scalar e' u) ∧ e'.convert? e u = some v ∧ p = .one v) ∨
      ∃ xs, x = .datum (.array e xs) ∧ p = .many xs := by
  cases x with
  | datum d =>
    cases d with
    | scalar e' u =>
      obtain ⟨v, eq, rfl⟩ := Option.map_eq_some_iff.mp h
      exact .inl ⟨e', u, v, rfl, eq, rfl⟩
    | array e' xs =>
      obtain ⟨ys, eq, rfl⟩ := Option.map_eq_some_iff.mp h
      cases e' <;> cases e <;> cases eq <;> exact .inr ⟨_, rfl, rfl⟩
  | function | other => cases h

theorem isMany_eq_isArray (h : x.operand? e = some p) : p.isMany = x.isArray := by
  rcases operand?_eq_some h with ⟨e', u, v, rfl, -, rfl⟩ | ⟨xs, rfl, rfl⟩ <;> rfl

/-- The length of an argument is that of the operand that it is. -/
theorem hasLength_iff (h : x.operand? e = some p) {n : Nat} : x.HasLength n ↔ p.HasLength n := by
  rcases operand?_eq_some h with ⟨e', u, v, rfl, -, rfl⟩ | ⟨xs, rfl, rfl⟩ <;> exact Iff.rfl

/-- The slice of an operand is its element there. -/
theorem operand?_slice (h : x.operand? e = some p) {i : Nat} {v : e.Carrier}
    (get : p.get? i = some v) : (x.slice i).operand? e = some (.one v) := by
  rcases operand?_eq_some h with ⟨e', u, v', rfl, -, rfl⟩ | ⟨xs, rfl, rfl⟩
  · cases get
    exact h
  · have get : xs[i]? = some v := get
    rw [slice, get]
    cases e <;> rfl

end Argument

/-- The arrays among arguments have one length. -/
def Aligned (args : List Argument) (n : Nat) : Prop := ∀ x ∈ args, x.HasLength n

/-- An outcome for arrays, told by the outcomes at each index. -/
inductive Elementwise (args : List Argument) (slice : Nat → Except OperationError Datum → Prop) :
    Except OperationError Datum → Prop where
  | ok {e : Elem} {zs : List e.Carrier} : Aligned args zs.length →
      (∀ i z, zs[i]? = some z → slice i (.ok (.scalar e z))) →
      Elementwise args slice (.ok (.array e zs))
  | divisionByZero {n i : Nat} : Aligned args n → i < n → slice i (.error .divisionByZero) →
      Elementwise args slice (.error .divisionByZero)
  | lengthMismatch {left right : Nat} : (∀ n, ¬ Aligned args n) →
      Elementwise args slice (.error (.lengthMismatch left right))

/-- What follows for each slice follows for the whole. -/
theorem Elementwise.imp {args : List Argument} {P Q : Nat → Except OperationError Datum → Prop}
    {result : Except OperationError Datum} (h : Elementwise args P result)
    (imp : ∀ {n i r}, Aligned args n → i < n → P i r → Q i r) : Elementwise args Q result := by
  cases h with
  | ok aligned each =>
    exact .ok aligned fun i z found =>
      imp aligned (List.getElem?_eq_some_iff.mp found).1 (each i z found)
  | divisionByZero aligned lt fails => exact .divisionByZero aligned lt (imp aligned lt fails)
  | lengthMismatch never => exact .lengthMismatch never

/-- With an array among the arguments, they have at most one length. -/
theorem Aligned.unique {args : List Argument} (array : ∃ x ∈ args, x.isArray = true) {n m : Nat}
    (h : Aligned args n) (h' : Aligned args m) : n = m := by
  obtain ⟨x, mem, isArray⟩ := array
  obtain ⟨e, xs, rfl⟩ := Argument.exists_of_isArray isArray
  exact (h _ mem).symm.trans (h' _ mem)

/-- What fails for a zero divisor at one index, fails for it on the whole. -/
theorem Elementwise.eq_divisionByZero {args : List Argument}
    {P : Nat → Except OperationError Datum → Prop} {outcome : Except OperationError Datum}
    (h : Elementwise args P outcome) (array : ∃ x ∈ args, x.isArray = true) {n i : Nat}
    (aligned : Aligned args n) (lt : i < n)
    (fails : ∀ {r}, P i r → r = .error .divisionByZero) : outcome = .error .divisionByZero := by
  cases h with
  | @ok e zs aligned' each =>
    obtain rfl := aligned.unique array aligned'
    cases fails (each i zs[i] (List.getElem?_eq_getElem lt))
  | divisionByZero => rfl
  | lengthMismatch never => exact absurd aligned (never n)

/-! ### Operations -/

section Operations

variable {a r : Elem} {x y : Argument}

/-- An operation on one scalar is applied to each element of its operand. -/
theorem apply_map {f : a.Carrier → r.Carrier} {p : Operand a.Carrier}
    (hx : x.operand? a = some p) :
    Operation.apply? (.map a r f) [x] = some (.ok ((p.map f).datum r)) := by
  simp [hx, Operation.apply?]

/-- An operation on two scalars is applied to the pairs of its operands. -/
theorem apply_zip {f : a.Carrier → a.Carrier → Option r.Carrier} {p q : Operand a.Carrier}
    (hx : x.operand? a = some p) (hy : y.operand? a = some q) :
    Operation.apply? (.zip a r f) [x, y] = some ((Operand.zip f p q).map (·.datum r)) := by
  simp [hx, hy, Operation.apply?]

/-- Of two scalars there is one pair. -/
theorem apply_zip_ones {f : a.Carrier → a.Carrier → Option r.Carrier} {u v : a.Carrier}
    (hx : x.operand? a = some (.one u)) (hy : y.operand? a = some (.one v)) :
    Operation.apply? (.zip a r f) [x, y] = some (defined ((f u v).map (.scalar r))) := by
  rw [apply_zip hx hy, Operand.zip]
  cases f u v <;> rfl

/-- An operation on one scalar makes of an array what it makes of the slices. -/
theorem map_elementwise {f : a.Carrier → r.Carrier} {p : Operand a.Carrier}
    (hx : x.operand? a = some p) (many : p.isMany = true) :
    Elementwise [x] (fun i outcome => Operation.apply? (.map a r f) [x.slice i] = some outcome)
      (.ok ((p.map f).datum r)) := by
  cases p with
  | one => cases many
  | many xs =>
    refine .ok (List.forall_mem_singleton.mpr ?_) fun i z found => ?_
    · exact (Argument.hasLength_iff hx).mpr (List.length_map _).symm
    · rw [List.getElem?_map, Option.map_eq_some_iff] at found
      obtain ⟨v, get, rfl⟩ := found
      exact apply_map (Argument.operand?_slice hx get)

/-- An operation on two scalars makes of operands what it makes of their slices. -/
theorem zip_elementwise {f : a.Carrier → a.Carrier → Option r.Carrier} {p q : Operand a.Carrier}
    (hx : x.operand? a = some p) (hy : y.operand? a = some q) (many : p.isMany || q.isMany) :
    Elementwise [x, y]
      (fun i outcome => Operation.apply? (.zip a r f) [x.slice i, y.slice i] = some outcome)
      ((Operand.zip f p q).map (·.datum r)) := by
  have aligned_iff : ∀ {n}, Aligned [x, y] n ↔ p.HasLength n ∧ q.HasLength n := by
    intro n
    rw [Aligned, List.forall_mem_cons, List.forall_mem_singleton, Argument.hasLength_iff hx,
      Argument.hasLength_iff hy]
  rcases Operand.zip_cases f many with ⟨pairs, paired, eq⟩ | ⟨left, right, eq, never⟩
  · have aligned : Aligned [x, y] pairs.length := aligned_iff.mpr ⟨paired.left, paired.right⟩
    have slices : ∀ {i pair}, pairs[i]? = some pair →
        Operation.apply? (.zip a r f) [x.slice i, y.slice i] =
          some (defined ((f pair.1 pair.2).map (.scalar r))) := by
      intro i pair found
      obtain ⟨left, right⟩ := paired.get?_eq_some found
      exact apply_zip_ones (Argument.operand?_slice hx left) (Argument.operand?_slice hy right)
    rw [eq]
    rcases mapM_cases (fun pair => f pair.1 pair.2) pairs with
      ⟨zs, eq, each⟩ | ⟨eq, pair, mem, fails⟩
    · rw [eq]
      refine .ok (each.length_eq ▸ aligned) fun i z found => ?_
      rcases rel_cases (getElem?_related each i) with ⟨-, out⟩ | ⟨pair, z', found', eq', gives⟩
      · cases out.symm.trans found
      · cases eq'.symm.trans found
        rw [slices found', gives]
        rfl
    · obtain ⟨i, found⟩ := List.mem_iff_getElem?.mp mem
      rw [eq]
      refine .divisionByZero aligned (List.getElem?_eq_some_iff.mp found).1 ?_
      rw [slices found, fails]
      rfl
  · rw [eq]
    exact .lengthMismatch fun n aligned => never n (aligned_iff.mp aligned).1
      (aligned_iff.mp aligned).2

end Operations

section Scalars

variable {op : Operation} {args : List Argument} {e : Elem}
  (params : op.signature.params = args.map fun _ => .scalar e)
  (result : op.signature.result.isScalar = true)

include params result

/-- An operation on scalars takes one or two. -/
theorem scalars_cases :
    (∃ r f x, op = .map e r f ∧ args = [x]) ∨ ∃ r f x y, op = .zip e r f ∧ args = [x, y] := by
  cases op with
  | map a r f =>
    obtain ⟨x, rest, rfl, type, eq⟩ := List.map_eq_cons_iff.mp params.symm
    obtain rfl := List.map_eq_nil_iff.mp eq
    cases type
    exact .inl ⟨r, f, x, rfl, rfl⟩
  | zip a r f =>
    obtain ⟨x, rest, rfl, type, eq⟩ := List.map_eq_cons_iff.mp params.symm
    obtain ⟨y, rest, rfl, -, eq⟩ := List.map_eq_cons_iff.mp eq
    obtain rfl := List.map_eq_nil_iff.mp eq
    cases type
    exact .inr ⟨r, f, x, y, rfl, rfl⟩
  | generate | rearrange | scan => cases result
  | collapse | fold =>
    obtain ⟨x, rest, rfl, type, -⟩ := List.map_eq_cons_iff.mp params.symm
    cases type

/-- No lengths are compared where all arguments are scalars. -/
theorem fits_of_ones {outcome : Except OperationError Datum}
    (ones : ∀ x ∈ args, ∃ v, x.operand? e = some (.one v))
    (applied : op.apply? args = some outcome) (left right : Nat) :
    outcome ≠ .error (.lengthMismatch left right) := by
  rcases scalars_cases params result with ⟨r, f, x, rfl, rfl⟩ | ⟨r, f, x, y, rfl, rfl⟩
  · obtain ⟨v, hx⟩ := ones x (.head _)
    cases (apply_map hx).symm.trans applied
    nofun
  · obtain ⟨u, hx⟩ := ones x (.head _)
    obtain ⟨v, hy⟩ := ones y (.tail _ (.head _))
    cases (apply_zip_ones hx hy).symm.trans applied
    cases f u v <;> nofun

/-- What an operation on scalars makes of arguments with an array among them. -/
theorem apply_elementwise (operands : ∀ x ∈ args, ∃ p, x.operand? e = some p)
    (array : ∃ x ∈ args, x.isArray = true) :
    ∃ outcome, op.apply? args = some outcome ∧
      Elementwise args (fun i r => op.apply? (args.map (·.slice i)) = some r) outcome := by
  rcases scalars_cases params result with ⟨r, f, x, rfl, rfl⟩ | ⟨r, f, x, y, rfl, rfl⟩
  · obtain ⟨p, hx⟩ := operands x (.head _)
    have many : p.isMany = true := by simpa [Argument.isMany_eq_isArray hx] using array
    exact ⟨_, apply_map hx, map_elementwise hx many⟩
  · obtain ⟨p, hx⟩ := operands x (.head _)
    obtain ⟨q, hy⟩ := operands y (.tail _ (.head _))
    have many : (p.isMany || q.isMany) = true := by
      simpa [Argument.isMany_eq_isArray hx, Argument.isMany_eq_isArray hy] using array
    exact ⟨_, apply_zip hx hy, zip_elementwise hx hy many⟩

end Scalars

end Tacit.Builtin
