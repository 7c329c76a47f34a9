import Mathlib.Data.List.Nodup
import Tacit.Builtin.Call

/-!
The odometer gives all choices in their order. The digits that it has turned to are those of the
number of turns, in the mixed radix of the numbers of options, the first digit being the least
significant one.

* `run_start`, `item_start`: what the odometer gives, and that its digits always point at an option.
* `search_start`: so a search goes through the choices in their order.
* `getElem?_choices`: which options a choice is made of, by its position.
* `nodup_choices`: no choice is given twice.
-/

namespace Tacit.Builtin

namespace Odometer

variable {α β : Type}

/-- The readings of the odometer, at most as many as asked for. -/
def run : (count : Nat) → Odometer α → List (Option (List α))
  | 0, _ => []
  | count + 1, o =>
    if o.done then []
    else
      let (digits, done) := turn o.options o.digits
      reading o.options o.digits :: run count ⟨o.options, digits, done⟩

/-! ### Positions -/

/-- The digits that stand for the position of a choice. -/
def digitsAt : List (List α) → Nat → List Nat
  | [], _ => []
  | options :: later, k => k % options.length :: digitsAt later (k / options.length)

theorem digitsAt_zero (options : List (List α)) : digitsAt options 0 = options.map fun _ => 0 := by
  induction options with
  | nil => rfl
  | cons first later ih => simp [digitsAt, ih]

/-- Each list multiplies the number of choices by its length. -/
theorem length_choices_cons (options : List α) (later : List (List α)) :
    (choices (options :: later)).length = (choices later).length * options.length := by
  rw [choices]
  induction choices later with
  | nil => simp
  | cons choice rest ih =>
    rw [List.flatMap_cons, List.length_append, ih, List.length_map, List.length_cons,
      Nat.succ_mul, Nat.add_comm]

/-- The total is the number of choices. -/
theorem length_choices (options : List (List α)) : (choices options).length = total options := by
  induction options with
  | nil => rfl
  | cons first later ih => rw [length_choices_cons, ih, total, Nat.mul_comm]

/-- There is no choice only if some list is empty. -/
theorem length_choices_eq_zero_iff (options : List (List α)) :
    (choices options).length = 0 ↔ options.any List.isEmpty = true := by
  induction options with
  | nil => simp [choices]
  | cons first later ih =>
    rw [length_choices_cons, Nat.mul_eq_zero, ih, List.any_cons, Bool.or_eq_true,
      List.length_eq_zero_iff, List.isEmpty_iff, or_comm]

/-- Counting on by one: either the digit goes up, or it starts again and the rest counts on. -/
theorem succ_mod_div {n : Nat} (pos : 0 < n) (k : Nat) :
    (k % n + 1 < n ∧ (k + 1) % n = k % n + 1 ∧ (k + 1) / n = k / n) ∨
      (k % n + 1 = n ∧ (k + 1) % n = 0 ∧ (k + 1) / n = k / n + 1) := by
  have split : k + 1 = n * (k / n) + (k % n + 1) := by
    rw [← Nat.add_assoc, Nat.div_add_mod]
  rcases Nat.lt_or_eq_of_le (Nat.succ_le_of_lt (Nat.mod_lt k pos)) with lt | eq
  · refine .inl ⟨lt, ?_, ?_⟩
    · rw [split, Nat.mul_add_mod, Nat.mod_eq_of_lt lt]
    · rw [split, Nat.mul_add_div pos, Nat.div_eq_of_lt lt, Nat.add_zero]
  · have eq : k % n + 1 = n := eq
    refine .inr ⟨eq, ?_, ?_⟩
    · rw [split, eq, Nat.mul_add_mod, Nat.mod_self]
    · rw [split, eq, Nat.mul_add_div pos, Nat.div_self pos]

/-- A turn leads to the next position, and full circle after the last. -/
theorem turn_digitsAt {options : List (List α)} {k : Nat} (lt : k < (choices options).length) :
    turn options (digitsAt options k) =
      (digitsAt options (k + 1), decide (k + 1 = (choices options).length)) := by
  induction options generalizing k with
  | nil =>
    have zero : k = 0 := by simpa [choices] using lt
    simp [zero, turn, digitsAt, choices]
  | cons first later ih =>
    rw [length_choices_cons] at lt ⊢
    have pos : 0 < first.length := Nat.pos_of_mul_pos_left (Nat.zero_lt_of_lt lt)
    have lt' : k / first.length < (choices later).length :=
      (Nat.div_lt_iff_lt_mul pos).mpr lt
    rw [digitsAt, digitsAt, turn]
    rcases succ_mod_div pos k with ⟨up, mod, div⟩ | ⟨full, mod, div⟩
    · have more : k + 1 ≠ (choices later).length * first.length := by
        intro eq
        rw [eq, Nat.mul_mod_left] at mod
        omega
      rw [if_pos up, mod, div, decide_eq_false more]
    · have last : k / first.length + 1 = (choices later).length ↔
          k + 1 = (choices later).length * first.length := by
        rw [← div, Nat.div_eq_iff_eq_mul_left pos (Nat.dvd_of_mod_eq_zero mod)]
      rw [if_neg (by omega), ih lt', mod, div]
      simp only [last]

/-! ### Readings -/

theorem getElem?_flatMap_map {β : Type} (options : List α) (f : β → α → List α)
    (pos : 0 < options.length) (later : List β) (k : Nat) :
    (later.flatMap fun b => options.map (f b))[k]? =
      later[k / options.length]?.bind fun b => options[k % options.length]?.map (f b) := by
  induction later generalizing k with
  | nil => rfl
  | cons b rest ih =>
    rw [List.flatMap_cons]
    by_cases lt : k < options.length
    · rw [List.getElem?_append_left (by simpa using lt), Nat.div_eq_of_lt lt, Nat.mod_eq_of_lt lt,
        List.getElem?_map]
      rfl
    · have ge : options.length ≤ k := Nat.le_of_not_lt lt
      rw [List.getElem?_append_right (by simpa using ge), List.length_map, ih,
        Nat.div_eq_sub_div pos ge, ← Nat.mod_eq_sub_mod ge]
      rfl

/-- At its position, each choice is what the digits point at. -/
theorem reading_digitsAt {options : List (List α)} {k : Nat} (lt : k < (choices options).length) :
    reading options (digitsAt options k) = (choices options)[k]? := by
  induction options generalizing k with
  | nil =>
    have zero : k = 0 := by simpa [choices] using lt
    subst zero
    rfl
  | cons first later ih =>
    rw [length_choices_cons] at lt
    have pos : 0 < first.length := Nat.pos_of_mul_pos_left (Nat.zero_lt_of_lt lt)
    have lt' : k / first.length < (choices later).length :=
      (Nat.div_lt_iff_lt_mul pos).mpr lt
    rw [choices, getElem?_flatMap_map first (fun choice x => x :: choice) pos, ← ih lt']
    have found : first[k % first.length]? = some _ :=
      List.getElem?_eq_getElem (Nat.mod_lt k pos)
    rw [reading, digitsAt, List.zip_cons_cons, List.mapM_cons, ← reading, found]
    rfl

/-- From any position on, the odometer gives the choices that are left. -/
theorem run_digitsAt (options : List (List α)) (count : Nat) {k : Nat}
    (le : k ≤ (choices options).length) :
    run count ⟨options, digitsAt options k, decide (k = (choices options).length)⟩ =
      (((choices options).drop k).take count).map some := by
  induction count generalizing k with
  | zero => rfl
  | succ count ih =>
    rcases Nat.lt_or_eq_of_le le with lt | eq
    · rw [run, decide_eq_false (Nat.ne_of_lt lt), if_neg Bool.false_ne_true]
      simp only [turn_digitsAt lt, reading_digitsAt lt]
      rw [ih (Nat.succ_le_of_lt lt), List.drop_eq_getElem_cons lt, List.take_succ_cons,
        List.map_cons, List.getElem?_eq_getElem lt]
    · rw [run, decide_eq_true eq, if_pos rfl, eq, List.drop_length]
      rfl

/-- The odometer gives the choices in their order, as many as asked for, and no digit ever points
beyond its options. -/
theorem run_start (options : List (List α)) (count : Nat) :
    run count (start options) = ((choices options).take count).map some := by
  have done : options.any List.isEmpty = decide (0 = (choices options).length) := by
    rw [Bool.eq_iff_iff, decide_eq_true_iff, ← length_choices_eq_zero_iff]
    exact eq_comm
  rw [start, ← digitsAt_zero, done, run_digitsAt options count (Nat.zero_le _), List.drop_zero]

/-! ### Searches -/

/-- A search finds the first hit among what the odometer shows. -/
theorem search_eq_run (o : Odometer α) (f : List α → Option β) (limit : Nat) :
    o.search f limit = (run limit o).findSome? (·.bind f) := by
  induction limit generalizing o with
  | zero => rfl
  | succ limit ih =>
    rw [search, run, next]
    cases o.done with
    | true => rfl
    | false =>
      simp only [Bool.false_eq_true, if_false, List.findSome?_cons, ih]
      cases (reading o.options o.digits).bind f <;> rfl

/-- A search that may go through all choices finds the first that gives anything. -/
theorem search_start (options : List (List α)) (f : List α → Option β) :
    (start options).search f (total options) = (choices options).findSome? f := by
  rw [search_eq_run, run_start, ← length_choices, List.take_length, List.findSome?_map]
  rfl

/-! ### One turn after the other -/

def skip (o : Odometer α) : Nat → Odometer α
  | 0 => o
  | k + 1 => (o.skip k).next.2

def item (o : Odometer α) (k : Nat) : Option (Option (List α)) := (o.skip k).next.1

/-- At each turn the odometer shows the choice of that number, and it is over after the last one. -/
theorem next_digitsAt {options : List (List α)} {k : Nat} (lt : k < (choices options).length) :
    next ⟨options, digitsAt options k, false⟩ =
      (some (choices options)[k]?, ⟨options, digitsAt options (k + 1),
        decide (k + 1 = (choices options).length)⟩) := by
  simp only [next, Bool.false_eq_true, if_false, turn_digitsAt lt, reading_digitsAt lt]

/-- The digits count the turns, up to the number of choices. There they stop. -/
theorem skip_start (options : List (List α)) (k : Nat) :
    (start options).skip k = ⟨options, digitsAt options (min k (choices options).length),
      decide ((choices options).length ≤ k)⟩ := by
  induction k with
  | zero =>
    have done : options.any List.isEmpty = decide ((choices options).length ≤ 0) := by
      rw [Bool.eq_iff_iff, decide_eq_true_iff, ← length_choices_eq_zero_iff, Nat.le_zero]
    rw [skip, start, Nat.zero_min, digitsAt_zero, done]
  | succ k ih =>
    rw [skip, ih]
    by_cases le : (choices options).length ≤ k
    · simp only [next, decide_eq_true le, if_true, Nat.min_eq_right le,
        Nat.min_eq_right (Nat.le_succ_of_le le), decide_eq_true (Nat.le_succ_of_le le)]
    · have lt : k < (choices options).length := Nat.lt_of_not_le le
      have last : k + 1 = (choices options).length ↔ (choices options).length ≤ k + 1 := by omega
      simp only [decide_eq_false le, Nat.min_eq_left (Nat.le_of_lt lt), next_digitsAt lt,
        Nat.min_eq_left (Nat.succ_le_of_lt lt), last]

/-- After each number of turns the odometer reads the choice with that position, as long as there
is one, and nothing from then on. -/
theorem item_start (options : List (List α)) (k : Nat) :
    (start options).item k = (choices options)[k]?.map some := by
  rw [item, skip_start]
  by_cases le : (choices options).length ≤ k
  · rw [decide_eq_true le, List.getElem?_eq_none le]
    rfl
  · have lt : k < (choices options).length := Nat.lt_of_not_le le
    rw [decide_eq_false le, Nat.min_eq_left (Nat.le_of_lt lt), next_digitsAt lt,
      List.getElem?_eq_getElem lt]
    rfl

/-! ### Choices by their positions -/

/-- A choice takes from each list the option that the digit of its position points at. -/
theorem getElem?_choices {options : List (List α)} {choice : List α} {k : Nat}
    (found : (choices options)[k]? = some choice) (p : Nat) :
    choice[p]? = options[p]?.bind fun list =>
      list[k / total (options.take p) % list.length]? := by
  induction options generalizing k choice p with
  | nil =>
    obtain rfl : choice = [] := by simpa [choices] using List.mem_of_getElem? found
    rfl
  | cons first later ih =>
    obtain ⟨lt, -⟩ := List.getElem?_eq_some_iff.mp found
    rw [length_choices_cons] at lt
    have pos : 0 < first.length := Nat.pos_of_mul_pos_left (Nat.zero_lt_of_lt lt)
    rw [choices, getElem?_flatMap_map first (fun choice x => x :: choice) pos] at found
    obtain ⟨rest, found', picked⟩ := Option.bind_eq_some_iff.mp found
    obtain ⟨x, picked', rfl⟩ := Option.map_eq_some_iff.mp picked
    cases p with
    | zero => simpa [total] using picked'.symm
    | succ p =>
      simp only [List.getElem?_cons_succ, List.take_succ_cons, total, ← Nat.div_div_eq_div_mul]
      exact ih found' p

/-- Choices from lists without repetition are all different. -/
theorem nodup_choices {options : List (List α)} (each : ∀ list ∈ options, list.Nodup) :
    (choices options).Nodup := by
  induction options with
  | nil => exact List.nodup_singleton []
  | cons first later ih =>
    obtain ⟨nodup, each⟩ := List.forall_mem_cons.mp each
    rw [choices, List.nodup_flatMap]
    refine ⟨fun choice _ => nodup.map fun x y eq => (List.cons.inj eq).1, ?_⟩
    -- Choices from the first list differ in what follows.
    refine (ih each).imp ?_
    intro choice choice' ne c mem mem'
    obtain ⟨x, -, rfl⟩ := List.mem_map.mp mem
    obtain ⟨y, -, eq⟩ := List.mem_map.mp mem'
    exact ne (List.cons.inj eq).2.symm

end Odometer

end Tacit.Builtin
