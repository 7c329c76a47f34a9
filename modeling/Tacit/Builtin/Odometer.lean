/-!
Choices one at a time. A search through all choices of one option from each of several lists turns
through them like an odometer, which has one digit for each list and whose first digit turns
fastest. It can stop where it likes, and knows the choice that it is at but no other.
-/

namespace Tacit.Builtin

/-- One digit for each list of options. -/
structure Odometer (α : Type) where
  options : List (List α)
  digits : List Nat
  /-- All choices have been given. -/
  done : Bool

namespace Odometer

variable {α β : Type}

/-- All digits point at the first option; without one, there is no choice to give. -/
def start (options : List (List α)) : Odometer α :=
  ⟨options, options.map fun _ => 0, options.any List.isEmpty⟩

/-- The options that the digits point at; none if a digit points beyond the last option. -/
def reading (options : List (List α)) (digits : List Nat) : Option (List α) :=
  (digits.zip options).mapM fun entry => entry.2[entry.1]?

/-- The digits after the first one is turned on by one, and whether all have come full circle. -/
def turn : List (List α) → List Nat → List Nat × Bool
  | options :: later, digit :: digits =>
    if digit + 1 < options.length then ((digit + 1) :: digits, false)
    else (0 :: (turn later digits).1, (turn later digits).2)
  | _, digits => (digits, true)

/-- What the odometer reads, and the odometer after one turn. Once it is done it reads nothing and
turns no more. -/
def next (o : Odometer α) : Option (Option (List α)) × Odometer α :=
  if o.done then (none, o)
  else
    let (digits, done) := turn o.options o.digits
    (some (reading o.options o.digits), ⟨o.options, digits, done⟩)

def total : List (List α) → Nat
  | [] => 1
  | options :: later => options.length * total later

/-- What the first choice gives that gives anything, among as many as the limit says. -/
def search (o : Odometer α) (f : List α → Option β) : (limit : Nat) → Option β
  | 0 => none
  | limit + 1 =>
    match o.next with
    | (none, _) => none
    | (some choice, later) =>
      match choice.bind f with
      | some b => some b
      | none => search later f limit

end Odometer

end Tacit.Builtin
