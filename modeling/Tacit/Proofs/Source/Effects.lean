import Tacit.Proofs.Source.Derivable

/-!
What a parse puts into the store, also when it fails. Up to the lexeme that is refused, the lexemes
begin a derivation, and they make what this derivation says they do: each literal outside of array
literals and each name when it is read, each array literal and each group when it is closed.

* `Run.scalars_eq`, `Run.names_eq`, `Run.arrays_eq`: scalars, names and arrays, in source order.
* `exists_build_of_feed`: what is consumed begins a derivation, and makes what it says.
* `parse_gains`: what every column gains, and that nothing else changes.
-/

namespace Tacit

namespace Source

/-! ### Scalars, names and arrays -/

def literal? (e : Elem) : Token → Option e.Carrier
  | .literal e' x => if h : e' = e then some (h ▸ x) else none
  | _ => none

def name? : Token → Option String
  | .name text => some text
  | _ => none

/-- The literals of a type that stand outside of array literals. -/
def literals (e : Elem) : (inside : Bool) → List Lexeme → List e.Carrier
  | _, [] => []
  | inside, l :: rest =>
    match l.token with
    | .symbol .openParen => literals e true rest
    | .symbol .closeParen => literals e false rest
    | token => (if inside then [] else (literal? e token).toList) ++ literals e inside rest

def names : List Lexeme → List String
  | [] => []
  | l :: rest => (name? l.token).toList ++ names rest

/-- The array literals of a type that are closed. Inside of one, its elements so far are given. -/
def arrays (e : Elem) : Option (List e.Carrier) → List Lexeme → List (List e.Carrier)
  | _, [] => []
  | inside, l :: rest =>
    match l.token with
    | .symbol .openParen => arrays e (some []) rest
    | .symbol .closeParen => inside.toList.filter (!·.isEmpty) ++ arrays e none rest
    | token => arrays e (inside.map (· ++ (literal? e token).toList)) rest

def Elements.ofType (e : Elem) : Elements → List e.Carrier
  | .empty => []
  | .some e' reversed => if h : e' = e then h ▸ reversed.reverse else []

def madeOf (k : Kind) (made : List (Option Value)) : List Value :=
  made.reduceOption.filter (·.kind = k)

section MadeOf

variable {k : Kind} (made : List (Option Value))

@[simp] theorem madeOf_nil : madeOf k [] = [] := rfl

@[simp] theorem madeOf_none : madeOf k (none :: made) = madeOf k made := rfl

@[simp] theorem madeOf_some (v : Value) :
    madeOf k (some v :: made) = if v.kind = k then v :: madeOf k made else madeOf k made := by
  simp [madeOf, List.filter_cons]

end MadeOf

namespace Parser

variable {q r : Parser} {lexemes : List Lexeme} {made : List (Option Value)}

/-- Every name that is read makes a name, in source order. -/
theorem Run.names_eq (h : Run q lexemes made r) :
    madeOf .name made = (names lexemes).map .name := by
  induction h with
  | nil => rfl
  | cons asks _ ih =>
    cases asks with
    | @closeGroup group _ _ _ token =>
      obtain ⟨shape, line, outer⟩ := group
      cases shape <;> simp [value, names, name?, token, Shape.value, Value.kind, ih]
    | literal _ token | name _ token | placeholder _ token | colon _ token | openArray _ token
    | openGroup _ token | newline _ _ token | first _ token | next _ token | closeArray _ token =>
      simp [value, names, name?, token, Value.kind, ih]

/-- The scalars of a type that are made are the literals outside of array literals, in source
order. -/
theorem Run.scalars_eq (h : Run q lexemes made r) (e : Elem) :
    madeOf (.scalar e) made =
      (literals e q.array.isSome lexemes).map fun x => .datum (.scalar e x) := by
  induction h with
  | nil => rfl
  | cons asks _ ih =>
    cases asks with
    | @closeGroup group _ outside _ token =>
      obtain ⟨shape, line, outer⟩ := group
      cases shape <;>
        simp [value, apply, outside, literals, literal?, token, Shape.value, Shape.closer, Value.kind,
          ih]
    | @openGroup k outside token =>
      cases k <;> simp [value, apply, outside, literals, literal?, token, Enclosure.opener, ih]
    | @literal e' x outside token =>
      by_cases same : e' = e
      · subst same
        simp [value, apply, outside, literals, literal?, token, Value.kind, ih]
      · simp [value, apply, outside, literals, literal?, token, Value.kind, same, ih]
    | newline outside _ token =>
      simp [value, apply, endSentence_eq, outside, literals, literal?, token, ih]
    | name outside token | placeholder outside token | colon outside token
    | openArray outside token | first outside token | next outside token
    | closeArray outside token =>
      simp [value, apply, outside, literals, literal?, token, Value.kind, ih]

/-- An array literal whose type is fixed has an element. -/
def Full (q : Parser) : Prop :=
  ∀ line e reversed, q.array = some ⟨line, .some e reversed⟩ → reversed ≠ []

/-- An array literal that a lexeme leaves open has an element as soon as it has a type. -/
theorem Asks.full {l : Lexeme} {a : Action} (asks : Asks q l a) (full : q.Full) :
    (q.apply a).Full := by
  intro line e reversed inside
  cases asks with
  | newline outside =>
    rw [apply, endSentence_eq] at inside
    exact full line e reversed inside
  | literal | openArray | closeArray => cases inside
  | first | next =>
    cases inside
    simp
  | name | placeholder | colon | openGroup | closeGroup => exact full line e reversed inside

/-- The arrays of a type that are made are the array literals that are closed, in source order. -/
theorem Run.arrays_eq (h : Run q lexemes made r) (full : q.Full) (e : Elem) :
    madeOf (.array e) made = (arrays e (q.array.map fun array => array.elements.ofType e)
      lexemes).map fun xs => .datum (.array e xs) := by
  induction h with
  | nil => rfl
  | cons asks _ ih =>
    have ih := ih (asks.full full)
    cases asks with
    | @closeGroup group _ outside _ token =>
      obtain ⟨shape, line, outer⟩ := group
      cases shape <;>
        simp [value, apply, outside, arrays, token, Shape.value, Shape.closer, Value.kind, ih]
    | @openGroup k outside token =>
      cases k <;> simp [value, apply, outside, arrays, token, Enclosure.opener, ih]
    | newline outside _ token =>
      simp [value, apply, endSentence_eq, outside, arrays, token, ih]
    | name outside token | placeholder outside token | colon outside token
    | literal outside token | openArray outside token =>
      simp [value, apply, outside, arrays, token, Value.kind, Elements.ofType, ih]
    | @first e' x line inside token =>
      by_cases same : e' = e
      · subst same
        simp [value, apply, inside, arrays, token, literal?, Elements.ofType, ih]
      · simp [value, apply, inside, arrays, token, literal?, Elements.ofType, same, ih]
    | @next e' x line reversed inside token =>
      by_cases same : e' = e
      · subst same
        simp [value, apply, inside, arrays, token, literal?, Elements.ofType, ih]
      · simp [value, apply, inside, arrays, token, literal?, Elements.ofType, same, ih]
    | @closeArray e' line reversed inside token =>
      have nonempty := full _ _ _ inside
      by_cases same : e' = e
      · subst same
        simp [value, apply, inside, arrays, token, Elements.ofType, Value.kind, nonempty, ih]
      · simp [value, apply, inside, arrays, token, Elements.ofType, Value.kind, same, ih]

/-! ### What is consumed begins a derivation -/

/-- Open groups can be closed, innermost first. -/
theorem exists_run_closers (q : Parser) (outside : q.array = none) : ∃ missing made r sentences,
    Run q missing made r ∧ r.finish = .ok sentences := by
  induction groups : q.groups generalizing q with
  | nil =>
    refine ⟨[], [], q, q.endSentence.sentences.reverse, .nil q, ?_⟩
    simp only [finish, outside, groups]
  | cons group outer ih =>
    have asks : Asks q ((Site.mk "" 0 0).lexeme (.symbol group.shape.closer))
        (.closeGroup group outer) := .closeGroup outside groups rfl
    obtain ⟨missing, made, r, sentences, run, finished⟩ :=
      ih (q.apply (.closeGroup group outer)) outside rfl
    exact ⟨_, _, r, sentences, .cons asks run, finished⟩

/-- From wherever the parser is, some lexemes lead to the end of a program. -/
theorem exists_run_finish (q : Parser) : ∃ missing made r sentences,
    Run q missing made r ∧ r.finish = .ok sentences := by
  cases inside : q.array with
  | none => exact exists_run_closers q inside
  | some array =>
    obtain ⟨line, elements⟩ := array
    have closes : ∀ (p : Parser) (e : Elem) reversed,
        p.array = some ⟨line, .some e reversed⟩ → ∃ missing made r sentences,
          Run p missing made r ∧ r.finish = .ok sentences := by
      intro p e reversed inside
      have asks : Asks p ((Site.mk "" 0 0).lexeme (.symbol .closeParen))
          (.make (.array e reversed.reverse)) := .closeArray inside rfl
      obtain ⟨missing, made, r, sentences, run, finished⟩ :=
        exists_run_closers (p.apply (.make (.array e reversed.reverse))) rfl
      exact ⟨_, _, r, sentences, .cons asks run, finished⟩
    cases elements with
    | some e reversed => exact closes q e reversed inside
    | empty =>
      have asks : Asks q ((Site.mk "" 0 0).lexeme (.literal .bool true))
          (.collect ⟨line, .some .bool [true]⟩) := .first inside rfl
      obtain ⟨missing, made, r, sentences, run, finished⟩ :=
        closes (q.apply (.collect ⟨line, .some .bool [true]⟩)) .bool [true] rfl
      exact ⟨_, _, r, sentences, .cons asks run, finished⟩

/-- What is consumed begins a derivation, and makes what this says. -/
theorem exists_build_of_feed {s : Store} {consumed : List Lexeme}
    (fed : (start s).feed consumed = (r, none)) : ∃ d : Program, d.Admitted ∧
      consumed <+: d.lexemes ∧ Run (start s) consumed ((d.build s).take consumed.length) r := by
  obtain ⟨made, run⟩ := feed_eq_none_iff.mp fed
  -- closing what is open leads to a whole program, of which the consumed lexemes are the beginning
  obtain ⟨missing, made', r', sentences, run', finished⟩ := exists_run_finish r
  have whole := run.append run'
  obtain ⟨d, admitted, eq⟩ := completes_of_feed (feed_eq_none_iff.mpr ⟨_, whole⟩) finished
  obtain ⟨p, -, built, -, -⟩ := run_program admitted (q := start s) rfl rfl rfl
  refine ⟨d, admitted, ⟨missing, eq.symm⟩, ?_⟩
  rw [eq] at built
  have same : made = (d.build s).take consumed.length := run.take built
  rw [← same]
  exact run

end Parser

/-! ### What a parse consumes and what it makes -/

/-- The lexemes that a parse consumes, and how it ends: all of them, or those before the one that is
refused. -/
inductive Consumed (s : Store) :
    (lexemes consumed : List Lexeme) → Except ParseError (List Sentence) → Prop where
  | all {lexemes : List Lexeme} {q : Parser}
      (fed : (Parser.start s).feed lexemes = (q, none)) : Consumed s lexemes lexemes q.finish
  | before {consumed rest : List Lexeme} {l : Lexeme} {q : Parser} {e : ParseError}
      (fed : (Parser.start s).feed consumed = (q, none)) (refused : q.action l = .error e) :
      Consumed s (consumed ++ l :: rest) consumed (.error e)

/-- All lexemes are read, or there is a first one that is refused. -/
theorem Parser.feed_cases (q : Parser) (lexemes : List Lexeme) :
    (∃ r, q.feed lexemes = (r, none)) ∨ ∃ consumed l rest r e, lexemes = consumed ++ l :: rest ∧
      q.feed consumed = (r, none) ∧ r.action l = .error e ∧ q.feed lexemes = (r, some e) := by
  induction lexemes generalizing q with
  | nil => exact .inl ⟨q, rfl⟩
  | cons l rest ih =>
    cases action : q.action l with
    | error e => exact .inr ⟨[], l, rest, q, e, rfl, rfl, action, by rw [feed, action]⟩
    | ok a =>
      rw [feed_of_action action]
      rcases ih (q.apply a) with fed | ⟨consumed, l', rest', r, e, rfl, fed, refused, stops⟩
      · exact .inl fed
      · refine .inr ⟨l :: consumed, l', rest', r, e, rfl, ?_, refused, stops⟩
        rw [feed_of_action action, fed]

/-- Every parse consumes some lexemes, and leaves the store that they leave. -/
theorem exists_consumed (s : Store) (lexemes : List Lexeme) : ∃ consumed q,
    Consumed s lexemes consumed (parseLexemes s lexemes).1 ∧
      (Parser.start s).feed consumed = (q, none) ∧ (parseLexemes s lexemes).2 = q.store := by
  rw [parseLexemes]
  rcases (Parser.start s).feed_cases lexemes with
    ⟨q, fed⟩ | ⟨consumed, l, rest, q, e, rfl, fed, refused, stops⟩
  · rw [fed]
    exact ⟨lexemes, q, .all fed, fed, rfl⟩
  · rw [stops]
    exact ⟨consumed, q, .before fed refused, fed, rfl⟩

def Enclosure.kind : Enclosure → Kind
  | .brackets => .tuple
  | .braces => .block
  | .bars => .executor

/-- What a store gains from lexemes that are consumed, each of which makes a value or none: the
literals outside of array literals, the names and the array literals that are closed, in the order
in which they stand, and the groups that are closed, in the order of their ends. -/
structure Gains (s s' : Store) (consumed : List Lexeme) (made : List (Option Value)) : Prop where
  scalars : ∀ e, s'.column (.scalar e) =
    s.column (.scalar e) ++ (literals e false consumed).map fun x => .datum (.scalar e x)
  arrays : ∀ e, s'.column (.array e) =
    s.column (.array e) ++ (arrays e none consumed).map fun xs => .datum (.array e xs)
  names : s'.column .name = s.column .name ++ (names consumed).map .name
  groups : ∀ k : Enclosure, s'.column k.kind = s.column k.kind ++ madeOf k.kind made
  bindings : s'.bindings = s.bindings
  pending : s'.pending = s.pending

/-- A run from an empty parser adds to each column what its lexemes make, and changes nothing
else. -/
theorem Parser.Run.gains {s : Store} {q : Parser} {consumed : List Lexeme}
    {made : List (Option Value)} (run : Run (start s) consumed made q) :
    Gains s q.store consumed made := by
  have full : (start s).Full := by rintro line e reversed ⟨⟩
  have column : ∀ k, q.store.column k = s.column k ++ madeOf k made := by
    intro k
    rw [run.store_eq, Store.column_createAll]
    rfl
  constructor
  · intro e
    rw [column, run.scalars_eq e]
    rfl
  · intro e
    rw [column, run.arrays_eq full e]
    rfl
  · rw [column, run.names_eq]
  · intro k
    exact column k.kind
  · rw [run.store_eq, Store.bindings_createAll]
    rfl
  · rw [run.store_eq, Store.pending_createAll]
    rfl

/-- What a parse puts into a store, also when it fails. Where the source is not scanned, that is
nothing. Else the lexemes before the one that is refused, or all of them, begin a derivation, and
the store gains what they make: among it each group that is closed, with the words of its body. -/
theorem parse_gains (s : Store) (source : String) :
    (∀ e, scan source = .error e → parse s source = (.error e, s)) ∧
    ∀ lexemes, scan source = .ok lexemes → ∃ (consumed : List Lexeme) (d : Program),
      Consumed s lexemes consumed (parse s source).1 ∧ d.Admitted ∧ consumed <+: d.lexemes ∧
        Gains s (parse s source).2 consumed ((d.build s).take consumed.length) := by
  constructor
  · intro e scanned
    rw [parse, scanned]
  · intro lexemes scanned
    obtain ⟨consumed, q, ends, fed, store⟩ := exists_consumed s lexemes
    obtain ⟨d, admitted, begins, run⟩ := Parser.exists_build_of_feed fed
    simp only [parse, scanned]
    refine ⟨consumed, d, ends, admitted, begins, ?_⟩
    rw [store]
    exact run.gains

/-- The tuple that is closed before the error is there, with the slots of its words; the one that is
open is not, though its number is. -/
example : (parse .empty "f[1 (2 3)] [4 (5 6))").2.tuples =
      #[⟨[.scalar .int 0, .array .int 0], some 0⟩] ∧
    (parse .empty "f[1 (2 3)] [4 (5 6))").2.ints.scalars = #[1, 4] := by
  decide +kernel

end Source

end Tacit
