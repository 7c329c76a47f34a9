import Tacit.Proofs.Source.Reading
import Tacit.Proofs.Store.Staged

/-!
Parsing arranges words in stages. A word list that is being read has the name that a bracket could
follow for its last word, an open tuple is connected to the last word of the list around it, and no
executor is open right inside of another one. What closes a group therefore puts a connected tuple
right behind its name, and an executor into no executor.

* `Level.Arranged`, `Nested`: what holds of the word lists that are being read.
* `Asks.arranged`: every lexeme that is read keeps it.
* `wellStaged_parse`: so whatever a source says, the executors it makes are arranged.
-/

namespace Tacit

namespace Source

namespace Level

/-- The words so far are arranged, the name that is kept is the last of them, and in an executor
none of them is an executor. -/
structure Arranged (s : Store) (context : Option Enclosure) (l : Level) : Prop where
  words : s.Arranged l.words
  lastName : ∀ {stop slot : Nat}, l.lastName = some (stop, slot) →
    ∃ earlier, l.words = earlier ++ [.name slot]
  flat : context = some .bars → ∀ w ∈ l.words, w.kind ≠ .executor

@[simp] theorem words_push (l : Level) (w : Word) : (l.push w).words = l.words ++ [w] := by
  simp [words, push]

@[simp] theorem words_pushName (l : Level) (slot stop : Nat) :
    (l.pushName slot stop).words = l.words ++ [.name slot] := by
  simp [words, pushName]

theorem connection_eq_some {l : Level} {start slot : Nat} (h : l.connection start = some slot) :
    ∃ stop, l.lastName = some (stop, slot) := by
  rw [connection] at h
  split at h
  · next last =>
    split at h
    · cases h
      exact ⟨_, last⟩
    · cases h
  · cases h

namespace Arranged

variable {s s' : Store} {context : Option Enclosure} {l : Level} {w : Word}

theorem empty (s : Store) (context : Option Enclosure) : Level.empty.Arranged s context where
  words := s.arranged_nil
  lastName := nofun
  flat := fun _ _ mem => nomatch mem

theorem mono (grows : s.GrowsTo s') (h : l.Arranged s context) : l.Arranged s' context :=
  ⟨h.words.mono grows.tuple, h.lastName, h.flat⟩

/-- Inside bars, a word that is no executor keeps the list free of them. -/
theorem flat_append (h : l.Arranged s context)
    (unlike : context = some .bars → w.kind ≠ .executor) :
    context = some .bars → ∀ v ∈ l.words ++ [w], v.kind ≠ .executor := fun bars =>
  List.forall_mem_append.mpr ⟨h.flat bars, List.forall_mem_singleton.mpr (unlike bars)⟩

/-- A word is appended if the words before it allow it. -/
theorem push (h : l.Arranged s context) (words : s.Arranged (l.words ++ [w]))
    (unlike : context = some .bars → w.kind ≠ .executor) : (l.push w).Arranged s context where
  words := by rwa [words_push]
  lastName := nofun
  flat := by
    rw [words_push]
    exact h.flat_append unlike

/-- Words other than tuples and executors may stand anywhere. -/
theorem push_plain (h : l.Arranged s context) (apart : w.kind ≠ .tuple ∧ w.kind ≠ .executor) :
    (l.push w).Arranged s context :=
  h.push (h.words.push (Store.isConnected_of_kind_ne apart.1)) fun _ => apart.2

/-- A name is appended and remembered: a bracket that touches it belongs to it. -/
theorem pushName (h : l.Arranged s context) (slot stop : Nat) :
    (l.pushName slot stop).Arranged s context where
  words := by
    rw [words_pushName]
    exact h.words.push rfl
  lastName := by
    rintro _ _ ⟨⟩
    exact ⟨l.words, words_pushName l slot stop⟩
  flat := by
    rw [words_pushName]
    exact h.flat_append fun _ => by simp [Word.kind]

end Arranged

end Level

/-! ### Open groups -/

/-- What encloses the words that are being read inside of the groups. -/
def contextOf (groups : List OpenGroup) : Option Enclosure :=
  (groups.map fun group => group.shape.enclosure).head?

/-- The word lists from the innermost one outwards are arranged. An open tuple is connected to the
last word of the list around it, if to any, and an executor stands in no executor. -/
inductive Nested (s : Store) : Level → List OpenGroup → Prop where
  | line {l : Level} (level : l.Arranged s none) : Nested s l []
  | group {l : Level} {group : OpenGroup} {outer : List OpenGroup}
      (level : l.Arranged s (some group.shape.enclosure))
      (follows : ∀ {slot : Nat}, group.shape = .tuple (some slot) →
        ∃ stop, group.outer.lastName = some (stop, slot))
      (unlike : group.shape = .executor → contextOf outer ≠ some .bars)
      (around : Nested s group.outer outer) : Nested s l (group :: outer)

namespace Nested

variable {s s' : Store} {l l' : Level} {groups : List OpenGroup}

theorem level (h : Nested s l groups) : l.Arranged s (contextOf groups) := by
  cases h with
  | line level => exact level
  | group level => exact level

/-- Reading on in the innermost list changes nothing around it. -/
theorem replace (h : Nested s l groups) (level : l'.Arranged s (contextOf groups)) :
    Nested s l' groups := by
  cases h with
  | line => exact .line level
  | group _ follows unlike around => exact .group level follows unlike around

theorem mono (grows : s.GrowsTo s') (h : Nested s l groups) : Nested s' l groups := by
  induction h with
  | line level => exact .line (level.mono grows)
  | group level follows unlike _ ih => exact .group (level.mono grows) follows unlike ih

end Nested

/-- The word of a group that is closed takes its place behind the words around it. -/
theorem arranged_close {s : Store} {outer : Level} {context : Option Enclosure} {shape : Shape}
    (h : outer.Arranged s context) (follows : ∀ {slot : Nat}, shape = .tuple (some slot) →
      ∃ stop, outer.lastName = some (stop, slot)) (words : List Word) :
    (s.create (shape.value words)).2.Arranged
      (outer.words ++ [(s.create (shape.value words)).1]) := by
  have arranged := h.words.mono (s.growsTo_create (shape.value words)).tuple
  cases shape with
  | block => exact arranged.push rfl
  | executor => exact arranged.push rfl
  | tuple connectedName =>
    have found := s.tuples_create_self ⟨words, connectedName⟩
    cases connectedName with
    | none => exact arranged.push (Store.isConnected_tuple found)
    | some slot =>
      obtain ⟨stop, last⟩ := follows rfl
      obtain ⟨earlier, eq⟩ := h.lastName last
      rw [eq] at arranged ⊢
      exact arranged.push_connected found

/-! ### The parser -/

namespace Parser

/-- The executors of the store are arranged, and so are the words that are being read. -/
structure Arranged (q : Parser) : Prop where
  store : q.store.WellStaged
  nested : Nested q.store q.level q.groups

variable {q : Parser} {l : Lexeme} {a : Action}

theorem arranged_start {s : Store} (h : s.WellStaged) : (start s).Arranged :=
  ⟨h, .line (.empty s none)⟩

/-- A literal or a placeholder is a word of the innermost list. -/
theorem Arranged.make (h : q.Arranged) (d : Datum) : (q.apply (.make d)).Arranged := by
  have nested := h.nested.mono (q.store.growsTo_create (.datum d))
  have apart : (q.store.create (.datum d)).1.kind ≠ .tuple ∧
      (q.store.create (.datum d)).1.kind ≠ .executor := by
    rw [Store.kind_create]
    cases d <;> simp [Value.kind]
  exact ⟨h.store.create (by simp), nested.replace (nested.level.push_plain apart)⟩

/-- A group that is closed is a word of the list around it, and its own words are those of a
stage. -/
theorem Arranged.closeGroup (h : q.Arranged) {group : OpenGroup} {outer : List OpenGroup}
    (groups : q.groups = group :: outer) : (q.apply (.closeGroup group outer)).Arranged := by
  have nested := h.nested
  rw [groups] at nested
  cases nested with
  | group level follows unlike around =>
    have around' := around.mono (q.store.growsTo_create (group.shape.value q.level.words))
    have staged : ∀ {words}, group.shape.value q.level.words = .executor words →
        q.store.Staged words := by
      intro words made
      cases shape : group.shape with
      | tuple | block =>
        rw [shape] at made
        cases made
      | executor =>
        rw [shape] at made level
        cases made
        exact ⟨level.words, level.flat rfl⟩
    have unlike' : contextOf outer = some .bars →
        (q.store.create (group.shape.value q.level.words)).1.kind ≠ .executor := by
      intro bars
      rw [Store.kind_create]
      cases shape : group.shape with
      | executor => exact absurd bars (unlike shape)
      | tuple | block => simp [Shape.value, Value.kind]
    have closed := arranged_close around.level follows q.level.words
    exact ⟨h.store.create staged, around'.replace (around'.level.push closed unlike')⟩

/-- Every lexeme that is read keeps the words arranged. -/
theorem Asks.arranged (asks : Asks q l a) (h : q.Arranged) : (q.apply a).Arranged := by
  cases asks with
  | literal | closeArray => exact h.make _
  | @name text =>
    have nested := h.nested.mono (q.store.growsTo_create (.name text))
    have store : (q.store.create (.name text)).2.WellStaged := h.store.create (by simp)
    exact ⟨store, nested.replace (nested.level.pushName _ _)⟩
  | placeholder | colon =>
    exact ⟨h.store, h.nested.replace (h.nested.level.push_plain (by simp [Word.kind]))⟩
  | openArray | first | next => exact ⟨h.store, h.nested⟩
  | @openGroup k outside token opens =>
    refine ⟨h.store, .group (.empty _ _) ?_ ?_ h.nested⟩
    · intro slot shape
      cases k with
      | brackets => exact Level.connection_eq_some (Shape.tuple.inj shape)
      | braces | bars => cases shape
    · intro shape
      cases k with
      | bars => exact opens rfl
      | brackets | braces => cases shape
  | closeGroup _ groups => exact h.closeGroup groups
  | newline _ groups =>
    rw [apply, endSentence_eq]
    refine ⟨h.store, ?_⟩
    rw [groups]
    exact .line (.empty _ none)

/-- So do all lexemes up to the one that is refused. -/
theorem arranged_feed (lexemes : List Lexeme) (h : q.Arranged) : (q.feed lexemes).1.Arranged := by
  induction lexemes generalizing q with
  | nil => exact h
  | cons l rest ih =>
    rw [feed]
    split
    · next a action => exact ih ((asks_of_action action).arranged h)
    · exact h

end Parser

/-- A parse keeps every list of words staged, also one that fails. -/
theorem wellStaged_parse {s : Store} (h : s.WellStaged) (source : String) :
    (parse s source).2.WellStaged := by
  rw [parse]
  cases scan source with
  | error e => exact h
  | ok lexemes =>
    simp only [store_parseLexemes]
    exact (Parser.arranged_feed lexemes (Parser.arranged_start h)).store

end Source

end Tacit
