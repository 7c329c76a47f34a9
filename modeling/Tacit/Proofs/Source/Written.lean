import Mathlib.Data.List.ReduceOption
import Tacit.Proofs.Source.Grammar
import Tacit.Proofs.Store.Columns
import Tacit.Source.Parse

/-!
What derivations write: the tree of each word, the words of a store that stand for them, and the
values that are made for them. A tuple belongs to the word right before its bracket if that is a
name. Whether it is one, and where it ends, only the words of the same list can tell.

* `unfolds_of_holdsAll`: words that stand for derivations have their trees for deep values.
* `holdsAll_mono`: growth of the store changes no part of that.
* `Phrase.build`, `Program.build`: which value each lexeme makes, and the words of the values.
* `holdsAll_build`: these words stand for what is written.
-/

namespace Tacit

namespace Source

namespace Enclosure

def shape (connectedName : Option Nat) : Enclosure → Shape
  | .brackets => .tuple connectedName
  | .braces => .block
  | .bars => .executor

def tree (connectedName : Option String) (items : List Tree) : Enclosure → Tree
  | .brackets => .tuple connectedName items
  | .braces => .block items
  | .bars => .executor items

end Enclosure

/-- The name that a bracket at the given place belongs to: the word before it, if that is a name
that ends there. -/
def nameBefore (before : Option Phrase) (start : Nat) : Option String :=
  match before with
  | some (.name text site) => if site.stop = start then some text else none
  | _ => none

/-- The slot of that name, if the word before is given with what it stands for. -/
def slotBefore (before : Option (Phrase × Word)) (start : Nat) : Option Nat :=
  match before with
  | some (.name _ site, w) => if site.stop = start then some w.index else none
  | _ => none

mutual

/-- The deep value of a word, of which it is told what word comes before it. -/
def Phrase.tree (before : Option Phrase) : Phrase → Tree
  | .literal e x _ => .datum (.scalar e x)
  | .name text _ => .name text
  | .placeholder number _ => .placeholder number
  | .colon _ => .assignment
  | .array e _ first later _ => .datum (.array e (first.1 :: later.map Prod.fst))
  | .group enclosure opening items _ =>
    enclosure.tree (nameBefore before opening.start) (treesOf none items)

/-- The deep values of words, the first of which comes after the given word. -/
def treesOf (before : Option Phrase) : List Phrase → List Tree
  | [] => []
  | p :: rest => p.tree before :: treesOf (some p) rest

end

end Source

namespace Store

open Source

variable {s s' : Store}

mutual

/-- The word stands for the derivation: under it the store has a value of the sort that is written,
made of words that stand for the parts. A connected tuple has the slot of the very name that is
written before it. -/
def Holds (s : Store) (before : Option (Phrase × Word)) : Phrase → Word → Prop
  | .literal e x _, w => s.get? w = some (.datum (.scalar e x))
  | .name text _, w => s.get? w = some (.name text)
  | .placeholder number _, w => w = .placeholder number
  | .colon _, w => w = .assignment
  | .array e _ first later _, w =>
    s.get? w = some (.datum (.array e (first.1 :: later.map Prod.fst)))
  | .group enclosure opening items _, w => ∃ words,
    s.get? w = some ((enclosure.shape (slotBefore before opening.start)).value words) ∧
      HoldsAll s none items words

/-- The words stand for the derivations, one by one, the first of which comes after the given
word. -/
def HoldsAll (s : Store) (before : Option (Phrase × Word)) : List Phrase → List Word → Prop
  | [], words => words = []
  | p :: rest, words => ∃ w later, words = w :: later ∧ s.Holds before p w ∧
    HoldsAll s (some (p, w)) rest later

end

/-! ### Growth -/

private theorem holdsAll_mono_of {items : List Phrase}
    (mono : ∀ p ∈ items, ∀ {before w}, s.Holds before p w → s'.Holds before p w)
    {before : Option (Phrase × Word)} {words : List Word} (h : s.HoldsAll before items words) :
    s'.HoldsAll before items words := by
  induction items generalizing before words with
  | nil => exact h
  | cons p rest ih =>
    obtain ⟨w, later, rfl, first, others⟩ := h
    exact ⟨w, later, rfl, mono p (.head _) first, ih (fun p mem => mono p (.tail _ mem)) others⟩

/-- A word stands for what is written also in a larger store. -/
theorem Holds.mono (grows : s.GrowsTo s') {before : Option (Phrase × Word)} {p : Phrase} {w : Word}
    (h : s.Holds before p w) : s'.Holds before p w := by
  induction p generalizing before w with
  | literal | name | array => exact grows.get? h
  | placeholder | colon => exact h
  | group enclosure opening items closing ih =>
    obtain ⟨words, found, parts⟩ := h
    exact ⟨words, grows.get? found, holdsAll_mono_of (fun p mem => ih p mem) parts⟩

theorem holdsAll_mono (grows : s.GrowsTo s') {before : Option (Phrase × Word)}
    {items : List Phrase} {words : List Word} (h : s.HoldsAll before items words) :
    s'.HoldsAll before items words :=
  holdsAll_mono_of (fun _ _ => Holds.mono grows) h

/-! ### Deep values -/

/-- The word before stands for what it is said to be. -/
def HoldsBefore (s : Store) (before : Option (Phrase × Word)) : Prop :=
  ∀ entry ∈ before, ∃ earlier, s.Holds earlier entry.1 entry.2

/-- At the beginning of a list there is no word to be connected to. -/
theorem holdsBefore_none (s : Store) : s.HoldsBefore none := by
  rintro entry ⟨⟩

/-- The slot of a connection has the name that stands before the bracket. -/
theorem connectedName_of_holdsBefore {before : Option (Phrase × Word)} (h : s.HoldsBefore before)
    (start : Nat) : Option.Rel (fun slot text => s.names[slot]? = some text)
      (slotBefore before start) (nameBefore (before.map Prod.fst) start) := by
  rcases before with - | ⟨p, w⟩
  · exact .none
  cases p with
  | name text site =>
    obtain ⟨earlier, found⟩ := h _ rfl
    change s.get? w = some (.name text) at found
    simp only [slotBefore, nameBefore, Option.map_some]
    split
    · cases w with
      | name slot =>
        obtain ⟨_, slot, eq⟩ := Option.map_eq_some_iff.mp found
        cases eq
        exact .some slot
      | scalar | array | tuple | executor | block =>
        obtain ⟨_, -, eq⟩ := Option.map_eq_some_iff.mp found
        cases eq
      | placeholder | assignment => cases found
    · exact .none
  | _ => exact .none

private theorem unfolds_of_holdsAll_of {items : List Phrase}
    (each : ∀ p ∈ items, ∀ {before w}, s.HoldsBefore before → s.Holds before p w →
      s.Unfolds w (p.tree (before.map Prod.fst)))
    {before : Option (Phrase × Word)} {words : List Word} (hb : s.HoldsBefore before)
    (h : s.HoldsAll before items words) :
    List.Forall₂ s.Unfolds words (treesOf (before.map Prod.fst) items) := by
  induction items generalizing before words with
  | nil =>
    cases h
    exact .nil
  | cons p rest ih =>
    obtain ⟨w, later, rfl, first, others⟩ := h
    have next : s.HoldsBefore (some (p, w)) := by
      rintro entry ⟨⟩
      exact ⟨before, first⟩
    exact .cons (each p (.head _) hb first) (ih (fun p mem => each p (.tail _ mem)) next others)

/-- A word that stands for a derivation has its tree for a deep value. -/
theorem Holds.unfolds {before : Option (Phrase × Word)} {p : Phrase} {w : Word}
    (hb : s.HoldsBefore before) (h : s.Holds before p w) :
    s.Unfolds w (p.tree (before.map Prod.fst)) := by
  induction p generalizing before w with
  | literal | array => exact UnfoldsValue.datum.of_get? h
  | name => exact UnfoldsValue.name.of_get? h
  | placeholder =>
    cases h
    exact .placeholder
  | colon =>
    cases h
    exact .assignment
  | group enclosure opening items closing ih =>
    obtain ⟨words, found, parts⟩ := h
    have unfolds := unfolds_of_holdsAll_of (fun p mem => ih p mem) (holdsBefore_none s) parts
    have connected := connectedName_of_holdsBefore hb opening.start
    cases enclosure with
    | brackets => exact (UnfoldsValue.tuple connected unfolds).of_get? found
    | braces => exact (UnfoldsValue.block unfolds).of_get? found
    | bars => exact (UnfoldsValue.executor unfolds).of_get? found

/-- The words of a line have the trees that are written for deep values. -/
theorem unfolds_of_holdsAll {items : List Phrase} {words : List Word}
    (h : s.HoldsAll none items words) : List.Forall₂ s.Unfolds words (treesOf none items) :=
  unfolds_of_holdsAll_of (fun _ _ => Holds.unfolds) (holdsBefore_none s) h

end Store

/-! ### Making what is written -/

namespace Source

mutual

/-- The word of a derivation, and what each of its lexemes makes in a store: a literal or name its
value, and the lexeme that closes an array literal or group the value of the whole. A word has the
slot that comes next in the column of its kind when its value is made. -/
def Phrase.build (s : Store) (before : Option (Phrase × Word)) : Phrase → Word × List (Option Value)
  | .literal e x _ => ((s.create (.datum (.scalar e x))).1, [some (.datum (.scalar e x))])
  | .name text _ => ((s.create (.name text)).1, [some (.name text)])
  | .placeholder number _ => (.placeholder number, [none])
  | .colon _ => (.assignment, [none])
  | .array e _ first later _ =>
    let v : Value := .datum (.array e (first.1 :: later.map Prod.fst))
    ((s.create v).1, List.replicate (later.length + 2) none ++ [some v])
  | .group enclosure opening items _ =>
    let (words, made) := buildAll s none items
    let v := (enclosure.shape (slotBefore before opening.start)).value words
    (((s.createAll made.reduceOption).create v).1, none :: made ++ [some v])

/-- The same for words one after the other, the first of which comes after the given word. -/
def buildAll (s : Store) (before : Option (Phrase × Word)) :
    List Phrase → List Word × List (Option Value)
  | [] => ([], [])
  | p :: rest =>
    let (w, made) := p.build s before
    let (words, made') := buildAll (s.createAll made.reduceOption) (some (p, w)) rest
    (w :: words, made ++ made')

end

/-- What each lexeme of a program makes in a store. -/
def Program.build (s : Store) : Program → List (Option Value)
  | .last line => (buildAll s none line).2
  | .cons line _ rest =>
    let made := (buildAll s none line).2
    made ++ none :: rest.build (s.createAll made.reduceOption)

end Source

namespace Store

open Source

variable {s : Store}

private theorem holdsAll_build_of {items : List Phrase}
    (each : ∀ p ∈ items, ∀ (s : Store) before, (s.createAll (p.build s before).2.reduceOption).Holds before p
      (p.build s before).1) (s : Store) (before : Option (Phrase × Word)) :
    (s.createAll (buildAll s before items).2.reduceOption).HoldsAll before items
      (buildAll s before items).1 := by
  induction items generalizing s before with
  | nil => rfl
  | cons p rest ih =>
    have later := ih (fun p mem => each p (.tail _ mem)) (s.createAll (p.build s before).2.reduceOption)
      (some (p, (p.build s before).1))
    simp only [buildAll, List.reduceOption_append, createAll_append]
    exact ⟨_, _, rfl, (each p (.head _) s before).mono (growsTo_createAll _ _), later⟩

/-- What is made for a derivation stands for it. -/
theorem holds_build (p : Phrase) (s : Store) (before : Option (Phrase × Word)) :
    (s.createAll (p.build s before).2.reduceOption).Holds before p (p.build s before).1 := by
  induction p generalizing s before with
  | literal e x site => exact get?_create_self s _
  | name text site => exact get?_create_self s _
  | placeholder | colon => rfl
  | array e opening first later closing =>
    simp only [Phrase.build, Holds, List.reduceOption_append, List.reduceOption_replicate_none]
    exact get?_create_self s _
  | group enclosure opening items closing ih =>
    have parts := holdsAll_build_of (fun p mem => ih p mem) s none
    simp only [Phrase.build, Holds, List.cons_append, List.reduceOption_cons_of_none,
      List.reduceOption_append, createAll_append]
    exact ⟨_, get?_create_self _ _, holdsAll_mono (growsTo_create _ _) parts⟩

/-- The words that are built stand for what is written, once their values are made. -/
theorem holdsAll_build (items : List Phrase) (s : Store) (before : Option (Phrase × Word)) :
    (s.createAll (buildAll s before items).2.reduceOption).HoldsAll before items
      (buildAll s before items).1 :=
  holdsAll_build_of (fun p _ => holds_build p) s before

end Store

end Tacit
