import Tacit.Proofs.Source.Accepted

/-!
What is open at a place of a derivation: of the array literals and groups that begin before the
place and end behind it, the innermost. Whatever program the lexemes before the place are continued
to, the parser is in what is open there when it has read them.

* `Program.openAt`: what is open behind so many lexemes of a program.
* `Parser.isIn_openAt`: the parser is in it.
-/

namespace Tacit

namespace Source

/-- An array literal of the given type or a group, with the place of its opening symbol. -/
inductive Opened where
  | array (e : Elem) (opening : Site)
  | group (enclosure : Enclosure) (opening : Site)

namespace Opened

def closer : Opened → Symbol
  | .array _ _ => .closeParen
  | .group enclosure _ => enclosure.closer

def opening : Opened → Site
  | .array _ opening => opening
  | .group _ opening => opening

end Opened

mutual

/-- The innermost array literal or group of a word that is open behind its first lexemes, of which
there are `n`, but not all of the word. -/
def Phrase.openAt : Phrase → (n : Nat) → Option Opened
  | .array e opening _ _ _, _ + 1 => some (.array e opening)
  | .group enclosure opening items _, n + 1 => (openIn items n).or (some (.group enclosure opening))
  | _, _ => none

/-- The same for words one after the other. Between two of them nothing is open. -/
def openIn : List Phrase → (n : Nat) → Option Opened
  | [], _ => none
  | p :: rest, n =>
    if n < p.lexemes.length then p.openAt n else openIn rest (n - p.lexemes.length)

end

/-- The innermost array literal or group of a program that is open behind its first `n` lexemes. -/
def Program.openAt : Program → (n : Nat) → Option Opened
  | .last line, n => openIn line n
  | .cons line _ rest, n =>
    if n ≤ (lexemesOf line).length then openIn line n
    else rest.openAt (n - ((lexemesOf line).length + 1))

def Elements.MayBe (e : Elem) : Elements → Prop
  | .empty => True
  | .some e' _ => e' = e

namespace Parser

/-- The parser is in what is open, if anything is. -/
inductive IsIn (q : Parser) : Option Opened → Prop where
  | nothing (outside : q.array = none) (groups : q.groups = []) : IsIn q none
  | group {group : OpenGroup} {outer : List OpenGroup} {opening : Site} (outside : q.array = none)
      (groups : q.groups = group :: outer) (line : group.line = opening.line) :
      IsIn q (some (.group group.shape.enclosure opening))
  | array {e : Elem} {opening : Site} {elements : Elements}
      (inside : q.array = some ⟨opening.line, elements⟩) (type : elements.MayBe e) :
      IsIn q (some (.array e opening))

theorem IsIn.congr {q r : Parser} {inside : Option Opened} (h : q.IsIn inside)
    (array : r.array = q.array) (groups : r.groups = q.groups) : r.IsIn inside := by
  cases h with
  | nothing outside opened => exact .nothing (array.trans outside) (groups.trans opened)
  | group outside opened line => exact .group (array.trans outside) (groups.trans opened) line
  | array inside type => exact .array (array.trans inside) type

/-- Behind the first lexemes of a word, wherever it may stand, the parser is in what is open there:
in a part of the word, or where it was. -/
def Opens (p : Phrase) : Prop :=
  ∀ (q : Parser) (before : Option (Phrase × Word)) (around : Option Opened) (n : Nat),
    q.array = none → p.Fits q.stack.head? → q.level.Follows before → q.IsIn around →
    n < p.lexemes.length →
    ∃ made r, Run q (p.lexemes.take n) made r ∧ r.IsIn ((p.openAt n).or around)

/-- Behind lexemes of a list of words, the parser is in what is open in the word that they end
in. -/
theorem opens_in {items : List Phrase} (reads : ∀ p ∈ items, Reads p)
    (opens : ∀ p ∈ items, Opens p) {q : Parser} (before : Option (Phrase × Word))
    {around : Option Opened} {n : Nat} (array : q.array = none)
    (fits : ∀ p ∈ items, p.Fits q.stack.head?) (follows : q.level.Follows before)
    (isIn : q.IsIn around) (le : n ≤ (lexemesOf items).length) :
    ∃ made r, Run q ((lexemesOf items).take n) made r ∧ r.IsIn ((openIn items n).or around) := by
  induction items generalizing q before n with
  | nil => exact ⟨[], q, by simpa [lexemesOf] using Run.nil q, isIn⟩
  | cons p rest ih =>
    rw [lexemesOf, List.length_append] at le
    rw [lexemesOf, openIn]
    by_cases inside : n < p.lexemes.length
    · rw [if_pos inside, List.take_append_of_le_length inside.le]
      exact opens p (.head _) q before around n array (fits p (.head _)) follows isIn inside
    · rw [if_neg inside, List.take_append, List.take_of_length_le (Nat.le_of_not_lt inside)]
      have first := reads p (.head _) q before array (fits p (.head _)) follows
      obtain ⟨made, r, run, isIn'⟩ := ih (fun p mem => reads p (.tail _ mem))
        (fun p mem => opens p (.tail _ mem)) (n := n - p.lexemes.length)
        (q := q.behind (p.build q.store before).2 (q.level.append p (p.build q.store before).1))
        (some (p, (p.build q.store before).1)) array
        (fun p mem => fits p (.tail _ mem)) rfl (isIn.congr rfl rfl) (by omega)
      exact ⟨_, r, first.append run, isIn'⟩

/-- Inside an array literal, the parser is in the array. -/
theorem opens_array (e : Elem) (opening : Site) (first : e.Carrier × Site)
    (later : List (e.Carrier × Site)) (closing : Site) :
    Opens (.array e opening first later closing) := by
  rintro ⟨s, sentences, level, groups, array⟩ before around n rfl - - isIn lt
  have begins : Asks ⟨s, sentences, level, groups, none⟩ (opening.lexeme (.symbol .openParen))
      (.collect ⟨opening.line, .empty⟩) := .openArray rfl rfl
  rcases n with - | - | n
  · exact ⟨[], _, .nil _, isIn⟩
  · exact ⟨_, _, .single begins, .array rfl trivial⟩
  · have le : n ≤ later.length := by
      simp only [Phrase.lexemes, List.length_cons, List.length_append, List.length_map,
        List.length_nil] at lt
      omega
    have taken : (later.map element ++ [closing.lexeme (.symbol .closeParen)]).take n =
        (later.take n).map element := by
      rw [List.take_append_of_le_length (by simpa using le), List.map_take]
    have elements := run_elements ⟨s, sentences, level, groups, none⟩ opening.line [first.1]
      (later.take n)
    rw [Phrase.lexemes, List.take_succ_cons, List.take_succ_cons, taken]
    exact ⟨_, _, .cons begins (.cons (l := element first) (.first rfl rfl) elements),
      .array rfl rfl⟩

/-- Inside a group, the parser is in the group, or in what is open further inside. -/
theorem opens_group {k : Enclosure} {opening closing : Site} {items : List Phrase}
    (reads : ∀ p ∈ items, Reads p) (opens : ∀ p ∈ items, Opens p)
    (inner : ∀ p ∈ items, p.Fits (some k)) : Opens (.group k opening items closing) := by
  intro q before around n array fits follows isIn lt
  cases n with
  | zero => exact ⟨[], q, .nil q, isIn⟩
  | succ n =>
    have le : n ≤ (lexemesOf items).length := by
      simp only [Phrase.lexemes, List.length_cons, List.length_append, List.length_nil] at lt
      omega
    let shape := k.shape (q.level.connection opening.start)
    let group : OpenGroup := ⟨shape, opening.line, q.level⟩
    have begins : Asks q (opening.lexeme (.symbol k.opener)) (.openGroup shape opening.line) := by
      apply Asks.openGroup array rfl
      rintro rfl inside
      cases fits inside
    have enclosed : shape.enclosure = k := k.enclosure_shape _
    have isIn' : (q.apply (.openGroup shape opening.line)).IsIn (some (.group k opening)) := by
      rw [← enclosed]
      have outside : (q.apply (.openGroup shape opening.line)).array = none := array
      have groups : (q.apply (.openGroup shape opening.line)).groups = group :: q.groups := rfl
      exact .group outside groups rfl
    obtain ⟨made, r, run, isIn''⟩ := opens_in reads opens
      (q := q.apply (.openGroup shape opening.line)) none array
      (by simpa [apply, stack, enclosed] using inner) rfl isIn' le
    rw [Phrase.lexemes, List.take_succ_cons, List.take_append_of_le_length le, Phrase.openAt,
      Option.or_assoc, Option.some_or]
    exact ⟨_, r, .cons begins run, isIn''⟩

/-- So it is for every word that the grammar admits. -/
theorem opens_of_admitted {p : Phrase} (h : p.Admitted) : Opens p := by
  induction h with
  | literal | name | placeholder | colon =>
    rintro q before around n - - - isIn lt
    obtain rfl : n = 0 := by simpa [Phrase.lexemes] using lt
    exact ⟨[], q, .nil q, isIn⟩
  | array => exact opens_array _ _ _ _ _
  | group each inner ih => exact opens_group (fun p mem => reads_of_admitted (each p mem)) ih inner

/-- So it is for a program, from wherever a line may begin. -/
theorem opens_program {d : Program} (h : d.Admitted) {q : Parser} (array : q.array = none)
    (groups : q.groups = []) (empty : q.level = .empty) {n : Nat} (le : n ≤ d.lexemes.length) :
    ∃ made r, Run q (d.lexemes.take n) made r ∧ r.IsIn (d.openAt n) := by
  have opens : ∀ {line : List Phrase} {q : Parser} {n : Nat}, (∀ p ∈ line, p.Admitted) →
      q.array = none → q.groups = [] → q.level = .empty → n ≤ (lexemesOf line).length →
      ∃ made r, Run q ((lexemesOf line).take n) made r ∧ r.IsIn (openIn line n) := by
    intro line q n each array groups empty le
    have isIn := opens_in (fun p mem => reads_of_admitted (each p mem))
      (fun p mem => opens_of_admitted (each p mem)) none array
      (by simp [stack, groups, Phrase.fits_none]) (by rw [empty]; rfl) (.nothing array groups) le
    rwa [Option.or_none] at isIn
  induction d generalizing q n with
  | last line => exact opens (h line (.head _)) array groups empty le
  | cons line newline rest ih =>
    obtain ⟨first, later⟩ := List.forall_mem_cons.mp h
    rw [Program.lexemes, Program.openAt]
    by_cases inside : n ≤ (lexemesOf line).length
    · rw [if_pos inside, List.take_append_of_le_length inside]
      exact opens first array groups empty inside
    · rw [if_neg inside]
      obtain ⟨level, -, run⟩ := run_line first array groups empty
      have ends := Run.single (q := q.behind (buildAll q.store none line).2 level)
        (l := newline.lexeme (.symbol .newline)) (.newline array groups rfl)
      rw [apply, endSentence_eq] at ends
      obtain ⟨m, rfl⟩ := Nat.exists_eq_add_of_lt (Nat.lt_of_not_le inside)
      have short : m ≤ rest.lexemes.length := by
        simp only [Program.lexemes, List.length_append, List.length_cons] at le
        omega
      obtain ⟨made, r, run', isIn⟩ := ih later
        (q := { q.behind (buildAll q.store none line).2 level with
          level := .empty
          sentences := [level.words].filter (!·.isEmpty) ++ q.sentences }) array groups rfl short
      have taken : (lexemesOf line ++ newline.lexeme (.symbol .newline) :: rest.lexemes).take
          ((lexemesOf line).length + m + 1) =
            lexemesOf line ++ ([newline.lexeme (.symbol .newline)] ++ rest.lexemes.take m) := by
        rw [List.take_append, List.take_of_length_le (by omega), Nat.add_assoc,
          Nat.add_sub_cancel_left]
        rfl
      rw [taken, Nat.add_right_comm, Nat.add_sub_cancel_left]
      exact ⟨_, r, run.append (ends.append run'), isIn⟩

/-- Whatever program the lexemes that are read are continued to, the parser is in what is open
behind them. -/
theorem isIn_openAt {s : Store} {r : Parser} {consumed : List Lexeme} {d : Program}
    (h : d.Admitted) (begins : consumed <+: d.lexemes)
    (fed : (start s).feed consumed = (r, none)) : r.IsIn (d.openAt consumed.length) := by
  obtain ⟨made, r', run, isIn⟩ := opens_program h (q := start s) rfl rfl rfl begins.length_le
  rw [← List.prefix_iff_eq_take.mp begins] at run
  cases fed.symm.trans (feed_eq_none_iff.mpr ⟨made, run⟩)
  exact isIn

end Parser

end Source

end Tacit
