import Tacit.Proofs.Source.Reading

/-!
Derivations are accepted: the lexemes of a word that may stand where the parser is are read, they
make what the derivation says, and the parser goes on behind the word. So it is with the words of a
line, and with lines.

* `Parser.reads_of_admitted`: one word, wherever it may stand.
* `Parser.run_program`, `Parser.feed_program`: a program, with the values that its lexemes make and
  the sentences that it stands for.
-/

namespace Tacit

namespace Source

/-! ### Where the parser is -/

/-- What is remembered of a word when the next one comes. -/
def Phrase.lastName (p : Phrase) (w : Word) : Option (Nat × Nat) :=
  match p with
  | .name _ site => some (site.stop, w.index)
  | _ => none

namespace Level

/-- The word list with one word more, and what is remembered of it. -/
def append (l : Level) (p : Phrase) (w : Word) : Level := ⟨w :: l.reversed, p.lastName w⟩

def Follows (l : Level) (before : Option (Phrase × Word)) : Prop :=
  l.lastName = before.bind fun entry => entry.1.lastName entry.2

theorem Follows.connection_eq {l : Level} {before : Option (Phrase × Word)} (h : l.Follows before)
    (start : Nat) : l.connection start = slotBefore before start := by
  rw [connection, h]
  rcases before with - | ⟨p, w⟩
  · rfl
  · cases p <;> rfl

end Level

namespace Parser

/-! ### Words -/

/-- The parser behind words that are made, in the list that it is left with. -/
def behind (q : Parser) (made : List (Option Value)) (level : Level) : Parser :=
  { q with store := q.store.createAll made.reduceOption, level := level }

/-- Wherever the word may stand, its lexemes are read and make what they should, and the parser
goes on behind it. -/
def Reads (p : Phrase) : Prop :=
  ∀ (q : Parser) (before : Option (Phrase × Word)), q.array = none → p.Fits q.stack.head? →
    q.level.Follows before → Run q p.lexemes (p.build q.store before).2
      (q.behind (p.build q.store before).2 (q.level.append p (p.build q.store before).1))

/-- Words that each are read wherever they fit are read one after the other, and the last of them is
remembered for the bracket that may follow. -/
theorem run_all {items : List Phrase} (each : ∀ p ∈ items, Reads p) (q : Parser)
    (before : Option (Phrase × Word)) (array : q.array = none)
    (fits : ∀ p ∈ items, p.Fits q.stack.head?) (follows : q.level.Follows before) :
    ∃ level : Level, level.words = q.level.words ++ (buildAll q.store before items).1 ∧
      Run q (lexemesOf items) (buildAll q.store before items).2
        (q.behind (buildAll q.store before items).2 level) := by
  induction items generalizing q before with
  | nil => exact ⟨q.level, by simp [buildAll], .nil q⟩
  | cons p items ih =>
    have first := each p (.head _) q before array (fits p (.head _)) follows
    obtain ⟨level, words, later⟩ := ih (fun p mem => each p (.tail _ mem))
      (q.behind (p.build q.store before).2 (q.level.append p (p.build q.store before).1))
      (some (p, (p.build q.store before).1)) array (fun p mem => fits p (.tail _ mem)) rfl
    refine ⟨level, ?_, ?_⟩
    · rw [words]
      simp [behind, Level.append, Level.words, buildAll]
    · have all := first.append later
      simp only [behind, ← Store.createAll_append, ← List.reduceOption_append] at all
      exact all

/-- Inside an array literal, literals of its type are collected and nothing is made. -/
theorem run_elements (q : Parser) (line : Nat) {e : Elem} (reversed : List e.Carrier)
    (later : List (e.Carrier × Site)) :
    Run { q with array := some ⟨line, .some e reversed⟩ } (later.map element)
      (List.replicate later.length none)
      { q with array := some ⟨line, .some e ((later.map Prod.fst).reverse ++ reversed)⟩ } := by
  induction later generalizing reversed with
  | nil => exact .nil _
  | cons entry later ih =>
    have asks : Asks { q with array := some ⟨line, .some e reversed⟩ } (element entry)
        (.collect ⟨line, .some e (entry.1 :: reversed)⟩) := .next rfl rfl
    simp only [List.map_cons, List.reverse_cons, List.append_assoc, List.singleton_append]
    exact .cons asks (ih (entry.1 :: reversed))

/-- An array literal is read, and makes the array when it is closed. -/
theorem reads_array (e : Elem) (opening : Site) (first : e.Carrier × Site)
    (later : List (e.Carrier × Site)) (closing : Site) :
    Reads (.array e opening first later closing) := by
  rintro ⟨s, sentences, level, groups, array⟩ before rfl - -
  have elements := run_elements ⟨s, sentences, level, groups, none⟩ opening.line [first.1] later
  have closes := elements.append
    (.single (l := closing.lexeme (.symbol .closeParen)) (.closeArray rfl rfl))
  have whole := Run.cons (q := ⟨s, sentences, level, groups, none⟩)
    (l := opening.lexeme (.symbol .openParen)) (.openArray rfl rfl)
    (.cons (l := element first) (.first rfl rfl) closes)
  simp only [value, List.reverse_append, List.reverse_reverse] at whole
  simp only [Phrase.build, behind, List.reduceOption_append, List.reduceOption_replicate_none]
  exact whole

/-- The words of a group are read where it is the innermost one, and then it is closed. -/
theorem reads_group {k : Enclosure} {opening closing : Site} {items : List Phrase}
    (each : ∀ p ∈ items, Reads p) (inner : ∀ p ∈ items, p.Fits (some k)) :
    Reads (.group k opening items closing) := by
  intro q before array fits follows
  let shape := k.shape (slotBefore before opening.start)
  let group : OpenGroup := ⟨shape, opening.line, q.level⟩
  have opens : Asks q (opening.lexeme (.symbol k.opener)) (.openGroup shape opening.line) := by
    simp only [shape]
    rw [← follows.connection_eq]
    apply Asks.openGroup array rfl
    rintro rfl inside
    cases fits inside
  obtain ⟨level, words, run⟩ := run_all each
    { q with level := .empty, groups := group :: q.groups } none array
    (by simpa [stack, group, shape, Enclosure.enclosure_shape] using inner) rfl
  have words : level.words = (buildAll q.store none items).1 := words
  have whole := Run.cons opens (run.append (.single (l := closing.lexeme (.symbol k.closer))
    (.closeGroup array rfl (congrArg Token.symbol (k.closer_shape _).symm))))
  simp only [Phrase.build, behind, List.cons_append, List.reduceOption_cons_of_none,
    List.reduceOption_append, Store.createAll_append, ← words]
  exact whole

/-- Every word that follows the grammar is read. -/
theorem reads_of_admitted {p : Phrase} (h : p.Admitted) : Reads p := by
  induction h with
  | literal =>
    rintro ⟨s, sentences, level, groups, array⟩ before rfl - -
    exact .single (.literal rfl rfl)
  | name =>
    rintro ⟨s, sentences, level, groups, array⟩ before rfl - -
    exact .single (.name rfl rfl)
  | placeholder =>
    rintro ⟨s, sentences, level, groups, array⟩ before rfl - -
    exact .single (.placeholder rfl rfl)
  | colon =>
    rintro ⟨s, sentences, level, groups, array⟩ before rfl - -
    exact .single (.colon rfl rfl)
  | array => exact reads_array _ _ _ _ _
  | group _ inner ih => exact reads_group ih inner

/-! ### Lines -/

/-- The words of a line, in a store, and what is written of them. -/
structure Records (s : Store) (words : Sentence) (line : List Phrase) : Prop where
  holds : s.HoldsAll none line words
  unfolds : List.Forall₂ s.Unfolds words (treesOf none line)

theorem Records.mono {s s' : Store} (grows : s.GrowsTo s') {words : Sentence} {line : List Phrase}
    (h : Records s words line) : Records s' words line :=
  ⟨Store.holdsAll_mono grows h.holds, Store.unfolds_all_mono grows h.unfolds⟩

/-- Blank lines leave no sentence, on either side. -/
theorem records_filter {s : Store} {words : Sentence} {line : List Phrase}
    (h : s.HoldsAll none line words) : List.Forall₂ (Records s) ([words].filter (!·.isEmpty))
      ([line].filter (!·.isEmpty)) := by
  cases line with
  | nil =>
    cases h
    exact .nil
  | cons p rest =>
    obtain ⟨w, later, rfl, -⟩ := id h
    exact .cons ⟨h, Store.unfolds_of_holdsAll h⟩ .nil

/-- The words of a line are read where no group is open. -/
theorem run_line {line : List Phrase} (each : ∀ p ∈ line, p.Admitted) {q : Parser}
    (array : q.array = none) (groups : q.groups = []) (empty : q.level = .empty) :
    ∃ level : Level, (q.behind (buildAll q.store none line).2 level).store.HoldsAll none line
        level.words ∧
      Run q (lexemesOf line) (buildAll q.store none line).2
        (q.behind (buildAll q.store none line).2 level) := by
  obtain ⟨level, words, run⟩ := run_all (fun p mem => reads_of_admitted (each p mem)) q none array
    (by simp [stack, groups, Phrase.fits_none]) (by rw [empty]; rfl)
  refine ⟨level, ?_, run⟩
  rw [words, empty]
  exact Store.holdsAll_build line q.store none

/-- A program that follows the grammar is read to its end. -/
theorem run_program {d : Program} (h : d.Admitted) {q : Parser} (array : q.array = none)
    (groups : q.groups = []) (empty : q.level = .empty) :
    ∃ r sentences, Run q d.lexemes (d.build q.store) r ∧
      r.finish = .ok (q.sentences.reverse ++ sentences) ∧
      List.Forall₂ (Records r.store) sentences d.sentences := by
  induction d generalizing q with
  | last line =>
    obtain ⟨level, holds, run⟩ := run_line (h line (.head _)) array groups empty
    refine ⟨_, [level.words].filter (!·.isEmpty), run, ?_, records_filter holds⟩
    simp only [finish, behind, array, groups, endSentence_eq, List.reverse_append]
    cases level.words <;> simp
  | cons line newline rest ih =>
    obtain ⟨first, later⟩ := List.forall_mem_cons.mp h
    obtain ⟨level, holds, run⟩ := run_line first array groups empty
    have ends := Run.single (q := q.behind (buildAll q.store none line).2 level)
      (l := newline.lexeme (.symbol .newline)) (.newline array groups rfl)
    rw [apply, endSentence_eq] at ends
    obtain ⟨r, sentences, run', finish, records⟩ := ih later
      (q := { q.behind (buildAll q.store none line).2 level with
        level := .empty
        sentences := [level.words].filter (!·.isEmpty) ++ q.sentences }) array groups rfl
    refine ⟨r, [level.words].filter (!·.isEmpty) ++ sentences, ?_, ?_, ?_⟩
    · have all := (run.append ends).append run'
      simpa [Program.lexemes, Program.build, behind, value] using all
    · rw [finish]
      cases level.words <;> simp
    · have grows : (q.behind (buildAll q.store none line).2 level).store.GrowsTo r.store := by
        rw [run'.store_eq]
        exact Store.growsTo_createAll _ _
      have line := (records_filter holds).imp fun _ _ => Records.mono grows
      rw [Program.sentences_cons]
      exact List.rel_append line records

/-- An admitted program is accepted, and its sentences stand for its lines that are not blank. -/
theorem feed_program {d : Program} (h : d.Admitted) {q : Parser} (array : q.array = none)
    (groups : q.groups = []) (empty : q.level = .empty) :
    ∃ r sentences, q.feed d.lexemes = (r, none) ∧
      r.finish = .ok (q.sentences.reverse ++ sentences) ∧ q.store.GrowsTo r.store ∧
      List.Forall₂ (Records r.store) sentences d.sentences := by
  obtain ⟨r, sentences, run, finish, records⟩ := run_program h array groups empty
  refine ⟨r, sentences, feed_eq_none_iff.mpr ⟨_, run⟩, finish, ?_, records⟩
  rw [run.store_eq]
  exact Store.growsTo_createAll _ _

end Parser

end Source

end Tacit
