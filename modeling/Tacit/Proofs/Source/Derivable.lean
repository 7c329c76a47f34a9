import Tacit.Proofs.Source.Accepted

/-!
What is accepted has a derivation. From where the parser is, the lexemes that are left complete a
derivation: the words that are left of the innermost group and what closes it, the same for the
groups around it, and then lines. Read backwards, lexeme by lexeme, this ends with a derivation of
the whole program.

* `Parser.completes_of_feed`: from wherever the parser comes to the end, the rest is complete.
* `parse_iff_derivation`: a source is parsed if and only if its lexemes have a derivation, which
  is unique, and the sentences are what the derivation says.
-/

namespace Tacit

namespace Source

/-- The lexemes are all that is missing to a derivation, while the given groups are open. -/
def Completes : List Enclosure → List Lexeme → Prop
  | [], lexemes => ∃ d : Program, d.Admitted ∧ d.lexemes = lexemes
  | k :: outer, lexemes => ∃ (items : List Phrase) (closing : Site) (rest : List Lexeme),
    (∀ p ∈ items, p.Admitted) ∧ (∀ p ∈ items, p.Fits (some k)) ∧
      lexemes = lexemesOf items ++ closing.lexeme (.symbol k.closer) :: rest ∧ Completes outer rest

/-- The same inside an array literal with the given elements. -/
def ElementsComplete (stack : List Enclosure) : Elements → List Lexeme → Prop
  | .empty, lexemes => ∃ (e : Elem) (first : e.Carrier × Site) (later : List (e.Carrier × Site))
      (closing : Site) (rest : List Lexeme),
    lexemes = element first :: (later.map element ++ closing.lexeme (.symbol .closeParen) :: rest) ∧
      Completes stack rest
  | .some e _, lexemes => ∃ (later : List (e.Carrier × Site)) (closing : Site) (rest : List Lexeme),
    lexemes = later.map element ++ closing.lexeme (.symbol .closeParen) :: rest ∧
      Completes stack rest

/-! ### Completing backwards -/

section Backwards

variable {stack : List Enclosure} {rest : List Lexeme}

def Program.prepend (p : Phrase) : Program → Program
  | .last line => .last (p :: line)
  | .cons line newline rest => .cons (p :: line) newline rest

theorem Program.Admitted.prepend {p : Phrase} (hp : p.Admitted) {d : Program} (h : d.Admitted) :
    (d.prepend p).Admitted := by
  cases d with
  | last line =>
    intro words mem
    obtain rfl := List.mem_singleton.mp mem
    exact List.forall_mem_cons.mpr ⟨hp, h line (.head _)⟩
  | cons line newline rest =>
    obtain ⟨first, later⟩ := List.forall_mem_cons.mp h
    exact List.forall_mem_cons.mpr ⟨List.forall_mem_cons.mpr ⟨hp, first⟩, later⟩

theorem Program.lexemes_prepend (p : Phrase) (d : Program) :
    (d.prepend p).lexemes = p.lexemes ++ d.lexemes := by
  cases d with
  | last line => rfl
  | cons line newline rest =>
    rw [prepend, lexemes, lexemes, lexemesOf, List.append_assoc]

/-- A word that fits may come before what completes the rest. -/
theorem Completes.phrase {p : Phrase} (hp : p.Admitted) (fits : p.Fits stack.head?)
    (h : Completes stack rest) : Completes stack (p.lexemes ++ rest) := by
  cases stack with
  | nil =>
    obtain ⟨d, admitted, rfl⟩ := h
    exact ⟨d.prepend p, admitted.prepend hp, d.lexemes_prepend p⟩
  | cons k outer =>
    obtain ⟨items, closing, rest, each, inner, rfl, later⟩ := h
    refine ⟨p :: items, closing, rest, List.forall_mem_cons.mpr ⟨hp, each⟩,
      List.forall_mem_cons.mpr ⟨fits, inner⟩, ?_, later⟩
    rw [lexemesOf, List.append_assoc]

/-- A newline may come before what completes the rest if no group is open. -/
theorem Completes.newline (site : Site) (h : Completes [] rest) :
    Completes [] (site.lexeme (.symbol .newline) :: rest) := by
  obtain ⟨d, admitted, rfl⟩ := h
  exact ⟨.cons [] site d, List.forall_mem_cons.mpr ⟨List.forall_mem_nil _, admitted⟩, rfl⟩

/-- The closing symbol of the innermost group may come before what completes the groups around
it. -/
theorem Completes.close (k : Enclosure) (site : Site) (h : Completes stack rest) :
    Completes (k :: stack) (site.lexeme (.symbol k.closer) :: rest) :=
  ⟨[], site, rest, List.forall_mem_nil _, List.forall_mem_nil _, rfl, h⟩

/-- An opening symbol may come before what completes its group, and the groups around it. -/
theorem Completes.opener {k : Enclosure} (fits : k = .bars → stack.head? ≠ some .bars) (site : Site)
    (h : Completes (k :: stack) rest) :
    Completes stack (site.lexeme (.symbol k.opener) :: rest) := by
  obtain ⟨items, closing, rest, each, inner, rfl, later⟩ := h
  have group : (Phrase.group k site items closing).Fits stack.head? := by
    intro inside
    cases k with
    | bars => exact absurd inside (fits rfl)
    | brackets | braces => rfl
  simpa [Phrase.lexemes] using later.phrase (.group each inner) group

/-- An opening parenthesis may come before elements and what completes the rest. -/
theorem Completes.array (site : Site) (h : ElementsComplete stack .empty rest) :
    Completes stack (site.lexeme (.symbol .openParen) :: rest) := by
  obtain ⟨e, first, later, closing, rest, rfl, outer⟩ := h
  have fits : (Phrase.array e site first later closing).Fits stack.head? := fun _ => rfl
  simpa [Phrase.lexemes] using outer.phrase .array fits

end Backwards

namespace Parser

/-- The lexemes are all that is missing, from where the parser is. -/
def Completes (q : Parser) (lexemes : List Lexeme) : Prop :=
  match q.array with
  | none => Source.Completes q.stack lexemes
  | some array => ElementsComplete q.stack array.elements lexemes

/-- What completes a derivation behind a lexeme completes it before, together with the lexeme. -/
theorem completes_of_action {q : Parser} {l : Lexeme} {a : Action} {rest : List Lexeme}
    (h : q.action l = .ok a) (later : (q.apply a).Completes rest) : q.Completes (l :: rest) := by
  obtain ⟨token, text, line, start⟩ := l
  let site : Site := ⟨text, line, start⟩
  cases asks_of_action h with
  | literal outside is =>
    obtain rfl := is
    simp only [Completes, apply, outside] at later ⊢
    exact later.phrase (p := .literal _ _ site) .literal fun _ => rfl
  | name outside is =>
    obtain rfl := is
    simp only [Completes, apply, outside] at later ⊢
    exact later.phrase (p := .name _ site) .name fun _ => rfl
  | placeholder outside is =>
    obtain rfl := is
    simp only [Completes, apply, outside] at later ⊢
    exact later.phrase (p := .placeholder _ site) .placeholder fun _ => rfl
  | colon outside is =>
    obtain rfl := is
    simp only [Completes, apply, outside] at later ⊢
    exact later.phrase (p := .colon site) .colon fun _ => rfl
  | openArray outside is =>
    obtain rfl := is
    simp only [Completes, apply, outside] at later ⊢
    exact Source.Completes.array site later
  | openGroup outside is opens =>
    obtain rfl := is
    simp only [Completes, apply, outside, stack, List.map_cons, Enclosure.enclosure_shape] at later ⊢
    exact Source.Completes.opener opens site later
  | closeGroup outside groups is =>
    obtain rfl := is
    simp only [Completes, apply, outside, stack, groups, List.map_cons] at later ⊢
    rw [← Shape.closer_enclosure]
    exact later.close _ site
  | newline outside groups is =>
    obtain rfl := is
    simp only [Completes, apply, endSentence_eq, outside, stack, groups] at later ⊢
    exact later.newline site
  | @first e x line inside is =>
    obtain rfl := is
    simp only [Completes, apply, inside] at later ⊢
    obtain ⟨others, closing, rest, rfl, outer⟩ := later
    exact ⟨e, (x, site), others, closing, rest, rfl, outer⟩
  | @next e x line reversed inside is =>
    obtain rfl := is
    simp only [Completes, apply, inside] at later ⊢
    obtain ⟨others, closing, rest, rfl, outer⟩ := later
    exact ⟨(x, site) :: others, closing, rest, rfl, outer⟩
  | closeArray inside is =>
    obtain rfl := is
    simp only [Completes, apply, inside] at later ⊢
    exact ⟨[], site, rest, rfl, later⟩

/-- If the parser reads the lexemes to the end of the source, they complete a derivation from where
it was. -/
theorem completes_of_feed {q r : Parser} {lexemes : List Lexeme} (fed : q.feed lexemes = (r, none))
    {sentences : List Sentence} (finished : r.finish = .ok sentences) : q.Completes lexemes := by
  apply feed_induct (P := Completes) ?_ completes_of_action fed
  rw [finish] at finished
  split at finished
  · cases finished
  · cases finished
  · next outside groups =>
    simp only [Completes, outside, stack, groups]
    exact ⟨.last [], List.forall_mem_singleton.mpr (List.forall_mem_nil _), rfl⟩

end Parser

/-- The parser accepts exactly the grammar and makes of a source what its derivation says. The
lexemes of a source are parsed if and only if they have a derivation; no list of lexemes has two;
and each sentence is made of words that stand for the words of a line, in order and without the
lines that have none. So a tuple is connected if and only if a name comes right before its bracket
in the same list of words, and its connected name is then the slot of that name. -/
theorem parse_iff_derivation (s : Store) {source : String} {lexemes : List Lexeme}
    (scanned : scan source = .ok lexemes) :
    ((∃ sentences, (parse s source).1 = .ok sentences) ↔
      ∃ d : Program, d.Admitted ∧ d.lexemes = lexemes) ∧
    (∀ d d' : Program, d.Admitted → d'.Admitted → d.lexemes = d'.lexemes → d = d') ∧
    (∀ d : Program, d.Admitted → d.lexemes = lexemes → ∃ sentences,
      (parse s source).1 = .ok sentences ∧
        List.Forall₂ (fun words line => (parse s source).2.HoldsAll none line words ∧
          List.Forall₂ (parse s source).2.Unfolds words (treesOf none line)) sentences
          d.sentences) := by
  have written : ∀ d : Program, d.Admitted → d.lexemes = lexemes → ∃ sentences,
      (parse s source).1 = .ok sentences ∧
        List.Forall₂ (Parser.Records (parse s source).2) sentences d.sentences := by
    intro d admitted eq
    obtain ⟨r, sentences, fed, finished, -, records⟩ :=
      Parser.feed_program admitted (q := Parser.start s) rfl rfl rfl
    rw [eq] at fed
    simp only [parse, scanned, parseLexemes, fed]
    exact ⟨sentences, finished, records⟩
  refine ⟨⟨?_, ?_⟩, ?_, ?_⟩
  · rintro ⟨sentences, parsed⟩
    simp only [parse, scanned, parseLexemes] at parsed
    split at parsed
    · cases parsed
    · next fed => exact Parser.completes_of_feed fed parsed
  · rintro ⟨d, admitted, eq⟩
    obtain ⟨sentences, parsed, -⟩ := written d admitted eq
    exact ⟨sentences, parsed⟩
  · intro d d' admitted admitted' eq
    exact Program.eq_of_lexemes_eq admitted admitted' eq
  · intro d admitted eq
    obtain ⟨sentences, parsed, records⟩ := written d admitted eq
    exact ⟨sentences, parsed, records.imp fun _ _ record => ⟨record.holds, record.unfolds⟩⟩

/-- A connected tuple next to an executor, which holds a block that holds an executor. -/
theorem parse_iff_derivation_nested :
    ∃ lexemes, scan "add[10 _] |{dec |neg|} inc|\n(1 2)" = .ok lexemes ∧
      ∃ d : Program, d.Admitted ∧ d.lexemes = lexemes := by
  have parses : (parse .empty "add[10 _] |{dec |neg|} inc|\n(1 2)").1.isOk = true := by
    decide +kernel
  cases scanned : scan "add[10 _] |{dec |neg|} inc|\n(1 2)" with
  | error e =>
    rw [parse, scanned] at parses
    cases parses
  | ok lexemes =>
    refine ⟨lexemes, rfl, (parse_iff_derivation .empty scanned).1.mp ?_⟩
    cases parsed : (parse .empty "add[10 _] |{dec |neg|} inc|\n(1 2)").1 with
    | error e =>
      rw [parsed] at parses
      cases parses
    | ok sentences => exact ⟨sentences, rfl⟩

end Source

end Tacit
