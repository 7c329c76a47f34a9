import Tacit.Proofs.Source.Effects
import Tacit.Proofs.Source.Scanned
import Tacit.Proofs.Source.Unclosed

/-!
Where a parse fails, and what it says. The parser reads every lexeme with which some program could
still go on, so it fails at the first one with which none does, or at the end. What is open there
tells what the error is about.

* `Consumes.lines`: lexemes next to each other are on one line, unless a newline is between them.
* `Blames.unique`: what is to be told about a break is determined by what was read and what is open.
* `Parser.blames_of_action`, `Parser.blames_of_finish`: the error for a lexeme that is refused, and
  for the end.
* `parse_error_at_break`: a source that has no derivation fails where its lexemes stop to begin a
  program.
-/

namespace Tacit

namespace Source

/-! ### Lines -/

/-- The second lexeme is on the line of the first, unless this ends it. -/
def SameLine (l l' : Lexeme) : Prop := l.token ≠ .symbol .newline → l'.line = l.line

/-- Only newlines are counted. -/
theorem lineBehind_of_writes {r : Rule} {text : List Char} {found : Option Token}
    (writes : Writes r text found) (other : found ≠ some (.symbol .newline)) (line : Nat) :
    lineBehind r.pattern line = line := by
  rw [lineBehind, if_neg]
  cases writes with
  | symbol s =>
    rintro newline
    cases newline
    exact other rfl
  | _ => simp [Rule.pattern]

/-- The line of a lexeme is the line of the one before it, unless that is a newline. -/
theorem Consumes.lines {before after : List Char} {lexemes : List Lexeme}
    (h : Consumes before after lexemes) :
    (∀ l ∈ lexemes.head?, l.line = lineAfter before) ∧ lexemes.IsChain SameLine := by
  induction h with
  | nil => simp
  | @step before text rest r found later taken writes _ ih =>
    rw [lineAfter_append taken.fits] at ih
    cases found with
    | none =>
      rw [lineBehind_of_writes writes (by simp)] at ih
      exact ih
    | some token =>
      obtain ⟨first, chain⟩ := ih
      constructor
      · rintro l ⟨⟩
        rfl
      · refine List.isChain_cons.mpr ⟨?_, chain⟩
        intro l mem goesOn
        rw [first l mem, lineBehind_of_writes writes]
        rintro ⟨⟩
        exact goesOn rfl

/-! ### Errors -/

def AfterParen (consumed : List Lexeme) : Prop :=
  ∃ l ∈ consumed.getLast?, l.token = .symbol .openParen

/-- What an error has to say, where the lexemes that are consumed cannot be continued by the next
one, or by nothing more. What is open there is missing its end if the line ends there; otherwise the
next lexeme is to blame, and the error is told with its line. -/
inductive Blames (inside : Option Opened) (consumed : List Lexeme) :
    (next : Option Lexeme) → ParseError → Prop where
  | unterminated {opened : Opened} {next : Option Lexeme} (isIn : inside = some opened)
      (ends : ∀ l ∈ next, l.token = .symbol .newline) :
      Blames inside consumed next ⟨.unterminatedGroup opened.closer.char, opened.opening.line⟩
  | emptyArray {l : Lexeme} (token : l.token = .symbol .closeParen) (after : AfterParen consumed) :
      Blames inside consumed (some l) ⟨.emptyArray, l.line⟩
  | mixedArray {l : Lexeme} {e e' : Elem} {x : e'.Carrier} {opening : Site}
      (isIn : inside = some (.array e opening)) (token : l.token = .literal e' x) (other : e' ≠ e) :
      Blames inside consumed (some l) ⟨.mixedArray, l.line⟩
  | unexpected {l : Lexeme} (goesOn : l.token ≠ .symbol .newline)
      (full : l.token = .symbol .closeParen → ¬ AfterParen consumed)
      (noLiteral : ∀ e x, l.token ≠ .literal e x) :
      Blames inside consumed (some l) ⟨.unexpectedToken l.token.text, l.line⟩

/-- There is just one error to be told. -/
theorem Blames.unique {inside : Option Opened} {consumed : List Lexeme} {next : Option Lexeme}
    {e e' : ParseError} (h : Blames inside consumed next e) (h' : Blames inside consumed next e') :
    e = e' := by
  cases h with
  | unterminated isIn ends =>
    cases h' with
    | unterminated isIn' =>
      cases isIn.symm.trans isIn'
      rfl
    | emptyArray token | mixedArray _ token => cases token.symm.trans (ends _ rfl)
    | unexpected goesOn => exact absurd (ends _ rfl) goesOn
  | emptyArray token after =>
    cases h' with
    | unterminated _ ends => cases token.symm.trans (ends _ rfl)
    | emptyArray => rfl
    | mixedArray _ token' => cases token.symm.trans token'
    | unexpected _ full => exact absurd after (full token)
  | mixedArray _ token =>
    cases h' with
    | unterminated _ ends => cases token.symm.trans (ends _ rfl)
    | emptyArray token' => cases token.symm.trans token'
    | mixedArray => rfl
    | unexpected _ _ noLiteral => exact absurd token (noLiteral _ _)
  | unexpected goesOn full noLiteral =>
    cases h' with
    | unterminated _ ends => exact absurd (ends _ rfl) goesOn
    | emptyArray token after => exact absurd after (full token)
    | mixedArray _ token => exact absurd token (noLiteral _ _)
    | unexpected => rfl

namespace Parser

variable {q r : Parser} {l : Lexeme} {a : Action} {consumed : List Lexeme}
  {made : List (Option Value)} {inside : Option Opened} {e : ParseError}

/-- What is open has been opened on the line. -/
structure OnLine (q : Parser) (line : Nat) : Prop where
  groups : ∀ group ∈ q.groups, group.line = line
  array : ∀ array ∈ q.array, array.line = line

/-- No group and no array literal spans lines: what is open stays on the line of the next lexeme. -/
theorem Asks.onLine {l' : Lexeme} (asks : Asks q l a) (same : SameLine l l')
    (h : q.OnLine l.line) : (q.apply a).OnLine l'.line := by
  obtain ⟨groups, array⟩ := h
  cases asks with
  | newline outside opened =>
    rw [apply, endSentence_eq]
    constructor
    · simp [opened]
    · simp [outside]
  | literal _ token | closeArray _ token =>
    rw [same (by simp [token])]
    exact ⟨groups, by rintro _ ⟨⟩⟩
  | name _ token | placeholder _ token | colon _ token =>
    rw [same (by simp [token])]
    exact ⟨groups, array⟩
  | openArray _ token =>
    rw [same (by simp [token])]
    exact ⟨groups, by rintro _ ⟨⟩; rfl⟩
  | @openGroup k _ token =>
    rw [same (by cases k <;> simp [token, Enclosure.opener])]
    exact ⟨List.forall_mem_cons.mpr ⟨rfl, groups⟩, array⟩
  | @closeGroup group _ _ opened token =>
    rw [opened] at groups
    rw [same (by cases shape : group.shape <;> simp [token, shape, Shape.closer])]
    exact ⟨(List.forall_mem_cons.mp groups).2, array⟩
  | first inside token | next inside token =>
    have opened := array _ inside
    rw [same (by simp [token])]
    exact ⟨groups, by rintro _ ⟨⟩; exact opened⟩

/-- No group and no array literal goes over the end of a line. -/
theorem Run.onLine (h : Run q consumed made r) (lines : (consumed ++ [l]).IsChain SameLine)
    (first : ∀ l' ∈ (consumed ++ [l]).head?, q.OnLine l'.line) : r.OnLine l.line := by
  induction h with
  | nil => exact first l rfl
  | @cons q r l₀ a rest made asks run ih =>
    rw [List.cons_append, List.isChain_cons] at lines
    refine ih lines.2 ?_
    intro l' mem
    exact asks.onLine (lines.1 l' mem) (first l₀ rfl)

theorem Asks.empty_iff (asks : Asks q l a) :
    (∃ line, (q.apply a).array = some ⟨line, .empty⟩) ↔ l.token = .symbol .openParen := by
  cases asks with
  | newline outside _ token =>
    rw [apply, endSentence_eq]
    simp [outside, token]
  | @openGroup k outside token => cases k <;> simp [apply, outside, token, Enclosure.opener]
  | @closeGroup group _ outside _ token =>
    cases shape : group.shape <;> simp [apply, outside, token, shape, Shape.closer]
  | literal outside token | name outside token | placeholder outside token | colon outside token
  | openArray outside token | first outside token | next outside token | closeArray outside token =>
    simp [apply, outside, token]

/-- An array literal is without elements right behind its parenthesis, and nowhere else. -/
theorem Run.empty_iff (h : Run q consumed made r) (nonempty : consumed ≠ []) :
    (∃ line, r.array = some ⟨line, .empty⟩) ↔ AfterParen consumed := by
  induction h with
  | nil => exact absurd rfl nonempty
  | @cons q r l a rest made asks run ih =>
    cases run with
    | nil => simpa [AfterParen] using asks.empty_iff
    | cons => simpa [AfterParen] using ih (by simp)

/-- Inside an array literal a lexeme is refused with the error that is to be told. -/
theorem blames_of_elementAction {opening : Site} {elements : Elements} {e' : Elem}
    (refused : elementAction ⟨opening.line, elements⟩ l = .error e) (type : elements.MayBe e')
    (line : opening.line = l.line) (empty : elements = .empty → AfterParen consumed) :
    Blames (some (.array e' opening)) consumed (some l) e := by
  cases token : l.token with
  | literal e₁ x =>
    cases elements with
    | empty =>
      simp only [elementAction, token] at refused
      cases refused
    | some e₂ reversed =>
      obtain rfl : e₂ = e' := type
      simp only [elementAction, token] at refused
      split at refused
      · cases refused
      · next other =>
        cases refused
        exact .mixedArray rfl token other
  | symbol s =>
    cases s with
    | closeParen =>
      cases elements with
      | empty =>
        simp only [elementAction, token] at refused
        cases refused
        exact .emptyArray token (empty rfl)
      | some e₂ reversed =>
        simp only [elementAction, token] at refused
        cases refused
    | newline =>
      simp only [elementAction, token, ← line] at refused
      cases refused
      exact .unterminated rfl (by simp [token])
    | _ =>
      simp only [elementAction, token] at refused
      cases refused
      rw [← token]
      exact .unexpected (by simp [token]) (by simp [token]) (by simp [token])
  | name | placeholder =>
    simp only [elementAction, token] at refused
    cases refused
    rw [← token]
    exact .unexpected (by simp [token]) (by simp [token]) (by simp [token])

/-- Outside of array literals only symbols are refused. -/
theorem blames_of_wordAction (refused : q.wordAction l = .error e) (outside : q.array = none)
    (isIn : q.IsIn inside) (line : q.OnLine l.line) (full : ¬ AfterParen consumed) :
    Blames inside consumed (some l) e := by
  cases token : l.token with
  | literal | name | placeholder =>
    simp only [wordAction, token] at refused
    cases refused
  | symbol s =>
    simp only [wordAction, token] at refused
    cases s with
    | newline =>
      cases isIn with
      | nothing _ groups =>
        simp only [symbolAction, groups] at refused
        cases refused
      | @group group outer opening _ groups opened =>
        have same : l.line = opening.line := by rw [← opened, line.groups group (by simp [groups])]
        simp only [symbolAction, groups, unterminated, same, ← group.shape.closer_enclosure]
          at refused
        cases refused
        exact .unterminated rfl (by simp [token])
      | array inside => cases inside.symm.trans outside
    | closeParen | closeBracket | closeBrace =>
      simp only [symbolAction] at refused
      split at refused
      · cases refused
      · cases refused
        have unexpected : Blames inside consumed (some l) ⟨.unexpectedToken l.token.text, l.line⟩ :=
          .unexpected (by simp [token]) (fun _ => full) (by simp [token])
        rwa [token] at unexpected
    | colon | openParen | openBracket | openBrace | bar => cases refused

/-- A lexeme is refused with the error that is to be told. -/
theorem blames_of_action (refused : q.action l = .error e) (isIn : q.IsIn inside)
    (line : q.OnLine l.line)
    (empty : (∃ line, q.array = some ⟨line, .empty⟩) ↔ AfterParen consumed) :
    Blames inside consumed (some l) e := by
  rw [action] at refused
  cases opened : q.array with
  | none =>
    rw [opened] at refused
    have full : ¬ AfterParen consumed := by simp [← empty, opened]
    exact blames_of_wordAction refused opened isIn line full
  | some array =>
    rw [opened] at refused
    cases isIn with
    | nothing outside | group outside => cases opened.symm.trans outside
    | @array e' opening elements inside type =>
      cases opened.symm.trans inside
      refine blames_of_elementAction refused type (line.array _ opened) ?_
      rintro rfl
      exact empty.mp ⟨_, opened⟩

/-- The end is refused with the error that is to be told. -/
theorem blames_of_finish (refused : q.finish = .error e) (isIn : q.IsIn inside) :
    Blames inside consumed none e := by
  have ends : ∀ l ∈ (none : Option Lexeme), l.token = .symbol .newline := by simp
  cases isIn with
  | nothing outside groups =>
    simp only [finish, outside, groups] at refused
    cases refused
  | @group group outer opening outside groups line =>
    simp only [finish, outside, groups, unterminated, line, ← group.shape.closer_enclosure]
      at refused
    cases refused
    exact .unterminated rfl ends
  | array opened =>
    simp only [finish, opened] at refused
    cases refused
    exact .unterminated rfl ends

end Parser

/-! ### Where lexemes stop to begin a program -/

/-- Some program begins with the lexemes. -/
def Begins (lexemes : List Lexeme) : Prop := ∃ d : Program, d.Admitted ∧ lexemes <+: d.lexemes

/-- The lexemes begin a program up to the next one, which none goes on with; or up to their end. -/
inductive BreaksAt (lexemes : List Lexeme) :
    (consumed : List Lexeme) → (next : Option Lexeme) → Prop where
  | lexeme {consumed rest : List Lexeme} {l : Lexeme} (split : lexemes = consumed ++ l :: rest)
      (begins : Begins consumed) (breaks : ¬ Begins (consumed ++ [l])) :
      BreaksAt lexemes consumed (some l)
  | ending (begins : Begins lexemes) : BreaksAt lexemes lexemes none

/-- Lexemes begin a derivation exactly if the parser reads all of them. -/
theorem begins_iff (s : Store) {lexemes : List Lexeme} :
    Begins lexemes ↔ ∃ q, (Parser.start s).feed lexemes = (q, none) := by
  constructor
  · rintro ⟨d, admitted, begins⟩
    obtain ⟨made, r, run, -⟩ := Parser.opens_program admitted (q := Parser.start s) rfl rfl rfl
      begins.length_le
    rw [← List.prefix_iff_eq_take.mp begins] at run
    exact ⟨r, Parser.feed_eq_none_iff.mpr ⟨made, run⟩⟩
  · rintro ⟨q, fed⟩
    obtain ⟨d, admitted, begins, -⟩ := Parser.exists_build_of_feed fed
    exact ⟨d, admitted, begins⟩

/-- The parser decides at each lexeme whether some program goes on with it. -/
theorem begins_concat_iff {s : Store} {q : Parser} {consumed : List Lexeme} {l : Lexeme}
    (fed : (Parser.start s).feed consumed = (q, none)) :
    Begins (consumed ++ [l]) ↔ ∃ a, q.action l = .ok a := by
  obtain ⟨made, run⟩ := Parser.feed_eq_none_iff.mp fed
  rw [begins_iff s, run.feed_append, Parser.feed]
  cases q.action l <;> simp [Parser.feed]

/-- Where a lexeme is refused, the error and its line are what the lexeme and the innermost opening
around it say. -/
theorem Parser.Run.blames {s : Store} {q : Parser} {consumed rest : List Lexeme} {l : Lexeme}
    {made : List (Option Value)} {e : ParseError} {inside : Option Opened}
    (run : (start s).Run consumed made q) (lines : (consumed ++ l :: rest).IsChain SameLine)
    (refused : q.action l = .error e) (isIn : q.IsIn inside) :
    Blames inside consumed (some l) e := by
  have before : consumed ++ [l] <+: consumed ++ l :: rest := ⟨rest, by simp⟩
  have lines' := List.IsChain.prefix lines before
  have line : q.OnLine l.line :=
    run.onLine lines' fun _ _ => ⟨by simp [start], by simp [start]⟩
  refine blames_of_action refused isIn line ?_
  by_cases first : consumed = []
  · subst first
    cases run
    simp [start, AfterParen]
  · exact run.empty_iff first

/-- A source that is not scanned fails with the error of the scan, whatever else is wrong with it.
One that is scanned and has no derivation fails where its lexemes stop to begin a program. The error
is about the next lexeme and has its line, or about what is open behind those that are consumed, in
whatever program they are continued to, and has the line on which this was opened. -/
theorem parse_error_at_break (s : Store) (source : String) :
    (∀ e, scan source = .error e → (parse s source).1 = .error e) ∧
    ∀ lexemes, scan source = .ok lexemes → (¬ ∃ d : Program, d.Admitted ∧ d.lexemes = lexemes) →
      (∃ consumed next, BreaksAt lexemes consumed next) ∧
      ∀ consumed next, BreaksAt lexemes consumed next → ∃ e, (parse s source).1 = .error e ∧
        ∀ d : Program, d.Admitted → consumed <+: d.lexemes →
          Blames (d.openAt consumed.length) consumed next e := by
  constructor
  · intro e scanned
    rw [parse, scanned]
  · intro lexemes scanned underivable
    have lines := ((scan_eq_ok_iff source).mp scanned).lines.2
    simp only [parse, scanned, parseLexemes]
    constructor
    · rcases (Parser.start s).feed_cases lexemes with
        ⟨q, fed⟩ | ⟨consumed, l, rest, q, e, split, fed, refused, -⟩
      · exact ⟨lexemes, none, .ending ((begins_iff s).mpr ⟨q, fed⟩)⟩
      · refine ⟨consumed, some l, .lexeme split ((begins_iff s).mpr ⟨q, fed⟩) ?_⟩
        rw [begins_concat_iff fed, refused]
        rintro ⟨a, ⟨⟩⟩
    · intro consumed next breaks
      cases breaks with
      | ending begins =>
        obtain ⟨q, fed⟩ := (begins_iff s).mp begins
        rw [fed]
        cases finished : q.finish with
        | ok sentences => exact absurd (Parser.completes_of_feed fed finished) underivable
        | error e =>
          refine ⟨e, finished, ?_⟩
          intro d admitted begins
          exact Parser.blames_of_finish finished (Parser.isIn_openAt admitted begins fed)
      | @lexeme _ _ l split begins breaks =>
        obtain ⟨q, fed⟩ := (begins_iff s).mp begins
        obtain ⟨made, run⟩ := Parser.feed_eq_none_iff.mp fed
        rw [begins_concat_iff fed] at breaks
        cases action : q.action l with
        | ok a => exact absurd ⟨a, action⟩ breaks
        | error e =>
          rw [split, run.feed_append, Parser.feed, action]
          refine ⟨e, rfl, ?_⟩
          intro d admitted begins
          rw [split] at lines
          exact run.blames lines action (Parser.isIn_openAt admitted begins fed)

/-- In an array literal that stands in a tuple in an executor in a block, the double after an
integer is to blame. -/
theorem parse_error_at_break_mixed : ∃ lexemes consumed next,
    scan "{|[(1 2.5)]|}" = .ok lexemes ∧ BreaksAt lexemes consumed next ∧
      ∀ d : Program, d.Admitted → consumed <+: d.lexemes →
        Blames (d.openAt consumed.length) consumed next ⟨.mixedArray, 1⟩ := by
  have scans : (scan "{|[(1 2.5)]|}").isOk = true := by decide +kernel
  have fails : (parse .empty "{|[(1 2.5)]|}").1 = .error ⟨.mixedArray, 1⟩ := by decide +kernel
  obtain ⟨-, broken⟩ := parse_error_at_break .empty "{|[(1 2.5)]|}"
  cases scanned : scan "{|[(1 2.5)]|}" with
  | error e =>
    rw [scanned] at scans
    cases scans
  | ok lexemes =>
    have underivable : ¬ ∃ d : Program, d.Admitted ∧ d.lexemes = lexemes := by
      rintro ⟨d, admitted, rfl⟩
      obtain ⟨r, sentences, fed, finished, -⟩ :=
        Parser.feed_program admitted (q := Parser.start .empty) rfl rfl rfl
      simp only [parse, scanned, parseLexemes, fed, finished] at fails
      cases fails
    obtain ⟨⟨consumed, next, breaks⟩, errors⟩ := broken lexemes scanned underivable
    obtain ⟨e, failed, blames⟩ := errors consumed next breaks
    cases fails.symm.trans failed
    exact ⟨lexemes, consumed, next, rfl, breaks, blames⟩

end Source

end Tacit
