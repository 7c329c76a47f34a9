import Tacit.Proofs.Store.Tree
import Tacit.Source.Token

/-!
The grammar of programs, as trees: words of a line, groups of words, and lines between newlines.
Each tree remembers where its tokens were read, so it determines the lexemes that it is a
derivation of. What the grammar says beyond the shape of the trees is that an executor is no word
of another one: its bar would close the other.

* `Program.eq_of_lexemes_eq`: no lexemes have two derivations. The first lexeme of a word decides
  of what sort it is, and what follows the last word of a list begins no word of it.
-/

namespace Tacit

namespace Source

inductive Enclosure where
  | brackets | braces | bars
deriving DecidableEq

namespace Enclosure

def opener : Enclosure → Symbol
  | .brackets => .openBracket
  | .braces => .openBrace
  | .bars => .bar

def closer : Enclosure → Symbol
  | .brackets => .closeBracket
  | .braces => .closeBrace
  | .bars => .bar

@[simp]
theorem opener_inj {k k' : Enclosure} : k.opener = k'.opener ↔ k = k' := by
  cases k <;> cases k' <;> decide

end Enclosure

/-- Where a token was read: what a lexeme tells besides its token. -/
structure Site where
  text : String
  line : Nat
  start : Nat

namespace Site

def stop (site : Site) : Nat := site.start + site.text.utf8ByteSize

def lexeme (site : Site) (token : Token) : Lexeme := ⟨token, site.text, site.line, site.start⟩

@[simp]
theorem lexeme_inj {site site' : Site} {token token' : Token} :
    site.lexeme token = site'.lexeme token' ↔ token = token' ∧ site = site' := by
  obtain ⟨text, line, start⟩ := site
  obtain ⟨text', line', start'⟩ := site'
  simp [lexeme]

end Site

/-- The derivation of a word. -/
inductive Phrase where
  | literal (e : Elem) (x : e.Carrier) (site : Site)
  | name (text : String) (site : Site)
  | placeholder (number : Nat) (site : Site)
  | colon (site : Site)
  /-- An array literal has at least one element, and all are of one type. -/
  | array (e : Elem) (opening : Site) (first : e.Carrier × Site) (later : List (e.Carrier × Site))
    (closing : Site)
  | group (enclosure : Enclosure) (opening : Site) (items : List Phrase) (closing : Site)

/-- Induction on derivations, with the hypothesis for every item of a group. -/
@[elab_as_elim, induction_eliminator]
theorem Phrase.induct {motive : Phrase → Prop} (literal : ∀ e x site, motive (.literal e x site))
    (name : ∀ text site, motive (.name text site))
    (placeholder : ∀ number site, motive (.placeholder number site))
    (colon : ∀ site, motive (.colon site))
    (array : ∀ e opening first later closing, motive (.array e opening first later closing))
    (group : ∀ enclosure opening items closing, (∀ p ∈ items, motive p) →
      motive (.group enclosure opening items closing)) (p : Phrase) : motive p :=
  @Phrase.rec motive (fun items => ∀ p ∈ items, motive p) literal name placeholder colon array group
    (fun _ mem => nomatch mem) (fun _ _ first rest => List.forall_mem_cons.mpr ⟨first, rest⟩) p

def element {e : Elem} (entry : e.Carrier × Site) : Lexeme := entry.2.lexeme (.literal e entry.1)

mutual

/-- The lexemes that the word is derived from. -/
def Phrase.lexemes : Phrase → List Lexeme
  | .literal e x site => [site.lexeme (.literal e x)]
  | .name text site => [site.lexeme (.name text)]
  | .placeholder number site => [site.lexeme (.placeholder number)]
  | .colon site => [site.lexeme (.symbol .colon)]
  | .array _ opening first later closing => opening.lexeme (.symbol .openParen) ::
      element first :: (later.map element ++ [closing.lexeme (.symbol .closeParen)])
  | .group enclosure opening items closing => opening.lexeme (.symbol enclosure.opener) ::
      (lexemesOf items ++ [closing.lexeme (.symbol enclosure.closer)])

def lexemesOf : List Phrase → List Lexeme
  | [] => []
  | p :: rest => p.lexemes ++ lexemesOf rest

end

namespace Phrase

def isExecutor : Phrase → Bool
  | .group .bars _ _ _ => true
  | _ => false

/-- The word may stand in a word list: on a line, or in a group. -/
def Fits (context : Option Enclosure) (p : Phrase) : Prop :=
  context = some .bars → p.isExecutor = false

/-- In a sentence every word may stand. -/
theorem fits_none (p : Phrase) : p.Fits none := by
  rintro ⟨⟩

/-- The derivation follows the grammar, in which an executor is no word of an executor. -/
inductive Admitted : Phrase → Prop where
  | literal {e : Elem} {x : e.Carrier} {site : Site} : Admitted (.literal e x site)
  | name {text : String} {site : Site} : Admitted (.name text site)
  | placeholder {number : Nat} {site : Site} : Admitted (.placeholder number site)
  | colon {site : Site} : Admitted (.colon site)
  | array {e : Elem} {opening closing : Site} {first : e.Carrier × Site}
      {later : List (e.Carrier × Site)} : Admitted (.array e opening first later closing)
  | group {enclosure : Enclosure} {opening closing : Site} {items : List Phrase} :
      (∀ p ∈ items, p.Admitted) → (∀ p ∈ items, p.Fits (some enclosure)) →
      Admitted (.group enclosure opening items closing)

end Phrase

/-- The derivation of a program: lines between newlines. There is a line after the last newline,
which may be without words, as every line may. -/
inductive Program where
  | last (line : List Phrase)
  | cons (line : List Phrase) (newline : Site) (rest : Program)

namespace Program

def lexemes : Program → List Lexeme
  | .last line => lexemesOf line
  | .cons line newline rest => lexemesOf line ++ newline.lexeme (.symbol .newline) :: rest.lexemes

def lines : Program → List (List Phrase)
  | .last line => [line]
  | .cons line _ rest => line :: rest.lines

def Admitted (d : Program) : Prop := ∀ line ∈ d.lines, ∀ p ∈ line, p.Admitted

def sentences (d : Program) : List (List Phrase) := d.lines.filter (!·.isEmpty)

theorem sentences_cons (line : List Phrase) (newline : Site) (rest : Program) :
    (cons line newline rest).sentences = [line].filter (!·.isEmpty) ++ rest.sentences := by
  rw [sentences, lines, ← List.singleton_append, List.filter_append, sentences]

end Program

/-! ### Unique derivations -/

/-- The first token of a word. -/
def Phrase.initial : Phrase → Token
  | .literal e x _ => .literal e x
  | .name text _ => .name text
  | .placeholder number _ => .placeholder number
  | .colon _ => .symbol .colon
  | .array .. => .symbol .openParen
  | .group enclosure _ _ _ => .symbol enclosure.opener

/-- Every word has a first lexeme, and its token tells of what sort the word is. -/
theorem Phrase.exists_lexemes_eq_cons (p : Phrase) :
    ∃ (site : Site) (later : List Lexeme), p.lexemes = site.lexeme p.initial :: later := by
  cases p <;> exact ⟨_, _, rfl⟩

def terminator : Option Enclosure → Symbol
  | none => .newline
  | some k => k.closer

/-- The lexemes after a word list: they begin with the symbol that ends it, if there are any. -/
def Ends (context : Option Enclosure) (lexemes : List Lexeme) : Prop :=
  ∀ l ∈ lexemes.head?, l.token = .symbol (terminator context)

/-- No word begins with the symbol that would end the list it is in: the bar, which is the one
symbol that both opens and closes, begins no word of an executor. -/
theorem Phrase.initial_ne {context : Option Enclosure} {p : Phrase} (fits : p.Fits context) :
    p.initial ≠ .symbol (terminator context) := by
  intro eq
  cases p with
  | group enclosure =>
    rw [initial, Token.symbol.injEq] at eq
    rcases context with - | (- | - | -) <;> cases enclosure
    case some.bars.bars => cases fits rfl
    all_goals cases eq
  | colon | array =>
    rw [initial, Token.symbol.injEq] at eq
    rcases context with - | (- | - | -) <;> cases eq
  | literal | name | placeholder => cases eq

/-- A word that may stand in a group does not begin with what closes the group. -/
theorem Phrase.not_ends {context : Option Enclosure} {p : Phrase} (fits : p.Fits context)
    (rest : List Lexeme) : ¬ Ends context (p.lexemes ++ rest) := by
  intro ends
  obtain ⟨site, later, eq⟩ := p.exists_lexemes_eq_cons
  rw [eq] at ends
  exact Phrase.initial_ne fits (ends _ rfl)

/-- The lexemes of the word, if they are the first of some, are of no other word. -/
def Phrase.Determined (p : Phrase) : Prop :=
  ∀ p' r r', p'.Admitted → p.lexemes ++ r = p'.lexemes ++ r' → p = p' ∧ r = r'

/-- Lists of words that the same group or line may hold are equal if their lexemes are, up to where
they end. -/
theorem eq_of_lexemesOf_append_eq {context : Option Enclosure} {items items' : List Phrase}
    {r r' : List Lexeme} (each : ∀ p ∈ items, p.Determined) (fits : ∀ p ∈ items, p.Fits context)
    (each' : ∀ p ∈ items', p.Admitted) (fits' : ∀ p ∈ items', p.Fits context)
    (ends : Ends context r) (ends' : Ends context r')
    (eq : lexemesOf items ++ r = lexemesOf items' ++ r') : items = items' ∧ r = r' := by
  induction items generalizing items' with
  | nil =>
    cases items' with
    | nil => exact ⟨rfl, eq⟩
    | cons p' rest' =>
      rw [lexemesOf, lexemesOf, List.append_assoc, List.nil_append] at eq
      exact absurd (eq ▸ ends) (Phrase.not_ends (fits' p' (.head _)) _)
  | cons p rest ih =>
    cases items' with
    | nil =>
      rw [lexemesOf, lexemesOf, List.append_assoc, List.nil_append] at eq
      exact absurd (eq ▸ ends') (Phrase.not_ends (fits p (.head _)) _)
    | cons p' rest' =>
      rw [lexemesOf, lexemesOf, List.append_assoc, List.append_assoc] at eq
      obtain ⟨rfl, later⟩ := each p (.head _) p' _ _ (each' p' (.head _)) eq
      obtain ⟨rfl, rfl⟩ := ih (fun p mem => each p (.tail _ mem))
        (fun p mem => fits p (.tail _ mem)) (fun p mem => each' p (.tail _ mem))
        (fun p mem => fits' p (.tail _ mem)) later
      exact ⟨rfl, rfl⟩

/-- The elements of an array literal end at its closing parenthesis. -/
theorem eq_of_elements_append_eq {e : Elem} {entries entries' : List (e.Carrier × Site)}
    {closing closing' : Site} {r r' : List Lexeme}
    (eq : entries.map element ++ closing.lexeme (.symbol .closeParen) :: r =
      entries'.map element ++ closing'.lexeme (.symbol .closeParen) :: r') :
    entries = entries' ∧ closing = closing' ∧ r = r' := by
  induction entries generalizing entries' with
  | nil =>
    cases entries' with
    | nil => simpa using eq
    | cons entry rest => simp [element] at eq
  | cons entry rest ih =>
    cases entries' with
    | nil => simp [element] at eq
    | cons entry' rest' =>
      obtain ⟨x, site⟩ := entry
      obtain ⟨x', site'⟩ := entry'
      simp only [List.map_cons, List.cons_append, List.cons.injEq, element, Site.lexeme_inj,
        Token.literal.injEq, heq_eq_eq, true_and] at eq
      obtain ⟨⟨rfl, rfl⟩, eq⟩ := eq
      obtain ⟨rfl, rfl, rfl⟩ := ih eq
      exact ⟨rfl, rfl, rfl⟩

theorem Phrase.initial_eq {p p' : Phrase} {r r' : List Lexeme}
    (eq : p.lexemes ++ r = p'.lexemes ++ r') : p.initial = p'.initial := by
  obtain ⟨site, later, cons⟩ := p.exists_lexemes_eq_cons
  obtain ⟨site', later', cons'⟩ := p'.exists_lexemes_eq_cons
  rw [cons, cons'] at eq
  exact (Site.lexeme_inj.mp (List.cons.inj eq).1).1

/-- The first lexeme decides of what sort a word is. The words of a group come to an end at the
first lexeme that closes it, since no word begins with that. -/
theorem Phrase.Admitted.determined {p : Phrase} (h : p.Admitted) : p.Determined := by
  induction p with
  | literal | name | placeholder | colon =>
    intro p' r r' h' eq
    have same := initial_eq eq
    cases p' with
    | group enclosure => cases enclosure <;> cases same
    | _ => cases same <;> simpa [lexemes] using eq
  | array e opening first later closing =>
    intro p' r r' h' eq
    have same := initial_eq eq
    cases p' with
    | group enclosure => cases enclosure <;> cases same
    | array e' opening' first' later' closing' =>
      simp only [lexemes, List.cons_append, List.append_assoc, List.nil_append, List.cons.injEq,
        Site.lexeme_inj, true_and] at eq
      obtain ⟨rfl, head, elements⟩ := eq
      obtain ⟨literal, -⟩ := Site.lexeme_inj.mp head
      obtain ⟨rfl, -⟩ := Token.literal.inj literal
      have all : (first :: later).map element ++ closing.lexeme (.symbol .closeParen) :: r =
          (first' :: later').map element ++ closing'.lexeme (.symbol .closeParen) :: r' :=
        List.cons_eq_cons.mpr ⟨head, elements⟩
      obtain ⟨entries, rfl, rfl⟩ := eq_of_elements_append_eq all
      obtain ⟨rfl, rfl⟩ := List.cons.inj entries
      exact ⟨rfl, rfl⟩
    | _ => cases same
  | group enclosure opening items closing ih =>
    intro p' r r' h' eq
    have same := initial_eq eq
    cases p' with
    | group enclosure' opening' items' closing' =>
      obtain rfl := Enclosure.opener_inj.mp (Token.symbol.inj same)
      cases h with
      | group each fits =>
        cases h' with
        | group each' fits' =>
          simp only [lexemes, List.cons_append, List.append_assoc, List.nil_append,
            List.cons.injEq, Site.lexeme_inj, true_and] at eq
          obtain ⟨rfl, eq⟩ := eq
          obtain ⟨rfl, eq⟩ := eq_of_lexemesOf_append_eq (fun p mem => ih p mem (each p mem)) fits
            each' fits' (by rintro l ⟨⟩; rfl) (by rintro l ⟨⟩; rfl) eq
          simpa using eq
    | _ => cases enclosure <;> cases same

/-- A line ends at its newline or at the end of the source, so its lexemes determine its words. -/
theorem eq_of_line_append_eq {line line' : List Phrase} {r r' : List Lexeme}
    (each : ∀ p ∈ line, p.Admitted) (each' : ∀ p ∈ line', p.Admitted) (ends : Ends none r)
    (ends' : Ends none r') (eq : lexemesOf line ++ r = lexemesOf line' ++ r') :
    line = line' ∧ r = r' :=
  eq_of_lexemesOf_append_eq (fun p mem => (each p mem).determined) (fun p _ => p.fits_none) each'
    (fun p _ => p.fits_none) ends ends' eq

/-- A list of lexemes has at most one derivation. -/
theorem Program.eq_of_lexemes_eq {d d' : Program} (h : d.Admitted) (h' : d'.Admitted)
    (eq : d.lexemes = d'.lexemes) : d = d' := by
  have ends : Ends none [] := by rintro l ⟨⟩
  have ends' : ∀ (site : Site) rest, Ends none (site.lexeme (.symbol .newline) :: rest) := by
    rintro site rest l ⟨⟩
    rfl
  induction d generalizing d' with
  | last line =>
    have each := h line (.head _)
    cases d' with
    | last line' =>
      have eq : lexemesOf line ++ [] = lexemesOf line' ++ [] := by simpa [lexemes] using eq
      obtain ⟨rfl, -⟩ := eq_of_line_append_eq each (h' line' (.head _)) ends ends eq
      rfl
    | cons line' newline' rest' =>
      have eq : lexemesOf line ++ [] =
          lexemesOf line' ++ newline'.lexeme (.symbol .newline) :: rest'.lexemes := by
        simpa [lexemes] using eq
      cases (eq_of_line_append_eq each (h' line' (.head _)) ends (ends' _ _) eq).2
  | cons line newline rest ih =>
    obtain ⟨each, later⟩ := List.forall_mem_cons.mp h
    cases d' with
    | last line' =>
      have eq : lexemesOf line ++ newline.lexeme (.symbol .newline) :: rest.lexemes =
          lexemesOf line' ++ [] := by
        simpa [lexemes] using eq
      cases (eq_of_line_append_eq each (h' line' (.head _)) (ends' _ _) ends eq).2
    | cons line' newline' rest' =>
      obtain ⟨each', later'⟩ := List.forall_mem_cons.mp h'
      obtain ⟨rfl, tails⟩ := eq_of_line_append_eq each each' (ends' _ _) (ends' _ _) eq
      obtain ⟨newlines, lines⟩ := List.cons.inj tails
      obtain ⟨-, rfl⟩ := Site.lexeme_inj.mp newlines
      rw [ih later later' lines]

end Source

end Tacit
