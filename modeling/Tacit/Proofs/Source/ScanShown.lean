import Tacit.Proofs.Source.Grammar
import Tacit.Proofs.Source.ScanLines

/-!
Scanning what is shown. A literal, name or placeholder is matched as a whole when it is followed
by nothing or by one of the characters that come after a word in the text of a larger one, since
none of them continues any match.

* `Spells.scan`: such a text is one lexeme, and the scan goes on behind it.
* `spells_literal`, `spells_name`, `spells_placeholder`: the texts that are tokens.
* `exists_scan_elements`: so are the elements of an array.
-/

namespace Tacit

namespace Source

/-! ### Matches end before what comes after a word -/

/-- The text comes right after a word: it is empty, or begins with a blank or a symbol that closes
what the word stands in. -/
def Closes (rest : List Char) : Prop :=
  ∀ c ∈ rest.head?, c = ' ' ∨ c = ')' ∨ c = ']' ∨ c = '|'

theorem closes_nil : Closes [] := by
  rintro c ⟨⟩

theorem closes_cons {c : Char} (rest : List Char) (h : c = ' ' ∨ c = ')' ∨ c = ']' ∨ c = '|') :
    Closes (c :: rest) := by
  rintro c' ⟨⟩
  exact h

section Matches

variable {c : Char} {cs rest : List Char}

/-- A run stops at what closes a text. -/
theorem Closes.run_eq_length (h : Closes rest) {p : Char → Bool} (all : ∀ c ∈ cs, p c = true)
    (stops : (p ' ' || p ')' || p ']' || p '|') = false) : run p (cs ++ rest) = cs.length := by
  simp only [Bool.or_eq_false_iff] at stops
  obtain ⟨⟨⟨blank, paren⟩, bracket⟩, bar⟩ := stops
  apply Source.run_eq_length all
  intro c first
  rcases h c first with rfl | rfl | rfl | rfl <;> assumption

theorem Closes.numberAfter (h : Closes rest) :
    numberAfter cs.length (cs ++ rest) = (.integer, cs.length) := by
  rw [Source.numberAfter, List.drop_left]
  split
  · exact absurd (h '.' rfl) (by decide)
  · rfl

/-- Digits before what closes them are an integer: no point follows. -/
theorem Closes.longestMatch_digits (h : Closes rest) (first : c.isDigit = true)
    (digits : ∀ d ∈ cs, d.isDigit = true) :
    longestMatch c (cs ++ rest) = some (.integer, cs.length) := by
  rw [longestMatch_digit first, h.run_eq_length digits rfl, h.numberAfter]

theorem Closes.longestMatch_minus (h : Closes rest) (nonempty : cs ≠ [])
    (digits : ∀ d ∈ cs, d.isDigit = true) :
    longestMatch '-' (cs ++ rest) = some (.integer, cs.length) := by
  have run := h.run_eq_length digits rfl
  rw [Source.longestMatch_minus (by simpa [run] using nonempty), run, h.numberAfter]

theorem Closes.longestMatch_word (h : Closes rest) (first : c.isAlpha = true)
    (continues : ∀ d ∈ cs, continuesWord d = true) :
    longestMatch c (cs ++ rest) = some (.word, cs.length) := by
  rw [longestMatch_alpha first, h.run_eq_length continues rfl]

theorem Closes.longestMatch_placeholder (h : Closes rest) (digits : ∀ d ∈ cs, d.isDigit = true) :
    longestMatch '_' (cs ++ rest) = some (.placeholder, cs.length) := by
  rw [Source.longestMatch_placeholder, h.run_eq_length digits rfl]

end Matches

/-! ### Single tokens -/

def placeBehind (start : Nat) (text : List Char) : Nat :=
  start + (String.ofList text).utf8ByteSize

/-- A text that is matched as a whole gives its lexeme, and the scan goes on behind it. -/
theorem scanFrom_match {line start : Nat} {c : Char} {cs rest : List Char} {pattern : Pattern}
    {f : Option Token} {later : List Lexeme}
    (matched : longestMatch c (cs ++ rest) = some (pattern, cs.length))
    (token : token? (c :: cs) pattern = .ok f)
    (behind : scanFrom (lineBehind pattern line) (placeBehind start (c :: cs)) 0 rest = .ok later) :
    scanFrom line start 0 (c :: cs ++ rest) =
      .ok (lexemeOf f (String.ofList (c :: cs)) line start ++ later) := by
  rw [placeBehind] at behind
  rw [List.cons_append, scanFrom_cons]
  simp only [matched, List.take_left, token, scanFrom_length, behind]
  rfl

def Solid (text : List Char) : Prop := ∃ c cs, text = c :: cs ∧ isBlank c = false

theorem Solid.append {text : List Char} (h : Solid text) (rest : List Char) :
    Solid (text ++ rest) := by
  obtain ⟨c, cs, rfl, ink⟩ := h
  exact ⟨c, cs ++ rest, rfl, ink⟩

/-- One blank between two texts is skipped. -/
theorem scanFrom_blank {line start : Nat} {text : List Char} {later : List Lexeme}
    (solid : Solid text) (behind : scanFrom line (start + 1) 0 text = .ok later) :
    scanFrom line start 0 (' ' :: text) = .ok later := by
  have alone : longestMatch ' ' ([] ++ text) = some (.blank, 0) := by
    obtain ⟨c, cs, rfl, ink⟩ := solid
    have run : run isBlank (c :: cs) = 0 := by simp [run, ink]
    simp only [longestMatch, List.nil_append, run]
    rfl
  exact scanFrom_match (f := none) alone rfl behind

def symbolSite (symbol : Symbol) (line start : Nat) : Site :=
  ⟨String.ofList [symbol.char], line, start⟩

/-- A bracket is a lexeme of its own, and stays on its line. -/
theorem scanFrom_symbol {line start : Nat} (symbol : Symbol) {rest : List Char}
    {later : List Lexeme} (inline : symbol ≠ .newline)
    (behind : scanFrom line (start + 1) 0 rest = .ok later) :
    scanFrom line start 0 (symbol.char :: rest) =
      .ok ((symbolSite symbol line start).lexeme (.symbol symbol) :: later) := by
  have alone := longestMatch_symbol symbol ([] ++ rest)
  have size : placeBehind start [symbol.char] = start + 1 := by cases symbol <;> rfl
  refine scanFrom_match (f := some (.symbol symbol)) alone rfl ?_
  rw [lineBehind, if_neg (by simpa using inline), size]
  exact behind

/-- Before what comes after a word, the text is matched as a whole and is the token. -/
inductive Spells : List Char → Token → Prop where
  | intro {c : Char} {cs : List Char} {pattern : Pattern} {token : Token}
    (ink : isBlank c = false) (inline : pattern ≠ .symbol .newline)
    (is : token? (c :: cs) pattern = .ok (some token))
    (matched : ∀ rest, Closes rest → longestMatch c (cs ++ rest) = some (pattern, cs.length)) :
    Spells (c :: cs) token

/-- No token is spelled with a blank at the beginning. -/
theorem Spells.solid {text : List Char} {token : Token} (h : Spells text token) : Solid text := by
  cases h with
  | intro ink => exact ⟨_, _, rfl, ink⟩

/-- A text that spells a token is read as that token, whatever closes it. -/
theorem Spells.scan {text : List Char} {token : Token} (h : Spells text token) {line start : Nat}
    {rest : List Char} {later : List Lexeme} (closes : Closes rest)
    (behind : scanFrom line (placeBehind start text) 0 rest = .ok later) :
    scanFrom line start 0 (text ++ rest) =
      .ok ((Site.mk (String.ofList text) line start).lexeme token :: later) := by
  cases h with
  | intro _ inline token matched =>
    refine scanFrom_match (matched rest closes) token ?_
    rw [lineBehind, if_neg inline]
    exact behind

theorem isBlank_of_isAlphanum {c : Char} (h : c.isAlphanum = true) : isBlank c = false := by
  simp only [isBlank, Bool.or_eq_false_iff, beq_eq_false_iff_ne]
  refine ⟨⟨⟨?_, ?_⟩, ?_⟩, ?_⟩ <;> (rintro rfl; exact absurd h (by decide))

theorem isBlank_of_isDigit {c : Char} (h : c.isDigit = true) : isBlank c = false :=
  isBlank_of_isAlphanum (by simp [Char.isAlphanum, h])

theorem isBlank_of_isAlpha {c : Char} (h : c.isAlpha = true) : isBlank c = false :=
  isBlank_of_isAlphanum (by simp [Char.isAlphanum, h])

/-- Integers are read back from their texts. -/
theorem spells_int (n : Int32) : Spells (Numeral.ofInt n.toInt) (.literal .int n) := by
  have token : token? (Numeral.ofInt n.toInt) .integer = .ok (some (.literal .int n)) := by
    rw [token?, Numeral.int32?_ofInt]
  cases eq : n.toInt with
  | ofNat m =>
    obtain ⟨c, cs, digits, first, later⟩ := Numeral.exists_digits_eq_cons m
    rw [eq, Numeral.ofInt, digits] at token
    rw [Numeral.ofInt, digits]
    exact .intro (isBlank_of_isDigit first) (by simp) token
      fun rest closes => closes.longestMatch_digits first later
  | negSucc m =>
    rw [eq, Numeral.ofInt] at token
    rw [Numeral.ofInt]
    exact .intro rfl (by simp) token fun rest closes =>
      closes.longestMatch_minus Nat.toDigits_ne_nil fun _ => Numeral.isDigit_of_mem_digits

/-- A word whose pattern gives a token spells that token. -/
theorem spells_word {c : Char} {cs : List Char} {token : Token} (first : c.isAlpha = true)
    (later : ∀ d ∈ cs, continuesWord d = true) (h : token? (c :: cs) .word = .ok (some token)) :
    Spells (c :: cs) token :=
  .intro (isBlank_of_isAlpha first) (by simp) h
    fun _ closes => closes.longestMatch_word first later

theorem spells_bool (b : Bool) : Spells (Elem.boolText b) (.literal .bool b) := by
  cases b with
  | false => exact spells_word rfl (List.all_eq_true.mp rfl) rfl
  | true => exact spells_word rfl (List.all_eq_true.mp rfl) rfl

/-- Doubles are rounded when they are shown, so that their texts may be other tokens. -/
theorem spells_literal {e : Elem} (h : e ≠ .double) (x : e.Carrier) :
    Spells (e.text x) (.literal e x) := by
  cases e with
  | int => exact spells_int x
  | bool => exact spells_bool x
  | double => exact absurd rfl h

/-- A text that is matched as a name: a letter, then letters, digits and underscores, and no
keyword. -/
def isIdentifier (text : String) : Bool :=
  match text.toList with
  | [] => false
  | c :: cs => c.isAlpha && cs.all continuesWord && text != "true" && text != "false"

theorem keyword?_eq_none {cs : List Char} (notTrue : cs ≠ "true".toList)
    (notFalse : cs ≠ "false".toList) : keyword? cs = none := by
  unfold keyword?
  split
  · exact absurd rfl notTrue
  · exact absurd rfl notFalse
  · rfl

/-- Identifiers are read back as names. -/
theorem spells_name {text : String} (h : isIdentifier text = true) :
    Spells text.toList (.name text) := by
  cases eq : text.toList with
  | nil => simp [isIdentifier, eq] at h
  | cons c cs =>
    simp only [isIdentifier, eq, Bool.and_eq_true, bne_iff_ne, List.all_eq_true] at h
    obtain ⟨⟨⟨first, later⟩, notTrue⟩, notFalse⟩ := h
    have name : keyword? text.toList = none := keyword?_eq_none
      (fun same => notTrue (String.toList_injective same))
      (fun same => notFalse (String.toList_injective same))
    refine spells_word first later ?_
    rw [← eq, token?, name, String.ofList_toList]

/-- Placeholders with a number in range are read back. -/
theorem spells_placeholder {n : Nat} (h : n < placeholderBound) :
    Spells (placeholderText n) (.placeholder n) := by
  obtain ⟨cs, eq, digits, value⟩ : ∃ cs, placeholderText n = '_' :: cs ∧
      (∀ d ∈ cs, d.isDigit = true) ∧ Numeral.value cs = n := by
    cases n with
    | zero => exact ⟨[], rfl, List.forall_mem_nil _, rfl⟩
    | succ n => exact ⟨_, rfl, fun d => Numeral.isDigit_of_mem_digits, Numeral.value_digits _⟩
  rw [eq]
  refine .intro rfl (by simp) ?_ fun rest closes => closes.longestMatch_placeholder digits
  simp only [token?, List.drop_one, List.tail_cons, value, if_pos h]

/-! ### Texts with blanks between them -/

theorem spaced_singleton (text : List Char) : spaced [text] = text := by
  rw [spaced, List.intercalate_singleton]

theorem spaced_cons_cons (text text' : List Char) (texts : List (List Char)) :
    spaced (text :: text' :: texts) = text ++ ' ' :: spaced (text' :: texts) := by
  rw [spaced, List.intercalate_cons_cons, List.append_assoc]
  rfl

theorem Solid.spaced {text : List Char} (h : Solid text) (texts : List (List Char)) :
    Solid (spaced (text :: texts)) := by
  cases texts with
  | nil => rwa [spaced_singleton]
  | cons text' texts =>
    rw [spaced_cons_cons]
    exact h.append _

/-- The elements of an array are scanned as such, one after the other. -/
theorem exists_scan_elements {e : Elem} (h : e ≠ .double) (first : e.Carrier)
    (later : List e.Carrier) (line start : Nat) {rest : List Char} (closes : Closes rest) :
    ∃ (entry : e.Carrier × Site) (entries : List (e.Carrier × Site)) (stop : Nat),
      entry.1 = first ∧ entries.map Prod.fst = later ∧
      ∀ behind, scanFrom line stop 0 rest = .ok behind →
        scanFrom line start 0 (spaced ((first :: later).map e.text) ++ rest) =
          .ok (element entry :: (entries.map element ++ behind)) := by
  induction later generalizing first start with
  | nil =>
    refine ⟨(first, ⟨String.ofList (e.text first), line, start⟩), [],
      placeBehind start (e.text first), rfl, rfl, ?_⟩
    intro behind scanned
    rw [List.map_singleton, spaced_singleton]
    exact (spells_literal h first).scan closes scanned
  | cons second later ih =>
    obtain ⟨entry, entries, stop, eq, eqs, scan⟩ :=
      ih second (placeBehind start (e.text first) + 1)
    refine ⟨(first, ⟨String.ofList (e.text first), line, start⟩), entry :: entries, stop, rfl,
      by rw [List.map_cons, eq, eqs], ?_⟩
    intro behind scanned
    have solid : Solid (spaced ((second :: later).map e.text) ++ rest) :=
      ((spells_literal h second).solid.spaced _).append rest
    rw [List.map_cons, List.map_cons, spaced_cons_cons, List.append_assoc, List.cons_append,
      ← List.map_cons]
    exact (spells_literal h first).scan (closes_cons _ (.inl rfl))
      (scanFrom_blank solid (scan behind scanned))

end Source

end Tacit
