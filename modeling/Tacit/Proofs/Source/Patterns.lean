import Mathlib.Computability.Language
import Tacit.Proofs.Source.ScanLines

/-!
The patterns of a source text as languages, and what it means that the longest text of any of them
is taken.

* `Rule.language`: the texts of each pattern, built from classes of characters.
* `Taken`: no longer text of any pattern begins at the same place, and a keyword is no name.
* `taken_iff`: that is what `longestMatch` decides.
* `longestMatch_eq_none_iff`: where it finds nothing, no text of any pattern begins.
-/

namespace Tacit

namespace Source

open scoped Computability

/-! ### Languages -/

def one (p : Char → Bool) : Language Char := {cs | ∃ c, p c = true ∧ cs = [c]}

/-- A character of one class, then any number of characters of another. -/
def started (p q : Char → Bool) : Language Char := one p * (one q)∗

def digits : Language Char := started Char.isDigit Char.isDigit

def sign : Language Char := 1 + {['-']}

/-- A pattern, with the keywords apart from the names. -/
inductive Rule where
  | double
  | integer
  | keyword (b : Bool)
  | name
  | placeholder
  | symbol (s : Symbol)
  | blank
  | comment
deriving DecidableEq

namespace Rule

/-- The texts of a pattern. -/
def language : Rule → Language Char
  | .double => sign * digits * {['.']} * digits
  | .integer => sign * digits
  | .keyword b => {Elem.boolText b}
  | .name => started Char.isAlpha continuesWord
  | .placeholder => started (· == '_') Char.isDigit
  | .symbol s => {[s.char]}
  | .blank => started isBlank isBlank
  | .comment => started (· == '#') continuesComment

/-- What the texts of a pattern are matched as. -/
def pattern : Rule → Pattern
  | .double => .double
  | .integer => .integer
  | .keyword _ | .name => .word
  | .placeholder => .placeholder
  | .symbol s => .symbol s
  | .blank => .blank
  | .comment => .comment

end Rule

/-- The pattern that a match belongs to: a word is a name unless it is a keyword. -/
def Pattern.rule (text : List Char) : Pattern → Rule
  | .double => .double
  | .integer => .integer
  | .word => (keyword? text).elim .name .keyword
  | .placeholder => .placeholder
  | .symbol s => .symbol s
  | .blank => .blank
  | .comment => .comment

/-! ### Texts of a language -/

section Membership

variable {p q : Char → Bool} {cs : List Char}

theorem mem_one_iff : cs ∈ one p ↔ ∃ c, p c = true ∧ cs = [c] := Iff.rfl

theorem mem_many_iff : cs ∈ (one p)∗ ↔ ∀ c ∈ cs, p c = true := by
  rw [Language.mem_kstar]
  constructor
  · rintro ⟨texts, rfl, each⟩ c mem
    obtain ⟨text, listed, mem⟩ := List.mem_flatten.mp mem
    obtain ⟨c', is, rfl⟩ := each text listed
    obtain rfl := List.mem_singleton.mp mem
    exact is
  · intro each
    refine ⟨cs.map fun c => [c], ?_, ?_⟩
    · rw [← List.flatMap_def, List.flatMap_singleton']
    · intro text listed
      obtain ⟨c, mem, rfl⟩ := List.mem_map.mp listed
      exact ⟨c, each c mem, rfl⟩

theorem mem_started_iff : cs ∈ started p q ↔
    ∃ c ds, cs = c :: ds ∧ p c = true ∧ ∀ d ∈ ds, q d = true := by
  rw [started, Language.mem_mul]
  simp only [mem_many_iff, mem_one_iff]
  constructor
  · rintro ⟨_, ⟨c, is, rfl⟩, ds, each, rfl⟩
    exact ⟨c, ds, rfl, is, each⟩
  · rintro ⟨c, ds, rfl, is, each⟩
    exact ⟨[c], ⟨c, is, rfl⟩, ds, each, rfl⟩

theorem mem_digits_iff : cs ∈ digits ↔ Numeral.isDigits cs = true := by
  rw [digits, mem_started_iff]
  cases cs with
  | nil => simp [Numeral.isDigits]
  | cons c cs => simp [Numeral.isDigits]

def minus (negative : Bool) : List Char := if negative then ['-'] else []

theorem mem_sign_iff : cs ∈ sign ↔ ∃ negative, cs = minus negative := by
  rw [sign, Language.mem_add, Language.mem_one]
  simp only [Bool.exists_bool, minus]
  rfl

/-- An integer is digits behind at most one minus sign. -/
theorem mem_integer_iff : cs ∈ Rule.integer.language ↔
    ∃ negative ds, Numeral.isDigits ds = true ∧ cs = minus negative ++ ds := by
  simp only [Rule.language, Language.mem_mul, mem_sign_iff, mem_digits_iff]
  constructor
  · rintro ⟨_, ⟨negative, rfl⟩, ds, is, rfl⟩
    exact ⟨negative, ds, is, rfl⟩
  · rintro ⟨negative, ds, is, rfl⟩
    exact ⟨_, ⟨negative, rfl⟩, ds, is, rfl⟩

/-- A double has digits on both sides of its point. -/
theorem mem_double_iff : cs ∈ Rule.double.language ↔ ∃ negative whole fraction,
    Numeral.isDigits whole = true ∧ Numeral.isDigits fraction = true ∧
      cs = minus negative ++ (whole ++ '.' :: fraction) := by
  simp only [Rule.language, Language.mem_mul, mem_sign_iff, mem_digits_iff]
  constructor
  · rintro ⟨_, ⟨_, ⟨_, ⟨negative, rfl⟩, whole, is, rfl⟩, _, rfl, rfl⟩, fraction, is', rfl⟩
    exact ⟨negative, whole, fraction, is, is', by simp⟩
  · rintro ⟨negative, whole, fraction, is, is', rfl⟩
    exact ⟨_, ⟨_, ⟨_, ⟨negative, rfl⟩, whole, is, rfl⟩, _, rfl, rfl⟩, fraction, is', by simp⟩

theorem boolText_mem_name (b : Bool) : Elem.boolText b ∈ Rule.name.language := by
  rw [Rule.language, mem_started_iff]
  cases b with
  | false => exact ⟨_, _, rfl, rfl, List.all_eq_true.mp rfl⟩
  | true => exact ⟨_, _, rfl, rfl, List.all_eq_true.mp rfl⟩

/-- Keywords are looked up by their texts. -/
theorem keyword?_eq_some_iff {b : Bool} : keyword? cs = some b ↔ cs ∈ (Rule.keyword b).language := by
  show _ ↔ cs = Elem.boolText b
  constructor
  · intro h
    unfold keyword? at h
    split at h <;> cases h <;> rfl
  · rintro rfl
    cases b <;> rfl

end Membership

/-! ### A text of a pattern is matched, and so is any longer one -/

section Complete

variable {c : Char} {cs ds rest : List Char}

/-- A run takes all characters that belong to it. -/
theorem length_le_run {p : Char → Bool} (all : ∀ d ∈ ds, p d = true) (rest : List Char) :
    ds.length ≤ run p (ds ++ rest) := by
  rw [run, List.takeWhile_append_of_pos all, List.length_append]
  omega

/-- Digits alone are an integer; a point after them makes a longer match. -/
theorem numberAfter_cases (k : Nat) (cs : List Char) :
    numberAfter k cs = (.integer, k) ∨ ∃ k', k < k' ∧ numberAfter k cs = (.double, k') := by
  unfold numberAfter
  split
  · split
    · exact .inl rfl
    · exact .inr ⟨_, by omega, rfl⟩
  · exact .inl rfl

/-- A point with a digit behind it belongs to the number. -/
theorem numberAfter_point {fraction : List Char} (ds rest : List Char)
    (is : Numeral.isDigits fraction = true) : ∃ k, (ds ++ '.' :: fraction).length ≤ k ∧
      numberAfter ds.length (ds ++ '.' :: (fraction ++ rest)) = (.double, k) := by
  obtain ⟨nonempty, all⟩ := Numeral.isDigits_iff.mp is
  have long := length_le_run all rest
  have positive := List.length_pos_iff.mpr nonempty
  refine ⟨ds.length + 1 + run Char.isDigit (fraction ++ rest), ?_, ?_⟩
  · rw [List.length_append, List.length_cons]
    omega
  · simp only [numberAfter, List.drop_left]
    split
    · next none => omega
    · rfl

/-- The longest match of a number has all its digits. -/
theorem exists_longestMatch_number (negative : Bool) (is : Numeral.isDigits ds = true)
    (rest : List Char) : ∃ c es, minus negative ++ ds = c :: es ∧
      (∀ e ∈ es, e.isDigit = true) ∧ longestMatch c (es ++ rest) =
        some (numberAfter (run Char.isDigit (es ++ rest)) (es ++ rest)) := by
  obtain ⟨nonempty, all⟩ := Numeral.isDigits_iff.mp is
  cases negative with
  | true =>
    have long := length_le_run all rest
    have positive := List.length_pos_iff.mpr nonempty
    exact ⟨'-', ds, rfl, all, longestMatch_minus (by omega)⟩
  | false =>
    obtain ⟨c, es, rfl⟩ := List.exists_cons_of_ne_nil nonempty
    obtain ⟨first, later⟩ := List.forall_mem_cons.mp all
    exact ⟨c, es, rfl, later, longestMatch_digit first⟩

/-- Wherever a text of a pattern begins, something at least as long is matched, and as that
pattern if it is no longer. -/
theorem exists_longestMatch {r : Rule} (h : c :: ds ∈ r.language) (rest : List Char) :
    ∃ p k, longestMatch c (ds ++ rest) = some (p, k) ∧ ds.length ≤ k ∧
      (k = ds.length → p = r.pattern) := by
  have word : c :: ds ∈ Rule.name.language → ∃ p k, longestMatch c (ds ++ rest) = some (p, k) ∧
      ds.length ≤ k ∧ (k = ds.length → p = .word) := by
    intro h
    obtain ⟨_, _, ⟨⟩, first, later⟩ := mem_started_iff.mp h
    exact ⟨_, _, longestMatch_alpha first, length_le_run later rest, fun _ => rfl⟩
  cases r with
  | double =>
    obtain ⟨negative, whole, fraction, is, is', eq⟩ := mem_double_iff.mp h
    obtain ⟨c', es, eq', all, matched⟩ :=
      exists_longestMatch_number negative is ('.' :: (fraction ++ rest))
    rw [← List.append_assoc, eq', List.cons_append] at eq
    cases eq
    obtain ⟨k, long, number⟩ := numberAfter_point es rest is'
    -- the point is no digit, so the digits before it are all that are read first
    rw [run_eq_length all (by rintro _ ⟨⟩; rfl), number] at matched
    refine ⟨.double, k, ?_, long, fun _ => rfl⟩
    rw [List.append_assoc, List.cons_append, matched]
  | integer =>
    obtain ⟨negative, digits, is, eq⟩ := mem_integer_iff.mp h
    obtain ⟨c', es, eq', all, matched⟩ := exists_longestMatch_number negative is rest
    cases eq.trans eq'
    have long := length_le_run all rest
    rcases numberAfter_cases (run Char.isDigit (ds ++ rest)) (ds ++ rest) with eq | ⟨k, lt, eq⟩
    · exact ⟨_, _, eq ▸ matched, long, fun _ => rfl⟩
    · exact ⟨_, _, eq ▸ matched, by omega, fun same => by omega⟩
  | keyword b => exact word (Set.mem_singleton_iff.mp h ▸ boolText_mem_name b)
  | name => exact word h
  | placeholder =>
    obtain ⟨_, _, ⟨⟩, first, later⟩ := mem_started_iff.mp h
    cases eq_of_beq first
    exact ⟨_, _, longestMatch_placeholder, length_le_run later rest, fun _ => rfl⟩
  | symbol s =>
    cases Set.mem_singleton_iff.mp h
    exact ⟨_, _, longestMatch_symbol s _, Nat.le_refl _, fun _ => rfl⟩
  | blank =>
    obtain ⟨_, _, ⟨⟩, first, later⟩ := mem_started_iff.mp h
    exact ⟨_, _, longestMatch_blank first, length_le_run later rest, fun _ => rfl⟩
  | comment =>
    obtain ⟨_, _, ⟨⟩, first, later⟩ := mem_started_iff.mp h
    cases eq_of_beq first
    exact ⟨_, _, longestMatch_comment, length_le_run later rest, fun _ => rfl⟩

end Complete

/-! ### What is matched is a text of a pattern -/

section Sound

variable {c : Char} {cs : List Char} {p : Pattern} {k : Nat}

/-- A run takes no character that does not belong to it. -/
theorem forall_mem_take_run (p : Char → Bool) (cs : List Char) :
    ∀ c ∈ cs.take (run p cs), p c = true := by
  rw [run, ← List.prefix_iff_eq_take.mp (List.takeWhile_prefix p)]
  exact List.all_eq_true.mp List.all_takeWhile

theorem isDigits_take_run (some : run Char.isDigit cs ≠ 0) :
    Numeral.isDigits (cs.take (run Char.isDigit cs)) = true := by
  have short := run_le Char.isDigit cs
  refine Numeral.isDigits_iff.mpr ⟨?_, forall_mem_take_run _ _⟩
  rw [← List.length_pos_iff, List.length_take]
  omega

/-- What is matched of a number that begins with a sign or a digit. -/
theorem mem_of_numberAfter (negative : Bool) (ds : List Char)
    (is : Numeral.isDigits (ds ++ cs.take (run Char.isDigit cs)) = true)
    (eq : minus negative ++ ds = [c])
    (h : numberAfter (run Char.isDigit cs) cs = (p, k)) :
    c :: cs.take k ∈ (p.rule (c :: cs.take k)).language := by
  have text : c :: cs.take (run Char.isDigit cs) =
      minus negative ++ (ds ++ cs.take (run Char.isDigit cs)) := by
    rw [← List.append_assoc, eq, List.singleton_append]
  unfold numberAfter at h
  split at h
  · next fraction point =>
    split at h
    · cases h
      exact mem_integer_iff.mpr ⟨_, _, is, text⟩
    · next some =>
      cases h
      refine mem_double_iff.mpr
        ⟨negative, _, fraction.take (run Char.isDigit fraction), is, isDigits_take_run some, ?_⟩
      rw [Nat.add_assoc, List.take_add, point, Nat.add_comm 1, List.take_succ_cons,
        ← List.cons_append, text, List.append_assoc]
  · cases h
    exact mem_integer_iff.mpr ⟨_, _, is, text⟩

theorem eq_char_of_ofChar? {s : Symbol} (h : Symbol.ofChar? c = some s) : c = s.char := by
  unfold Symbol.ofChar? at h
  split at h <;> cases h <;> rfl

/-- The longest match is a text of the rule that it is matched by. -/
theorem mem_of_longestMatch (h : longestMatch c cs = some (p, k)) :
    c :: cs.take k ∈ (p.rule (c :: cs.take k)).language := by
  have digits := forall_mem_take_run Char.isDigit cs
  unfold longestMatch at h
  split at h
  · next first =>
    exact mem_of_numberAfter false [c] (by simpa [Numeral.isDigits, first] using digits) rfl
      (Option.some.inj h)
  split at h
  · next first =>
    subst first
    split at h
    · cases h
    · next some =>
      exact mem_of_numberAfter true [] (isDigits_take_run some) rfl (Option.some.inj h)
  split at h
  · next first =>
    cases h
    rw [Pattern.rule]
    cases word : keyword? (c :: cs.take (run continuesWord cs)) with
    | none => exact mem_started_iff.mpr ⟨_, _, rfl, first, forall_mem_take_run _ _⟩
    | some b => exact keyword?_eq_some_iff.mp word
  split at h
  · next first =>
    cases h
    exact mem_started_iff.mpr ⟨_, _, rfl, beq_iff_eq.mpr first, digits⟩
  split at h
  · next first =>
    cases h
    exact mem_started_iff.mpr ⟨_, _, rfl, beq_iff_eq.mpr first, forall_mem_take_run _ _⟩
  split at h
  · next first =>
    cases h
    exact mem_started_iff.mpr ⟨_, _, rfl, first, forall_mem_take_run _ _⟩
  · obtain ⟨s, found, eq⟩ := Option.map_eq_some_iff.mp h
    cases eq
    rw [eq_char_of_ofChar? found]
    exact Set.mem_singleton _

end Sound

/-! ### The longest text -/

/-- The text is what is taken at the head of what is left: it is of the pattern, no longer text of
any pattern begins there, and a keyword is no name. -/
structure Taken (r : Rule) (text rest : List Char) : Prop where
  fits : text ∈ r.language
  longest : ∀ r' text', text' <+: text ++ rest → text' ∈ Rule.language r' →
    text'.length ≤ text.length
  keyword : ∀ b, text ∈ (Rule.keyword b).language → r = .keyword b

section Longest

variable {c : Char} {cs ds text rest : List Char} {r : Rule}

/-- No rule matches the empty text, so every match consumes a character. -/
theorem nil_notMem (r : Rule) : [] ∉ r.language := by
  have start : ∀ p q, [] ∉ started p q := by
    intro p q h
    obtain ⟨_, _, ⟨⟩, -⟩ := mem_started_iff.mp h
  cases r with
  | double =>
    intro h
    obtain ⟨negative, whole, fraction, -, -, eq⟩ := mem_double_iff.mp h
    simp at eq
  | integer =>
    intro h
    obtain ⟨negative, ds, is, eq⟩ := mem_integer_iff.mp h
    obtain ⟨-, rfl⟩ := List.append_eq_nil_iff.mp eq.symm
    cases is
  | keyword b =>
    intro h
    exact start _ _ (Set.mem_singleton_iff.mp h ▸ boolText_mem_name b)
  | symbol s => rintro ⟨⟩
  | name => exact start _ _
  | placeholder => exact start _ _
  | blank => exact start _ _
  | comment => exact start _ _

/-- Texts of patterns that begin at the same place begin with the same character. -/
theorem exists_of_isPrefix (mem : text ∈ r.language) (begins : text <+: c :: cs) :
    ∃ ds rest, text = c :: ds ∧ cs = ds ++ rest := by
  obtain ⟨rest, eq⟩ := begins
  cases text with
  | nil => exact absurd mem (nil_notMem r)
  | cons c' ds =>
    cases eq
    exact ⟨ds, rest, rfl, rfl⟩

theorem pattern_rule (p : Pattern) (text : List Char) : (p.rule text).pattern = p := by
  cases p with
  | word =>
    rw [Pattern.rule]
    cases keyword? text <;> rfl
  | _ => rfl

/-- A text and its pattern determine the rule, where keywords come before names. -/
theorem eq_rule_pattern (mem : text ∈ r.language)
    (keyword : ∀ b, text ∈ (Rule.keyword b).language → r = .keyword b) :
    r = r.pattern.rule text := by
  cases r with
  | keyword b =>
    rw [Rule.pattern, Pattern.rule, keyword?_eq_some_iff.mpr mem]
    rfl
  | name =>
    rw [Rule.pattern, Pattern.rule]
    cases word : keyword? text with
    | none => rfl
    | some b => exact keyword b (keyword?_eq_some_iff.mp word)
  | _ => rfl

/-- What the longest-match rule takes is what the scanner matches. -/
theorem taken_iff : Taken r (c :: ds) rest ↔
    ∃ p, longestMatch c (ds ++ rest) = some (p, ds.length) ∧ r = p.rule (c :: ds) := by
  constructor
  · rintro ⟨fits, longest, keyword⟩
    -- what is matched is at least as long, and it is of some pattern, so it is no longer
    obtain ⟨p, k, matched, le, same⟩ := exists_longestMatch fits rest
    have short := longest _ (c :: (ds ++ rest).take k)
      (List.prefix_cons_inj c |>.mpr (List.take_prefix _ _)) (mem_of_longestMatch matched)
    have all := longestMatch_le matched
    simp only [List.length_cons, List.length_take, Nat.min_eq_left all] at short
    obtain rfl : k = ds.length := by omega
    obtain rfl := same rfl
    exact ⟨_, matched, eq_rule_pattern fits keyword⟩
  · rintro ⟨p, matched, rfl⟩
    have fits := mem_of_longestMatch matched
    rw [List.take_left] at fits
    refine ⟨fits, ?_, ?_⟩
    · intro r' text' begins mem
      obtain ⟨es, rest', rfl, eq⟩ := exists_of_isPrefix mem begins
      obtain ⟨p', k, matched', le, -⟩ := exists_longestMatch mem rest'
      cases matched.symm.trans (eq ▸ matched')
      simpa using le
    · intro b mem
      obtain ⟨p', k, matched', -, same⟩ := exists_longestMatch mem rest
      rw [matched] at matched'
      cases matched'
      rw [same rfl, Rule.pattern, Pattern.rule, keyword?_eq_some_iff.mpr mem]
      rfl

/-- Where nothing is matched, no text of any pattern begins. -/
theorem longestMatch_eq_none_iff : longestMatch c cs = none ↔
    ∀ r text, text <+: c :: cs → text ∉ Rule.language r := by
  constructor
  · intro none r text begins mem
    obtain ⟨ds, rest, rfl, rfl⟩ := exists_of_isPrefix mem begins
    obtain ⟨p, k, matched, -⟩ := exists_longestMatch mem rest
    cases none.symm.trans matched
  · intro none
    cases matched : longestMatch c cs with
    | none => rfl
    | some found =>
      exact absurd (mem_of_longestMatch matched)
        (none _ _ (List.prefix_cons_inj c |>.mpr (List.take_prefix _ _)))

/-- Only the newline has a newline in it. -/
theorem count_newline (mem : text ∈ r.language) :
    text.count '\n' = if r = .symbol .newline then 1 else 0 := by
  have start : ∀ p q, p '\n' = false → q '\n' = false → text ∈ started p q →
      text.count '\n' = 0 := by
    intro p q first later mem
    obtain ⟨c, ds, rfl, is, each⟩ := mem_started_iff.mp mem
    rw [List.count_eq_zero, List.mem_cons]
    rintro (rfl | mem)
    · exact absurd is (by simp [first])
    · exact absurd (each _ mem) (by simp [later])
  have digits : ∀ ds, Numeral.isDigits ds = true → ds.count '\n' = 0 := by
    intro ds is
    rw [List.count_eq_zero]
    intro mem
    exact absurd ((Numeral.isDigits_iff.mp is).2 _ mem) (by decide)
  have minus : ∀ negative, (minus negative).count '\n' = 0 := by
    intro negative
    cases negative <;> rfl
  cases r with
  | double =>
    obtain ⟨negative, whole, fraction, is, is', rfl⟩ := mem_double_iff.mp mem
    simp [minus, digits _ is, digits _ is']
  | integer =>
    obtain ⟨negative, ds, is, rfl⟩ := mem_integer_iff.mp mem
    simp [minus, digits _ is]
  | keyword b =>
    cases mem
    cases b <;> rfl
  | symbol s =>
    cases mem
    cases s <;> rfl
  | name => exact start _ _ rfl rfl mem
  | placeholder => exact start _ _ rfl rfl mem
  | blank => exact start _ _ rfl rfl mem
  | comment => exact start _ _ rfl rfl mem

end Longest

end Source

end Tacit
