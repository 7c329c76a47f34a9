import Tacit.Proofs.Source.Patterns

/-!
What a scan gives. A source is consumed from left to right, the longest text of any pattern at a
time; where that is impossible, or a number is out of range, the scan stops with an error.

* `Writes`, `Beyond`: the token that a text of a pattern writes, and the numbers that write none.
* `Consumes`, `Stops`: how a text is consumed up to its end, or up to the first obstacle.
* `Laid`: how the lexemes lie in their source.
* `scan_exact`: a scan succeeds exactly with what the text is consumed to, its lexemes lie in the
  source as they should, and it fails exactly with the first obstacle.
-/

namespace Tacit

namespace Source

open scoped Computability

/-! ### What a text writes -/

def signed (negative : Bool) (ds : List Char) : Int :=
  if negative then -(Numeral.value ds : Int) else Numeral.value ds

/-- The double nearest to a sign, digits, a point and digits. -/
def decimal (negative : Bool) (whole fraction : List Char) : Float :=
  let x := Float.ofScientific (Numeral.value (whole ++ fraction)) true fraction.length
  if negative then -x else x

/-- The token that a text of a pattern writes; blanks and comments write none. -/
inductive Writes : Rule → List Char → Option Token → Prop where
  | double {negative : Bool} {whole fraction : List Char} (is : Numeral.isDigits whole = true)
      (is' : Numeral.isDigits fraction = true) :
      Writes .double (minus negative ++ (whole ++ '.' :: fraction))
        (some (.literal .double (decimal negative whole fraction)))
  | integer {negative : Bool} {ds : List Char} {n : Int32} (is : Numeral.isDigits ds = true)
      (value : n.toInt = signed negative ds) :
      Writes .integer (minus negative ++ ds) (some (.literal .int n))
  | keyword (b : Bool) : Writes (.keyword b) (Elem.boolText b) (some (.literal .bool b))
  | name (text : List Char) : Writes .name text (some (.name (String.ofList text)))
  | placeholder {ds : List Char} (fits : Numeral.value ds < 2 ^ 32) :
      Writes .placeholder ('_' :: ds) (some (.placeholder (Numeral.value ds)))
  | symbol (s : Symbol) : Writes (.symbol s) [s.char] (some (.symbol s))
  | blank (text : List Char) : Writes .blank text none
  | comment (text : List Char) : Writes .comment text none

/-- The numbers that are out of range, and how they are refused: an integer that 32 signed bits do
not hold, and a placeholder that 32 unsigned bits do not hold. -/
inductive Beyond : Rule → List Char → ParseError.Cause → Prop where
  | integer {negative : Bool} {ds : List Char} (is : Numeral.isDigits ds = true)
      (far : signed negative ds < -2147483648 ∨ 2147483647 < signed negative ds) :
      Beyond .integer (minus negative ++ ds)
        (.literalTooLarge (String.ofList (minus negative ++ ds)))
  | placeholder {ds : List Char} (far : 2 ^ 32 ≤ Numeral.value ds) :
      Beyond .placeholder ('_' :: ds) (.unexpectedToken (String.ofList ('_' :: ds)))

section Tokens

variable {r : Rule} {text : List Char} {found : Option Token} {cause : ParseError.Cause}

theorem sign_minus {c : Char} (first : c.isDigit = true) (negative : Bool) (cs : List Char) :
    Numeral.sign (minus negative ++ c :: cs) = (negative, c :: cs) := by
  cases negative with
  | true => rfl
  | false => exact Numeral.sign_cons first cs

theorem exists_digit {ds : List Char} (is : Numeral.isDigits ds = true) :
    ∃ c cs, ds = c :: cs ∧ c.isDigit = true := by
  obtain ⟨nonempty, all⟩ := Numeral.isDigits_iff.mp is
  obtain ⟨c, cs, rfl⟩ := List.exists_cons_of_ne_nil nonempty
  exact ⟨c, cs, rfl, all c (.head _)⟩

/-- The integer that a sign and digits write is read from their text. -/
theorem int?_minus {ds : List Char} (is : Numeral.isDigits ds = true) (negative : Bool) :
    Numeral.int? (minus negative ++ ds) = some (signed negative ds) := by
  obtain ⟨c, cs, rfl, first⟩ := exists_digit is
  simp only [Numeral.int?, sign_minus first, if_pos is, signed]

theorem fits32_iff {z : Int} : Numeral.fits32 z = true ↔ -2147483648 ≤ z ∧ z < 2147483648 := by
  rw [Numeral.fits32, Bool.and_eq_true, decide_eq_true_iff, decide_eq_true_iff]
  exact Iff.rfl

theorem int32?_minus {ds : List Char} {n : Int32} (is : Numeral.isDigits ds = true)
    {negative : Bool} (value : n.toInt = signed negative ds) :
    Numeral.int32? (minus negative ++ ds) = some n := by
  have fits : Numeral.fits32 n.toInt = true := fits32_iff.mpr ⟨n.le_toInt, n.toInt_lt⟩
  simp only [Numeral.int32?, int?_minus is, ← value, if_pos fits, Int32.ofInt_toInt]

/-- Beyond the range of the integers, a numeral has no value. -/
theorem int32?_minus_eq_none {ds : List Char} (is : Numeral.isDigits ds = true)
    {negative : Bool} (far : signed negative ds < -2147483648 ∨ 2147483647 < signed negative ds) :
    Numeral.int32? (minus negative ++ ds) = none := by
  have beyond : ¬ Numeral.fits32 (signed negative ds) = true := by
    rw [fits32_iff]
    omega
  simp only [Numeral.int32?, int?_minus is, if_neg beyond]

/-- A decimal literal has the value that its sign and its two rows of digits write. -/
theorem ofLiteral_decimal {whole : List Char} (is : Numeral.isDigits whole = true)
    (negative : Bool) (fraction : List Char) :
    Double.ofLiteral (minus negative ++ (whole ++ '.' :: fraction)) =
      decimal negative whole fraction := by
  have digits := (Numeral.isDigits_iff.mp is).2
  have head : (whole ++ '.' :: fraction).takeWhile Char.isDigit = whole := by
    rw [List.takeWhile_append_of_pos digits, List.takeWhile_cons_of_neg (by decide),
      List.append_nil]
  have tail : (whole ++ '.' :: fraction).dropWhile Char.isDigit = '.' :: fraction := by
    rw [List.dropWhile_append_of_pos digits, List.dropWhile_cons_of_neg (by decide)]
  obtain ⟨c, cs, rfl, first⟩ := exists_digit is
  simp only [Double.ofLiteral, List.cons_append, sign_minus first]
  rw [← List.cons_append, head, tail]
  rfl

/-- A text of a pattern writes a token, or nothing, or is out of range. -/
theorem writes_or_beyond (mem : text ∈ r.language) :
    (∃ found, Writes r text found) ∨ ∃ cause, Beyond r text cause := by
  cases r with
  | double =>
    obtain ⟨negative, whole, fraction, is, is', rfl⟩ := mem_double_iff.mp mem
    exact .inl ⟨_, .double is is'⟩
  | integer =>
    obtain ⟨negative, ds, is, rfl⟩ := mem_integer_iff.mp mem
    by_cases fits : -2147483648 ≤ signed negative ds ∧ signed negative ds ≤ 2147483647
    · exact .inl ⟨_, .integer is (Int32.toInt_ofInt_of_le fits.1 (by omega))⟩
    · exact .inr ⟨_, .integer is (by omega)⟩
  | keyword b =>
    rw [Set.mem_singleton_iff.mp mem]
    exact .inl ⟨_, .keyword b⟩
  | name => exact .inl ⟨_, .name text⟩
  | placeholder =>
    obtain ⟨c, ds, rfl, first, digits⟩ := mem_started_iff.mp mem
    rw [eq_of_beq first]
    by_cases fits : Numeral.value ds < 2 ^ 32
    · exact .inl ⟨_, .placeholder fits⟩
    · exact .inr ⟨_, .placeholder (Nat.le_of_not_lt fits)⟩
  | symbol s =>
    rw [Set.mem_singleton_iff.mp mem]
    exact .inl ⟨_, .symbol s⟩
  | blank => exact .inl ⟨_, .blank text⟩
  | comment => exact .inl ⟨_, .comment text⟩

/-- What a text writes is the token that the scanner makes of it, if no keyword comes first. -/
theorem Writes.token (h : Writes r text found)
    (keyword : ∀ b, text ∈ (Rule.keyword b).language → r = .keyword b) :
    token? text r.pattern = .ok found := by
  cases h with
  | double is is' => rw [Rule.pattern, token?, ofLiteral_decimal is]
  | integer is value => rw [Rule.pattern, token?, int32?_minus is value]
  | keyword b => cases b <;> rfl
  | name =>
    rw [Rule.pattern, token?]
    cases word : keyword? text with
    | none => rfl
    | some b => cases keyword b (keyword?_eq_some_iff.mp word)
  | placeholder fits => exact if_pos fits
  | symbol s => rfl
  | blank => rfl
  | comment => rfl

/-- A text beyond its range is refused for that cause. -/
theorem Beyond.token (h : Beyond r text cause) : token? text r.pattern = .error cause := by
  cases h with
  | integer is far => rw [Rule.pattern, token?, int32?_minus_eq_none is far]
  | placeholder far => exact if_neg (Nat.not_lt.mpr far)

end Tokens

/-! ### Consuming a text -/

/-- The line of what comes right after a text. -/
def lineAfter (before : List Char) : Nat := before.count '\n' + 1

/-- The place of what comes right after a text, in bytes. -/
def bytes (before : List Char) : Nat := (String.ofList before).utf8ByteSize

/-- What is left after the text before is consumed up to its end, and gives the lexemes. -/
inductive Consumes : (before after : List Char) → List Lexeme → Prop where
  | nil (before : List Char) : Consumes before [] []
  | step {before text rest : List Char} {r : Rule} {found : Option Token} {later : List Lexeme}
      (taken : Taken r text rest) (writes : Writes r text found)
      (behind : Consumes (before ++ text) rest later) :
      Consumes before (text ++ rest)
        (lexemeOf found (String.ofList text) (lineAfter before) (bytes before) ++ later)

/-- What is left after the text before is consumed up to the first obstacle: a character that
begins no text of any pattern, or a number that is out of range. -/
inductive Stops : (before after : List Char) → ParseError → Prop where
  | stuck {before rest : List Char} {c : Char}
      (none : ∀ r text, text <+: c :: rest → text ∉ Rule.language r) :
      Stops before (c :: rest) ⟨.unexpectedToken (String.singleton c), lineAfter before⟩
  | beyond {before text rest : List Char} {r : Rule} {cause : ParseError.Cause}
      (taken : Taken r text rest) (beyond : Beyond r text cause) :
      Stops before (text ++ rest) ⟨cause, lineAfter before⟩
  | step {before text rest : List Char} {r : Rule} {found : Option Token} {e : ParseError}
      (taken : Taken r text rest) (writes : Writes r text found)
      (behind : Stops (before ++ text) rest e) : Stops before (text ++ rest) e

section Consuming

variable {r : Rule} {before after text rest : List Char} {lexemes : List Lexeme} {e : ParseError}

/-- A match counts a line if it is a newline. -/
theorem lineAfter_append (mem : text ∈ r.language) :
    lineAfter (before ++ text) = lineBehind r.pattern (lineAfter before) := by
  have newline : r = .symbol .newline ↔ r.pattern = .symbol .newline := by
    cases r <;> simp [Rule.pattern]
  rw [lineAfter, List.count_append, count_newline mem, lineBehind, lineAfter]
  simp only [newline]
  split <;> omega

theorem bytes_append (before text : List Char) :
    bytes (before ++ text) = bytes before + (String.ofList text).utf8ByteSize := by
  rw [bytes, String.ofList_append, String.utf8ByteSize_append, bytes]

/-- The scan takes the longest text, and goes on behind it with its line and place. -/
theorem Taken.scanFrom_eq (taken : Taken r text rest) :
    scanFrom (lineAfter before) (bytes before) 0 (text ++ rest) =
      match token? text r.pattern with
      | .error cause => .error ⟨cause, lineAfter before⟩
      | .ok found =>
        (lexemeOf found (String.ofList text) (lineAfter before) (bytes before) ++ ·) <$>
          scanFrom (lineAfter (before ++ text)) (bytes (before ++ text)) 0 rest := by
  obtain ⟨c, ds, rfl⟩ := List.exists_cons_of_ne_nil fun eq => nil_notMem r (eq ▸ taken.fits)
  obtain ⟨p, matched, is⟩ := taken_iff.mp taken
  have pattern : r.pattern = p := by rw [is, pattern_rule]
  rw [lineAfter_append taken.fits, bytes_append, pattern, List.cons_append, scanFrom_cons]
  cases token : token? (c :: ds) p with
  | error cause => simp only [matched, List.take_left, token]
  | ok found => simp only [matched, List.take_left, token, scanFrom_length]

/-- What is consumed is scanned, with the lines and places of the text before it. -/
theorem Consumes.scan (h : Consumes before after lexemes) :
    scanFrom (lineAfter before) (bytes before) 0 after = .ok lexemes := by
  induction h with
  | nil => rfl
  | step taken writes _ ih =>
    rw [taken.scanFrom_eq, writes.token taken.keyword, ih]
    rfl

/-- Where the rules stop, the scanner stops with the same error. -/
theorem Stops.scan (h : Stops before after e) :
    scanFrom (lineAfter before) (bytes before) 0 after = .error e := by
  induction h with
  | stuck none =>
    rw [scanFrom, longestMatch_eq_none_iff.mpr none]
  | beyond taken beyond => rw [taken.scanFrom_eq, beyond.token]
  | step taken writes _ ih =>
    rw [taken.scanFrom_eq, writes.token taken.keyword, ih]
    rfl

/-- Every text is consumed or has an obstacle: at each place something is taken or nothing begins,
and what is taken is not empty. -/
theorem consumes_or_stops (before after : List Char) :
    (∃ lexemes, Consumes before after lexemes) ∨ ∃ e, Stops before after e := by
  induction length : after.length using Nat.strong_induction_on generalizing before after with
  | _ n ih =>
    cases after with
    | nil => exact .inl ⟨[], .nil before⟩
    | cons c cs =>
      cases matched : longestMatch c cs with
      | none => exact .inr ⟨_, .stuck (longestMatch_eq_none_iff.mp matched)⟩
      | some found =>
        obtain ⟨p, k⟩ := found
        have short := longestMatch_le matched
        have split : c :: cs = (c :: cs.take k) ++ cs.drop k := by simp
        have taken : Taken (p.rule (c :: cs.take k)) (c :: cs.take k) (cs.drop k) := by
          rw [taken_iff]
          exact ⟨p, by simpa [short] using matched, rfl⟩
        rw [split]
        rcases writes_or_beyond taken.fits with ⟨found, writes⟩ | ⟨cause, beyond⟩
        · have less : (cs.drop k).length < n := by
            rw [← length, List.length_drop, List.length_cons]
            omega
          rcases ih _ less (before ++ c :: cs.take k) (cs.drop k) rfl with
            ⟨later, behind⟩ | ⟨e, behind⟩
          · exact .inl ⟨_, .step taken writes behind⟩
          · exact .inr ⟨_, .step taken writes behind⟩
        · exact .inr ⟨_, .beyond taken beyond⟩

/-- Consuming and stopping exclude each other, since the scan has one outcome; so it is enough that
both are sound and that one of them happens. -/
theorem scan_eq_ok_iff (source : String) :
    scan source = .ok lexemes ↔ Consumes [] source.toList lexemes := by
  refine ⟨?_, Consumes.scan⟩
  intro h
  rcases consumes_or_stops [] source.toList with ⟨lexemes', consumes⟩ | ⟨e, stops⟩
  · cases h.symm.trans consumes.scan
    exact consumes
  · cases h.symm.trans stops.scan

/-- A source is refused exactly at the first place where no rule matches or where a literal is
beyond its range. -/
theorem scan_eq_error_iff (source : String) :
    scan source = .error e ↔ Stops [] source.toList e := by
  refine ⟨?_, Stops.scan⟩
  intro h
  rcases consumes_or_stops [] source.toList with ⟨lexemes, consumes⟩ | ⟨e', stops⟩
  · cases h.symm.trans consumes.scan
  · cases h.symm.trans stops.scan
    exact stops

end Consuming

/-! ### How lexemes lie in their source -/

def gaps : Language Char := (Rule.blank.language + Rule.comment.language)∗

/-- In what is left after the text before, the lexemes stand at their places with gaps between
them: each is the longest text of a pattern there, carries what this text writes, and has the line
that it begins on. -/
inductive Laid : (before after : List Char) → List Lexeme → Prop where
  | nil {before gap : List Char} (separates : gap ∈ gaps) : Laid before gap []
  | cons {before gap text rest : List Char} {r : Rule} {l : Lexeme} {later : List Lexeme}
      (separates : gap ∈ gaps) (taken : Taken r text rest) (writes : Writes r text (some l.token))
      (is : l.text = String.ofList text) (line : l.line = lineAfter (before ++ gap))
      (start : l.start = bytes (before ++ gap)) (behind : Laid (before ++ (gap ++ text)) rest later) :
      Laid before (gap ++ (text ++ rest)) (l :: later)

section Laying

variable {before after gap : List Char} {lexemes : List Lexeme}

theorem nil_mem_gaps : [] ∈ gaps := Language.nil_mem_kstar _

/-- Texts that write no token are blanks and comments. -/
theorem gap_of_writes {r : Rule} {text : List Char} (writes : Writes r text none)
    (mem : text ∈ r.language) : text ∈ Rule.blank.language + Rule.comment.language := by
  cases writes with
  | blank => exact .inl mem
  | comment => exact .inr mem

/-- A blank or a comment widens the gap before the next lexeme. -/
theorem Laid.skip (h : Laid (before ++ gap) after lexemes)
    (mem : gap ∈ Rule.blank.language + Rule.comment.language) :
    Laid before (gap ++ after) lexemes := by
  have more : ∀ {gap'}, gap' ∈ gaps → gap ++ gap' ∈ gaps := by
    intro gap' separates
    obtain ⟨texts, rfl, each⟩ := Language.mem_kstar.mp separates
    exact Language.mem_kstar.mpr ⟨gap :: texts, rfl, List.forall_mem_cons.mpr ⟨mem, each⟩⟩
  cases h with
  | nil separates => exact .nil (more separates)
  | cons separates taken writes is line start behind =>
    rw [← List.append_assoc]
    rw [List.append_assoc] at line start
    refine .cons (more separates) taken writes is line start ?_
    simpa using behind

/-- Lexemes that are consumed lie in the source in order, with gaps between them. -/
theorem Consumes.laid (h : Consumes before after lexemes) : Laid before after lexemes := by
  induction h with
  | nil => exact .nil nil_mem_gaps
  | @step before text rest r found later taken writes _ ih =>
    cases found with
    | none => exact ih.skip (gap_of_writes writes taken.fits)
    | some token =>
      change Laid before ([] ++ (text ++ rest)) _
      refine .cons nil_mem_gaps taken writes rfl ?_ ?_ ih
      · rw [List.append_nil]
      · rw [List.append_nil]

/-- A lexeme stops right behind its text. -/
theorem stop_eq {l : Lexeme} {text : List Char} (is : l.text = String.ofList text)
    (start : l.start = bytes (before ++ gap)) : l.stop = bytes (before ++ (gap ++ text)) := by
  rw [Lexeme.stop, is, start, ← List.append_assoc, bytes_append _ text]

theorem bytes_le_append (before text : List Char) : bytes before ≤ bytes (before ++ text) := by
  rw [bytes_append]
  exact Nat.le_add_right _ _

theorem bytes_pos {r : Rule} {text : List Char} (mem : text ∈ r.language) :
    0 < (String.ofList text).utf8ByteSize := by
  rw [Nat.pos_iff_ne_zero, ne_eq, String.utf8ByteSize_eq_zero_iff, String.ofList_eq_empty_iff]
  rintro rfl
  exact nil_notMem r mem

theorem Laid.le_start (h : Laid before after lexemes) : ∀ l ∈ lexemes, bytes before ≤ l.start := by
  induction h with
  | nil => exact List.forall_mem_nil _
  | cons _ _ _ _ _ start _ ih =>
    rw [List.forall_mem_cons, start]
    refine ⟨bytes_le_append _ _, ?_⟩
    intro l mem
    exact Nat.le_trans (bytes_le_append _ _) (ih l mem)

/-- No lexeme is empty. -/
theorem Laid.start_lt_stop (h : Laid before after lexemes) :
    ∀ l ∈ lexemes, l.start < l.stop := by
  induction h with
  | nil => exact List.forall_mem_nil _
  | cons _ taken _ is _ _ _ ih =>
    rw [List.forall_mem_cons]
    refine ⟨?_, ih⟩
    have some := bytes_pos taken.fits
    rw [Lexeme.stop, is]
    omega

/-- Lexemes do not overlap. -/
theorem Laid.pairwise (h : Laid before after lexemes) :
    lexemes.Pairwise fun l l' => l.stop ≤ l'.start := by
  induction h with
  | nil => exact .nil
  | cons _ _ _ is _ start behind ih =>
    rw [List.pairwise_cons, stop_eq is start]
    exact ⟨behind.le_start, ih⟩

/-- A scan succeeds exactly with what its source is consumed to, the longest text of any pattern at
a time; the lexemes then lie in the source with gaps between them, none empty and one after the
other. It fails exactly with the first obstacle. -/
theorem scan_exact (source : String) (lexemes : List Lexeme) (e : ParseError) :
    (scan source = .ok lexemes ↔ Consumes [] source.toList lexemes) ∧
    (scan source = .ok lexemes → Laid [] source.toList lexemes ∧
      (∀ l ∈ lexemes, l.start < l.stop) ∧ lexemes.Pairwise fun l l' => l.stop ≤ l'.start) ∧
    (scan source = .error e ↔ Stops [] source.toList e) := by
  refine ⟨scan_eq_ok_iff source, ?_, scan_eq_error_iff source⟩
  intro h
  have laid := ((scan_eq_ok_iff source).mp h).laid
  exact ⟨laid, laid.start_lt_stop, laid.pairwise⟩

/-- A point that no digit follows is no part of a number: the integer before it is taken, and the
point is the obstacle. -/
theorem scan_exact_point : Stops [] "1.".toList ⟨.unexpectedToken ".", 1⟩ :=
  (scan_exact "1." [] _).2.2.mp rfl

end Laying

end Source

end Tacit
