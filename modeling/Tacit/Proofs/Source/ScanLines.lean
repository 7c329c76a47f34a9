import Tacit.Source.Scan

/-!
Scanning line by line. What stands before a newline is scanned as it is alone, because no match
goes over a newline except its own; and what stands behind it is scanned as it is alone too, but
for the lines and places that are counted on.

* `longestMatch_digit`, `longestMatch_alpha` and so on: what the first character of a match decides.
* `scanFrom_cons`: a scan is a match and a scan of what is behind it.
* `exists_scanFrom_append`: the scan up to a newline and the scan from there.
* `scanFrom_shift`: the lexemes of a text that stands further down.
* `exists_scan_append`: the scan of two sources with a newline between them.
-/

namespace Tacit

namespace Source

/-! ### Matches end before a newline -/

section Matches

variable {c : Char} {cs : List Char} (rest : List Char)

theorem run_le (p : Char → Bool) (cs : List Char) : run p cs ≤ cs.length :=
  (List.takeWhile_prefix p).length_le

theorem run_eq_length {p : Char → Bool} {rest : List Char} (all : ∀ c ∈ cs, p c = true)
    (stops : ∀ c ∈ rest.head?, p c = false) : run p (cs ++ rest) = cs.length := by
  have none : rest.takeWhile p = [] := by
    cases rest with
    | nil => rfl
    | cons c rest => simp [stops c rfl]
  rw [run, List.takeWhile_append_of_pos all, none, List.append_nil]

/-- A run does not reach beyond a newline that does not belong to it. -/
theorem run_append {p : Char → Bool} (stops : p '\n' = false) (cs : List Char) :
    run p (cs ++ '\n' :: rest) = run p cs := by
  rw [run, run, List.takeWhile_append]
  split
  · next all => simp [stops, all]
  · rfl

/-- A number ends before a newline. -/
theorem numberAfter_append {k : Nat} (le : k ≤ cs.length) :
    numberAfter k (cs ++ '\n' :: rest) = numberAfter k cs := by
  rw [numberAfter, numberAfter, List.drop_append_of_le_length le]
  cases cs.drop k with
  | nil => rfl
  | cons c cs =>
    rw [List.cons_append]
    split
    · next eq =>
      cases eq
      simp only [run_append rest (p := Char.isDigit) rfl]
    · next other =>
      split
      · next eq =>
        cases eq
        exact absurd rfl (other _)
      · rfl

/-- No match reaches beyond a newline. -/
theorem longestMatch_append (c : Char) (cs : List Char) :
    longestMatch c (cs ++ '\n' :: rest) = longestMatch c cs := by
  have le := run_le Char.isDigit cs
  simp only [longestMatch, run_append rest (p := Char.isDigit) rfl,
    run_append rest (p := continuesWord) rfl, run_append rest (p := continuesComment) rfl,
    run_append rest (p := isBlank) rfl, numberAfter_append rest le]
  cases digits : run Char.isDigit cs with
  | zero => rfl
  | succ k => simp only [numberAfter_append rest (digits ▸ le)]

theorem numberAfter_le {pattern : Pattern} {k k' : Nat} (h : numberAfter k cs = (pattern, k'))
    (le : k ≤ cs.length) : k' ≤ cs.length := by
  rw [numberAfter] at h
  split at h
  · next digits eq =>
    have places := run_le Char.isDigit digits
    have length := congrArg List.length eq
    rw [List.length_drop, List.length_cons] at length
    split at h <;> cases h <;> omega
  · cases h
    exact le

/-- A match does not reach beyond the end of the source. -/
theorem longestMatch_le {pattern : Pattern} {k : Nat} (h : longestMatch c cs = some (pattern, k)) :
    k ≤ cs.length := by
  have run_le := fun p => run_le p cs
  simp only [longestMatch] at h
  split at h
  · exact numberAfter_le (Option.some.inj h) (run_le _)
  split at h
  · split at h
    · cases h
    · exact numberAfter_le (Option.some.inj h) (run_le _)
  split at h
  · cases h
    exact run_le _
  split at h
  · cases h
    exact run_le _
  split at h
  · cases h
    exact run_le _
  split at h
  · cases h
    exact run_le _
  · obtain ⟨s, -, eq⟩ := Option.map_eq_some_iff.mp h
    cases eq
    exact Nat.zero_le _
end Matches

/-! ### What the first character decides -/

section First

variable {c : Char} {cs : List Char}

theorem longestMatch_digit (first : c.isDigit = true) :
    longestMatch c cs = some (numberAfter (run Char.isDigit cs) cs) := by
  rw [longestMatch, if_pos first]

/-- A minus sign begins a number if a digit follows it. -/
theorem longestMatch_minus (digits : run Char.isDigit cs ≠ 0) :
    longestMatch '-' cs = some (numberAfter (run Char.isDigit cs) cs) := by
  rw [longestMatch, if_neg (by decide), if_pos rfl]
  split
  · next none => exact absurd none digits
  · rfl

theorem longestMatch_alpha (first : c.isAlpha = true) :
    longestMatch c cs = some (.word, run continuesWord cs) := by
  have letter : c.isDigit = false := by
    have range : (decide (c.val ≥ 65 ∧ c.val ≤ 90) || (c.val ≥ 97 && c.val ≤ 122)) = true := first
    simp only [Char.isDigit]
    grind
  have other : c ≠ '-' := by
    rintro rfl
    exact absurd first (by decide)
  rw [longestMatch, if_neg (by simp [letter]), if_neg other, if_pos first]

theorem longestMatch_placeholder : longestMatch '_' cs = some (.placeholder, run Char.isDigit cs) :=
  rfl

theorem longestMatch_comment :
    longestMatch '#' cs = some (.comment, run continuesComment cs) := rfl

theorem longestMatch_blank (first : isBlank c = true) :
    longestMatch c cs = some (.blank, run isBlank cs) := by
  simp only [isBlank, Bool.or_eq_true, beq_iff_eq] at first
  rcases first with ((rfl | rfl) | rfl) | rfl <;> rfl

/-- A symbol is matched alone, whatever follows it. -/
theorem longestMatch_symbol (s : Symbol) (cs : List Char) :
    longestMatch s.char cs = some (.symbol s, 0) := by
  cases s <;> rfl

end First

/-! ### Scanning -/

/-- Characters that belong to the lexeme before are skipped. -/
theorem scanFrom_length (line start : Nat) (cs rest : List Char) :
    scanFrom line start cs.length (cs ++ rest) = scanFrom line start 0 rest := by
  induction cs with
  | nil => rfl
  | cons c cs ih =>
    rw [List.length_cons, List.cons_append, scanFrom]
    exact ih

def lexemeOf (found : Option Token) (text : String) (line start : Nat) : List Lexeme :=
  (found.map fun token => ⟨token, text, line, start⟩).toList

def lineBehind (pattern : Pattern) (line : Nat) : Nat :=
  if pattern = .symbol .newline then line + 1 else line

/-- A scan is a match and a scan of what is behind it. -/
theorem scanFrom_cons (line start : Nat) (c : Char) (cs : List Char) :
    scanFrom line start 0 (c :: cs) =
      match longestMatch c cs with
      | none => .error ⟨.unexpectedToken (String.singleton c), line⟩
      | some (pattern, k) =>
        match token? (c :: cs.take k) pattern with
        | .error cause => .error ⟨cause, line⟩
        | .ok found =>
          (lexemeOf found (String.ofList (c :: cs.take k)) line start ++ ·) <$>
            scanFrom (lineBehind pattern line)
              (start + (String.ofList (c :: cs.take k)).utf8ByteSize) k cs := by
  rw [scanFrom]
  cases longestMatch c cs with
  | none => rfl
  | some found =>
    obtain ⟨pattern, k⟩ := found
    simp only [lineBehind]
    cases token? (c :: cs.take k) pattern with
    | error cause => rfl
    | ok found =>
      generalize scanFrom _ _ k cs = behind
      cases found <;> cases behind <;> rfl

/-- The scan up to a newline does not depend on what is behind it. -/
theorem exists_scanFrom_append {cs : List Char} {skip : Nat} (le : skip ≤ cs.length)
    (line start : Nat) : ∃ line' start', ∀ rest,
      scanFrom line start skip (cs ++ '\n' :: rest) =
        scanFrom line start skip cs >>= fun lexemes =>
          (lexemes ++ ·) <$> scanFrom line' start' 0 ('\n' :: rest) := by
  induction cs generalizing line start skip with
  | nil =>
    obtain rfl : skip = 0 := Nat.le_zero.mp le
    refine ⟨line, start, ?_⟩
    intro rest
    exact (id_map _).symm
  | cons c cs ih =>
    cases skip with
    | succ skip =>
      obtain ⟨line', start', append⟩ := ih (Nat.le_of_succ_le_succ le) line start
      refine ⟨line', start', ?_⟩
      intro rest
      rw [List.cons_append, scanFrom, append, scanFrom]
    | zero =>
      simp only [List.cons_append, scanFrom_cons line start, longestMatch_append]
      cases matched : longestMatch c cs with
      | none => exact ⟨0, 0, fun _ => rfl⟩
      | some found =>
        obtain ⟨pattern, k⟩ := found
        have le := longestMatch_le matched
        simp only [List.take_append_of_le_length le]
        cases token? (c :: cs.take k) pattern with
        | error cause => exact ⟨0, 0, fun _ => rfl⟩
        | ok found =>
          obtain ⟨line', start', append⟩ := ih le (lineBehind pattern line)
            (start + (String.ofList (c :: cs.take k)).utf8ByteSize)
          refine ⟨line', start', ?_⟩
          intro rest
          simp only [append, map_bind, bind_map_left, Functor.map_map, List.append_assoc]

/-! ### Further down -/

/-- The same lexeme, so many lines and places further down. -/
def shiftLexeme (lines places : Nat) (l : Lexeme) : Lexeme :=
  { l with line := l.line + lines, start := l.start + places }

/-- The same outcome, with its error so many lines further down. -/
def shiftOutcome {α β : Type} (lines : Nat) (f : α → β) :
    Except ParseError α → Except ParseError β
  | .ok a => .ok (f a)
  | .error e => .error { e with line := e.line + lines }

theorem shiftOutcome_eq_ok_iff {α β : Type} {lines : Nat} {f : α → β}
    {r : Except ParseError α} {b : β} :
    shiftOutcome lines f r = .ok b ↔ ∃ a, r = .ok a ∧ f a = b := by
  cases r <;> simp [shiftOutcome]

/-- Scanning further down and further behind gives the same lexemes, with lines and places moved. -/
theorem scanFrom_shift (lines places line start skip : Nat) (cs : List Char) :
    scanFrom (line + lines) (start + places) skip cs =
      shiftOutcome lines (List.map (shiftLexeme lines places)) (scanFrom line start skip cs) := by
  induction cs generalizing line start skip with
  | nil => rfl
  | cons c cs ih =>
    cases skip with
    | succ skip =>
      rw [scanFrom, scanFrom]
      exact ih line start skip
    | zero =>
      simp only [scanFrom_cons]
      cases longestMatch c cs with
      | none => rfl
      | some found =>
        obtain ⟨pattern, k⟩ := found
        dsimp only
        cases token? (c :: cs.take k) pattern with
        | error cause => rfl
        | ok found =>
          have behind : lineBehind pattern (line + lines) = lineBehind pattern line + lines := by
            rw [lineBehind, lineBehind]
            split <;> omega
          dsimp only
          rw [behind, Nat.add_right_comm, ih]
          generalize scanFrom _ _ k cs = later
          cases found <;> cases later <;> rfl

/-- Two sources with a newline between them have the lexemes of both, and the newline's. -/
theorem exists_scan_append (a : String) : ∃ newline lines places,
    newline.token = .symbol .newline ∧ ∀ b, scan (a ++ "\n" ++ b) =
      scan a >>= fun lexemes => shiftOutcome lines
        (fun later => lexemes ++ newline :: later.map (shiftLexeme lines places)) (scan b) := by
  obtain ⟨line, start, append⟩ := exists_scanFrom_append (Nat.zero_le a.toList.length) 1 0
  refine ⟨⟨.symbol .newline, "\n", line, start⟩, line, start + 1, rfl, ?_⟩
  intro b
  have text : (a ++ "\n" ++ b).toList = a.toList ++ '\n' :: b.toList := by simp
  have newline : scanFrom line start 0 ('\n' :: b.toList) =
      ([⟨.symbol .newline, "\n", line, start⟩] ++ ·) <$>
        scanFrom (line + 1) (start + 1) 0 b.toList := rfl
  have behind := scanFrom_shift line (start + 1) 1 0 0 b.toList
  rw [Nat.add_comm 1, Nat.zero_add] at behind
  rw [scan, text, append, newline, behind, scan, scan]
  congr 1
  funext lexemes
  cases scanFrom 1 0 0 b.toList <;> rfl

end Source

end Tacit
