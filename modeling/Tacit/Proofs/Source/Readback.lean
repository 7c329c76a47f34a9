import Tacit.Proofs.Source.Alike
import Tacit.Proofs.Source.Accepted
import Tacit.Proofs.Source.ParseLines
import Tacit.Proofs.Source.ScanShown
import Tacit.Proofs.Store.Text

/-!
What is shown can be read back. The text of a deep value without blocks and doubles is scanned as
the lexemes of one word that the grammar admits, and that word is written for the same deep value;
only a tuple that belonged to a name does not any more, because its text has a blank between the
two.

* `rescans`: wherever such a text stands, it is scanned as one word.
* `parse_text`: parsed alone it is one sentence of one word.
* `parse_display`: so every such word is read back from its text, and words with one text have one
  deep value.
-/

namespace Tacit

namespace Tree

mutual

/-- The deep value with no tuple connected to a name. -/
def disconnected : Tree → Tree
  | .datum d => .datum d
  | .name text => .name text
  | .tuple _ items => .tuple none (disconnectedAll items)
  | .executor items => .executor (disconnectedAll items)
  | .block items => .block (disconnectedAll items)
  | .placeholder n => .placeholder n
  | .assignment => .assignment

def disconnectedAll : List Tree → List Tree
  | [] => []
  | t :: rest => t.disconnected :: disconnectedAll rest

end

def isExecutor : Tree → Bool
  | .executor _ => true
  | _ => false

/-- The text of the deep value says all there is to it: it has no block, no double and no empty
array, no executor is an item of an executor, and names are written as such. Placeholders have
numbers that can be written at all; the grammar has 32 bits for them. -/
inductive Readable : Tree → Prop where
  | scalar {e : Elem} {x : e.Carrier} (exact : e ≠ .double) : Readable (.datum (.scalar e x))
  | array {e : Elem} {xs : List e.Carrier} (exact : e ≠ .double) (nonempty : xs ≠ []) :
    Readable (.datum (.array e xs))
  | name {text : String} (identifier : Source.isIdentifier text = true) : Readable (.name text)
  | tuple {connectedName : Option String} {items : List Tree} (each : ∀ t ∈ items, t.Readable) :
    Readable (.tuple connectedName items)
  | executor {items : List Tree} (each : ∀ t ∈ items, t.Readable)
    (apart : ∀ t ∈ items, t.isExecutor = false) : Readable (.executor items)
  | placeholder {n : Nat} (bounded : n < Source.placeholderBound) : Readable (.placeholder n)
  | assignment : Readable .assignment

open Source in
/-- The text of a readable tree does not begin with a blank. -/
theorem Readable.solid {t : Tree} (h : t.Readable) : Solid t.text := by
  cases h with
  | scalar exact => exact (spells_literal exact _).solid
  | array => exact ⟨_, _, rfl, rfl⟩
  | name identifier => exact (spells_name identifier).solid
  | tuple => exact ⟨_, _, rfl, rfl⟩
  | executor => exact ⟨_, _, rfl, rfl⟩
  | placeholder bounded => exact (spells_placeholder bounded).solid
  | assignment => exact ⟨_, _, rfl, rfl⟩

end Tree

namespace Source

/-! ### Scanning -/

/-- The text of the deep value, at a place before some rest, is scanned as the lexemes of the
word, which stands for that deep value and is no name for a bracket that comes later. -/
structure Rescanned (t : Tree) (line start : Nat) (rest : List Char) (p : Phrase) (stop : Nat) :
    Prop where
  admitted : p.Admitted
  isExecutor : p.isExecutor = t.isExecutor
  tree : ∀ before, nameBefore before start = none → p.tree before = t.disconnected
  apart : ∀ place, stop < place → nameBefore (some p) place = none
  scan : ∀ behind, scanFrom line stop 0 rest = .ok behind →
    scanFrom line start 0 (t.text ++ rest) = .ok (p.lexemes ++ behind)

/-- Wherever the text of the deep value stands, it is scanned as one word. -/
def Rescans (t : Tree) : Prop :=
  ∀ line start rest, Closes rest → ∃ p stop, Rescanned t line start rest p stop

/-- Texts with blanks between them are scanned as words one after the other. No tuple among them
is connected, since a bracket stands right behind a blank or another bracket. -/
theorem exists_rescanned_items {items : List Tree} (each : ∀ t ∈ items, Rescans t)
    (solid : ∀ t ∈ items, Solid t.text) (line start : Nat) {rest : List Char}
    (closes : Closes rest) (before : Option Phrase) (apart : nameBefore before start = none) :
    ∃ ps stop, (∀ p ∈ ps, p.Admitted) ∧
      ps.map Phrase.isExecutor = items.map Tree.isExecutor ∧
      treesOf before ps = Tree.disconnectedAll items ∧
      ∀ behind, scanFrom line stop 0 rest = .ok behind →
        scanFrom line start 0 (spaced (Tree.textAll items) ++ rest) =
          .ok (lexemesOf ps ++ behind) := by
  induction items generalizing start before with
  | nil => exact ⟨[], start, List.forall_mem_nil _, rfl, rfl, fun _ scanned => scanned⟩
  | cons t items ih =>
    obtain ⟨rescans, each⟩ := List.forall_mem_cons.mp each
    obtain ⟨-, solid⟩ := List.forall_mem_cons.mp solid
    cases items with
    | nil =>
      obtain ⟨p, stop, first⟩ := rescans line start rest closes
      refine ⟨[p], stop, List.forall_mem_singleton.mpr first.admitted, ?_, ?_, ?_⟩
      · rw [List.map_singleton, List.map_singleton, first.isExecutor]
      · rw [treesOf, treesOf, first.tree _ apart]
        rfl
      · intro behind scanned
        rw [Tree.textAll, Tree.textAll, spaced_singleton, lexemesOf, lexemesOf, List.append_nil]
        exact first.scan behind scanned
    | cons u items =>
      obtain ⟨p, stop, first⟩ := rescans line start
        (' ' :: (spaced (Tree.textAll (u :: items)) ++ rest)) (closes_cons _ (.inl rfl))
      obtain ⟨ps, last, admitted, executors, trees, scan⟩ := ih each solid (stop + 1)
        (some p) (first.apart (stop + 1) (Nat.lt_succ_self stop))
      refine ⟨p :: ps, last, List.forall_mem_cons.mpr ⟨first.admitted, admitted⟩, ?_, ?_, ?_⟩
      · rw [List.map_cons, List.map_cons, first.isExecutor, executors]
      · rw [treesOf, first.tree _ apart, trees]
        rfl
      · intro behind scanned
        have more : Solid (spaced (Tree.textAll (u :: items)) ++ rest) :=
          ((solid u (.head _)).spaced _).append rest
        rw [Tree.textAll, Tree.textAll, spaced_cons_cons, List.append_assoc, List.cons_append,
          lexemesOf, List.append_assoc]
        exact first.scan _ (scanFrom_blank more (scan behind scanned))

/-- A text that is a token is scanned as the word with that token. -/
theorem rescans_token {t : Tree} {token : Token} (phrase : Site → Phrase)
    (spells : Spells t.text token) (lexemes : ∀ site, (phrase site).lexemes = [site.lexeme token])
    (admitted : ∀ site, (phrase site).Admitted)
    (isExecutor : ∀ site, (phrase site).isExecutor = t.isExecutor)
    (tree : ∀ site before, (phrase site).tree before = t.disconnected)
    (apart : ∀ site place, site.stop < place → nameBefore (some (phrase site)) place = none) :
    Rescans t := by
  intro line start rest closes
  let site : Site := ⟨String.ofList t.text, line, start⟩
  refine ⟨phrase site, site.stop, admitted site, isExecutor site, fun before _ => tree site before,
    apart site, ?_⟩
  intro behind scanned
  rw [lexemes site]
  exact spells.scan closes scanned

/-- An array of integers or booleans is read back from its text. -/
theorem rescans_array {e : Elem} (exact : e ≠ .double) {xs : List e.Carrier} (nonempty : xs ≠ []) :
    Rescans (.datum (.array e xs)) := by
  intro line start rest closes
  obtain ⟨first, later, rfl⟩ := List.exists_cons_of_ne_nil nonempty
  obtain ⟨entry, entries, stop, rfl, rfl, scan⟩ := exists_scan_elements exact first later line
    (start + 1) (closes_cons rest (c := ')') (.inr (.inl rfl)))
  refine ⟨.array e (symbolSite .openParen line start) entry entries
    (symbolSite .closeParen line stop), stop + 1, .array, rfl, fun _ _ => rfl, fun _ _ => rfl, ?_⟩
  intro behind scanned
  have text : (Tree.datum (.array e (entry.1 :: entries.map Prod.fst))).text ++ rest =
      Symbol.openParen.char :: (spaced ((entry.1 :: entries.map Prod.fst).map e.text) ++
        Symbol.closeParen.char :: rest) := by
    simp [Tree.text, Datum.text, Symbol.char]
  rw [text, Phrase.lexemes, List.cons_append, List.cons_append, List.append_assoc]
  exact scanFrom_symbol .openParen (by simp)
    (scan _ (scanFrom_symbol .closeParen (by simp) scanned))

/-- The items of a group are scanned between its symbols. -/
theorem rescans_group {t : Tree} {items : List Tree} (enclosure : Enclosure)
    (text : t.text = enclosure.opener.char ::
      spaced (Tree.textAll items) ++ [enclosure.closer.char])
    (tree : t.disconnected = enclosure.tree none (Tree.disconnectedAll items))
    (isExecutor : t.isExecutor = decide (enclosure = .bars))
    (closer : enclosure.closer.char = ']' ∨ enclosure.closer.char = '|')
    (each : ∀ t ∈ items, Rescans t) (solid : ∀ t ∈ items, Solid t.text)
    (fits : enclosure = .bars → ∀ t ∈ items, t.isExecutor = false) : Rescans t := by
  intro line start rest closes
  obtain ⟨ps, stop, admitted, executors, trees, scan⟩ :=
    exists_rescanned_items each solid line (start + 1) (closes_cons rest (.inr (.inr closer)))
      none rfl
  refine ⟨.group enclosure (symbolSite enclosure.opener line start) ps
    (symbolSite enclosure.closer line stop), stop + 1, .group admitted ?_, ?_, ?_,
    fun _ _ => rfl, ?_⟩
  · intro p mem bars
    have executor : p.isExecutor ∈ items.map Tree.isExecutor :=
      executors ▸ List.mem_map_of_mem mem
    obtain ⟨u, mem, eq⟩ := List.mem_map.mp executor
    rw [← eq, fits (Option.some.inj bars) u mem]
  · rw [isExecutor]
    cases enclosure <;> rfl
  · intro before unnamed
    rw [Phrase.tree, symbolSite, unnamed, trees, tree]
  · intro behind scanned
    have opening : enclosure.opener ≠ .newline := by cases enclosure <;> simp [Enclosure.opener]
    have closing : enclosure.closer ≠ .newline := by cases enclosure <;> simp [Enclosure.closer]
    simp only [text, Phrase.lexemes, List.cons_append, List.append_assoc, List.nil_append]
    exact scanFrom_symbol _ opening (scan _ (scanFrom_symbol _ closing scanned))

/-- A bracket behind a blank belongs to no name. -/
theorem nameBefore_name {text : String} {site : Site} {place : Nat} (lt : site.stop < place) :
    nameBefore (some (.name text site)) place = none := by
  rw [nameBefore, if_neg (Nat.ne_of_lt lt)]

/-- Every readable text is scanned as one word. -/
theorem rescans {t : Tree} (h : t.Readable) : Rescans t := by
  induction t with
  | datum d =>
    cases h with
    | scalar exact =>
      exact rescans_token (.literal _ _) (spells_literal exact _) (fun _ => rfl)
        (fun _ => .literal) (fun _ => rfl) (fun _ _ => rfl) (fun _ _ _ => rfl)
    | array exact nonempty => exact rescans_array exact nonempty
  | name text =>
    cases h with
    | name identifier =>
      exact rescans_token (.name text) (spells_name identifier) (fun _ => rfl) (fun _ => .name)
        (fun _ => rfl) (fun _ _ => rfl) (fun _ _ => nameBefore_name)
  | tuple connectedName items ih =>
    cases h with
    | tuple each =>
      exact rescans_group .brackets rfl rfl rfl (.inl rfl) (fun t mem => ih t mem (each t mem))
        (fun t mem => (each t mem).solid) (by rintro ⟨⟩)
  | executor items ih =>
    cases h with
    | executor each apart =>
      exact rescans_group .bars rfl rfl rfl (.inr rfl) (fun t mem => ih t mem (each t mem))
        (fun t mem => (each t mem).solid) (fun _ => apart)
  | block items ih => cases h
  | placeholder n =>
    cases h with
    | placeholder bounded =>
      exact rescans_token (.placeholder n) (spells_placeholder bounded) (fun _ => rfl)
        (fun _ => .placeholder) (fun _ => rfl) (fun _ _ => rfl) (fun _ _ _ => rfl)
  | assignment =>
    intro line start rest closes
    refine ⟨.colon (symbolSite .colon line start), start + 1, .colon, rfl, fun _ _ => rfl,
      fun _ _ => rfl, ?_⟩
    intro behind scanned
    exact scanFrom_symbol .colon (by simp) scanned

/-! ### Parsing -/

/-- The text of a readable deep value is parsed as one sentence of one word, which has that deep
value without connections. -/
theorem parse_text {t : Tree} (h : t.Readable) (s : Store) :
    ∃ w s', parse s (String.ofList t.text) = (.ok [[w]], s') ∧ s'.Unfolds w t.disconnected := by
  obtain ⟨p, stop, rescanned⟩ := rescans h 1 0 [] closes_nil
  have scanned : scan (String.ofList t.text) = .ok (Program.last [p]).lexemes := by
    have whole := rescanned.scan [] rfl
    rw [List.append_nil] at whole
    rw [scan, String.toList_ofList, whole, Program.lexemes, lexemesOf, lexemesOf]
  have admitted : (Program.last [p]).Admitted :=
    List.forall_mem_singleton.mpr (List.forall_mem_singleton.mpr rescanned.admitted)
  obtain ⟨q, sentences, feed, finish, -, records⟩ :=
    Parser.feed_program admitted (q := Parser.start s) rfl rfl rfl
  have parsed : parse s (String.ofList t.text) = (.ok sentences, q.store) :=
    parse_eq_ok_iff.mpr ⟨_, q, scanned, feed, finish, rfl⟩
  have single : (Program.last [p]).sentences = [[p]] := rfl
  rw [single] at records
  cases records with
  | cons line none =>
    cases none
    have trees := line.unfolds
    rw [treesOf, treesOf, rescanned.tree none rfl] at trees
    cases trees with
    | cons unfolds none =>
      cases none
      exact ⟨_, q.store, parsed, unfolds⟩

/-- What is shown of a word without blocks and doubles is read back, into any store, as one
sentence of one word with its deep value but for connections to names. So words that are shown
alike have the same deep value but for those. -/
theorem parse_display {s : Store} (h : s.WellFormed) {w : Word} (valid : s.Valid w)
    (readable : ∀ t, s.Unfolds w t → t.Readable) :
    ∃ t text, s.Unfolds w t ∧ s.display w = .ok text ∧
      (∀ r : Store, ∃ v r', parse r text = (.ok [[v]], r') ∧ r'.Unfolds v t.disconnected) ∧
      ∀ (s' : Store) (w' : Word), s'.WellFormed → s'.Valid w' →
        (∀ t', s'.Unfolds w' t' → t'.Readable) → s'.display w' = .ok text →
        ∃ t', s'.Unfolds w' t' ∧ t'.disconnected = t.disconnected := by
  obtain ⟨t, unfolds⟩ := h.exists_unfolds valid
  refine ⟨t, String.ofList t.text, unfolds, unfolds.display, parse_text (readable t unfolds), ?_⟩
  intro s' w' h' valid' readable' display
  obtain ⟨t', unfolds'⟩ := h'.exists_unfolds valid'
  refine ⟨t', unfolds', ?_⟩
  have text : String.ofList t'.text = String.ofList t.text :=
    Except.ok.inj (unfolds'.display.symm.trans display)
  obtain ⟨v, r, parsed, value⟩ := parse_text (readable t unfolds) s
  obtain ⟨v', r', parsed', value'⟩ := parse_text (readable' t' unfolds') s
  rw [text, parsed] at parsed'
  cases parsed'
  exact value'.unique value

/-- A tuple with all that is hard to read back: a connected tuple behind its name, the least
integer, an empty executor behind another executor, and a bare placeholder behind a name. -/
theorem parse_display_nested :
    ∃ v r', parse .empty "[f [-2147483648 _2] |add [x (1 -2)] true| || f _]" =
        (.ok [[v]], r') ∧
      r'.Unfolds v (.tuple none [.name "f",
        .tuple none [.datum (.scalar .int (-2147483648)), .placeholder 2],
        .executor [.name "add", .tuple none [.name "x", .datum (.array .int [1, -2])],
          .datum (.scalar .bool true)],
        .executor [], .name "f", .placeholder 0]) := by
  have wellFormed := wellFormed_parse Store.wellFormed_empty
    "[f[-2147483648 _2] |add [x (1 -2)] true| || f _]"
  have shape : (fun s : Store => s.names = #["f", "add", "x", "f"] ∧
      s.tuples = #[⟨[.scalar .int 0, .placeholder 2], some 0⟩,
        ⟨[.name 2, .array .int 0], none⟩,
        ⟨[.name 0, .tuple 0, .executor 0, .executor 1, .name 3, .placeholder 0], none⟩] ∧
      s.executors = #[[.name 1, .tuple 1, .scalar .bool 0], []] ∧
      (s.columns .int).scalars = #[-2147483648] ∧ (s.columns .int).arrays = #[[1, -2]] ∧
      (s.columns .bool).scalars = #[true])
      (parse .empty "[f[-2147483648 _2] |add [x (1 -2)] true| || f _]").2 := by
    decide +kernel
  revert wellFormed shape
  generalize (parse .empty "[f[-2147483648 _2] |add [x (1 -2)] true| || f _]").2 = s
  rintro wellFormed ⟨names, tuples, executors, ints, arrays, bools⟩
  have argument : s.Unfolds (.tuple 0)
      (.tuple (some "f") [.datum (.scalar .int (-2147483648)), .placeholder 2]) := by
    have found : s.tuples[0]? = some ⟨[.scalar .int 0, .placeholder 2], some 0⟩ := by
      rw [tuples]; rfl
    exact .tuple found (.some (by rw [names]; rfl))
      (.cons (.scalar (by rw [ints]; rfl)) (.cons .placeholder .nil))
  have pair : s.Unfolds (.tuple 1) (.tuple none [.name "x", .datum (.array .int [1, -2])]) := by
    have found : s.tuples[1]? = some ⟨[.name 2, .array .int 0], none⟩ := by rw [tuples]; rfl
    exact .tuple found .none
      (.cons (.name (by rw [names]; rfl)) (.cons (.array (by rw [arrays]; rfl)) .nil))
  have stages : s.Unfolds (.executor 0) (.executor [.name "add",
      .tuple none [.name "x", .datum (.array .int [1, -2])], .datum (.scalar .bool true)]) :=
    .executor (by rw [executors]; rfl) (.cons (.name (by rw [names]; rfl))
      (.cons pair (.cons (.scalar (by rw [bools]; rfl)) .nil)))
  have whole : s.Unfolds (.tuple 2) (.tuple none [.name "f",
      .tuple (some "f") [.datum (.scalar .int (-2147483648)), .placeholder 2],
      .executor [.name "add", .tuple none [.name "x", .datum (.array .int [1, -2])],
        .datum (.scalar .bool true)],
      .executor [], .name "f", .placeholder 0]) := by
    have found : s.tuples[2]? = some ⟨[.name 0, .tuple 0, .executor 0, .executor 1, .name 3,
        .placeholder 0], none⟩ := by rw [tuples]; rfl
    exact .tuple found .none
      (.cons (.name (by rw [names]; rfl)) (.cons argument (.cons stages
        (.cons (.executor (by rw [executors]; rfl) .nil)
          (.cons (.name (by rw [names]; rfl)) (.cons .placeholder .nil))))))
  have readable : ∀ t, s.Unfolds (.tuple 2) t → t.Readable := by
    intro t unfolds
    obtain rfl := unfolds.unique whole
    have inner : (Tree.tuple none [.name "x", .datum (.array .int [1, -2])]).Readable := .tuple <|
      List.forall_mem_cons.mpr ⟨.name (by decide), List.forall_mem_singleton.mpr
        (.array (by decide) (by decide))⟩
    refine .tuple ?_
    simp only [List.forall_mem_cons]
    refine ⟨.name (by decide), .tuple ?_, .executor ?_ (by decide),
      .executor (List.forall_mem_nil _) (List.forall_mem_nil _), .name (by decide),
      .placeholder (by decide), List.forall_mem_nil _⟩
    · exact List.forall_mem_cons.mpr ⟨.scalar (by decide), List.forall_mem_singleton.mpr
        (.placeholder (by decide))⟩
    · exact List.forall_mem_cons.mpr ⟨.name (by decide), List.forall_mem_cons.mpr
        ⟨inner, List.forall_mem_singleton.mpr (.scalar (by decide))⟩⟩
  obtain ⟨t, text, unfolds, display, reads, -⟩ := parse_display wellFormed whole.valid readable
  obtain rfl := unfolds.unique whole
  obtain rfl : text = "[f [-2147483648 _2] |add [x (1 -2)] true| || f _]" := by
    rw [whole.display] at display
    exact (Except.ok.inj display).symm.trans (by decide +kernel)
  exact reads .empty

end Source

end Tacit
