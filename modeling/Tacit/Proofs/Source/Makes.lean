import Mathlib.Logic.Relation
import Tacit.Proofs.Source.Reading

/-!
What parsing does to a store. Whatever a source says, and whether it is refused or not, values
are made one after the other and nothing else happens.

* `makes_parse`: parsing makes values only.
* `Makes.growsTo`, `Makes.lookup_eq`, `Makes.pending_eq`: so no binding is touched.
-/

namespace Tacit

/-- A text that a name may have: truth values are no names. -/
def Source.Nameable (text : String) : Prop := keyword? text.toList = none

/-- If the lexeme is a name, then it is not written like a truth value. -/
def Lexeme.Nameable (l : Lexeme) : Prop := ∀ text, l.token = .name text → Source.Nameable text

namespace Store

/-- One change that parsing makes to a store. -/
inductive Make (s : Store) : Store → Prop where
  | value (v : Value) (nameable : ∀ {text}, v = .name text → Source.Nameable text) :
      Make s (s.create v).2

abbrev Makes : Store → Store → Prop := Relation.ReflTransGen Make

variable {s s' : Store}

theorem Makes.growsTo (h : s.Makes s') : s.GrowsTo s' := by
  induction h with
  | refl => exact .refl s
  | tail _ last ih =>
    cases last with
    | value v => exact ih.trans (growsTo_create _ v)

theorem Makes.bindings_eq (h : s.Makes s') : s'.bindings = s.bindings := by
  induction h with
  | refl => rfl
  | tail _ last ih =>
    cases last with
    | value v => rw [bindings_create, ih]

theorem Makes.lookup_eq (h : s.Makes s') (name : String) : s'.lookup name = s.lookup name := by
  rw [lookup, lookup, h.bindings_eq]

theorem Makes.pending_eq (h : s.Makes s') : s'.pending = s.pending := by
  induction h with
  | refl => rfl
  | tail _ last ih =>
    cases last with
    | value v => rw [pending_create, ih]

end Store

namespace Source

/-! ### Names in sources -/

/-- No keyword is read as a name. -/
theorem nameable_of_token? {text : List Char} {pattern : Pattern} {name : String}
    (h : token? text pattern = .ok (some (.name name))) : Nameable name := by
  cases pattern with
  | word =>
    rw [token?] at h
    split at h
    · cases h
    · next keyword =>
      cases h
      rwa [Nameable, String.toList_ofList]
  | integer =>
    rw [token?] at h
    split at h <;> cases h
  | placeholder =>
    rw [token?] at h
    split at h <;> cases h
  | double | symbol | blank | comment => cases h

theorem nameable_of_scanFrom {line start skip : Nat} {cs : List Char} {lexemes : List Lexeme}
    (h : scanFrom line start skip cs = .ok lexemes) : ∀ l ∈ lexemes, l.Nameable := by
  fun_induction scanFrom line start skip cs generalizing lexemes with
  | case1 =>
    cases h
    exact fun _ mem => nomatch mem
  | case2 line start skip c cs ih => exact ih h
  | case3 => cases h
  | case4 => cases h
  | case5 line start c cs pattern k _ text found eq line' =>
    rename_i ih
    cases rest : scanFrom line' (start + text.utf8ByteSize) k cs with
    | error e =>
      rw [rest] at h
      cases h
    | ok later =>
      rw [rest] at h
      cases found with
      | none =>
        cases h
        exact ih rest
      | some token =>
        cases h
        refine List.forall_mem_cons.mpr ⟨fun name named => ?_, ih rest⟩
        change token = .name name at named
        subst named
        exact nameable_of_token? eq

/-- No lexeme of a source is a name that is a keyword. -/
theorem nameable_of_scan {source : String} {lexemes : List Lexeme}
    (h : scan source = .ok lexemes) : ∀ l ∈ lexemes, l.Nameable :=
  nameable_of_scanFrom h

/-! ### Parsing -/

/-- What a lexeme asks for makes at most one value. -/
theorem makes_apply {p : Parser} {l : Lexeme} {a : Action} (nameable : l.Nameable)
    (h : p.action l = .ok a) : p.store.Makes (p.apply a).store := by
  rw [Parser.store_apply]
  cases made : p.value a with
  | none => exact .refl
  | some v =>
    refine .single (.value v ?_)
    rintro text rfl
    cases Parser.asks_of_action h with
    | name outside token =>
      cases made
      exact nameable _ token
    | @closeGroup group =>
      rw [Parser.value] at made
      cases shape : group.shape <;> rw [shape] at made <;> cases made
    | _ => cases made

/-- Lexemes make values one after the other, also up to one that is refused. -/
theorem makes_feed {lexemes : List Lexeme} (nameable : ∀ l ∈ lexemes, l.Nameable) (p : Parser) :
    p.store.Makes (p.feed lexemes).1.store := by
  induction lexemes generalizing p with
  | nil => exact .refl
  | cons l rest ih =>
    rw [Parser.feed]
    obtain ⟨first, later⟩ := List.forall_mem_cons.mp nameable
    split
    · next a action => exact (makes_apply first action).trans (ih later _)
    · exact .refl

/-- A parse makes values and does nothing else to the store, also one that fails. -/
theorem makes_parse (s : Store) (source : String) : s.Makes (parse s source).2 := by
  rw [parse]
  cases scanned : scan source with
  | error e => exact .refl
  | ok lexemes =>
    simp only [store_parseLexemes]
    exact makes_feed (nameable_of_scan scanned) (Parser.start s)

end Source

end Tacit
