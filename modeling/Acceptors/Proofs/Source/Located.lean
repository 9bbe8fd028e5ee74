import Acceptors.Proofs.Document.Keys
import Acceptors.Proofs.Source.Contents

/-! Failures to read a document have a place: the form of the text, repeated keys, the arrangement
of lines, and what stands under the keys. -/

namespace Acceptors

variable {α β : Type} {x : Except ParseError α} {e : ParseError}

def Located (x : Except ParseError α) : Prop := ∀ e, x = .error e → e.location?.isSome

namespace Located

theorem location?_ne_none (h : Located x) (he : x = .error e) : e.location? ≠ none :=
  Option.isSome_iff_ne_none.1 (h e he)

theorem ok (a : α) : Located (.ok a) := nofun

theorem error (h : e.location?.isSome) : Located (.error e : Except ParseError α) := fun _ he =>
  Except.error.inj he ▸ h

theorem bind {f : α → Except ParseError β} (h : Located x) (hf : ∀ a, x = .ok a → Located (f a)) :
    Located (x >>= f) := by
  intro e he
  rcases bind_eq_error_iff.1 he with he | ⟨a, ha, he⟩
  · exact h e he
  · exact hf a ha e he

theorem map (h : Located x) (f : α → β) : Located (f <$> x) :=
  fun e he => h e (map_eq_error_iff.1 he)

theorem mapM {l : List α} {f : α → Except ParseError β} (h : ∀ a ∈ l, Located (f a)) :
    Located (l.mapM f) := by
  intro e he
  obtain ⟨before, a, after, _, rfl, -, ha⟩ := exists_of_mapM_eq_error he
  exact h a (List.mem_append_right _ List.mem_cons_self) e ha

theorem mapError {ε : Type} {x : Except ε α} {f : ε → ParseError}
    (hf : ∀ e, x = .error e → (f e).location?.isSome) :
    Located (x.mapError f) := by
  intro e he
  obtain ⟨e', he', rfl⟩ := mapError_eq_error_iff.1 he
  exact hf e' he'

end Located

/-! ### Trees -/

theorem Entry.located_add (found : List Entry) (x : Entry) : Located (Entry.add found x) := by
  rw [Entry.add]
  split
  · exact .error rfl
  · exact .ok _

mutual

theorem Node.located_checkKeys (n : Node) : Located n.checkKeys := by
  cases n with
  | null _ => exact .ok _
  | scalar _ _ => exact .ok _
  | list _ items => exact located_checkItems items
  | mapping _ entries => exact located_checkEntries [] entries

theorem located_checkItems (items : List Node) : Located (checkItems items) := by
  cases items with
  | nil => exact .ok _
  | cons n items => exact n.located_checkKeys.bind fun _ _ => located_checkItems items

theorem located_checkEntries (earlier entries : List Entry) :
    Located (checkEntries earlier entries) := by
  cases entries with
  | nil => exact .ok _
  | cons x entries =>
    obtain ⟨key, l, value⟩ := x
    exact value.located_checkKeys.bind fun _ _ =>
      (Entry.located_add _ _).bind fun earlier _ => located_checkEntries earlier entries

end

theorem located_checkLines (ls : List Line) : Located (checkLines ls) := by
  induction ls with
  | nil => exact .ok _
  | cons l ls ih =>
    rw [checkLines]
    split
    · exact ih
    · exact (Node.located_checkKeys _).bind fun _ _ => ih

theorem Syntax.located_lines (text : List Char) : Located (lines text) := by
  rw [lines]
  split
  · exact .ok _
  · exact .error rfl

theorem Block.located_ofLines (ls : List Line) : Located (ofLines ls) := by
  rcases ofLines_cases ls with ⟨n, h, -⟩ | ⟨e, h, _, _, _, _, _, _, rfl⟩ | ⟨l, h, -⟩
  · exact h ▸ .ok n
  · exact h ▸ .error rfl
  · exact h ▸ .error rfl

theorem located_checkSize {text : String} (h : text.utf8ByteSize ≤ maxSourceBytes) :
    Located (checkSize text) :=
  checkSize_eq_ok_iff.2 h ▸ .ok ()

/-- Only a text that is too long is refused as a whole. -/
theorem Node.located_ofText {text : String} (h : text.utf8ByteSize ≤ maxSourceBytes) :
    Located (ofText text) :=
  (located_checkSize h).bind fun _ _ => (Syntax.located_lines _).bind fun ls _ =>
    (located_checkLines ls).bind fun _ _ => Block.located_ofLines ls

namespace Node

variable (n : Node) (field : String)

theorem located_asMapping : Located (n.asMapping field) := by
  cases n with
  | mapping _ _ => exact .ok _
  | _ => exact .error rfl

theorem located_asScalar : Located (n.asScalar field) := by
  cases n with
  | scalar _ _ => exact .ok _
  | _ => exact .error rfl

theorem located_asList : Located (n.asList field) := by
  cases n with
  | mapping _ _ => exact .error rfl
  | _ => exact .ok _

end Node

/-! ### Fields -/

namespace Source

theorem located_names (field : String) (n : Node) : Located (names field n) :=
  (n.located_asList field).bind fun _ _ => .mapM fun item _ => item.located_asScalar field

theorem located_symbol (field : String) (n : Node) : Located (symbol field n) :=
  (n.located_asScalar field).bind fun _ _ => .mapError fun _ _ => rfl

theorem located_symbols (field : String) (n : Node) : Located (symbols field n) :=
  (n.located_asList field).bind fun _ _ => .mapM fun item _ => located_symbol field item

theorem located_keySymbol (field : String) (e : Entry) : Located (keySymbol field e) :=
  .mapError fun _ _ => rfl

theorem located_delta {read : String → String → Entry → Except ParseError α}
    (hread : ∀ state field e, Located (read state field e)) (n? : Option Node) :
    Located (delta read n?) := by
  cases n? with
  | none => exact .ok _
  | some n =>
    refine (n.located_asMapping "delta").bind fun states _ =>
      (Located.mapM fun row _ => ?_).bind fun _ _ => .ok _
    split
    · exact .ok _
    · exact (row.value.located_asMapping _).bind fun _ _ => .mapM fun e _ => hread _ _ e

namespace Fields

variable (f : Fields) (key : String)

theorem located_collect (schema : Schema) (found : List (String × Entry)) (es : List Entry) :
    Located (collect schema found es) := by
  induction es generalizing found with
  | nil => exact .ok _
  | cons e es ih =>
    rw [collect]
    split
    · exact .error rfl
    · split
      · exact .error rfl
      · exact ih _

theorem located_ofRoot (schema : Schema) (root : Node) : Located (ofRoot schema root) :=
  (root.located_asMapping "document").bind fun es _ =>
    (located_collect schema [] es).bind fun _ _ => .ok _

theorem located_required : Located (f.required key) := by
  rw [required]
  split
  · exact .ok _
  · exact .error rfl

theorem located_scalar : Located (f.scalar key) :=
  (f.located_required key).bind fun n _ => n.located_asScalar key

theorem located_names : Located (f.names key) := (f.located_required key).bind fun n _ =>
      Source.located_names key n

theorem located_symbols : Located (f.symbols key) :=
  (f.located_required key).bind fun n _ => Source.located_symbols key n

theorem located_optionalNames : Located (f.optionalNames key) := by
  rw [optionalNames]
  split
  · exact Source.located_names key _
  · exact .ok _

theorem located_optionalSymbols : Located (f.optionalSymbols key) := by
  rw [optionalSymbols]
  split
  · exact Source.located_symbols key _
  · exact .ok _

end Fields

end Source

open Source

/-! ### Definitions -/

variable (f : Fields) (state field : String) (entry : Entry)

theorem Dfa.Definition.located_readEntry : Located (readEntry state field entry) :=
  (located_keySymbol field entry).bind fun _ _ =>
    (entry.value.located_asScalar field).bind fun _ _ => .ok _

theorem Nfa.Definition.located_readEntry : Located (readEntry state field entry) := by
  rw [readEntry]
  split
  · exact (Located.ok none).bind fun _ _ => (located_names field entry.value).bind fun _ _ => .ok _
  · exact ((located_keySymbol field entry).map some).bind fun _ _ =>
      (located_names field entry.value).bind fun _ _ => .ok _

theorem Turing.Action.located_ofNode (n : Node) : Located (ofNode field n) := by
  refine (n.located_asList field).bind fun items _ => ?_
  split
  · refine (located_symbol field _).bind fun _ _ => (Node.located_asScalar _ field).bind fun _ _ =>
      ?_
    split
    · exact .error rfl
    · exact (Node.located_asScalar _ field).bind fun _ _ => .ok _
  · exact .error rfl

theorem Turing.Definition.located_readEntry : Located (readEntry state field entry) :=
  (located_keySymbol field entry).bind fun _ _ =>
    (Action.located_ofNode field entry.value).bind fun _ _ => .ok _

theorem Dfa.Definition.located_ofFields : Located (ofFields f) :=
  (located_delta located_readEntry _).bind fun _ _ => (f.located_names "states").bind fun _ _ =>
    (f.located_symbols "input_alphabet").bind fun _ _ =>
      (f.located_scalar "start_state").bind fun _ _ =>
      (f.located_optionalNames "accept_states").bind fun _ _ => .ok _

theorem Nfa.Definition.located_ofFields : Located (ofFields f) :=
  (located_delta located_readEntry _).bind fun _ _ => (f.located_names "states").bind fun _ _ =>
    (f.located_symbols "input_alphabet").bind fun _ _ =>
      (f.located_scalar "start_state").bind fun _ _ =>
      (f.located_optionalNames "accept_states").bind fun _ _ => .ok _

theorem Turing.Definition.located_ofFields : Located (ofFields f) :=
  (located_delta located_readEntry _).bind fun _ _ => (f.located_names "states").bind fun _ _ =>
    (f.located_symbols "input_alphabet").bind fun _ _ =>
      (f.located_optionalSymbols "tape_alphabet_extra").bind fun _ _ =>
        (f.located_scalar "start_state").bind fun _ _ =>
        (f.located_scalar "accept_state").bind fun _ _ =>
          (f.located_scalar "reject_state").bind fun _ _ => .ok _

theorem Source.Fields.located_or_read {δ : Type} {ofFields : Fields → Except ParseError δ}
    (h : ∀ f, Located (ofFields f)) (schema : Schema) (root : Node)
    (k : Fields → δ → Except ParseError α) :
    (∃ e, (ofRoot schema root >>= fun f => ofFields f >>= k f) = .error e ∧ e.location?.isSome) ∨
      ∃ f d, ofRoot schema root = .ok f ∧ ofFields f = .ok d := by
  cases hf : ofRoot schema root with
  | error e => exact .inl ⟨e, rfl, located_ofRoot schema root e hf⟩
  | ok f =>
    cases hd : ofFields f with
    | error e => exact .inl ⟨e, by rw [bind_of_eq_ok rfl, hd]; rfl, h f e hd⟩
    | ok d => exact .inr ⟨f, d, rfl, hd⟩

theorem Automaton.ofText_cases {g : Formalism} (hcfg : g ≠ .cfg) (hregex : g ≠ .regex)
    (text : String) (s : Settings) :
    (∃ e, Node.ofText text = .error e ∧ ofText g text s = .error e) ∨
      ∃ root, Node.ofText text = .ok root ∧
      ((∃ e, ofText g text s = .error e ∧ e.location?.isSome) ∨
        ∃ f, ∃ d : Description, d.ReadFrom root f ∧ d.formalism = g) := by
  cases hroot : Node.ofText text with
  | error e =>
    refine .inl ⟨e, rfl, ?_⟩
    cases g with
    | cfg => exact absurd rfl hcfg
    | regex => exact absurd rfl hregex
    | dfa => rw [ofText, Dfa.ofText, hroot]; rfl
    | nfa => rw [ofText, Nfa.ofText, hroot]; rfl
    | tm => rw [ofText, TuringMachine.ofText, hroot]; rfl
  | ok root =>
    refine .inr ⟨root, rfl, ?_⟩
    cases g with
    | cfg => exact absurd rfl hcfg
    | regex => exact absurd rfl hregex
    | dfa =>
      rcases Fields.located_or_read Dfa.Definition.located_ofFields _ root _ with
        ⟨e, he, hl⟩ | ⟨f, d, hf, hd⟩
      · exact .inl ⟨e, by rw [ofText, Dfa.ofText, bind_of_eq_ok hroot, he]; rfl, hl⟩
      · exact .inr ⟨f, .dfa d, .dfa hf hd, rfl⟩
    | nfa =>
      rcases Fields.located_or_read Nfa.Definition.located_ofFields _ root _ with
        ⟨e, he, hl⟩ | ⟨f, d, hf, hd⟩
      · exact .inl ⟨e, by rw [ofText, Nfa.ofText, bind_of_eq_ok hroot, he]; rfl, hl⟩
      · exact .inr ⟨f, .nfa d, .nfa hf hd, rfl⟩
    | tm =>
      rcases Fields.located_or_read Turing.Definition.located_ofFields _ root _ with
        ⟨e, he, hl⟩ | ⟨f, d, hf, hd⟩
      · exact .inl ⟨e, by rw [ofText, TuringMachine.ofText, bind_of_eq_ok hroot, he]; rfl, hl⟩
      · exact .inr ⟨f, .tm d, .tm hf hd, rfl⟩

end Acceptors
