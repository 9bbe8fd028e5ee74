import Acceptors.Proofs.Source.Tree
import Acceptors.Proofs.Source.Verdict

/-! Definitions and the documents that they are read from. The states, symbols and transitions of
the definition are those that stand in the tree of the document. -/

namespace Acceptors

open Declaration (Move)

namespace Source

variable {key : String} {c : Char}

/-- The texts that stand for symbols on a transition. Moves of the empty word have none. -/
def symbolsOf : Formalism → Entry → List String
  | .nfa, e => if e.key.isEmpty || e.key == emptyText then [] else [e.key]
  | .tm, e => e.key :: (e.value.texts.drop 1).take 1
  | _, e => [e.key]

def targetsOf : Formalism → Entry → List String
  | .tm, e => e.value.texts.take 1
  | _, e => e.value.texts

def alphabetOf : Formalism → Node → List String
  | .tm, root => root.textsUnder ["input_alphabet"] ++ root.textsUnder ["tape_alphabet_extra"] ++
    [blankSymbol.toString]
  | _, root => root.textsUnder ["input_alphabet"]

structure Says (f : Formalism) (cell : Entry × Entry) (m : Move) : Prop where
  state : m.state = cell.1.key
  path : m.path = entryField cell.1.key cell.2.key
  label : f ≠ .nfa → m.label.map Char.toString = some cell.2.key
  symbols : m.symbols.map Char.toString = symbolsOf f cell.2
  targets : m.targets = targetsOf f cell.2

theorem exists_of_forall₂_append_cons {α β : Type} {R : α → β → Prop} {l : List α}
    {before after : List β} {b : β} (h : List.Forall₂ R l (before ++ b :: after)) :
    ∃ before' a after', l = before' ++ a :: after' ∧ List.Forall₂ R before' before ∧ R a b := by
  obtain ⟨a, after', hab, -, hafter⟩ :=
    List.forall₂_cons_right_iff.1 (List.forall₂_drop_append _ _ _ h)
  refine ⟨_, a, after', ?_, List.forall₂_take_append _ _ _ h, hab⟩
  rw [← hafter, List.take_append_drop]

theorem exists_of_forall₂_of_mem {α β : Type} {R : α → β → Prop} {l : List α} {l' : List β} {b : β}
    (h : List.Forall₂ R l l') (hb : b ∈ l') : ∃ a ∈ l, R a b := by
  obtain ⟨before, after, rfl⟩ := List.append_of_mem hb
  obtain ⟨_, a, _, rfl, -, hab⟩ := exists_of_forall₂_append_cons h
  exact ⟨a, List.mem_append_right _ List.mem_cons_self, hab⟩

theorem labelField_of_toString {state : String} (h : c.toString = key) :
    Declaration.labelField state (some c) = entryField state key := by
  have hne : key.isEmpty = false := by
    rw [← h]
    exact String.isEmpty_eq_false_iff.2 (by simp [← String.toList_inj, Char.toString])
  rw [entryField, hne, Declaration.labelField, labelKey, h]
  rfl

end Source

open Source

variable {f : Fields} {root : Node} {row e : Entry}

theorem Dfa.Definition.says_of_readEntry {transition : String × Char × String}
    (h : readEntry row.key (entryField row.key e.key) e = .ok transition) :
    Says .dfa (row, e) (move transition) := by
  obtain ⟨c, hc, h⟩ := bind_eq_ok_iff.1 h
  obtain ⟨target, htarget, h⟩ := bind_eq_ok_iff.1 h
  cases h
  have hkey := toString_of_keySymbol hc
  exact
    { state := rfl
      path := labelField_of_toString hkey
      label := fun _ => congrArg some hkey
      symbols := congrArg (fun key => [key]) hkey
      targets := (texts_of_asScalar htarget).symm }

theorem Nfa.Definition.says_of_readEntry {entry : String × Option Char × List String}
    (h : readEntry row.key (entryField row.key e.key) e = .ok entry) :
    Says .nfa (row, e) (move entry) := by
  rw [readEntry] at h
  split at h
  · rename_i hempty
    obtain ⟨label, hlabel, h⟩ := bind_eq_ok_iff.1 h
    cases hlabel
    obtain ⟨targets, htargets, h⟩ := bind_eq_ok_iff.1 h
    cases h
    refine ⟨rfl, ?_, fun h => absurd rfl h, ?_, (texts_of_names htargets).symm⟩
    · rw [Move.path, move, Declaration.labelField, labelKey, entryField]
      rcases Bool.or_eq_true_iff.1 hempty with hempty | hempty
      · rw [if_pos hempty]
      · rw [eq_of_beq hempty]
        rfl
    · rw [symbolsOf, if_pos hempty]
      rfl
  · rename_i hempty
    obtain ⟨label, hlabel, h⟩ := bind_eq_ok_iff.1 h
    obtain ⟨c, hc, rfl⟩ := map_eq_ok_iff.1 hlabel
    obtain ⟨targets, htargets, h⟩ := bind_eq_ok_iff.1 h
    cases h
    have hkey := toString_of_keySymbol hc
    refine ⟨rfl, labelField_of_toString hkey, fun h => absurd rfl h, ?_,
      (texts_of_names htargets).symm⟩
    rw [symbolsOf, if_neg hempty]
    exact congrArg (fun key => [key]) hkey

theorem Turing.Action.texts_of_ofNode {n : Node} {field : String} {action : Action}
    (h : ofNode field n = .ok action) :
    n.texts.take 1 = [action.nextState] ∧ (n.texts.drop 1).take 1 = [action.write.toString] := by
  obtain ⟨items, hitems, h⟩ := bind_eq_ok_iff.1 h
  rw [Node.texts, Node.asList_eq_ok hitems]
  split at h
  · obtain ⟨write, hwrite, h⟩ := bind_eq_ok_iff.1 h
    obtain ⟨letter, _, h⟩ := bind_eq_ok_iff.1 h
    split at h
    · cases h
    · obtain ⟨target, htarget, h⟩ := bind_eq_ok_iff.1 h
      cases h
      rw [List.filterMap_cons_some (Node.asScalar_eq_ok_iff.1 htarget),
        List.filterMap_cons_some (text?_of_symbol hwrite)]
      exact ⟨rfl, rfl⟩
  · cases h

theorem Turing.Definition.says_of_readEntry {entry : String × Char × Action}
    (h : readEntry row.key (entryField row.key e.key) e = .ok entry) :
    Says .tm (row, e) (move entry) := by
  obtain ⟨c, hc, h⟩ := bind_eq_ok_iff.1 h
  obtain ⟨action, haction, h⟩ := bind_eq_ok_iff.1 h
  cases h
  have hkey := toString_of_keySymbol hc
  obtain ⟨htarget, hwrite⟩ := Action.texts_of_ofNode haction
  refine ⟨rfl, labelField_of_toString hkey, fun _ => congrArg some hkey, ?_, htarget.symm⟩
  rw [symbolsOf, hwrite]
  exact congrArg (fun key => [key, action.write.toString]) hkey

namespace Description

inductive ReadFrom (root : Node) (f : Fields) : Description → Prop
  | dfa {d : Dfa.Definition} (hf : Fields.ofRoot .finiteAutomaton root = .ok f)
    (hd : Dfa.Definition.ofFields f = .ok d) : ReadFrom root f (.dfa d)
  | nfa {d : Nfa.Definition} (hf : Fields.ofRoot .finiteAutomaton root = .ok f)
    (hd : Nfa.Definition.ofFields f = .ok d) : ReadFrom root f (.nfa d)
  | tm {d : Turing.Definition} (hf : Fields.ofRoot .turingMachine root = .ok f)
    (hd : Turing.Definition.ofFields f = .ok d) : ReadFrom root f (.tm d)

structure Contents (root : Node) (d : Description) : Prop where
  states : d.states = root.textsUnder ["states"]
  symbols : ∀ c, c ∈ d.symbols ↔ c.toString ∈ alphabetOf d.formalism root
  named : d.named = root.textsUnder ["start_state"] ++
    root.textsUnder ["accept_states", "accept_state"] ++
    root.textsUnder ["reject_state"]
  moves : List.Forall₂ (Says d.formalism) root.cells d.moves

variable {d : Description}

theorem contents_finite {states acceptStates : List String}
    {inputAlphabet : List Char} {startState : String}
    (hf : Fields.ofRoot .finiteAutomaton root = .ok f) (hstates : f.names "states" = .ok states)
    (hinput : f.symbols "input_alphabet" = .ok inputAlphabet)
    (hstart : f.scalar "start_state" = .ok startState)
    (haccept : f.optionalNames "accept_states" = .ok acceptStates) :
    states = root.textsUnder ["states"] ∧
    (∀ c, c ∈ inputAlphabet ↔ c.toString ∈ root.textsUnder ["input_alphabet"]) ∧
      startState :: acceptStates = root.textsUnder ["start_state"] ++
        root.textsUnder ["accept_states", "accept_state"] ++ root.textsUnder ["reject_state"] := by
  have h := Fields.of_ofRoot hf
  have htexts {key : String} (hkey : key ≠ "accept_state") (hkey' : key ≠ "accept_states") :
      root.textsUnder [key] = f.texts key :=
    h.textsUnder_eq fun _ _ => Fields.mem_singleton_iff_finiteAutomaton hkey hkey'
  refine ⟨?_, fun c => ?_, ?_⟩
  · rw [htexts (by decide) (by decide), Fields.texts_of_names hstates]
  · rw [htexts (by decide) (by decide), Fields.texts_of_symbols hinput,
      List.mem_map_of_injective toString_injective]
  · rw [htexts (by decide) (by decide),
      h.textsUnder_eq fun _ _ => Fields.mem_accept_iff_finiteAutomaton,
      htexts (by decide) (by decide), Fields.texts_of_scalar hstart,
      Fields.texts_of_optionalNames haccept, h.texts_of_not_mem (by decide), List.append_nil,
      List.singleton_append]

theorem says_of_delta {α : Type} {g : Formalism}
    {read : String → String → Entry → Except ParseError α} {move : α → Move} {delta : List α}
    (hread : ∀ {row e : Entry} {x : α},
      read row.key (entryField row.key e.key) e = .ok x → Says g (row, e) (move x))
    (hkey : root.under ["delta"] = (f.optional? "delta").toList)
    (h : Source.delta read (f.optional? "delta") = .ok delta) :
    List.Forall₂ (Says g) root.cells (delta.map move) := by
  rw [Node.cells, Node.rows, hkey, List.forall₂_map_right_iff]
  exact (forall₂_of_delta h).imp fun _ _ h => hread h

theorem ReadFrom.exists_of (h : d.ReadFrom root f) :
    (∃ schema ∈ [Schema.finiteAutomaton, Schema.turingMachine], Fields.Of schema root f) ∧
      root.under ["delta"] = (f.optional? "delta").toList := by
  cases h with
  | dfa hf hd | nfa hf hd =>
    have h := Fields.of_ofRoot hf
    exact ⟨⟨_, List.mem_cons_self, h⟩,
      h.under_eq fun _ _ => Fields.mem_singleton_iff_finiteAutomaton (by decide) (by decide)⟩
  | tm hf hd =>
    have h := Fields.of_ofRoot hf
    exact ⟨⟨_, List.mem_cons_of_mem _ List.mem_cons_self, h⟩, h.under_eq fun _ _ =>
      List.mem_singleton⟩

theorem ReadFrom.contents (h : d.ReadFrom root f) : d.Contents root := by
  have hkey := h.exists_of.2
  cases h with
  | dfa hf hd =>
    obtain ⟨delta, hdelta, hd⟩ := bind_eq_ok_iff.1 hd
    obtain ⟨states, hstates, hd⟩ := bind_eq_ok_iff.1 hd
    obtain ⟨input, hinput, hd⟩ := bind_eq_ok_iff.1 hd
    obtain ⟨start, hstart, hd⟩ := bind_eq_ok_iff.1 hd
    obtain ⟨accept, haccept, hd⟩ := bind_eq_ok_iff.1 hd
    cases hd
    obtain ⟨hstates, hinput, hnamed⟩ := contents_finite hf hstates hinput hstart haccept
    exact ⟨hstates, hinput, hnamed, says_of_delta Dfa.Definition.says_of_readEntry hkey hdelta⟩
  | nfa hf hd =>
    obtain ⟨delta, hdelta, hd⟩ := bind_eq_ok_iff.1 hd
    obtain ⟨states, hstates, hd⟩ := bind_eq_ok_iff.1 hd
    obtain ⟨input, hinput, hd⟩ := bind_eq_ok_iff.1 hd
    obtain ⟨start, hstart, hd⟩ := bind_eq_ok_iff.1 hd
    obtain ⟨accept, haccept, hd⟩ := bind_eq_ok_iff.1 hd
    cases hd
    obtain ⟨hstates, hinput, hnamed⟩ := contents_finite hf hstates hinput hstart haccept
    exact ⟨hstates, hinput, hnamed, says_of_delta Nfa.Definition.says_of_readEntry hkey hdelta⟩
  | tm hf hd =>
    obtain ⟨delta, hdelta, hd⟩ := bind_eq_ok_iff.1 hd
    obtain ⟨states, hstates, hd⟩ := bind_eq_ok_iff.1 hd
    obtain ⟨input, hinput, hd⟩ := bind_eq_ok_iff.1 hd
    obtain ⟨extra, hextra, hd⟩ := bind_eq_ok_iff.1 hd
    obtain ⟨start, hstart, hd⟩ := bind_eq_ok_iff.1 hd
    obtain ⟨accept, haccept, hd⟩ := bind_eq_ok_iff.1 hd
    obtain ⟨reject, hreject, hd⟩ := bind_eq_ok_iff.1 hd
    cases hd
    have h := Fields.of_ofRoot hf
    have htexts (key : String) : root.textsUnder [key] = f.texts key :=
      h.textsUnder_eq fun _ _ => List.mem_singleton
    have haccepts : root.textsUnder ["accept_states", "accept_state"] = f.texts "accept_state" := by
      refine h.textsUnder_eq fun k hk => ?_
      have hk : k ≠ "accept_states" := fun hk' => absurd (hk' ▸ hk) (by decide)
      rw [List.mem_cons, or_iff_right hk, List.mem_singleton]
      exact Iff.rfl
    refine ⟨?_, fun c => ?_, ?_, says_of_delta Turing.Definition.says_of_readEntry hkey hdelta⟩
    · rw [htexts, Fields.texts_of_names hstates]
      rfl
    · rw [formalism, alphabetOf, htexts, htexts, Fields.texts_of_symbols hinput,
        Fields.texts_of_optionalSymbols hextra, ← List.map_append, ← List.map_singleton,
        ← List.map_append, List.mem_map_of_injective toString_injective]
      rfl
    · rw [htexts, haccepts, htexts, Fields.texts_of_scalar hstart, Fields.texts_of_scalar haccept,
        Fields.texts_of_scalar hreject]
      rfl

theorem ReadFrom.ofText_eq {text : String} (h : d.ReadFrom root f)
    (hroot : Node.ofText text = .ok root) (s : Settings) :
    Automaton.ofText d.formalism text s = (d.build s).mapError f.places.locate := by
  cases h with
  | @dfa d hf hd =>
    rw [formalism, Automaton.ofText, Dfa.ofText, bind_of_eq_ok hroot, bind_of_eq_ok hf,
      bind_of_eq_ok hd, build]
    cases d.build s.requireTotalDelta <;> rfl
  | @nfa d hf hd =>
    rw [formalism, Automaton.ofText, Nfa.ofText, bind_of_eq_ok hroot, bind_of_eq_ok hf,
      bind_of_eq_ok hd, build]
    cases d.build <;> rfl
  | @tm d hf hd =>
    rw [formalism, Automaton.ofText, TuringMachine.ofText, bind_of_eq_ok hroot, bind_of_eq_ok hf,
      bind_of_eq_ok hd, build]
    cases d.build <;> rfl

variable {t : StateTable} {a : Alphabet} {cell : Entry × Entry} {m : Move}

theorem Contents.exists_cells (h : d.Contents root) {before after : List Move}
    (hmoves : d.moves = before ++ m :: after) :
    ∃ cells cell rest, root.cells = cells ++ cell :: rest ∧
    List.Forall₂ (Says d.formalism) cells before ∧
      Says d.formalism cell m :=
  exists_of_forall₂_append_cons (hmoves ▸ h.moves)

theorem Contents.exists_move (h : d.Contents root) (hcell : cell ∈ root.cells) :
    ∃ m ∈ d.moves, Says d.formalism cell m :=
  exists_of_forall₂_of_mem h.moves.flip hcell

theorem Contents.declared_iff (h : d.Contents root) (ht : d.Tables t a)
    (hcell : Says d.formalism cell m) :
    m.Declared t a ↔ cell.1.key ∈ root.textsUnder ["states"] ∧
      symbolsOf d.formalism cell.2 ⊆ alphabetOf d.formalism root ∧
        targetsOf d.formalism cell.2 ⊆ root.textsUnder ["states"] := by
  have hsymbol : ∀ c, c ∈ a ↔ c.toString ∈ alphabetOf d.formalism root :=
    fun c => (ht.symbols c).trans (h.symbols c)
  have hsymbols : (∀ c ∈ m.symbols, c ∈ a) ↔ symbolsOf d.formalism cell.2 ⊆
      alphabetOf d.formalism root := by
    rw [← hcell.symbols]
    exact (forall₂_congr fun c _ => hsymbol c).trans List.forall_mem_map.symm
  rw [← hsymbols, ← h.states, ← ht.states, ← hcell.state, ← hcell.targets]
  exact ⟨fun hm => ⟨hm.state, hm.symbols, hm.targets⟩, fun ⟨hstate, hsymbols, htargets⟩ =>
    ⟨hstate, hsymbols, htargets⟩⟩

end Description

end Acceptors
