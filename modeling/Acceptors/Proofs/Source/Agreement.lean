import Mathlib.Tactic.Common
import Acceptors.Proofs.Dfa.Definition
import Acceptors.Proofs.Document.RoundTrip
import Acceptors.Proofs.Nfa.Definition
import Acceptors.Proofs.Source.Reading
import Acceptors.Proofs.Turing.Definition

/-! From a text that a definition is written as the same automaton is built as from the definition
itself. The transitions are read in the order of the text, on which the automaton does not
depend. -/

namespace Acceptors

open Source Description

variable {text : String} {f : Fields} {entries : List (String × Node)} {m n : Node}

/-- A text holds a tree in block form, or in any other form that is read back as the tree. -/
inductive Node.HeldBy (n : Node) (text : String) : Prop
  | block (hw : n.Written text.toList) (hsize : text.utf8ByteSize ≤ maxSourceBytes)
  | other {m : Node} (hm : Node.ofText text = .ok m) (hbare : m.bare = n.bare)

theorem Node.HeldBy.exists_ofText (h : n.HeldBy text) (hk : n.KeysDistinct) (hn : n.IsBlock) :
    ∃ m, Node.ofText text = .ok m ∧ m.bare = n.bare := by
  cases h with
  | block hw hsize =>
    obtain ⟨texts, hlines, htext⟩ := hw
    exact Node.exists_ofText_of_lines hk hn hlines htext hsize
  | other hm hbare => exact ⟨_, hm, hbare⟩

theorem Source.Fields.exists_ofRoot {schema : Schema} {entries' : List (String × Node)}
    (hperm : entries.Perm entries') (hnodup : (entries.map Prod.fst).Nodup)
    (hkeys : ∀ e ∈ entries, e.1 ∈ schema.keys ∧ schema.aliases.lookup e.1 = none)
    (h : m.bare = (Node.ofEntries entries').bare) :
    ∃ f, ofRoot schema m = .ok f ∧ ∀ e ∈ entries, f.Holds e.1 e.2 := by
  obtain ⟨f, hf, hholds⟩ := ofRoot_of_bare (fun e he => hkeys e (hperm.mem_iff.2 he))
    ((hperm.map _).nodup_iff.1 hnodup) h
  exact ⟨f, hf, fun e he => hholds e (hperm.mem_iff.1 he)⟩

theorem exists_ofRoot_finiteAutomaton {states : List String} {inputAlphabet : List Char}
    {startState : String} {acceptStates : List String} {delta : Node}
    (hperm : (finiteEntries states inputAlphabet startState acceptStates delta).Perm entries)
    (h : m.bare = (Node.ofEntries entries).bare) :
    ∃ f, Fields.ofRoot .finiteAutomaton m = .ok f ∧
      ∀ e ∈ finiteEntries states inputAlphabet startState acceptStates delta, f.Holds e.1 e.2 := by
  have hkeys : ∀ e ∈ finiteEntries states inputAlphabet startState acceptStates delta,
      e.1 ∈ Schema.finiteAutomaton.keys ∧ Schema.finiteAutomaton.aliases.lookup e.1 = none := by
    simp [finiteEntries, Schema.finiteAutomaton]
  exact Fields.exists_ofRoot hperm (by simp [finiteEntries]) hkeys h

namespace Dfa

variable {d : Definition} {rows : Rows Char String} {a : Dfa} {total : Bool}

theorem Definition.readEntry_of_bare {state field target : String} {c : Char} {e : Entry}
    (hkey : e.key = c.toString) (hvalue : e.value.bare = (Node.scalar .start target).bare) :
    Definition.readEntry state field e = .ok (state, c, target) := by
  rw [Definition.readEntry, keySymbol_eq_ok hkey, Node.asScalar_of_bare hvalue]
  rfl

theorem Definition.ofFields_of_holds
    (hf : ∀ e ∈ finiteEntries d.states d.inputAlphabet d.startState d.acceptStates
      (rows.node Char.toString (.scalar .start)), f.Holds e.1 e.2) :
    Definition.ofFields f = .ok { d with delta := rows.moves } := by
  simp only [finiteEntries, List.forall_mem_cons] at hf
  obtain ⟨hstates, hinput, hstart, haccept, hdelta, -⟩ := hf
  rw [Definition.ofFields, hdelta.delta fun move _ field e => Definition.readEntry_of_bare,
    hstates.names, hinput.symbols, hstart.scalar, haccept.optionalNames]
  rfl

theorem ofText_eq_ok_iff_build (hrows : rows.Groups d.delta)
    (hentries : (finiteEntries d.states d.inputAlphabet d.startState d.acceptStates
      (rows.node Char.toString (.scalar .start))).Perm entries)
    (hm : Node.ofText text = .ok m) (hbare : m.bare = (Node.ofEntries entries).bare) :
    ofText text total = .ok a ↔ d.build total = .ok a := by
  obtain ⟨f, hf, hholds⟩ := exists_ofRoot_finiteAutomaton hentries hbare
  rw [ofText, bind_of_eq_ok hm, bind_of_eq_ok hf,
    bind_of_eq_ok (Definition.ofFields_of_holds hholds), mapError_eq_ok_iff]
  exact ⟨Definition.build_perm hrows.perm.symm, Definition.build_perm hrows.perm⟩

end Dfa

namespace Nfa

variable {d : Definition} {rows : Rows (Option Char) (List String)} {a : Nfa}

theorem Definition.readEntry_of_bare {state field : String} {label : Option Char}
    {targets : List String} {e : Entry} (hlabel : label ≠ some 'ε') (hkey : e.key = moveKey label)
    (hvalue : e.value.bare = (Node.ofTexts targets).bare) :
    Definition.readEntry state field e = .ok (state, label, targets) := by
  rw [Definition.readEntry, names_of_bare hvalue, hkey]
  cases label with
  | none => rfl
  | some c =>
    have hempty : (moveKey (some c)).isEmpty = false := by simp [moveKey]
    have hsign : (moveKey (some c) == emptyText) = false := by
      refine beq_false_of_ne fun h => hlabel (congrArg some ?_)
      exact toString_injective h
    rw [hempty, hsign, Bool.or_false, if_neg Bool.false_ne_true, keySymbol_eq_ok hkey]
    rfl

theorem Definition.ofFields_of_holds (hd : ∀ move ∈ d.delta, move.2.1 ≠ some 'ε')
    (hrows : rows.Groups d.delta)
    (hf : ∀ e ∈ finiteEntries d.states d.inputAlphabet d.startState d.acceptStates
      (rows.node moveKey .ofTexts), f.Holds e.1 e.2) :
    Definition.ofFields f = .ok { d with delta := rows.moves } := by
  have hread : ∀ move ∈ rows.moves, ∀ field e, e.key = moveKey move.2.1 →
      e.value.bare = (Node.ofTexts move.2.2).bare →
      Definition.readEntry move.1 field e = .ok move :=
    fun move hmove field e => Definition.readEntry_of_bare (hd move (hrows.perm.mem_iff.2 hmove))
  simp only [finiteEntries, List.forall_mem_cons] at hf
  obtain ⟨hstates, hinput, hstart, haccept, hdelta, -⟩ := hf
  rw [Definition.ofFields, hdelta.delta hread, hstates.names, hinput.symbols, hstart.scalar,
    haccept.optionalNames]
  rfl

theorem ofText_eq_ok_iff_build (hd : ∀ move ∈ d.delta, move.2.1 ≠ some 'ε')
    (hrows : rows.Groups d.delta)
    (hentries : (finiteEntries d.states d.inputAlphabet d.startState d.acceptStates
      (rows.node moveKey .ofTexts)).Perm entries)
    (hm : Node.ofText text = .ok m) (hbare : m.bare = (Node.ofEntries entries).bare) :
    ofText text = .ok a ↔ d.build = .ok a := by
  obtain ⟨f, hf, hholds⟩ := exists_ofRoot_finiteAutomaton hentries hbare
  rw [ofText, bind_of_eq_ok hm, bind_of_eq_ok hf,
    bind_of_eq_ok (Definition.ofFields_of_holds hd hrows hholds), mapError_eq_ok_iff]
  exact ⟨Definition.build_perm hrows.perm.symm, Definition.build_perm hrows.perm⟩

end Nfa

namespace Turing

variable {d : Definition} {rows : Rows Char Action}

theorem ofLetter?_letter (move : Direction) : Direction.ofLetter? move.letter = some move := by
  cases move <;> decide

theorem Action.ofNode_of_bare {action : Action} (h : m.bare = (ofAction action).bare)
    (field : String) :
    Action.ofNode field m = .ok action := by
  obtain ⟨found, hfound, hitems⟩ := Node.asList_of_bare h field
  obtain ⟨next, found, rfl, hnext, hitems⟩ := List.map_eq_cons_iff.1 hitems
  obtain ⟨write, found, rfl, hwrite, hitems⟩ := List.map_eq_cons_iff.1 hitems
  obtain ⟨direction, found, rfl, hdirection, hitems⟩ := List.map_eq_cons_iff.1 hitems
  obtain rfl := List.map_eq_nil_iff.1 hitems
  rw [Action.ofNode, bind_of_eq_ok hfound]
  dsimp only
  rw [bind_of_eq_ok (symbol_of_bare hwrite field),
    bind_of_eq_ok (Node.asScalar_of_bare hdirection field), ofLetter?_letter]
  exact bind_of_eq_ok (Node.asScalar_of_bare hnext field)

theorem Definition.readEntry_of_bare {state field : String} {c : Char} {action : Action} {e : Entry}
    (hkey : e.key = c.toString) (hvalue : e.value.bare = (ofAction action).bare) :
    Definition.readEntry state field e = .ok (state, c, action) := by
  rw [Definition.readEntry, keySymbol_eq_ok hkey, Action.ofNode_of_bare hvalue]
  rfl

theorem Definition.ofFields_of_holds
    (hf : ∀ e ∈ turingEntries d (rows.node Char.toString ofAction), f.Holds e.1 e.2) :
    Definition.ofFields f = .ok { d with delta := rows.moves } := by
  simp only [turingEntries, List.forall_mem_cons] at hf
  obtain ⟨hstates, hinput, hextra, hstart, haccept, hreject, hdelta, -⟩ := hf
  rw [Definition.ofFields, hdelta.delta fun move _ field e => Definition.readEntry_of_bare,
    hstates.names, hinput.symbols, hextra.optionalSymbols, hstart.scalar, haccept.scalar,
    hreject.scalar]
  rfl

end Turing

theorem TuringMachine.ofText_eq_ok_iff_build {d : Turing.Definition}
    {rows : Rows Char Turing.Action} {a : TuringMachine} (hrows : rows.Groups d.delta)
    (hentries : (turingEntries d (rows.node Char.toString ofAction)).Perm entries)
    (hm : Node.ofText text = .ok m) (hbare : m.bare = (Node.ofEntries entries).bare) :
    ofText text = .ok a ↔ d.build = .ok a := by
  have hkeys : ∀ e ∈ turingEntries d (rows.node Char.toString ofAction),
      e.1 ∈ Schema.turingMachine.keys ∧ Schema.turingMachine.aliases.lookup e.1 = none := by
    simp [turingEntries, Schema.turingMachine]
  obtain ⟨f, hf, hholds⟩ := Fields.exists_ofRoot hentries (by simp [turingEntries]) hkeys hbare
  rw [ofText, bind_of_eq_ok hm, bind_of_eq_ok hf,
    bind_of_eq_ok (Turing.Definition.ofFields_of_holds hholds), mapError_eq_ok_iff]
  exact ⟨Turing.Definition.build_perm hrows.perm.symm, Turing.Definition.build_perm hrows.perm⟩

namespace Grammar

variable {d : Definition} {treeDepth chartCells : Nat} {g : Grammar}

theorem Definition.readEntry_of_bare {e : Entry} {name : String} {bodies : List String}
    (hkey : e.key = name) (hvalue : e.value.bare = (Node.ofTexts bodies).bare) :
    Definition.readEntry e = .ok (name, bodies) := by
  rw [Definition.readEntry, names_of_bare hvalue, hkey]
  rfl

theorem ofText_eq_ok_iff_build (hm : Node.ofText text = .ok m)
    (hbare : m.bare = (Node.ofEntries (grammarEntries d)).bare) :
    ofText text treeDepth chartCells = .ok g ↔
      (d.build.map fun g => g.withLimits treeDepth chartCells) = .ok g := by
  obtain ⟨es, hes, hpairs⟩ := Node.asMapping_of_bare hbare "document"
  rw [grammarEntries, List.map_map] at hpairs
  have hrules : es.mapM Definition.readEntry = .ok (d.rules.map id) := by
    refine mapM_eq_ok_of_map_eq (fun e rule _ he => ?_) hpairs
    obtain ⟨hkey, hvalue⟩ := Prod.mk.inj he
    exact Definition.readEntry_of_bare hkey hvalue
  rw [List.map_id] at hrules
  rw [ofText, bind_of_eq_ok hm, bind_of_eq_ok hes, bind_of_eq_ok hrules, bind_eq_ok_iff]
  constructor
  · rintro ⟨g, hg, h⟩
    exact map_eq_ok_iff.2 ⟨g, mapError_eq_ok_iff.1 hg, Except.ok.inj h⟩
  · intro h
    obtain ⟨g, hg, rfl⟩ := map_eq_ok_iff.1 h
    exact ⟨g, mapError_eq_ok_iff.2 hg, rfl⟩

theorem ofText_ne_ok_of_nil (hw : (Node.ofEntries []).Written text.toList) :
    ofText text treeDepth chartCells ≠ .ok g := by
  intro h
  obtain ⟨texts, hlines, htext⟩ := hw
  obtain ⟨root, hroot, h⟩ := bind_eq_ok_iff.1 h
  obtain ⟨_, -, hroot⟩ := bind_eq_ok_iff.1 hroot
  obtain ⟨read, hread, hbare⟩ := Syntax.lines_eq_ok hlines
  obtain rfl := List.map_eq_nil_iff.1 hbare
  rw [htext, bind_of_eq_ok hread] at hroot
  cases hroot
  cases h

theorem ofText_eq_ok_iff_of_heldBy (hk : (Node.ofEntries (grammarEntries d)).KeysDistinct)
    (hw : (Node.ofEntries (grammarEntries d)).HeldBy text) :
    ofText text treeDepth chartCells = .ok g ↔
      (d.build.map fun g => g.withLimits treeDepth chartCells) = .ok g := by
  -- In block form a grammar without rules is the empty text, which is not read back as a mapping.
  by_cases hrules : d.rules = []
  · cases hw with
    | other hm hbare => exact ofText_eq_ok_iff_build hm hbare
    | block hw =>
      have hnone : grammarEntries d = [] := by rw [grammarEntries, hrules, List.map_nil]
      refine iff_of_false (ofText_ne_ok_of_nil (hnone ▸ hw)) fun h => ?_
      obtain ⟨g, hg, -⟩ := map_eq_ok_iff.1 h
      rw [Definition.build, hrules] at hg
      cases hg
  · have hblock : (Node.ofEntries (grammarEntries d)).IsBlock := fun h =>
      hrules (List.map_eq_nil_iff.1 (List.map_eq_nil_iff.1 h))
    obtain ⟨m, hm, hbare⟩ := hw.exists_ofText hk hblock
    exact ofText_eq_ok_iff_build hm hbare

end Grammar

namespace Description

variable {d : Description}

theorem isBlock_ofEntries {entries' : List (String × Node)} {e : String × Node}
    (h : (e :: entries').Perm entries) : (Node.ofEntries entries).IsBlock := by
  intro hnil
  rw [List.map_eq_nil_iff] at hnil
  exact List.cons_ne_nil _ _ (hnil ▸ h).eq_nil

/-- A text that holds a document of a definition is accepted when the definition is, and describes
the same automaton. -/
theorem ofText_eq_ok_iff (hd : d.Unambiguous) (hn : d.Document n) (hw : n.HeldBy text)
    (s : Settings) (a : Automaton) : Automaton.ofText d.formalism text s = .ok a ↔
    d.build s = .ok a := by
  have hk := hn.keysDistinct hd
  cases hn with
  | dfa hrows hentries =>
    obtain ⟨m, hm, hbare⟩ := hw.exists_ofText hk (isBlock_ofEntries hentries)
    exact map_eq_ok_congr (fun _ => Dfa.ofText_eq_ok_iff_build hrows hentries hm hbare) _ _
  | nfa hrows hentries =>
    obtain ⟨m, hm, hbare⟩ := hw.exists_ofText hk (isBlock_ofEntries hentries)
    exact map_eq_ok_congr (fun _ => Nfa.ofText_eq_ok_iff_build hd.2 hrows hentries hm hbare) _ _
  | cfg => exact map_eq_ok_congr (fun _ => Grammar.ofText_eq_ok_iff_of_heldBy hk hw) _ _
  | tm hrows hentries =>
    obtain ⟨m, hm, hbare⟩ := hw.exists_ofText hk (isBlock_ofEntries hentries)
    exact map_eq_ok_congr
      (fun _ => TuringMachine.ofText_eq_ok_iff_build hrows hentries hm hbare) _ _

def mixed : Nfa.Definition :=
  { states := ["p", "q"]
    inputAlphabet := ['a']
    startState := "p"
    acceptStates := ["q"]
    delta := [("p", some 'a', ["p", "q"]), ("q", some 'a', []), ("p", none, ["q"])] }

def mixedRows : Rows (Option Char) (List String) :=
  [("p", [(none, ["q"]), (some 'a', ["p", "q"])]), ("q", [(some 'a', [])])]

def mixedDocument : Node :=
  .ofEntries (finiteEntries mixed.states mixed.inputAlphabet mixed.startState mixed.acceptStates
    (mixedRows.node moveKey .ofTexts))

theorem ofText_mixedDocument : Automaton.ofText .nfa mixedDocument.text .default =
    .ok (.nfa ⟨⟨#["p", "q"]⟩, ⟨['a'], by decide⟩, 0, #[false, true],
      #[[⟨none, 1⟩, ⟨some 'a', 0⟩, ⟨some 'a', 1⟩], []]⟩) := by
  have hd : (nfa mixed).Unambiguous := ⟨by decide, by decide⟩
  have hrows : mixedRows.Groups mixed.delta := ⟨by decide, by decide⟩
  have hsize : mixedDocument.text.utf8ByteSize ≤ maxSourceBytes := by decide +kernel
  have hheld : mixedDocument.HeldBy mixedDocument.text := .block mixedDocument.written_text hsize
  exact (ofText_eq_ok_iff hd (.nfa hrows (.refl _)) hheld _ _).2 (by decide +kernel)

end Description

end Acceptors
