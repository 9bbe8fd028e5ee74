import Mathlib.Tactic.Common
import Acceptors.Proofs.Source.Verdict

/-! Which definitions describe Turing machines, and what such a machine holds of its definition. The
blank is on the tape alphabet of every machine, whether or not and however often it is among the
extra symbols. -/

namespace Acceptors.Turing.Definition

variable {d : Definition} {m : TuringMachine} {a : Alphabet} {input extra : List Char}
    {state : String} {c : Char} {action : Action} {states : StateTable}

theorem exists_tapeAlphabet_iff : (∃ a, tapeAlphabet input extra = .ok a) ↔
    ((input ++ extra).filter (· != blankSymbol)).Nodup := by
  constructor
  · intro h
    obtain ⟨_, h⟩ := h
    obtain ⟨declared, hdeclared, -⟩ := bind_eq_ok_iff.1 h
    exact Alphabet.exists_alphabet_iff.1 ⟨declared, hdeclared⟩
  · intro h
    obtain ⟨declared, hdeclared⟩ := Alphabet.exists_alphabet_iff.2 h
    exact ⟨_, bind_eq_ok_iff.2 ⟨declared, hdeclared, rfl⟩⟩

theorem filter_append_of_blank_not_mem (hblank : blankSymbol ∉ input) :
    (input ++ extra).filter (· != blankSymbol) = input ++ extra.filter (· != blankSymbol) := by
  have hinput : input.filter (· != blankSymbol) = input :=
    List.filter_eq_self.2 fun c hc => bne_iff_ne.2 (ne_of_mem_of_not_mem hc hblank)
  rw [List.filter_append, hinput]

theorem symbols_of_tapeAlphabet (h : tapeAlphabet input extra = .ok a)
    (hblank : blankSymbol ∉ input) :
    a.symbols = input ++ extra.filter (· != blankSymbol) ++ [blankSymbol] := by
  obtain ⟨declared, hdeclared, h⟩ := bind_eq_ok_iff.1 h
  cases h
  have hsymbols := Alphabet.symbols_of_alphabet hdeclared
  have hnew : blankSymbol ∉ declared.symbols := by simp [hsymbols]
  rw [Alphabet.symbols_insert_of_not_mem hnew, hsymbols, filter_append_of_blank_not_mem hblank]

structure WellFormed (d : Definition) : Prop where
  states_ne_nil : d.states ≠ []
  name_ne_empty : ∀ name ∈ d.states, name ≠ ""
  nodup_states : d.states.Nodup
  nodup_inputAlphabet : d.inputAlphabet.Nodup
  blank_not_mem : blankSymbol ∉ d.inputAlphabet
  nodup_extra : (d.tapeAlphabetExtra.filter (· != blankSymbol)).Nodup
  extra_not_mem : ∀ c ∈ d.tapeAlphabetExtra, c ≠ blankSymbol → c ∉ d.inputAlphabet
  startState_mem : d.startState ∈ d.states
  acceptState_mem : d.acceptState ∈ d.states
  rejectState_mem : d.rejectState ∈ d.states
  acceptState_ne_rejectState : d.acceptState ≠ d.rejectState
  delta_declared : ∀ state c action, (state, c, action) ∈ d.delta →
    state ∈ d.states ∧ action.nextState ∈ d.states ∧
    ∀ x ∈ [c, action.write], x ∈ d.inputAlphabet ∨ x ∈ d.tapeAlphabetExtra ∨ x = blankSymbol
  nodup_keys : (Declaration.keys d.delta).Nodup

theorem nodup_tapeAlphabet_iff (hblank : blankSymbol ∉ input) :
    ((input ++ extra).filter (· != blankSymbol)).Nodup ↔
      input.Nodup ∧ (extra.filter (· != blankSymbol)).Nodup ∧ ∀ c ∈ extra, c ≠ blankSymbol →
      c ∉ input := by
  rw [filter_append_of_blank_not_mem hblank, List.nodup_append']
  refine and_congr_right fun _ => and_congr_right fun _ => ?_
  rw [List.disjoint_comm]
  simp [List.Disjoint]

theorem declared_move_iff : (move (state, c, action)).Declared states a ↔
    state ∈ states.names.toList ∧ action.nextState ∈ states.names.toList ∧
    ∀ x ∈ [c, action.write], x ∈ a := by
  constructor
  · intro h
    exact ⟨h.state, h.targets _ List.mem_cons_self, h.symbols⟩
  · intro h
    obtain ⟨hstate, hnext, hsymbols⟩ := h
    exact ⟨hstate, hsymbols, List.forall_mem_singleton.2 hnext⟩

namespace Builds

theorem names (h : d.Builds m) : m.states.names.toList = d.states :=
  (StateTable.states_eq_ok h.states).1

theorem symbols (h : d.Builds m) : m.inputAlphabet.symbols = d.inputAlphabet :=
  Alphabet.symbols_of_alphabet h.input

theorem blank_not_mem_inputAlphabet (h : d.Builds m) : blankSymbol ∉ d.inputAlphabet := by
  rw [← h.symbols]
  exact h.blank_not_mem

theorem transition?_eq_some_iff (h : d.Builds m) :
    m.transition? state c = some action ↔ (state, c, action) ∈ d.delta := by
  have hl := lists_of_foldlM h.distinct h.rules
  simp only [TuringMachine.transition?, Option.bind_eq_bind, Option.bind_eq_some_iff,
    Option.pure_def, Option.some_inj]
  constructor
  · intro htransition
    obtain ⟨s, hs, r, hr, haction⟩ := htransition
    obtain ⟨⟨state', c', action'⟩, hdelta, rfl, i, hentry⟩ := hl.exists_of_rule? hr
    obtain rfl : state' = state := StateTable.eq_of_id? h.distinct hentry.state hs
    have hmap := hl.map_rule?_of_mem h.distinct hdelta hs
    rw [hr, Option.map_some, haction, Option.some_inj] at hmap
    rwa [hmap]
  · intro hdelta
    obtain ⟨s, i, r, hentry, -⟩ := hl.complete _ hdelta
    obtain ⟨r, hr, haction⟩ :=
      Option.map_eq_some_iff.1 (hl.map_rule?_of_mem h.distinct hdelta hentry.state)
    exact ⟨s, hentry.state, r, hr, haction⟩

theorem wellFormed (h : d.Builds m) : d.WellFormed := by
  have hblank := h.blank_not_mem_inputAlphabet
  have hnames := Declaration.exists_states_iff.1 ⟨_, h.states⟩
  obtain ⟨hinput, hextra, hdisjoint⟩ :=
    (nodup_tapeAlphabet_iff hblank).1 (exists_tapeAlphabet_iff.1 ⟨_, h.tape⟩)
  have hnamed : ∀ {name s}, m.states.id? name = some s → name ∈ d.states := fun hs => by
    rw [← h.names]
    exact StateTable.mem_names_iff.2 ⟨_, hs⟩
  have hchecks := checks (a := m.tapeAlphabet) h.distinct
  refine ⟨hnames.ne_nil, hnames.ne_empty, hnames.nodup, hinput, hblank, hextra, hdisjoint,
    hnamed h.start,
    hnamed h.accept, hnamed h.reject, fun heq => h.accept_ne_reject ?_, fun state c action hdelta =>
      ?_,
    (Declaration.Move.nodup_map_key_iff fun _ => rfl).1 (hchecks.nodup_of_foldlM h.rules)⟩
  · exact Option.some.inj (h.accept.symm.trans ((congrArg _ heq).trans h.reject))
  · have hdeclared :=
      declared_move_iff.1 (hchecks.declared_of_foldlM h.rules _ (List.mem_map_of_mem hdelta))
    simpa only [h.names, mem_tapeAlphabet_iff h.tape] using hdeclared

end Builds

theorem WellFormed.exists_builds (h : d.WellFormed) : ∃ m, d.Builds m := by
  obtain ⟨states, hstates⟩ :=
    Declaration.exists_states_iff.2 ⟨h.states_ne_nil, h.name_ne_empty, h.nodup_states⟩
  obtain ⟨input, hinput⟩ := Alphabet.exists_alphabet_iff.2 h.nodup_inputAlphabet
  obtain ⟨tape, htape⟩ := exists_tapeAlphabet_iff.2 ((nodup_tapeAlphabet_iff h.blank_not_mem).2
    ⟨h.nodup_inputAlphabet, h.nodup_extra, h.extra_not_mem⟩)
  obtain ⟨hnames, hdistinct⟩ := StateTable.states_eq_ok hstates
  have hid : ∀ {name}, name ∈ d.states → ∃ s, states.id? name = some s := fun hname =>
    StateTable.mem_names_iff.1 (hnames ▸ hname)
  obtain ⟨start, hstart⟩ := hid h.startState_mem
  obtain ⟨accept, haccept⟩ := hid h.acceptState_mem
  obtain ⟨reject, hreject⟩ := hid h.rejectState_mem
  have hblank : blankSymbol ∉ input := by
    change blankSymbol ∉ input.symbols
    rw [Alphabet.symbols_of_alphabet hinput]
    exact h.blank_not_mem
  have hne : accept ≠ reject := fun heq =>
    h.acceptState_ne_rejectState (StateTable.eq_of_id? hdistinct haccept (heq ▸ hreject))
  have hdeclared : ∀ x ∈ d.delta.map move, x.Declared states tape := by
    refine List.forall_mem_map.2 fun ⟨state, c, action⟩ hdelta => declared_move_iff.2 ?_
    simpa only [hnames, mem_tapeAlphabet_iff htape] using h.delta_declared state c action hdelta
  obtain ⟨rules, hrules⟩ := ((checks (a := tape) hdistinct).exists_foldlM_iff hdistinct).2
    ⟨hdeclared, (Declaration.Move.nodup_map_key_iff fun _ => rfl).2 h.nodup_keys⟩
  exact ⟨⟨states, input, tape, start, accept, reject, rules⟩, hstates, hinput, hblank, htape,
    hstart, haccept,
    hreject, hne, hrules⟩

/-- Exactly the well-formed definitions are built. The machine has the declared states and input
symbols and the three states that were singled out, its tape has the extra symbols besides, with the
blank at the end, and its rules are the ones that were given. Their order leaves no trace. -/
theorem build_holds_rules (d : Definition) : ((∃ m, d.build = .ok m) ↔ d.WellFormed) ∧
    ∀ m, d.build = .ok m →
      (m.states.names.toList = d.states ∧ m.inputAlphabet.symbols = d.inputAlphabet ∧
        m.startState = d.startState ∧
        m.acceptState = d.acceptState ∧ m.rejectState = d.rejectState) ∧
      (m.tapeAlphabet.symbols = d.inputAlphabet ++ d.tapeAlphabetExtra.filter (· != blankSymbol) ++
        [blankSymbol] ∧
        m.tapeAlphabet.symbols.Nodup) ∧
      (∀ state c action, m.transition? state c = some action ↔ (state, c, action) ∈ d.delta) ∧
      ∀ delta, d.delta.Perm delta → Definition.build { d with delta := delta } = .ok m := by
  refine ⟨⟨fun h => ?_, fun h => ?_⟩, fun m hm => ?_⟩
  · obtain ⟨m, hm⟩ := h
    exact (build_eq_ok_iff.1 hm).wellFormed
  · obtain ⟨m, hm⟩ := h.exists_builds
    exact ⟨m, build_eq_ok_iff.2 hm⟩
  · have h := build_eq_ok_iff.1 hm
    refine ⟨⟨h.names, h.symbols, StateTable.name_of_id? h.distinct h.start,
      StateTable.name_of_id? h.distinct h.accept,
      StateTable.name_of_id? h.distinct h.reject⟩, ⟨?_, m.tapeAlphabet.nodup⟩, fun state c action =>
        ?_, ?_⟩
    · exact symbols_of_tapeAlphabet h.tape h.blank_not_mem_inputAlphabet
    · exact h.transition?_eq_some_iff
    · exact fun delta hperm => build_perm hperm hm

/-- The blank is given twice among the extra symbols, and the rule for it comes first; another
symbol may not be given twice. -/
theorem build_holds_rules_blanks :
    let rules : List (String × Char × Action) :=
      [("s", '_', ⟨"y", 'x', .right⟩), ("s", '0', ⟨"s", '_', .stay⟩)]
    let d : Definition := ⟨["s", "y", "n"], ['0'], ['_', 'x', '_'], "s", "y", "n", rules⟩
    ∃ m, d.build = .ok m ∧ m.tapeAlphabet.symbols = ['0', 'x', '_'] ∧
      m.transition? "s" '_' = some ⟨"y", 'x', .right⟩ ∧ m.transition? "s" 'x' = none ∧
      Definition.build { d with delta := rules.reverse } = .ok m ∧
      ¬Definition.WellFormed { d with tapeAlphabetExtra := ['x', '_', 'x'] } := by
  intro rules d
  let m : TuringMachine :=
    ⟨⟨#["s", "y", "n"]⟩, ⟨['0'], by decide⟩, ⟨['0', 'x', '_'], by decide⟩, 0, 1, 2,
    ⟨#[#[some ⟨0, '_', .stay⟩, none, some ⟨1, 'x', .right⟩], #[none, none, none],
      #[none, none, none]]⟩⟩
  have hm : d.build = .ok m := by decide +kernel
  obtain ⟨-, ⟨htape, -⟩, htransition, hperm⟩ := (build_holds_rules d).2 m hm
  refine ⟨m, hm, htape, (htransition _ _ _).2 (by decide), ?_, hperm _ (.swap _ _ _), fun h => ?_⟩
  · rw [Option.eq_none_iff_forall_ne_some]
    intro action haction
    have hnone : ("s", 'x') ∉ Declaration.keys d.delta := by decide
    exact hnone (Declaration.mem_keys_iff.2 ⟨action, (htransition _ _ _).1 haction⟩)
  · obtain ⟨m', hm'⟩ := (build_holds_rules { d with tapeAlphabetExtra := ['x', '_', 'x'] }).1.2 h
    have hfails : Definition.build { d with tapeAlphabetExtra := ['x', '_', 'x'] } =
        .error (.inField "tape_alphabet_extra" (.duplicateSymbol 'x')) := by decide +kernel
    cases hfails.symm.trans hm'

end Acceptors.Turing.Definition
