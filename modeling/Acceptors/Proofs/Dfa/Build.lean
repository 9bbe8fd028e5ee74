import Mathlib.Data.List.ProdSigma
import Mathlib.Tactic.Common
import Acceptors.Proofs.Automaton
import Acceptors.Proofs.Source.Verdict

/-! Which definitions describe deterministic automata, and what such an automaton holds of its
definition. Its table has the transitions that were given and no others, so a pair of a state and a
symbol that no transition was given for is one that the automaton lists as missing, and the number
of its transitions tells whether there are any. -/

namespace Acceptors.Dfa.Definition

variable {definition : Definition} {d : Dfa} {total : Bool} {state target : String}
    {c : Char} {s : Nat}

structure WellFormed (definition : Definition) (total : Bool) : Prop where
  states_ne_nil : definition.states ≠ []
  name_ne_empty : ∀ name ∈ definition.states, name ≠ ""
  nodup_states : definition.states.Nodup
  nodup_inputAlphabet : definition.inputAlphabet.Nodup
  startState_mem : definition.startState ∈ definition.states
  acceptStates_mem : ∀ name ∈ definition.acceptStates, name ∈ definition.states
  delta_declared : ∀ state c target, (state, c, target) ∈ definition.delta →
    state ∈ definition.states ∧ c ∈ definition.inputAlphabet ∧ target ∈ definition.states
  nodup_keys : (Declaration.keys definition.delta).Nodup
  keys_total : total = true → ∀ state ∈ definition.states, ∀ c ∈ definition.inputAlphabet,
    (state, c) ∈ Declaration.keys definition.delta

theorem declared_move_iff {states : StateTable} {alphabet : Alphabet} :
    (move (state, c, target)).Declared states alphabet ↔
      state ∈ states.names.toList ∧ c ∈ alphabet.symbols ∧ target ∈ states.names.toList := by
  constructor
  · intro h
    exact ⟨h.state, h.symbols c (List.mem_singleton_self c),
      h.targets target (List.mem_singleton_self target)⟩
  · intro h
    obtain ⟨hstate, hc, htarget⟩ := h
    exact ⟨hstate, List.forall_mem_singleton.2 hc, List.forall_mem_singleton.2 htarget⟩

namespace Builds

theorem names (h : definition.Builds total d) : d.states.names.toList = definition.states :=
  (StateTable.states_eq_ok h.states).1

theorem symbols (h : definition.Builds total d) : d.alphabet.symbols = definition.inputAlphabet :=
  Alphabet.symbols_of_alphabet h.alphabet

theorem next?_of_mem (h : definition.Builds total d)
    (hdelta : (state, c, target) ∈ definition.delta) :
    ∃ s t, d.states.id? state = some s ∧ d.states.id? target = some t ∧ d.next? s c = some t := by
  obtain ⟨s, i, t, hentry, hget⟩ := ((enters h.distinct).get?_of_foldlM h.table).2 _ hdelta
  exact ⟨s, t, hentry.state, hentry.target, next?_eq_some_iff.2 ⟨i, hentry.symbol, hget⟩⟩

theorem mem_of_next? {t : Nat} (h : definition.Builds total d) (hs : d.states.id? state = some s)
    (hnext : d.next? s c = some t) : (state, c, d.states.name t) ∈ definition.delta := by
  obtain ⟨i, hi, hget⟩ := next?_eq_some_iff.1 hnext
  obtain ⟨⟨state', c', target⟩, hdelta, hentry⟩ := (enters h.distinct).exists_of_foldlM h.table hget
  have hstate : state' = state := StateTable.eq_of_id? h.distinct hentry.state hs
  have hc : d.alphabet.symbols[i]? = some c' := column?_eq_some_iff.1 hentry.symbol
  rw [column?_eq_some_iff.1 hi, Option.some_inj] at hc
  rw [StateTable.name_of_id? h.distinct hentry.target, hc, ← hstate]
  exact hdelta

theorem transition?_eq_some_iff (h : definition.Builds total d) :
    d.transition? state c = some target ↔ (state, c, target) ∈ definition.delta := by
  simp only [transition?, Option.bind_eq_bind, Option.bind_eq_some_iff, Option.pure_def,
    Option.some_inj]
  constructor
  · intro htransition
    obtain ⟨s, hs, t, ht, rfl⟩ := htransition
    exact h.mem_of_next? hs ht
  · intro hdelta
    obtain ⟨s, t, hs, ht, hnext⟩ := h.next?_of_mem hdelta
    exact ⟨s, hs, t, hnext, StateTable.name_of_id? h.distinct ht⟩

theorem isNone_next?_iff (h : definition.Builds total d) (hs : s < d.states.size) :
    (d.next? s c).isNone = true ↔ (d.states.name s, c) ∉ Declaration.keys definition.delta := by
  rw [Declaration.mem_keys_iff, not_exists]
  simp only [← h.transition?_eq_some_iff, transition?_name h.distinct hs]
  cases d.next? s c <;> simp

theorem missingTransitions_eq (h : definition.Builds total d) :
    d.missingTransitions =
      (definition.states ×ˢ definition.inputAlphabet).filter fun key =>
          key ∉ Declaration.keys definition.delta := by
  have hstates : definition.states = d.stateIds.map d.states.name := by
    rw [← h.names]
    exact (array_map_getD_range d.states.names "").symm
  rw [missingTransitions, hstates, ← h.symbols]
  change _ = ((d.stateIds.map d.states.name).flatMap fun state =>
    d.alphabet.symbols.map (Prod.mk state)).filter _
  rw [List.flatMap_map, List.filter_flatMap]
  refine List.flatMap_congr fun s hs => ?_
  rw [List.filter_map]
  refine congrArg _ (List.filter_congr fun c _ => ?_)
  exact Bool.eq_iff_iff.2 ((h.isNone_next?_iff (List.mem_range.1 hs)).trans decide_eq_true_iff.symm)

theorem isTotal_iff (h : definition.Builds total d) :
    d.isTotal = true ↔ d.missingTransitions = [] := by
  have hshaped := ((enters h.distinct).get?_of_foldlM h.table).1
  have hnext : ∀ s (i : Nat) (hi : i < d.alphabet.symbols.length),
      d.next? s d.alphabet.symbols[i] = d.table.get? s i := fun s i hi => by
    rw [next?, column?_eq_some_iff.2 (List.getElem?_eq_getElem hi)]
  rw [isTotal, beq_iff_eq, hshaped.size_eq_iff]
  simp only [missingTransitions, List.flatMap_eq_nil_iff, List.map_eq_nil_iff,
    List.filter_eq_nil_iff, stateIds, List.mem_range, Bool.not_eq_true, Option.isNone_eq_false_iff,
    List.forall_mem_iff_getElem, hnext]
  rfl

theorem isAcceptState_iff (h : definition.Builds total d) :
    d.isAcceptState state = true ↔ state ∈ definition.acceptStates := by
  obtain ⟨-, hmarks⟩ := StateTable.marked_eq_ok h.accepting
  rw [isAcceptState]
  constructor
  · intro haccept
    cases hs : d.states.id? state with
    | none =>
      rw [hs] at haccept
      cases haccept
    | some s =>
      rw [hs] at haccept
      obtain ⟨name, hname, hid⟩ := (hmarks s).1 haccept
      exact StateTable.eq_of_id? h.distinct hs hid ▸ hname
  · intro haccept
    obtain ⟨s, hs⟩ :=
      StateTable.mem_names_iff.1 (Declaration.exists_marked_iff.1 ⟨_, h.accepting⟩ state haccept)
    rw [hs]
    exact (hmarks s).2 ⟨state, haccept, hs⟩

theorem wellFormed (h : definition.Builds total d) : definition.WellFormed total := by
  have hnames := Declaration.exists_states_iff.1 ⟨_, h.states⟩
  have hchecks := checks (a := d.alphabet) h.distinct
  refine ⟨hnames.ne_nil, hnames.ne_empty, hnames.nodup,
    Alphabet.exists_alphabet_iff.1 ⟨_, h.alphabet⟩, ?_, ?_,
    fun state c target hdelta => ?_,
    (Declaration.Move.nodup_map_key_iff fun _ => rfl).1 (hchecks.nodup_of_foldlM h.table),
    fun ht state hstate c hc => ?_⟩
  · rw [← h.names]
    exact StateTable.mem_names_iff.2 ⟨_, h.start⟩
  · rw [← h.names]
    exact Declaration.exists_marked_iff.1 ⟨_, h.accepting⟩
  · have hdeclared :=
      declared_move_iff.1 (hchecks.declared_of_foldlM h.table _ (List.mem_map_of_mem hdelta))
    rwa [h.names, h.symbols] at hdeclared
  · have hnil := h.missing_eq_nil ht
    rw [h.missingTransitions_eq, List.filter_eq_nil_iff] at hnil
    simpa using hnil (state, c) (List.mem_product.2 ⟨hstate, hc⟩)

end Builds

theorem WellFormed.exists_builds (h : definition.WellFormed total) :
    ∃ d, definition.Builds total d := by
  obtain ⟨states, hstates⟩ :=
    Declaration.exists_states_iff.2 ⟨h.states_ne_nil, h.name_ne_empty, h.nodup_states⟩
  obtain ⟨alphabet, halphabet⟩ := Alphabet.exists_alphabet_iff.2 h.nodup_inputAlphabet
  obtain ⟨hnames, hdistinct⟩ := StateTable.states_eq_ok hstates
  have hsymbols := Alphabet.symbols_of_alphabet halphabet
  obtain ⟨start, hstart⟩ := StateTable.mem_names_iff.1 (hnames ▸ h.startState_mem)
  obtain ⟨accepting, haccepting⟩ := Declaration.exists_marked_iff.2 (hnames ▸ h.acceptStates_mem)
  have hdeclared : ∀ m ∈ definition.delta.map move, m.Declared states alphabet := by
    refine List.forall_mem_map.2 fun ⟨state, c, target⟩ hdelta => declared_move_iff.2 ?_
    rw [hnames, hsymbols]
    exact h.delta_declared state c target hdelta
  obtain ⟨table, htable⟩ := ((checks (a := alphabet) hdistinct).exists_foldlM_iff hdistinct).2
    ⟨hdeclared, (Declaration.Move.nodup_map_key_iff fun _ => rfl).2 h.nodup_keys⟩
  -- the automaton is there before it is asked whether it is total
  have hpartial : definition.Builds false ⟨states, alphabet, start, accepting, table⟩ :=
    ⟨hstates, halphabet, hstart, haccepting, htable, fun h => by cases h⟩
  refine ⟨⟨states, alphabet, start, accepting, table⟩, hstates, halphabet, hstart, haccepting,
    htable, fun ht => ?_⟩
  rw [hpartial.missingTransitions_eq, List.filter_eq_nil_iff]
  intro key hkey
  obtain ⟨hstate, hc⟩ := List.mem_product.1 hkey
  simpa using h.keys_total ht _ hstate _ hc

/-- Exactly the well-formed definitions are built. The automaton has the declared states and
symbols, the start state, the accepting states and the transitions that were given. It lists the
other pairs of a state and a symbol, by state and then by symbol, and knows whether there are any.
The order of the transitions leaves no trace. -/
theorem build_holds_transitions (definition : Definition) (total : Bool) :
    ((∃ d, definition.build total = .ok d) ↔ definition.WellFormed total) ∧
    ∀ d, definition.build total = .ok d →
      (d.states.names.toList = definition.states ∧ d.alphabet.symbols = definition.inputAlphabet ∧
        d.startState = definition.startState ∧
        ∀ name, d.isAcceptState name = true ↔ name ∈ definition.acceptStates) ∧
      (∀ state c target, d.transition? state c = some target ↔
        (state, c, target) ∈ definition.delta) ∧
      d.missingTransitions = (definition.states ×ˢ definition.inputAlphabet).filter (fun key =>
        key ∉ Declaration.keys definition.delta) ∧
      (d.isTotal = true ↔ d.missingTransitions = []) ∧
      ∀ delta, definition.delta.Perm delta →
        Definition.build { definition with delta := delta } total = .ok d := by
  refine ⟨⟨fun h => ?_, fun h => ?_⟩, fun d hd => ?_⟩
  · obtain ⟨d, hd⟩ := h
    exact (build_eq_ok_iff.1 hd).wellFormed
  · obtain ⟨d, hd⟩ := h.exists_builds
    exact ⟨d, build_eq_ok_iff.2 hd⟩
  · have h := build_eq_ok_iff.1 hd
    refine ⟨⟨h.names, h.symbols, StateTable.name_of_id? h.distinct h.start, fun name =>
      h.isAcceptState_iff⟩,
      fun state c target => h.transition?_eq_some_iff, h.missingTransitions_eq, h.isTotal_iff, ?_⟩
    exact fun delta hperm => build_perm hperm hd

theorem build_holds_transitions_partial :
    let definition : Definition :=
      ⟨["p", "q", "r"], ['a'], "p", ["q"], [("r", 'a', "p"), ("p", 'a', "q")]⟩
    ∃ d, definition.build false = .ok d ∧ ¬definition.WellFormed true ∧
      d.transition? "p" 'a' = some "q" ∧
      d.missingTransitions = [("q", 'a')] ∧ d.isTotal = false ∧
      Definition.build ⟨["p", "q", "r"], ['a'], "p", ["q"],
        [("p", 'a', "q"), ("r", 'a', "p")]⟩ false = .ok d := by
  intro definition
  let d : Dfa := ⟨⟨#["p", "q", "r"]⟩, ⟨['a'], by decide⟩, 0, #[false, true, false],
    ⟨#[#[some 1], #[none], #[some 0]]⟩⟩
  have hd : definition.build false = .ok d := by decide +kernel
  obtain ⟨-, hholds⟩ := build_holds_transitions definition false
  obtain ⟨-, htransition, hmissing, htotal, hperm⟩ := hholds d hd
  have hmissing : d.missingTransitions = [("q", 'a')] := hmissing.trans (by decide)
  refine ⟨d, hd, fun h => ?_, (htransition _ _ _).2 (by decide), hmissing, ?_,
    hperm _ (.swap _ _ _)⟩
  · obtain ⟨d', hd'⟩ := (build_holds_transitions definition true).1.2 h
    have hfails : definition.build true = .error (.inField "delta.q" (.missingTransition 'a')) := by
      decide +kernel
    cases hfails.symm.trans hd'
  · rw [Bool.eq_false_iff, Ne, htotal, hmissing]
    exact List.cons_ne_nil _ _

end Acceptors.Dfa.Definition
