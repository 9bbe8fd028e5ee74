import Acceptors.Dfa.Definition
import Acceptors.Proofs.Dfa.Language
import Acceptors.Proofs.Nfa.Definition
import Acceptors.Proofs.TransitionTable

/-! Deterministic automata that definitions describe. All entries of their tables are declared
states. -/

namespace Acceptors.Dfa.Definition

variable {definition : Definition} {d : Dfa} {total : Bool} {table entered : TransitionTable Nat}
  {states : StateTable} {alphabet : Alphabet} {transition : String × Char × String}

/-- A transition as it was given, and the same transition with its place in a table. -/
structure Encodes (states : StateTable) (alphabet : Alphabet) (transition : String × Char × String)
    (s i t : Nat) : Prop where
  state : states.id? transition.1 = some s
  symbol : alphabet.symbols.idxOf? transition.2.1 = some i
  target : states.id? transition.2.2 = some t

theorem enter_eq_ok_iff : enter states alphabet table transition = .ok entered ↔
    ∃ s i t, Encodes states alphabet transition s i t ∧ table.get? s i = none ∧
      entered = table.insert s i t := by
  obtain ⟨state, c, target⟩ := transition
  constructor
  · intro h
    obtain ⟨s, hs, h⟩ := bind_eq_ok_iff.1 h
    split at h
    · rename_i i hi
      obtain ⟨t, ht, h⟩ := bind_eq_ok_iff.1 h
      split at h
      · cases h
      · rename_i hnew
        cases h
        refine ⟨s, i, t, ⟨StateTable.resolve_eq_ok_iff.1 hs, hi, StateTable.resolve_eq_ok_iff.1 ht⟩,
          ?_, rfl⟩
        rwa [Bool.not_eq_true, Option.isSome_eq_false_iff, Option.isNone_iff_eq_none] at hnew
    · cases h
  · rintro ⟨s, i, t, ⟨hs, hi, ht⟩, hnew, rfl⟩
    refine bind_eq_ok_iff.2 ⟨s, StateTable.resolve_eq_ok_iff.2 hs, ?_⟩
    dsimp only at hi ⊢
    rw [hi]
    refine bind_eq_ok_iff.2 ⟨t, StateTable.resolve_eq_ok_iff.2 ht, ?_⟩
    rw [hnew]
    rfl

theorem enters (hdistinct : states.Distinct) : TransitionTable.Enters (enter states alphabet)
    (Encodes states alphabet) states.size alphabet.size where
  lt h := ⟨StateTable.lt_size_of_id? hdistinct h.state, Alphabet.lt_size_of_idxOf? h.symbol⟩
  eq_ok_iff := enter_eq_ok_iff

theorem checkTotal_eq_ok_iff {checked : Dfa} :
    checkTotal d = .ok checked ↔ d.missingTransitions = [] ∧ checked = d := by
  rw [checkTotal]
  split
  · rename_i hnil
    rw [hnil, Except.ok.injEq, eq_comm, and_iff_right rfl]
  · rename_i hcons
    rw [hcons]
    exact iff_of_false (fun h => by cases h) fun h => List.cons_ne_nil _ _ h.1

theorem target_lt_of_foldlM {delta : List (String × Char × String)} (hdistinct : states.Distinct)
    (h : delta.foldlM (enter states alphabet) (.empty states.size alphabet.size) = .ok table) :
    ∀ s i t, table.get? s i = some t → t < states.size := by
  refine foldlM_induction (P := fun table => ∀ s i t, table.get? s i = some t → t < states.size)
    (fun table transition entered hlt henter => ?_) (fun s i t ht => ?_) h
  · obtain ⟨s, i, u, hu, -, rfl⟩ := enter_eq_ok_iff.1 henter
    intro s' i' t ht
    rcases TransitionTable.get?_insert_eq_some ht with ⟨_, _, rfl⟩ | ht
    · exact StateTable.lt_size_of_id? hdistinct hu.target
    · exact hlt s' i' t ht
  · rw [TransitionTable.get?_empty] at ht
    cases ht

structure Builds (definition : Definition) (total : Bool) (d : Dfa) : Prop where
  states : Declaration.states definition.states = .ok d.states
  alphabet : Declaration.alphabet definition.inputAlphabet "input_alphabet" = .ok d.alphabet
  start : d.states.id? definition.startState = some d.start
  accepting : Declaration.marked d.states definition.acceptStates "accept_states" = .ok d.accepting
  table : definition.delta.foldlM (enter d.states d.alphabet)
    (.empty d.states.size d.alphabet.size) = .ok d.table
  missing_eq_nil : total = true → d.missingTransitions = []

theorem build_eq_ok_iff : definition.build total = .ok d ↔ definition.Builds total d := by
  constructor
  · intro h
    obtain ⟨states, hstates, h⟩ := bind_eq_ok_iff.1 h
    obtain ⟨alphabet, halphabet, h⟩ := bind_eq_ok_iff.1 h
    obtain ⟨start, hstart, h⟩ := bind_eq_ok_iff.1 h
    rw [StateTable.resolve_eq_ok_iff] at hstart
    obtain ⟨accepting, haccepting, h⟩ := bind_eq_ok_iff.1 h
    obtain ⟨table, htable, h⟩ := bind_eq_ok_iff.1 h
    cases total with
    | false =>
      cases h
      exact ⟨hstates, halphabet, hstart, haccepting, htable, fun h => by cases h⟩
    | true =>
      obtain ⟨hnil, rfl⟩ := checkTotal_eq_ok_iff.1 h
      exact ⟨hstates, halphabet, hstart, haccepting, htable, fun _ => hnil⟩
  · intro h
    refine bind_eq_ok_iff.2 ⟨_, h.states, bind_eq_ok_iff.2 ⟨_, h.alphabet, ?_⟩⟩
    refine bind_eq_ok_iff.2 ⟨_, StateTable.resolve_eq_ok_iff.2 h.start,
      bind_eq_ok_iff.2 ⟨_, h.accepting, ?_⟩⟩
    refine bind_eq_ok_iff.2 ⟨_, h.table, ?_⟩
    cases total with
    | false => rfl
    | true => exact checkTotal_eq_ok_iff.2 ⟨h.missing_eq_nil rfl, rfl⟩

theorem Builds.distinct (h : definition.Builds total d) : d.states.Distinct :=
  (StateTable.states_eq_ok h.states).2

theorem wellFormed_of_build (h : definition.build total = .ok d) : d.WellFormed := by
  have h := build_eq_ok_iff.1 h
  exact ⟨StateTable.lt_size_of_id? h.distinct h.start, target_lt_of_foldlM h.distinct h.table⟩

theorem build_perm {delta : List (String × Char × String)} (hperm : definition.delta.Perm delta)
    (h : definition.build total = .ok d) :
    Definition.build { definition with delta := delta } total = .ok d := by
  have h := build_eq_ok_iff.1 h
  have htable := (enters h.distinct).foldlM_perm TransitionTable.shaped_empty hperm h.table
  exact build_eq_ok_iff.2 ⟨h.states, h.alphabet, h.start, h.accepting, htable, h.missing_eq_nil⟩

end Acceptors.Dfa.Definition
