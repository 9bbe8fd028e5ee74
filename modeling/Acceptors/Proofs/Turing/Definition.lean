import Mathlib.Tactic.Common
import Acceptors.Proofs.Alphabet
import Acceptors.Proofs.Outcome
import Acceptors.Proofs.StateTable
import Acceptors.Proofs.TransitionTable
import Acceptors.Proofs.Turing.Computation
import Acceptors.Turing.Definition

/-! Turing machines that definitions describe. The rules of such a machine are the ones that were
given, each found by the name of its state and by its symbol. -/

namespace Acceptors

/-- The table of a machine holds what its definition gives: the places of states and symbols stand
for their names. -/
structure TuringMachine.Implements (m : TuringMachine) (d : Turing.Definition) : Prop where
  distinct : m.states.Distinct
  start : m.states.id? d.startState = some m.start
  accept : m.states.id? d.acceptState = some m.accept
  reject : m.states.id? d.rejectState = some m.reject
  accept_ne_reject : m.accept ≠ m.reject
  input : m.inputAlphabet.symbols = d.inputAlphabet
  rule_action : ∀ state s c, m.states.id? state = some s →
    (m.rule? s c).map m.action = d.action? state c
  next_lt : ∀ s c r, m.rule? s c = some r → r.next < m.states.size

namespace Turing.Definition

variable {d : Definition} {m : TuringMachine} {states : StateTable} {alphabet : Alphabet}
  {rules entered : TransitionTable Rule} {field : String} {symbols : List Char}
  {entry : String × Char × Action} {delta : List (String × Char × Action)} {s : Nat}
  {c : Char} {r : Rule}

theorem checkSymbols_eq_ok_iff :
    checkSymbols alphabet field symbols = .ok () ↔ ∀ c ∈ symbols, c ∈ alphabet := by
  induction symbols with
  | nil => exact ⟨fun _ c hc => absurd hc List.not_mem_nil, fun _ => rfl⟩
  | cons c symbols ih =>
    rw [checkSymbols, List.forall_mem_cons]
    split
    · rename_i hc
      rw [ih, and_iff_right hc]
    · rename_i hc
      constructor
      · intro h
        cases h
      · intro h
        exact absurd h.1 hc

structure Encodes (states : StateTable) (alphabet : Alphabet) (entry : String × Char × Action)
    (s i : Nat) (r : Rule) : Prop where
  state : states.id? entry.1 = some s
  symbol : alphabet.symbols.idxOf? entry.2.1 = some i
  next : states.id? entry.2.2.nextState = some r.next
  write : entry.2.2.write = r.write
  direction : entry.2.2.direction = r.direction

theorem enter_eq_ok_iff : enter states alphabet rules entry = .ok entered ↔
    ∃ s i r, (Encodes states alphabet entry s i r ∧ r.write ∈ alphabet) ∧ rules.get? s i = none ∧
      entered = rules.insert s i r := by
  obtain ⟨state, read, action⟩ := entry
  constructor
  · intro h
    obtain ⟨s, hs, h⟩ := bind_eq_ok_iff.1 h
    obtain ⟨_, hsymbols, h⟩ := bind_eq_ok_iff.1 h
    obtain ⟨next, hnext, h⟩ := bind_eq_ok_iff.1 h
    dsimp only at h
    split at h
    · cases h
    · rename_i hnew
      cases h
      have hall := checkSymbols_eq_ok_iff.1 hsymbols
      have hread := hall read List.mem_cons_self
      refine ⟨s, alphabet.symbols.idxOf read, ⟨next, action.write, action.direction⟩,
        ⟨?_, ?_⟩, ?_, rfl⟩
      · exact ⟨StateTable.resolve_eq_ok_iff.1 hs,
          (list_idxOf?_eq_some_iff alphabet.nodup).2 (List.getElem?_idxOf hread),
          StateTable.resolve_eq_ok_iff.1 hnext, rfl, rfl⟩
      · exact hall action.write (List.mem_cons_of_mem read List.mem_cons_self)
      · rwa [Bool.not_eq_true, Option.isSome_eq_false_iff, Option.isNone_iff_eq_none] at hnew
  · rintro ⟨s, i, ⟨next, write, direction⟩, ⟨⟨hs, hi, hnext, rfl, rfl⟩, hwrite⟩, hnew, rfl⟩
    have hread : read ∈ alphabet.symbols :=
      List.mem_of_getElem? ((list_idxOf?_eq_some_iff alphabet.nodup).1 hi)
    have hidx : alphabet.symbols.idxOf? read = some (alphabet.symbols.idxOf read) :=
      (list_idxOf?_eq_some_iff alphabet.nodup).2 (List.getElem?_idxOf hread)
    obtain rfl : alphabet.symbols.idxOf read = i := Option.some.inj (hidx.symm.trans hi)
    have hsymbols : ∀ c ∈ [read, action.write], c ∈ alphabet :=
      List.forall_mem_cons.2 ⟨hread, List.forall_mem_singleton.2 hwrite⟩
    refine bind_eq_ok_iff.2 ⟨s, StateTable.resolve_eq_ok_iff.2 hs, ?_⟩
    refine bind_eq_ok_iff.2 ⟨(), checkSymbols_eq_ok_iff.2 hsymbols, ?_⟩
    refine bind_eq_ok_iff.2 ⟨next, StateTable.resolve_eq_ok_iff.2 hnext, ?_⟩
    dsimp only
    rw [hnew]
    rfl

theorem enters (hdistinct : states.Distinct) : TransitionTable.Enters (enter states alphabet)
    (fun entry s i r => Encodes states alphabet entry s i r ∧ r.write ∈ alphabet) states.size
    alphabet.size where
  lt h := ⟨StateTable.lt_size_of_id? hdistinct h.1.state, Alphabet.lt_size_of_idxOf? h.1.symbol⟩
  eq_ok_iff := enter_eq_ok_iff

structure Lists (states : StateTable) (alphabet : Alphabet) (delta : List (String × Char × Action))
    (rules : TransitionTable Rule) : Prop where
  shaped : rules.Shaped states.size alphabet.size
  sound : ∀ s i r, rules.get? s i = some r → ∃ entry ∈ delta, Encodes states alphabet entry s i r
  complete : ∀ entry ∈ delta, ∃ s i r, Encodes states alphabet entry s i r ∧
    rules.get? s i = some r

theorem lists_of_foldlM (hdistinct : states.Distinct)
    (h : delta.foldlM (enter states alphabet) (.empty states.size alphabet.size) = .ok rules) :
    Lists states alphabet delta rules := by
  obtain ⟨hshaped, hcomplete⟩ := (enters hdistinct).get?_of_foldlM h
  refine ⟨hshaped, fun s i r hr => ?_, fun entry hentry => ?_⟩
  · obtain ⟨entry, hentry, hplace⟩ := (enters hdistinct).exists_of_foldlM h hr
    exact ⟨entry, hentry, hplace.1⟩
  · obtain ⟨s, i, r, hplace, hr⟩ := hcomplete entry hentry
    exact ⟨s, i, r, hplace.1, hr⟩

theorem Lists.exists_of_rule? (hl : Lists m.states m.tapeAlphabet d.delta m.rules)
    (hr : m.rule? s c = some r) :
    ∃ entry ∈ d.delta, entry.2.1 = c ∧ ∃ i, Encodes m.states m.tapeAlphabet entry s i r := by
  rw [TuringMachine.rule?] at hr
  split at hr
  · rename_i i hi
    obtain ⟨entry, hmem, hentry⟩ := hl.sound s i r hr
    have hc := (list_idxOf?_eq_some_iff m.tapeAlphabet.nodup).1 hi
    rw [(list_idxOf?_eq_some_iff m.tapeAlphabet.nodup).1 hentry.symbol] at hc
    exact ⟨entry, hmem, Option.some.inj hc, i, hentry⟩
  · cases hr

theorem Lists.map_rule?_of_mem (hl : Lists m.states m.tapeAlphabet d.delta m.rules)
    (hdistinct : m.states.Distinct) (hmem : entry ∈ d.delta) (hs : m.states.id? entry.1 = some s) :
    (m.rule? s entry.2.1).map m.action = some entry.2.2 := by
  obtain ⟨s', i, r, hr, hget⟩ := hl.complete entry hmem
  obtain rfl := Option.some.inj (hs.symm.trans hr.state)
  have hrule : m.rule? s entry.2.1 = some r := by
    rw [TuringMachine.rule?, hr.symbol]
    exact hget
  rw [hrule, Option.map_some, TuringMachine.action, StateTable.name_of_id? hdistinct hr.next,
    ← hr.write, ← hr.direction]

theorem Lists.rule_action (hl : Lists m.states m.tapeAlphabet d.delta m.rules)
    (hdistinct : m.states.Distinct) {state : String} (hs : m.states.id? state = some s) (c : Char) :
    (m.rule? s c).map m.action = d.action? state c := by
  rw [action?]
  cases hfind : d.delta.find? fun entry => entry.1 == state && entry.2.1 == c with
  | some entry =>
    have hentry := List.find?_some hfind
    rw [Bool.and_eq_true, beq_iff_eq, beq_iff_eq] at hentry
    obtain ⟨rfl, rfl⟩ := hentry
    exact hl.map_rule?_of_mem hdistinct (List.mem_of_find?_eq_some hfind) hs
  | none =>
    rw [Option.map_none, Option.map_eq_none_iff, Option.eq_none_iff_forall_ne_some]
    intro r hr
    obtain ⟨entry, hmem, hsymbol, i, hentry⟩ := hl.exists_of_rule? hr
    have hstate : entry.1 = state := StateTable.eq_of_id? hdistinct hentry.state hs
    have hnot := List.find?_eq_none.1 hfind entry hmem
    rw [hstate, hsymbol, beq_self_eq_true, beq_self_eq_true] at hnot
    exact hnot rfl

structure Builds (d : Definition) (m : TuringMachine) : Prop where
  states : Declaration.states d.states = .ok m.states
  input : Declaration.alphabet d.inputAlphabet "input_alphabet" = .ok m.inputAlphabet
  blank_not_mem : blankSymbol ∉ m.inputAlphabet
  tape : tapeAlphabet d.inputAlphabet d.tapeAlphabetExtra = .ok m.tapeAlphabet
  start : m.states.id? d.startState = some m.start
  accept : m.states.id? d.acceptState = some m.accept
  reject : m.states.id? d.rejectState = some m.reject
  accept_ne_reject : m.accept ≠ m.reject
  rules : d.delta.foldlM (enter m.states m.tapeAlphabet)
    (.empty m.states.size m.tapeAlphabet.size) = .ok m.rules

theorem build_eq_ok_iff : d.build = .ok m ↔ d.Builds m := by
  constructor
  · intro h
    obtain ⟨states, hstates, h⟩ := bind_eq_ok_iff.1 h
    obtain ⟨input, hinput, h⟩ := bind_eq_ok_iff.1 h
    split at h
    · cases h
    rename_i hblank
    obtain ⟨tape, htape, h⟩ := bind_eq_ok_iff.1 h
    obtain ⟨start, hstart, h⟩ := bind_eq_ok_iff.1 h
    obtain ⟨accept, haccept, h⟩ := bind_eq_ok_iff.1 h
    obtain ⟨reject, hreject, h⟩ := bind_eq_ok_iff.1 h
    split at h
    · cases h
    rename_i hne
    obtain ⟨rules, hrules, h⟩ := bind_eq_ok_iff.1 h
    cases h
    exact ⟨hstates, hinput, hblank, htape, StateTable.resolve_eq_ok_iff.1 hstart,
      StateTable.resolve_eq_ok_iff.1 haccept, StateTable.resolve_eq_ok_iff.1 hreject, hne, hrules⟩
  · intro h
    refine bind_eq_ok_iff.2 ⟨_, h.states, bind_eq_ok_iff.2 ⟨_, h.input, ?_⟩⟩
    rw [if_neg h.blank_not_mem]
    refine bind_eq_ok_iff.2 ⟨_, h.tape,
      bind_eq_ok_iff.2 ⟨_, StateTable.resolve_eq_ok_iff.2 h.start, ?_⟩⟩
    refine bind_eq_ok_iff.2 ⟨_, StateTable.resolve_eq_ok_iff.2 h.accept, ?_⟩
    refine bind_eq_ok_iff.2 ⟨_, StateTable.resolve_eq_ok_iff.2 h.reject, ?_⟩
    rw [if_neg h.accept_ne_reject]
    exact bind_eq_ok_iff.2 ⟨_, h.rules, rfl⟩

theorem Builds.distinct (h : d.Builds m) : m.states.Distinct :=
  (StateTable.states_eq_ok h.states).2

theorem implements_of_build (h : d.build = .ok m) : m.Implements d := by
  have h := build_eq_ok_iff.1 h
  have hl := lists_of_foldlM h.distinct h.rules
  refine ⟨h.distinct, h.start, h.accept, h.reject, h.accept_ne_reject,
    Alphabet.symbols_of_alphabet h.input,
    fun state s c hs => hl.rule_action h.distinct hs c, fun s c r hr => ?_⟩
  obtain ⟨_, _, _, _, hentry⟩ := hl.exists_of_rule? hr
  exact StateTable.lt_size_of_id? h.distinct hentry.next

theorem mem_tapeAlphabet_iff {input extra : List Char}
    (h : tapeAlphabet input extra = .ok alphabet) :
    c ∈ alphabet ↔ c ∈ input ∨ c ∈ extra ∨ c = blankSymbol := by
  obtain ⟨declared, hdeclared, h⟩ := bind_eq_ok_iff.1 h
  cases h
  rw [Alphabet.mem_insert_iff, ← or_assoc, ← List.mem_append]
  change c ∈ declared.symbols ∨ c = blankSymbol ↔ _
  rw [Alphabet.symbols_of_alphabet hdeclared, List.mem_filter, bne_iff_ne, and_or_right,
    and_iff_left (ne_or_eq c blankSymbol)]

theorem write_mem_of_foldlM {empty : TransitionTable Rule}
    (h : delta.foldlM (enter states alphabet) empty = .ok rules) :
    ∀ entry ∈ delta, entry.2.2.write ∈ alphabet := by
  refine foldlM_prefix_induction
    (P := fun done _ => ∀ entry ∈ done, entry.2.2.write ∈ alphabet) ?_ (List.forall_mem_nil _) h
  intro done rules entry entered hdone henter
  obtain ⟨s, i, r, ⟨hr, hwrite⟩, -⟩ := enter_eq_ok_iff.1 henter
  exact List.forall_mem_append.2 ⟨hdone, List.forall_mem_singleton.2 (hr.write ▸ hwrite)⟩

theorem symbols_of_build (h : d.build = .ok m) : m.states.names.toList = d.states ∧
    (∀ c, c ∈ m.tapeAlphabet ↔ c ∈ d.inputAlphabet ∨ c ∈ d.tapeAlphabetExtra ∨ c = blankSymbol) ∧
    ∀ entry ∈ d.delta, entry.2.2.write ∈ m.tapeAlphabet := by
  have h := build_eq_ok_iff.1 h
  exact ⟨(StateTable.states_eq_ok h.states).1, fun c => mem_tapeAlphabet_iff h.tape,
    write_mem_of_foldlM h.rules⟩

theorem build_perm (hperm : d.delta.Perm delta) (h : d.build = .ok m) :
    Definition.build { d with delta := delta } = .ok m := by
  have h := build_eq_ok_iff.1 h
  have hrules := (enters h.distinct).foldlM_perm TransitionTable.shaped_empty hperm h.rules
  exact build_eq_ok_iff.2 ⟨h.states, h.input, h.blank_not_mem, h.tape, h.start, h.accept, h.reject,
    h.accept_ne_reject, hrules⟩

end Turing.Definition

end Acceptors
