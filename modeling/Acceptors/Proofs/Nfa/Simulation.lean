import Std.Data.String.ToNat
import Mathlib.Tactic.Common
import Acceptors.Nfa.Determinize
import Acceptors.Proofs.Dfa.Constructed
import Acceptors.Proofs.Nfa.Exploration
import Acceptors.Proofs.StateTable

/-! The automaton made by the subset construction is always in the state whose set is live. Sets
have distinct numbers and numbers have distinct names, so names tell live sets apart. -/

namespace Acceptors

variable {o o' : Option Nat} {set set' : List Nat} {w v : List Char} {c : Char} {i k : Nat}

namespace Dfa

theorem path_eq_scanl (d : Dfa) (o : Option Nat) (w : List Char) :
    d.path o w = w.scanl d.step o := by
  induction w generalizing o with
  | nil => rfl
  | cons c w ih => rw [path, ih, List.scanl_cons]

theorem trace_spec {d : Dfa} {trace : Trace} (h : d.trace w = .ok trace) :
    (∀ c ∈ w, c ∈ d.alphabet) ∧ trace.states.length = w.length + 1 ∧
      ∀ k ≤ w.length, trace.states[k]? =
      some ((d.run (some d.start) (w.take k)).map d.states.name) := by
  obtain ⟨v, hv, rfl⟩ := map_eq_ok_iff.1 h
  obtain ⟨rfl, hw⟩ := Alphabet.tokenize_eq_ok_iff.1 hv
  refine ⟨hw, ?_, fun k hk => ?_⟩
  · rw [List.length_map, path_eq_scanl, List.length_scanl]
  · rw [List.getElem?_map, path_eq_scanl, List.getElem?_scanl, if_pos hk]
    rfl

end Dfa

namespace Nfa

variable {n : Nfa}

theorem path_eq_scanl (n : Nfa) (set : StateSet) (w : List Char) :
    n.path set w = w.scanl n.step set := by
  induction w generalizing set with
  | nil => rfl
  | cons c w ih => rw [path, ih, List.scanl_cons]

theorem traceOf_spec (n : Nfa) (w : List Char) : (n.traceOf w).stateSets.length = w.length + 1 ∧
    ∀ k ≤ w.length, (n.traceOf w).stateSets[k]? =
    some (n.setNames (n.run n.startSet (w.take k))) := by
  refine ⟨?_, fun k hk => ?_⟩
  · rw [traceOf, List.length_map, path_eq_scanl, List.length_scanl]
  · rw [traceOf, List.getElem?_map, path_eq_scanl, List.getElem?_scanl, if_pos hk]
    rfl

theorem trace_spec {trace : Trace} (h : n.trace w = .ok trace) :
    (∀ c ∈ w, c ∈ n.alphabet) ∧ trace.stateSets.length = w.length + 1 ∧
      ∀ k ≤ w.length, trace.stateSets[k]? = some (n.setNames (n.run n.startSet (w.take k))) := by
  obtain ⟨v, hv, rfl⟩ := map_eq_ok_iff.1 h
  obtain ⟨rfl, hw⟩ := Alphabet.tokenize_eq_ok_iff.1 hv
  exact ⟨hw, n.traceOf_spec v⟩

theorem setNames_inj (h : n.states.Distinct) (hset : set.Sublist n.stateIds)
    (hset' : set'.Sublist n.stateIds) : n.setNames set = n.setNames set' ↔ set = set' := by
  refine ⟨fun heq => ?_, congrArg n.setNames⟩
  have hids : ∀ set : List Nat, set.Sublist n.stateIds →
      (n.setNames set).filterMap n.states.id? = set := by
    intro set hset
    rw [setNames, List.filterMap_map]
    have hid : ∀ s ∈ set, (n.states.id? ∘ n.states.name) s = some s := fun s hs =>
      h.id?_name (List.mem_range.1 (hset.subset hs))
    rw [List.filterMap_congr hid, List.filterMap_some]
  rw [← hids set hset, heq, hids set' hset']

theorem Constructed.distinct (h : n.Constructed) : n.states.Distinct := by
  cases h with
  | definition h => exact (Definition.build_eq_ok_iff.1 h).distinct
  | expression e =>
    have hinjective : Regex.stateName.Injective := fun i j hij =>
      Nat.repr_injective ((String.append_right_inj "q").1 hij)
    rw [StateTable.Distinct, Regex.Expr.toNfa, Array.toList_ofFn, List.nodup_ofFn]
    exact hinjective.comp Fin.val_injective

namespace Subsets

theorem Locates.eq_none_iff {found : Subsets} (h : found.Locates set o)
    (hlive : ∀ s ∈ found.sets, n.Live s) : o = none ↔ set = [] := by
  rcases h with ⟨hset, ho⟩ | ⟨i, ho, hset⟩
  · exact iff_of_true ho hset
  · exact iff_of_false (ho ▸ Option.some_ne_none i) (hlive set (Array.mem_of_getElem? hset)).1

theorem Locates.inj {found : Subsets} (h : found.Locates set o) (h' : found.Locates set' o')
    (hlive : ∀ s ∈ found.sets, n.Live s) (hindexed : found.Indexed) : o = o' ↔ set = set' := by
  constructor
  · rintro rfl
    rcases h with ⟨hset, ho⟩ | ⟨i, ho, hset⟩
    · rw [hset, (h'.eq_none_iff hlive).1 ho]
    · rcases h' with ⟨_, ho'⟩ | ⟨j, ho', hset'⟩
      · cases ho.symm.trans ho'
      · cases ho.symm.trans ho'
        exact Option.some.inj (hset.symm.trans hset')
  · rintro rfl
    rcases h with ⟨hset, ho⟩ | ⟨i, ho, hset⟩
    · rw [ho, (h'.eq_none_iff hlive).2 hset]
    · rcases h' with ⟨hnil, _⟩ | ⟨j, ho', hset'⟩
      · exact absurd hnil (hlive set (Array.mem_of_getElem? hset)).1
      · rw [← Array.getElem?_toList] at hset hset'
        rw [ho, ho', ← (hindexed.getElem?_iff set i).2 hset, (hindexed.getElem?_iff set j).2 hset']

end Subsets

theorem locates_step (h : n.WellFormed) (hset : n.subsets.1.Locates set o) (hc : c ∈ n.alphabet) :
    n.subsets.1.Locates (n.step set c) (n.toDfa.step o c) := by
  rcases hset with ⟨rfl, rfl⟩ | ⟨i, rfl, hset⟩
  · exact .inl ⟨n.step_empty c, rfl⟩
  · obtain ⟨k, hk⟩ := List.mem_iff_getElem?.1 hc
    have hi : i < n.subsets.2.size := by
      rw [size_rows_subsets h]
      exact (Array.getElem?_eq_some_iff.1 hset).1
    have hrow := Array.getElem?_eq_getElem hi
    generalize n.subsets.2[i] = row at hrow
    obtain ⟨set', hset', hlocates⟩ := (explored_subsets h).row_spec i row hrow
    obtain rfl := Option.some.inj (hset.symm.trans hset')
    obtain ⟨hlt, rfl⟩ := List.getElem?_eq_some_iff.1 hk
    have hlt' : k < row.length := hlocates.length_eq ▸ hlt
    have hcolumn : n.toDfa.column? n.alphabet.symbols[k] = some k := Dfa.column?_eq_some_iff.2 hk
    have hnext : n.toDfa.step (some i) n.alphabet.symbols[k] = row[k] := by
      rw [Dfa.step_some, Dfa.next?, hcolumn]
      dsimp only
      rw [get?_table_toDfa, hrow, Option.bind_some, List.getElem?_eq_getElem hlt', Option.join_some]
    rw [hnext]
    exact hlocates.get hlt hlt'

theorem locates_run (h : n.WellFormed) (hset : n.subsets.1.Locates set o)
    (hw : ∀ c ∈ w, c ∈ n.alphabet) :
    n.subsets.1.Locates (n.run set w) (n.toDfa.run o w) := by
  induction w generalizing set o with
  | nil => exact hset
  | cons c w ih =>
    obtain ⟨hc, hw⟩ := List.forall_mem_cons.1 hw
    exact ih (locates_step h hset hc) hw

theorem locates_startSet (h : n.WellFormed) : n.subsets.1.Locates n.startSet (some n.toDfa.start) :=
  .inr ⟨0, rfl, (explored_subsets h).start⟩

theorem isAccepting_toDfa (hset : n.subsets.1.Locates set o) :
    n.toDfa.isAccepting o = n.isAccepting set := by
  rcases hset with ⟨rfl, rfl⟩ | ⟨i, rfl, hset⟩
  · rfl
  · rw [Dfa.isAccepting, toDfa, Array.getD_eq_getD_getElem?, Array.getElem?_map, hset]
    rfl

theorem recognizes_toDfa (h : n.WellFormed) (hw : ∀ c ∈ w, c ∈ n.alphabet) :
    n.toDfa.recognizes w = n.recognizes w :=
  isAccepting_toDfa (locates_run h (locates_startSet h) hw)

theorem accepts_toDfa (h : n.WellFormed) (w : List Char) : n.toDfa.accepts w = n.accepts w := by
  rw [Dfa.accepts_eq_map, accepts_eq_map]
  change Except.map _ (n.alphabet.tokenize w) = _
  cases hv : n.alphabet.tokenize w with
  | error e => rfl
  | ok v =>
    obtain ⟨rfl, hw⟩ := Alphabet.tokenize_eq_ok_iff.1 hv
    exact congrArg Except.ok (recognizes_toDfa h hw)

theorem exists_run_toDfa (h : n.WellFormed) (hi : i < n.toDfa.states.size) :
    ∃ w, (∀ c ∈ w, c ∈ n.alphabet) ∧ n.toDfa.run (some n.toDfa.start) w = some i := by
  have hbounded := bounded_subsets h
  rw [size_toDfa] at hi
  have hset := Array.getElem?_eq_getElem hi
  obtain ⟨_, w, hw, hrun⟩ := hbounded.live _ (Array.mem_of_getElem? hset)
  have hlocates := locates_run h (locates_startSet h) hw
  rw [hrun] at hlocates
  exact ⟨w, hw, (hlocates.inj (.inr ⟨i, rfl, hset⟩) hbounded.live hbounded.explored.indexed).2 rfl⟩

theorem name_eq_iff (h : n.Constructed) (hv : ∀ c ∈ v, c ∈ n.alphabet)
    (hw : ∀ c ∈ w, c ∈ n.alphabet) :
    (n.toDfa.run (some n.toDfa.start) v).map n.toDfa.states.name =
        (n.toDfa.run (some n.toDfa.start) w).map n.toDfa.states.name ↔
      n.setNames (n.run n.startSet v) = n.setNames (n.run n.startSet w) := by
  have hwf := h.wellFormed
  have hbounded := bounded_subsets hwf
  have hlv := locates_run hwf (locates_startSet hwf) hv
  have hlw := locates_run hwf (locates_startSet hwf) hw
  have hstart : n.startSet.Sublist n.stateIds := n.closure_sublist [n.start]
  rw [setNames_inj h.distinct (run_sublist hstart v) (run_sublist hstart w),
    ← hlv.inj hlw hbounded.live hbounded.explored.indexed]
  refine ⟨fun heq => ?_, congrArg (Option.map n.toDfa.states.name)⟩
  have hdistinct : n.toDfa.states.Distinct := StateTable.distinct_generate _
  generalize n.toDfa.run (some n.toDfa.start) v = o at heq hlv
  generalize n.toDfa.run (some n.toDfa.start) w = o' at heq hlw
  cases o with
  | none => exact (Option.map_eq_none_iff.1 heq.symm).symm
  | some i =>
    cases o' with
    | none => cases heq
    | some j =>
      have hi : i < n.toDfa.states.size := n.size_toDfa ▸ hlv.lt_size
      have hj : j < n.toDfa.states.size := n.size_toDfa ▸ hlw.lt_size
      exact congrArg some ((hdistinct.name_inj hi hj).1 (Option.some.inj heq))

section Traces

variable {states states' : Dfa.Trace} {sets sets' : Trace} {j : Nat}

theorem dead_entry_iff (h : n.WellFormed) (hstates : n.toDfa.trace w = .ok states)
    (hsets : n.trace w = .ok sets) (k : Nat) :
    states.states[k]? = some none ↔ sets.stateSets[k]? = some [] := by
  obtain ⟨hw, hlength, hstate⟩ := Dfa.trace_spec hstates
  obtain ⟨-, hlength', hset⟩ := trace_spec hsets
  by_cases hk : k ≤ w.length
  · have hprefix : ∀ c ∈ w.take k, c ∈ n.alphabet := fun c hc => hw c (List.mem_of_mem_take hc)
    have hlocates := locates_run h (locates_startSet h) hprefix
    rw [hstate k hk, hset k hk, Option.some_inj, Option.some_inj, Option.map_eq_none_iff,
      hlocates.eq_none_iff (bounded_subsets h).live, setNames, List.map_eq_nil_iff]
  · rw [List.getElem?_eq_none (by omega), List.getElem?_eq_none (by omega)]
    exact iff_of_false (Option.some_ne_none _).symm (Option.some_ne_none _).symm

theorem same_entry_iff (h : n.Constructed) (hstates : n.toDfa.trace v = .ok states)
    (hsets : n.trace v = .ok sets) (hstates' : n.toDfa.trace w = .ok states')
    (hsets' : n.trace w = .ok sets') (hi : i ≤ v.length) (hj : j ≤ w.length) :
    states.states[i]? = states'.states[j]? ↔ sets.stateSets[i]? = sets'.stateSets[j]? := by
  obtain ⟨hv, -, hstate⟩ := Dfa.trace_spec hstates
  obtain ⟨hw, -, hstate'⟩ := Dfa.trace_spec hstates'
  obtain ⟨-, -, hset⟩ := trace_spec hsets
  obtain ⟨-, -, hset'⟩ := trace_spec hsets'
  rw [hstate i hi, hstate' j hj, hset i hi, hset' j hj, Option.some_inj, Option.some_inj]
  exact name_eq_iff h (fun c hc => hv c (List.mem_of_mem_take hc))
    fun c hc => hw c (List.mem_of_mem_take hc)

end Traces

/-- The deterministic automaton answers as the other one does. Its traces show a state where the
other's show a live set, the dead state for the empty set, and the same state for the same set only.
It is found without the fuel of the search running out, and has no state that no word leads to. -/
theorem toDfa_simulates (h : n.Constructed) :
    (∀ w, n.toDfa.accepts w = n.accepts w) ∧
    (∀ w, (∀ c ∈ w, c ∈ n.alphabet) → ∃ states sets, n.toDfa.trace w = .ok states ∧
      n.trace w = .ok sets ∧
      states.states.length = w.length + 1 ∧ sets.stateSets.length = w.length + 1 ∧
      ∀ k : Nat, states.states[k]? = some none ↔ sets.stateSets[k]? = some []) ∧
    (∀ v w states sets states' sets', n.toDfa.trace v = .ok states → n.trace v = .ok sets →
      n.toDfa.trace w = .ok states' → n.trace w = .ok sets' → ∀ i ≤ v.length, ∀ j ≤ w.length,
        (states.states[i]? = states'.states[j]? ↔ sets.stateSets[i]? = sets'.stateSets[j]?)) ∧
    (n.toDfa.states.size < 2 ^ n.states.size ∧ n.subsets.1.sets[n.subsets.2.size]? = none ∧
      ∀ fuel ≥ 2 ^ n.states.size,
        Subsets.explore n fuel (Subsets.empty.locate n.startSet).1 #[] = n.subsets) ∧
    (∀ i < n.toDfa.states.size, ∃ w, (∀ c ∈ w, c ∈ n.alphabet) ∧
      n.toDfa.run (some n.toDfa.start) w = some i) ∧
    n.toDfa.states.names.toList.Nodup := by
  have hwf := h.wellFormed
  refine ⟨accepts_toDfa hwf, fun w hw => ?_, ?_, ⟨?_, ?_, fun fuel hfuel => ?_⟩,
    fun i => exists_run_toDfa hwf, StateTable.distinct_generate _⟩
  · have htokens : n.alphabet.tokenize w = .ok w := Alphabet.tokenize_eq_ok_iff.2 ⟨rfl, hw⟩
    obtain ⟨states, hstates⟩ : ∃ states, n.toDfa.trace w = .ok states :=
      ⟨_, map_eq_ok_iff.2 ⟨w, htokens, rfl⟩⟩
    obtain ⟨sets, hsets⟩ : ∃ sets, n.trace w = .ok sets := ⟨_, map_eq_ok_iff.2 ⟨w, htokens, rfl⟩⟩
    exact ⟨states, sets, hstates, hsets, (Dfa.trace_spec hstates).2.1, (trace_spec hsets).2.1,
      dead_entry_iff hwf hstates hsets⟩
  · intro v w states sets states' sets' hstates hsets hstates' hsets' i hi j hj
    exact same_entry_iff h hstates hsets hstates' hsets' hi hj
  · rw [size_toDfa]
    exact (bounded_subsets hwf).size_lt
  · exact Array.getElem?_eq_none (size_rows_subsets hwf).ge
  · exact Subsets.explore_of_le hfuel (size_rows_subsets hwf).ge

theorem toDfa_simulates_same_print :
    let d : Definition := ⟨["a", "b", "a,b"], ['x'], "a", ["a,b"],
      [("a", none, ["b"]), ("b", none, ["a"]), ("b", some 'x', ["a,b", "a,b"])]⟩
    ∃ n states, d.build = .ok n ∧ n.toDfa.accepts ['x', 'y'] = n.accepts ['x', 'y'] ∧
      n.toDfa.trace ['x'] = .ok states ∧ states.states[0]? ≠ states.states[1]? ∧
      n.toDfa.states.names.size = 2 ∧ n.toDfa.states.names.toList.Nodup := by
  intro d
  let n : Nfa := ⟨⟨#["a", "b", "a,b"]⟩, ⟨['x'], by decide⟩, 0, #[false, false, true],
    #[[⟨none, 1⟩], [⟨none, 0⟩, ⟨some 'x', 2⟩], []]⟩
  have hd : d.build = .ok n := by decide +kernel
  obtain ⟨haccepts, htraces, hsame, -, -, hnames⟩ := toDfa_simulates (.definition hd)
  obtain ⟨states, sets, hstates, hsets, -⟩ := htraces ['x'] fun _ hc => hc
  refine ⟨n, states, hd, haccepts ['x', 'y'], hstates, ?_, by decide +kernel, hnames⟩
  rw [Ne, hsame _ _ _ _ _ _ hstates hsets hstates hsets 0 (Nat.zero_le _) 1 (Nat.le_refl _)]
  have hlive : n.trace ['x'] = .ok ⟨['x'], [["a", "b"], ["a,b"]], true⟩ := by decide +kernel
  cases hsets.symm.trans hlive
  decide

end Nfa

end Acceptors
