import Mathlib.Tactic.Common
import Acceptors.Proofs.Nfa.Simulation

/-! Paths along the transitions that a definition gives, from one declared name to another. The
traces of the automaton that the definition describes list the states at the ends of such paths. -/

namespace Acceptors.Nfa

variable {d : Definition} {n : Nfa} {s t : Nat} {a b : String} {label : Option Char}
    {v w : List Char} {c : Char} {names : List String}

def Definition.Leads (d : Definition) (a : String) (label : Option Char) (b : String) : Prop :=
  ∃ targets, (a, label, targets) ∈ d.delta ∧ b ∈ targets

/-- The numbers in an automaton stand for the names in its definition. -/
structure Implements (n : Nfa) (d : Definition) : Prop where
  names : n.states.names.toList = d.states
  distinct : n.states.Distinct
  input : n.alphabet.symbols = d.inputAlphabet
  start : n.states.id? d.startState = some n.start
  accepting : ∀ s, n.accepting.getD s false = true ↔ ∃ a ∈ d.acceptStates, n.states.id? a = some s
  leads : ∀ s label t, n.Moves s label t → d.Leads (n.states.name s) label (n.states.name t)
  moves : ∀ a label b, d.Leads a label b →
    ∃ s t, n.states.id? a = some s ∧ n.states.id? b = some t ∧ n.Moves s label t

namespace Definition

theorem edgesOf_eq_ok {states : StateTable} {alphabet : Alphabet} {targets : List String}
    {edges : List (Nat × Edge)} (h : edgesOf states alphabet (a, label, targets) = .ok edges) :
    ∃ s, states.id? a = some s ∧
      (∀ e ∈ edges, e.1 = s ∧ e.2.label = label ∧ ∃ b ∈ targets, states.id? b = some e.2.target) ∧
      ∀ b ∈ targets, ∃ t, states.id? b = some t ∧ (s, ⟨label, t⟩) ∈ edges := by
  rw [edgesOf] at h
  obtain ⟨s, hs, h⟩ := bind_eq_ok_iff.1 h
  obtain ⟨-, -, h⟩ := bind_eq_ok_iff.1 h
  refine ⟨s, StateTable.resolve_eq_ok_iff.1 hs, fun e he => ?_, fun b hb => ?_⟩
  · obtain ⟨b, hb, h⟩ := exists_of_mem_mapM h he
    obtain ⟨t, ht, h⟩ := bind_eq_ok_iff.1 h
    cases h
    exact ⟨rfl, rfl, b, hb, StateTable.resolve_eq_ok_iff.1 ht⟩
  · obtain ⟨e, he, h⟩ := exists_of_mapM_of_mem h hb
    obtain ⟨t, ht, h⟩ := bind_eq_ok_iff.1 h
    cases h
    exact ⟨t, StateTable.resolve_eq_ok_iff.1 ht, he⟩

theorem implements_of_build (h : d.build = .ok n) : n.Implements d := by
  have h := build_eq_ok_iff.1 h
  obtain ⟨edges, hedges, hrows⟩ := h.rows
  obtain ⟨hnames, hdistinct⟩ := StateTable.states_eq_ok h.states
  refine ⟨hnames, hdistinct, Alphabet.symbols_of_alphabet h.alphabet, h.start,
    (StateTable.marked_eq_ok h.accepting).2, ?_, ?_⟩
  · intro s label t hmoves
    rw [Moves, Nfa.edges, hrows, mem_rowsOf_iff] at hmoves
    obtain ⟨row, hrow, hmem⟩ := List.mem_flatten.1 hmoves.2
    obtain ⟨⟨a, label', targets⟩, hentry, hrow⟩ := exists_of_mem_mapM hedges hrow
    obtain ⟨s', hs, hsound, -⟩ := edgesOf_eq_ok hrow
    obtain ⟨rfl, rfl, b, hb, ht⟩ := hsound _ hmem
    refine ⟨targets, ?_, ?_⟩
    · rw [StateTable.name_of_id? hdistinct hs]
      exact hentry
    · rw [StateTable.name_of_id? hdistinct ht]
      exact hb
  · intro a label b hleads
    obtain ⟨targets, hentry, hb⟩ := hleads
    obtain ⟨row, hmem, hrow⟩ := exists_of_mapM_of_mem hedges hentry
    obtain ⟨s, hs, -, hcomplete⟩ := edgesOf_eq_ok hrow
    obtain ⟨t, ht, hedge⟩ := hcomplete b hb
    refine ⟨s, t, hs, ht, ?_⟩
    rw [Moves, Nfa.edges, hrows, mem_rowsOf_iff]
    exact ⟨StateTable.lt_size_of_id? hdistinct hs, List.mem_flatten.2 ⟨row, hmem, hedge⟩⟩

end Definition

namespace Implements

theorem mem_alphabet_iff (h : n.Implements d) : c ∈ n.alphabet ↔ c ∈ d.inputAlphabet := by
  rw [← h.input]
  exact Iff.rfl

theorem declared_iff (h : n.Implements d) : a ∈ d.states ↔ ∃ s, n.states.id? a = some s := by
  rw [← h.names, List.mem_iff_getElem?]
  exact exists_congr fun s => by rw [h.distinct.id?_eq_some_iff, Array.getElem?_toList]

theorem path_of_named (h : n.Implements d) (hs : n.states.id? a = some s) (p : Path d.Leads a w b) :
    ∃ t, n.states.id? b = some t ∧ Path n.Moves s w t := by
  induction p generalizing s with
  | nil => exact ⟨s, hs, .nil s⟩
  | cons hleads _ ih =>
    obtain ⟨s', r, hs', hr, hmoves⟩ := h.moves _ _ _ hleads
    obtain ⟨t, ht, hp⟩ := ih hr
    have hsame : s' = s := Option.some.inj (hs'.symm.trans hs)
    exact ⟨t, ht, .cons (hsame ▸ hmoves) hp⟩

theorem named_of_path (h : n.Implements d) (p : Path n.Moves s w t) :
    Path d.Leads (n.states.name s) w (n.states.name t) := p.map n.states.name h.leads

theorem mem_setNames_iff (h : n.Implements d) {set : StateSet} {starts : Nat → Prop}
    (hset : ∀ t, t ∈ set ↔ ∃ s, starts s ∧ s < n.states.size ∧ Path n.Moves s w t) :
    b ∈ n.setNames set ↔
      ∃ a s, n.states.id? a = some s ∧ starts s ∧ Path d.Leads a w b := by
  rw [setNames, List.mem_map]
  constructor
  · intro hb
    obtain ⟨t, ht, hname⟩ := hb
    obtain ⟨s, hs, hlt, hp⟩ := (hset t).1 ht
    exact ⟨n.states.name s, s, h.distinct.id?_name hlt, hs, hname ▸ h.named_of_path hp⟩
  · intro hb
    obtain ⟨a, s, hid, hs, hp⟩ := hb
    obtain ⟨t, ht, hp⟩ := h.path_of_named hid hp
    have hlt := StateTable.lt_size_of_id? h.distinct hid
    exact ⟨t, (hset t).2 ⟨s, hs, hlt, hp⟩, StateTable.name_of_id? h.distinct ht⟩

theorem setNames_sublist (h : n.Implements d) {set : StateSet} (hset : set.Sublist n.stateIds) :
    (n.setNames set).Sublist d.states := by
  have hall : n.setNames n.stateIds = d.states := by
    rw [← h.names, setNames, stateIds]
    refine List.ext_getElem (by simp [StateTable.size]) fun i hi hi' => ?_
    simp [StateTable.name, Array.getD_eq_getD_getElem?,
      Array.getElem?_eq_getElem (Array.length_toList ▸ hi')]
  exact hall ▸ hset.map n.states.name

theorem nodup_states (h : n.Implements d) : d.states.Nodup := h.names ▸ h.distinct

theorem mem_setNames_run_iff (h : n.Implements d) (hwf : n.WellFormed) :
    b ∈ n.setNames (n.run n.startSet w) ↔ Path d.Leads d.startState w b := by
  have hset : ∀ t, t ∈ n.run n.startSet w ↔
      ∃ s, s = n.start ∧ s < n.states.size ∧ Path n.Moves s w t := by
    intro t
    rw [mem_run_startSet_iff hwf]
    constructor
    · intro hp
      exact ⟨n.start, rfl, hwf.start_lt, hp⟩
    · intro hp
      obtain ⟨s, rfl, -, hp⟩ := hp
      exact hp
  rw [h.mem_setNames_iff hset]
  constructor
  · intro hb
    obtain ⟨a, s, hid, rfl, hp⟩ := hb
    rw [← StateTable.name_of_id? h.distinct hid, StateTable.name_of_id? h.distinct h.start] at hp
    exact hp
  · intro hp
    exact ⟨d.startState, n.start, h.start, rfl, hp⟩

theorem mem_epsilonClosure_iff (h : n.Implements d) (hwf : n.WellFormed) :
    b ∈ n.epsilonClosure names ↔ ∃ a ∈ names, a ∈ d.states ∧ Path d.Leads a [] b := by
  have hset : ∀ t, t ∈ n.closure (names.filterMap n.states.id?) ↔
      ∃ s, s ∈ names.filterMap n.states.id? ∧ s < n.states.size ∧ Path n.Moves s [] t :=
    fun t => mem_closure_iff hwf
  rw [epsilonClosure, h.mem_setNames_iff hset]
  constructor
  · intro hb
    obtain ⟨a, s, hid, hs, hp⟩ := hb
    obtain ⟨a', ha', hid'⟩ := List.mem_filterMap.1 hs
    have hsame : a' = a := StateTable.eq_of_id? h.distinct hid' hid
    exact ⟨a, hsame ▸ ha', h.declared_iff.2 ⟨s, hid⟩, hp⟩
  · intro hb
    obtain ⟨a, ha, hdeclared, hp⟩ := hb
    obtain ⟨s, hid⟩ := h.declared_iff.1 hdeclared
    exact ⟨a, s, hid, List.mem_filterMap.2 ⟨a, ha, hid⟩, hp⟩

theorem recognizes_iff (h : n.Implements d) (hwf : n.WellFormed) :
    n.recognizes w = true ↔ ∃ a ∈ d.acceptStates, Path d.Leads d.startState w a := by
  rw [Nfa.recognizes_iff hwf]
  constructor
  · intro hs
    obtain ⟨s, hp, haccepting⟩ := hs
    obtain ⟨a, ha, hid⟩ := (h.accepting s).1 haccepting
    have hp := h.named_of_path hp
    rw [StateTable.name_of_id? h.distinct h.start, StateTable.name_of_id? h.distinct hid] at hp
    exact ⟨a, ha, hp⟩
  · intro ha
    obtain ⟨a, ha, hp⟩ := ha
    obtain ⟨s, hid, hp⟩ := h.path_of_named h.start hp
    exact ⟨s, hp, (h.accepting s).2 ⟨a, ha, hid⟩⟩

end Implements

/-- The states listed after each prefix, the answer and the closures are those that paths of the
definition call for. Of the symbols that the definition does not know the first one is reported. -/
theorem trace_lists_ends_of_paths (hd : d.build = .ok n) :
    (∀ w, (∀ c ∈ w, c ∈ d.inputAlphabet) → ∃ trace accepted, n.trace w = .ok trace ∧
      n.accepts w = .ok accepted ∧ trace.stateSets.length = w.length + 1 ∧
      (∀ k ≤ w.length, ∃ names, trace.stateSets[k]? = some names ∧
        names.Sublist d.states ∧ names.Nodup ∧
        ∀ b, b ∈ names ↔ Path d.Leads d.startState (w.take k) b) ∧
      (accepted = true ↔ ∃ a ∈ d.acceptStates, Path d.Leads d.startState w a)) ∧
    (∀ names, (n.epsilonClosure names).Sublist d.states ∧ (n.epsilonClosure names).Nodup ∧
      ∀ b, b ∈ n.epsilonClosure names ↔ ∃ a ∈ names, a ∈ d.states ∧ Path d.Leads a [] b) ∧
    ∀ v c w, (∀ x ∈ v, x ∈ d.inputAlphabet) → c ∉ d.inputAlphabet →
      n.trace (v ++ c :: w) = .error (.unknownSymbol c v.length) ∧
        n.accepts (v ++ c :: w) = .error (.unknownSymbol c v.length) := by
  have h := Definition.implements_of_build hd
  have hwf := Definition.wellFormed_of_build hd
  refine ⟨fun w hw => ?_, fun names => ?_, fun v c w hv hc => ?_⟩
  · have htokens : n.alphabet.tokenize w = .ok w :=
      Alphabet.tokenize_eq_ok_iff.2 ⟨rfl, fun c hc => h.mem_alphabet_iff.2 (hw c hc)⟩
    have htrace : n.trace w = .ok (n.traceOf w) := by rw [trace, htokens]; rfl
    have haccepts : n.accepts w = .ok (n.recognizes w) := by rw [accepts_eq_map, htokens]; rfl
    obtain ⟨-, hlength, hentry⟩ := trace_spec htrace
    refine ⟨_, _, htrace, haccepts, hlength, fun k hk => ?_, h.recognizes_iff hwf⟩
    have hsublist := h.setNames_sublist (run_sublist (n.closure_sublist [n.start]) (w.take k))
    exact ⟨_, hentry k hk, hsublist, hsublist.nodup h.nodup_states,
      fun b => h.mem_setNames_run_iff hwf⟩
  · have hsublist := h.setNames_sublist (n.closure_sublist (names.filterMap n.states.id?))
    exact ⟨hsublist, hsublist.nodup h.nodup_states, fun b => h.mem_epsilonClosure_iff hwf⟩
  · have htokens : n.alphabet.tokenize (v ++ c :: w) = .error (.unknownSymbol c v.length) :=
      Alphabet.tokenize_foreign (fun x hx => h.mem_alphabet_iff.2 (hv x hx))
        (mt h.mem_alphabet_iff.1 hc) w
    exact ⟨by rw [trace, htokens]; rfl, by rw [accepts, htokens]; rfl⟩

theorem trace_lists_ends_of_paths_cycle :
    let d : Definition := ⟨["p", "q", "r", "s"], ['x'], "p", ["r"],
      [("p", none, ["q"]), ("q", none, ["p"]), ("q", some 'x', ["s"]), ("s", none, ["r", "s"])]⟩
    ∃ n, d.build = .ok n ∧ n.accepts ['x'] = .ok true ∧ Path d.Leads "p" ['x'] "r" ∧
      (∃ trace, n.trace ['x'] = .ok trace ∧ trace.stateSets[0]? = some ["p", "q"] ∧
        trace.stateSets[1]? = some ["r", "s"]) ∧
      n.epsilonClosure ["q", "unknown"] = ["p", "q"] ∧ ¬Path d.Leads "q" [] "s" ∧
      n.trace ['x', 'y', 'z'] = .error (.unknownSymbol 'y' 1) := by
  intro d
  let n : Nfa := ⟨⟨#["p", "q", "r", "s"]⟩, ⟨['x'], by decide⟩, 0, #[false, false, true, false],
    #[[⟨none, 1⟩], [⟨none, 0⟩, ⟨some 'x', 3⟩], [], [⟨none, 2⟩, ⟨none, 3⟩]]⟩
  have hd : d.build = .ok n := by decide +kernel
  obtain ⟨htrace, hclosure, hforeign⟩ := trace_lists_ends_of_paths hd
  obtain ⟨trace, accepted, heq, haccepts, -, hentries, -⟩ := htrace ['x'] fun _ hc => hc
  have hlive : n.trace ['x'] = .ok ⟨['x'], [["p", "q"], ["r", "s"]], true⟩ := by decide +kernel
  have hq : n.epsilonClosure ["q", "unknown"] = ["p", "q"] := by decide +kernel
  cases heq.symm.trans hlive
  obtain ⟨names, hnames, -, -, hends⟩ := hentries 1 (Nat.le_refl _)
  cases hnames
  refine ⟨n, hd, by decide +kernel, (hends "r").1 (by decide), ⟨_, heq, rfl, rfl⟩, hq, ?_,
    (hforeign ['x'] 'y' ['z'] (fun _ hc => hc) (by decide)).1⟩
  intro hp
  have hs := ((hclosure ["q", "unknown"]).2.2 "s").2 ⟨"q", by decide, by decide, hp⟩
  rw [hq] at hs
  exact absurd hs (by decide)

end Acceptors.Nfa
