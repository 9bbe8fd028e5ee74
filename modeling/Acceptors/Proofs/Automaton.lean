import Mathlib.Tactic.Common
import Acceptors.Automaton
import Acceptors.Proofs.Dfa.Names
import Acceptors.Proofs.Nfa.Simulation

/-! Records of executions. A record says of the word what the automaton decides of it, and the
states or sets of states that it lists lead to that decision. -/

namespace Acceptors

variable {w : List Char}

namespace Dfa

variable {d : Dfa} {o : Option Nat} {s : Nat} {c : Char}

/-- The entries of a trace, which are names, follow the transitions from the start state on. Without
a transition there is no state from there on. -/
structure Trace.Tells (t : Trace) (d : Dfa) (w : List Char) : Prop where
  input : t.input = w
  length : t.states.length = w.length + 1
  start : t.states[0]? = some (some d.startState)
  next : ∀ k (hk : k < w.length), t.states[k + 1]? =
    t.states[k]?.map fun entry => entry.bind fun name => d.transition? name w[k]
  dead : ∀ j k, j ≤ k → k ≤ w.length → t.states[j]? = some none → t.states[k]? = some none
  accepted : ∃ last, t.states[w.length]? = some last ∧ t.accepted = last.any d.isAcceptState

theorem WellFormed.run_lt (h : d.WellFormed) (hs : d.run (some d.start) w = some s) :
    s < d.states.size :=
  lt_of_mem_reachable (mem_reachable_of_run h (start_mem_reachable h) hs)

theorem transition?_name (hdistinct : d.states.Distinct) (hs : s < d.states.size) (c : Char) :
    d.transition? (d.states.name s) c = (d.next? s c).map d.states.name := by
  simp only [transition?, hdistinct.id?_name hs, Option.bind_eq_bind, Option.bind_some,
    Option.pure_def]
  cases d.next? s c <;> rfl

theorem name_step (hdistinct : d.states.Distinct) (ho : ∀ s, o = some s → s < d.states.size)
    (c : Char) : (d.step o c).map d.states.name =
      (o.map d.states.name).bind fun name => d.transition? name c := by
  cases o with
  | none => rfl
  | some s => exact (transition?_name hdistinct (ho s rfl) c).symm

theorem isAccepting_eq_any (hdistinct : d.states.Distinct)
    (ho : ∀ s, o = some s → s < d.states.size) :
    d.isAccepting o = (o.map d.states.name).any d.isAcceptState := by
  cases o with
  | none => rfl
  | some s =>
    change d.isAccepting (some s) = d.isAccepting (d.states.id? (d.states.name s))
    rw [hdistinct.id?_name (ho s rfl)]

theorem tells_of_trace {t : Trace} (hwf : d.WellFormed) (hdistinct : d.states.Distinct)
    (h : d.trace w = .ok t) : t.Tells d w := by
  obtain ⟨-, hlength, hentry⟩ := trace_spec h
  obtain ⟨v, hv, rfl⟩ := map_eq_ok_iff.1 h
  obtain ⟨rfl, -⟩ := Alphabet.tokenize_eq_ok_iff.1 hv
  have hlt : ∀ k s, d.run (some d.start) (v.take k) = some s → s < d.states.size :=
    fun k s hs => hwf.run_lt hs
  refine ⟨rfl, hlength, hentry 0 (Nat.zero_le _), fun k hk => ?_, fun j k hjk hk hj => ?_, ?_⟩
  · rw [hentry (k + 1) hk, hentry k hk.le, Option.map_some, ← name_step hdistinct (hlt k),
      List.take_succ_eq_append_getElem hk, run_append]
    rfl
  · rw [hentry j (hjk.trans hk), Option.some_inj, Option.map_eq_none_iff] at hj
    obtain ⟨more, rfl⟩ := Nat.exists_eq_add_of_le hjk
    rw [hentry _ hk, List.take_add, run_append, hj, run_none]
    rfl
  · refine ⟨_, hentry v.length (Nat.le_refl _), ?_⟩
    rw [← isAccepting_eq_any hdistinct (hlt v.length), List.take_length]
    rfl

end Dfa

namespace Nfa

variable {n : Nfa}

/-- There is a set of states for every prefix of the word, and the last set decides. -/
structure Trace.Tells (t : Trace) (n : Nfa) (w : List Char) : Prop where
  input : t.input = w
  length : t.stateSets.length = w.length + 1
  accepted : ∃ last, t.stateSets[w.length]? = some last ∧
    (t.accepted = true ↔ ∃ name ∈ last, name ∈ n.acceptStates)

theorem mem_acceptStates_iff (hdistinct : n.states.Distinct) {s : Nat} (hs : s < n.states.size) :
    n.states.name s ∈ n.acceptStates ↔ n.accepting.getD s false = true := by
  rw [acceptStates, List.mem_map]
  constructor
  · intro h
    obtain ⟨s', hs', hname⟩ := h
    obtain ⟨hrange, haccepting⟩ := List.mem_filter.1 hs'
    rwa [(hdistinct.name_inj (List.mem_range.1 hrange) hs).1 hname] at haccepting
  · intro h
    exact ⟨s, List.mem_filter.2 ⟨List.mem_range.2 hs, h⟩, rfl⟩

theorem isAccepting_iff_name (hdistinct : n.states.Distinct) {set : StateSet}
    (hset : set.Sublist n.stateIds) :
    n.isAccepting set = true ↔ ∃ name ∈ n.setNames set, name ∈ n.acceptStates := by
  have hlt : ∀ s ∈ set, s < n.states.size := fun s hs => List.mem_range.1 (hset.subset hs)
  rw [isAccepting, List.any_eq_true, setNames]
  constructor
  · intro h
    obtain ⟨s, hs, haccepting⟩ := h
    exact ⟨_, List.mem_map_of_mem hs, (mem_acceptStates_iff hdistinct (hlt s hs)).2 haccepting⟩
  · intro h
    obtain ⟨name, hname, haccepting⟩ := h
    obtain ⟨s, hs, rfl⟩ := List.mem_map.1 hname
    exact ⟨s, hs, (mem_acceptStates_iff hdistinct (hlt s hs)).1 haccepting⟩

theorem tells_traceOf (hdistinct : n.states.Distinct) (w : List Char) :
    (n.traceOf w).Tells n w := by
  obtain ⟨hlength, hentry⟩ := n.traceOf_spec w
  refine ⟨rfl, hlength, _, hentry w.length (Nat.le_refl _), ?_⟩
  rw [List.take_length]
  exact isAccepting_iff_name hdistinct (run_sublist (n.closure_sublist [n.start]) w)

theorem tells_of_trace {t : Trace} (hdistinct : n.states.Distinct) (h : n.trace w = .ok t) :
    t.Tells n w := by
  obtain ⟨v, hv, rfl⟩ := map_eq_ok_iff.1 h
  obtain ⟨rfl, -⟩ := Alphabet.tokenize_eq_ok_iff.1 hv
  exact tells_traceOf hdistinct v

end Nfa

namespace Automaton

variable {a : Automaton} {record : Record}

inductive Constructed : Automaton → Prop
  | dfa {d : Dfa} (h : d.Constructed) : Constructed (.dfa d)
  | nfa {n : Nfa} (h : n.Constructed) : Constructed (.nfa n)
  | regex (bindings : List (String × Regex.Expr)) (e : Regex.Expr) :
    Constructed (.regex (.ofExpr bindings e))
  | cfg {definition : Grammar.Definition} {g : Grammar} (h : definition.build = .ok g)
    (treeDepth chartCells : Nat) : Constructed (.cfg (g.withLimits treeDepth chartCells))
  | tm {definition : Turing.Definition} {m : TuringMachine} (h : definition.build = .ok m) :
    Constructed (.tm m)

theorem accepted_execute (a : Automaton) (w : List Char) (s : Settings) :
    (a.execute w s).map Record.accepted = a.accepts w s := by
  cases a with
  | dfa d =>
    rw [execute, accepts, Dfa.trace, Dfa.accepts_eq_map]
    cases d.alphabet.tokenize w <;> rfl
  | nfa n =>
    rw [execute, accepts, Nfa.trace, Nfa.accepts_eq_map]
    cases n.alphabet.tokenize w <;> rfl
  | regex r => exact congrArg Except.ok (r.accepts_eq w).symm
  | cfg g =>
    rw [execute, accepts, Grammar.trace, Grammar.accepts]
    cases g.parseTree w <;> rfl
  | tm m =>
    rw [execute, accepts, TuringMachine.accepts]
    cases m.run w s.maxSteps <;> rfl

/-- An execution fails exactly as the decision does, and otherwise ends with it. What the record of
a finite automaton lists leads from the start state to this decision, one entry for each prefix of
the word. -/
theorem execute_agrees_with_accepts (h : a.Constructed) (w : List Char) (s : Settings) :
    (a.execute w s).map Record.accepted = a.accepts w s ∧
    ∀ record, a.execute w s = .ok record → record.formalism = a.formalism ∧
      (∀ d, a = .dfa d → ∃ t, record = .dfa t ∧ t.Tells d w) ∧
      (∀ n, a = .nfa n → ∃ t, record = .nfa t ∧ t.Tells n w) ∧
      ∀ r, a = .regex r → ∃ t, record = .regex t ∧ t.Tells r.nfa w := by
  refine ⟨accepted_execute a w s, fun record hrecord => ?_⟩
  cases h with
  | dfa hd =>
    obtain ⟨t, ht, rfl⟩ := map_eq_ok_iff.1 hrecord
    have htells := Dfa.tells_of_trace hd.wellFormed hd.distinct (mapError_eq_ok_iff.1 ht)
    refine ⟨rfl, ?_, nofun, nofun⟩
    rintro _ ⟨⟩
    exact ⟨t, rfl, htells⟩
  | nfa hn =>
    obtain ⟨t, ht, rfl⟩ := map_eq_ok_iff.1 hrecord
    have htells := Nfa.tells_of_trace hn.distinct (mapError_eq_ok_iff.1 ht)
    refine ⟨rfl, nofun, ?_, nofun⟩
    rintro _ ⟨⟩
    exact ⟨t, rfl, htells⟩
  | regex bindings e =>
    cases hrecord
    refine ⟨rfl, nofun, nofun, ?_⟩
    rintro _ ⟨⟩
    exact ⟨_, rfl, Nfa.tells_traceOf (Nfa.Constructed.expression e).distinct w⟩
  | cfg hg treeDepth chartCells =>
    obtain ⟨t, -, rfl⟩ := map_eq_ok_iff.1 hrecord
    exact ⟨rfl, nofun, nofun, nofun⟩
  | tm hm =>
    obtain ⟨l, -, rfl⟩ := map_eq_ok_iff.1 hrecord
    exact ⟨rfl, nofun, nofun, nofun⟩

theorem execute_agrees_with_accepts_dead :
    let definition : Dfa.Definition := ⟨["p", "q"], ['a'], "p", ["q"], [("p", 'a', "q")]⟩
    ∃ d t, definition.build false = .ok d ∧ (dfa d).Constructed ∧
      (dfa d).execute ['a', 'a', 'a'] .default = .ok (.dfa t) ∧ t.Tells d ['a', 'a', 'a'] ∧
      t.states = [some "p", some "q", none, none] ∧
      ((dfa d).execute ['a', 'b'] .default).map Record.accepted =
      (dfa d).accepts ['a', 'b'] .default ∧
      (dfa d).accepts ['a', 'b'] .default = .error (.domain (.unknownSymbol 'b' 1)) := by
  intro definition
  let d : Dfa := ⟨⟨#["p", "q"]⟩, ⟨['a'], by decide⟩, 0, #[false, true], ⟨#[#[some 1], #[none]]⟩⟩
  let t : Dfa.Trace := ⟨['a', 'a', 'a'], [some "p", some "q", none, none], false⟩
  have hd : definition.build false = .ok d := by decide +kernel
  have htrace : d.trace ['a', 'a', 'a'] = .ok t := by decide +kernel
  have hconstructed : (dfa d).Constructed := .dfa (.definition hd)
  have hrecord : (dfa d).execute ['a', 'a', 'a'] .default = .ok (.dfa t) := by
    rw [execute, htrace]
    rfl
  obtain ⟨-, hrecords⟩ := execute_agrees_with_accepts hconstructed ['a', 'a', 'a'] .default
  obtain ⟨t', heq, htells⟩ := (hrecords _ hrecord).2.1 d rfl
  cases heq
  exact ⟨d, t, hd, hconstructed, hrecord, htells, rfl,
    (execute_agrees_with_accepts hconstructed ['a', 'b'] .default).1, rfl⟩

end Automaton

end Acceptors
