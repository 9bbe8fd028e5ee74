import Mathlib.Tactic.Common
import Acceptors.Proofs.Findings
import Acceptors.Proofs.Turing.Bounds
import Acceptors.Proofs.Turing.Build

/-! What is found out about a Turing machine without running it. A run stays among the states that
the search for unreachable ones comes to, since a missing rule leads to the rejecting state, which
is never searched for. A state without rules only leads there, and a symbol that no rule writes does
not get onto the tape. The search, though, does not stop where runs do: it follows the rules of the
accepting state, and those of the rejecting one if it starts there. -/

namespace Acceptors

open Relation (ReflTransGen)
open Acceptors.Turing (Action Definition Moment Rule)

theorem Finding.eq_of_mem_ofItems {α : Type} {finding : List α → Finding} {items : List α}
    {f : Finding} (h : f ∈ ofItems finding items) : f = finding items := by
  cases items with
  | nil => exact absurd h List.not_mem_nil
  | cons item items => exact List.mem_singleton.1 h

namespace TuringMachine

variable {d : Definition} {m : TuringMachine} {s t : Nat} {c : Char} {r : Rule}
    {name target : String}

theorem eq_of_mem_findings {f : Finding} (h : f ∈ m.findings) :
    f = .unreachableStates m.unreachableStates ∨
    f = .stuckStates m.stuckStates ∨ f = .unusedSymbols m.unusedSymbols := by
  rw [findings, List.mem_append, List.mem_append, or_assoc] at h
  exact h.imp Finding.eq_of_mem_ofItems (.imp Finding.eq_of_mem_ofItems Finding.eq_of_mem_ofItems)

theorem reported_findings (m : TuringMachine) :
    Finding.reported m.findings = m.unreachableStates := by
  rw [findings, Finding.reported_append, Finding.reported_append, Finding.reported_ofItems rfl,
    Finding.reported_ofItems rfl, Finding.reported_ofItems rfl]
  simp [Finding.unreachableNames]

theorem mem_rulesOf_iff : (c, r) ∈ m.rulesOf s ↔ m.rule? s c = some r := by
  simp only [rulesOf, List.mem_filterMap, Option.map_eq_some_iff]
  constructor
  · intro h
    obtain ⟨c, -, r, hr, heq⟩ := h
    cases heq
    exact hr
  · intro h
    refine ⟨c, ?_, r, h, rfl⟩
    rw [rule?] at h
    split at h
    · rename_i i hi
      exact List.mem_of_getElem? ((list_idxOf?_eq_some_iff m.tapeAlphabet.nodup).1 hi)
    · cases h

theorem rulesOf_eq_nil_iff : m.rulesOf s = [] ↔ ∀ c, m.rule? s c = none := by
  rw [List.eq_nil_iff_forall_not_mem, Prod.forall]
  simp only [mem_rulesOf_iff, Option.eq_none_iff_forall_ne_some, ne_eq]

theorem transition?_eq_some_iff {action : Action} : m.transition? name c = some action ↔
    ∃ s, m.states.id? name = some s ∧ ∃ r, m.rule? s c = some r ∧ m.action r = action := by
  simp only [transition?, Option.bind_eq_bind, Option.bind_eq_some_iff, Option.pure_def,
    Option.some_inj]

theorem mem_successors_iff : t ∈ m.successors s ↔ (∃ c r, m.rule? s c = some r ∧ r.next = t) ∧
    t ≠ m.reject := by
  simp only [successors, List.mem_filter, List.mem_map, bne_iff_ne, Prod.exists, mem_rulesOf_iff]

theorem mem_usedSymbols_iff : c ∈ m.usedSymbols ↔
    ∃ s < m.states.size, ∃ x r, m.rule? s x = some r ∧ (c = x ∨ c = r.write) := by
  simp only [usedSymbols, stateIds, List.mem_flatMap, List.mem_range, Prod.exists, mem_rulesOf_iff,
    List.mem_cons, List.not_mem_nil, or_false]

theorem mem_unusedSymbols_iff : c ∈ m.unusedSymbols ↔
    c ∈ m.tapeAlphabet ∧ c ≠ blankSymbol ∧ c ∉ m.usedSymbols := by
  simp only [unusedSymbols, List.mem_filter, Bool.and_eq_true, bne_iff_ne, Bool.not_eq_true',
    List.contains_eq_mem, decide_eq_false_iff_not]
  rfl

/-- A state that the search does not report: it has come there, or it is the rejecting one. -/
def Counted (m : TuringMachine) (s : Nat) : Prop :=
  s = m.reject ∨ Search.Reaches m.states.size m.successors [m.start] s

theorem mem_unreachableStates_iff (hdistinct : m.states.Distinct)
    (hs : m.states.id? name = some s) :
    name ∈ m.unreachableStates ↔ ¬m.Counted s := by
  have hname := StateTable.name_of_id? hdistinct hs
  have hlt := StateTable.lt_size_of_id? hdistinct hs
  simp only [unreachableStates, List.mem_map, List.mem_filter, Search.mem_unreachable_iff,
    bne_iff_ne, Counted, not_or]
  constructor
  · intro h
    obtain ⟨u, ⟨⟨hu, hnot⟩, hreject⟩, huname⟩ := h
    obtain rfl : u = s := (hdistinct.name_inj hu hlt).1 (huname.trans hname.symm)
    exact ⟨hreject, hnot⟩
  · intro h
    exact ⟨s, ⟨⟨hlt, h.2⟩, h.1⟩, hname⟩

theorem mem_stuckStates_iff (hdistinct : m.states.Distinct) (hs : m.states.id? name = some s) :
    name ∈ m.stuckStates ↔ m.halts s = false ∧ ∀ c, m.rule? s c = none := by
  have hname := StateTable.name_of_id? hdistinct hs
  have hlt := StateTable.lt_size_of_id? hdistinct hs
  simp only [stuckStates, stateIds, List.mem_map, List.mem_filter, List.mem_range, Bool.and_eq_true,
    Bool.not_eq_true', List.isEmpty_iff, rulesOf_eq_nil_iff]
  constructor
  · intro h
    obtain ⟨u, ⟨hu, hstuck⟩, huname⟩ := h
    obtain rfl : u = s := (hdistinct.name_inj hu hlt).1 (huname.trans hname.symm)
    exact hstuck
  · intro h
    exact ⟨s, ⟨hlt, h⟩, hname⟩

namespace Implements

variable {word : List Char} {before : Moment} {n : Nat}

theorem counted_start (h : m.Implements d) : m.Counted m.start :=
  .inr (.start (List.mem_singleton_self _) (StateTable.lt_size_of_id? h.distinct h.start))

theorem counted_next (h : m.Implements d) (hs : m.states.id? before.state = some s)
    (hcounted : m.Counted s) (hrun : ¬d.Halted before) :
    ∃ t, m.states.id? (d.next before).state = some t ∧ m.Counted t := by
  have hreject : s ≠ m.reject := fun hs' => hrun (.inr ((h.state_eq_iff h.reject hs).1 hs'))
  rw [h.next_eq hs, ruleOrReject]
  cases hr : m.rule? s (before.cells before.head) with
  | none =>
    exact ⟨m.reject, h.distinct.id?_name (StateTable.lt_size_of_id? h.distinct h.reject), .inl rfl⟩
  | some r =>
    have hlt := h.next_lt _ _ _ hr
    refine ⟨r.next, h.distinct.id?_name hlt, ?_⟩
    by_cases hnext : r.next = m.reject
    · exact .inl hnext
    · refine .inr ((hcounted.resolve_left hreject).tail ?_ hlt)
      exact mem_successors_iff.2 ⟨⟨_, r, hr, rfl⟩, hnext⟩

theorem counted_moment (h : m.Implements d) (hrun : ∀ k < n, ¬d.Halted (d.moment word k)) :
    ∃ s, m.states.id? (d.moment word n).state = some s ∧ m.Counted s := by
  induction n with
  | zero => exact ⟨m.start, h.start, h.counted_start⟩
  | succ n ih =>
    obtain ⟨s, hs, hcounted⟩ := ih fun k hk => hrun k (Nat.lt_succ_of_lt hk)
    rw [Definition.moment_succ]
    exact h.counted_next hs hcounted (hrun n (Nat.lt_succ_self n))

end Implements

theorem write_mem_usedSymbols {entry : String × Char × Action} (h : d.Builds m)
    (hentry : entry ∈ d.delta) :
    entry.2.2.write ∈ m.usedSymbols := by
  obtain ⟨state, x, action⟩ := entry
  obtain ⟨s, hs, r, hr, rfl⟩ := transition?_eq_some_iff.1 (h.transition?_eq_some_iff.2 hentry)
  exact mem_usedSymbols_iff.2 ⟨s, StateTable.lt_size_of_id? h.distinct hs, x, r, hr, .inr rfl⟩

theorem nextDiff_of_no_rules {c : Configuration} (hs : m.states.id? c.state = some s)
    (hhalts : m.halts s = false) (hnone : ∀ x, m.rule? s x = none) :
    m.nextDiff c = .ok (some ⟨c.state, m.rejectState, c.head, c.head, c.symbol, c.symbol⟩) := by
  rw [nextDiff, hs]
  simp only [hhalts, Bool.false_eq_true, if_false, ruleOrReject, hnone, Option.getD_none,
    rejectState, Direction.offset, Int.add_zero]

end TuringMachine

namespace Alphabet

variable {a : Alphabet} {c x : Char}

def without (a : Alphabet) (c : Char) : Alphabet := ⟨a.symbols.filter (· != c), a.nodup.filter _⟩

theorem mem_without_iff : x ∈ a.without c ↔ x ∈ a ∧ x ≠ c := by
  change x ∈ a.symbols.filter (· != c) ↔ _
  rw [List.mem_filter, bne_iff_ne]
  rfl

end Alphabet

namespace Execution

variable {d : Definition} {m : TuringMachine} {e : Execution} {word : List Char} {limit s : Nat}
    {c : Configuration} {change : Diff} {x : Char}

theorem Advanced.id?_state (hd : d.build = .ok m) (he : e.Advanced m word limit) :
    ∃ s, m.states.id? e.current.state = some s ∧ m.Counted s := by
  have himp := Definition.implements_of_build hd
  obtain ⟨hfollows, -⟩ := he.follows himp
  have hstate : e.current.state = (d.moment word e.steps).state :=
    congrArg Moment.state hfollows.current
  rw [hstate]
  exact himp.counted_moment hfollows.running

theorem step_of_nextDiff (hrunning : e.status = .running) (hlimit : e.steps < e.maxSteps)
    (hdiff : e.machine.nextDiff e.current = .ok (some change))
    (happly : e.current.apply change = .ok c) :
    e.step =
      .ok { e with current := c, diffs := e.diffs.push change, status := e.machine.status c } := by
  rw [step, if_neg (not_not_intro hrunning), if_neg (Nat.not_le.2 hlimit), hdiff]
  simp only [happly]

theorem Follows.status_eq_running (h : e.Follows d word) (hrun : ¬d.Halted e.current.moment)
    (hlimit : e.steps < e.maxSteps) : e.status = .running := by
  rcases h.status with hs | ⟨-, hsteps, -⟩
  · exact hs.trans (h.implements.status_eq_running hrun)
  · exact absurd hsteps (Nat.ne_of_lt hlimit)

/-- A symbol that is neither an input symbol nor used by a rule leaves the run an alphabet without
it. -/
theorem Advanced.without_unused (hd : d.build = .ok m) (he : e.Advanced m word limit)
    (hx : x ∈ m.unusedSymbols) (hinput : x ∉ m.inputAlphabet) :
    x ∉ e.current.tape.cells ∧ ∀ p, e.current.tape.read p ≠ x := by
  have himp := Definition.implements_of_build hd
  obtain ⟨-, htape, hwrites⟩ := Definition.symbols_of_build hd
  obtain ⟨-, hblank, hunused⟩ := TuringMachine.mem_unusedSymbols_iff.1 hx
  have hwithin : e.current.Within (m.tapeAlphabet.without x) word.length e.steps := by
    refine he.within_of_writes himp (fun y hy => ?_) ?_ fun entry hentry => ?_
    · have hy' : y ∈ d.inputAlphabet := himp.input ▸ hy
      exact Alphabet.mem_without_iff.2 ⟨(htape y).2 (.inl hy'), ne_of_mem_of_not_mem hy hinput⟩
    · exact Alphabet.mem_without_iff.2 ⟨(htape _).2 (.inr (.inr rfl)), hblank.symm⟩
    · have hused := TuringMachine.write_mem_usedSymbols (Definition.build_eq_ok_iff.1 hd) hentry
      exact Alphabet.mem_without_iff.2 ⟨hwrites entry hentry, ne_of_mem_of_not_mem hused hunused⟩
  have hcells : x ∉ e.current.tape.cells :=
    fun hmem => (Alphabet.mem_without_iff.1 (hwithin.symbols x hmem)).2 rfl
  refine ⟨hcells, fun p hp => ?_⟩
  rcases e.current.tape.read_mem_cells p with hread | hread
  · exact hcells (hp ▸ hread)
  · exact (Alphabet.mem_without_iff.1 hwithin.blank).2 (hread.symm.trans hp)

theorem Advanced.step_of_stuck (hd : d.build = .ok m) (he : e.Advanced m word limit)
    (hstuck : e.current.state ∈ m.stuckStates) :
    (∃ change, m.nextDiff e.current = .ok (some change) ∧ change.nextState = m.rejectState) ∧
    (e.steps < limit → ∃ next, e.step = .ok next ∧ next.steps = e.steps + 1 ∧
      next.current.state = m.rejectState ∧ next.status = .rejected ∧
      next.current.head = e.current.head ∧
      next.current.tape.read = e.current.tape.read) := by
  have himp := Definition.implements_of_build hd
  obtain ⟨hfollows, hmachine, -, hmax⟩ := he.follows himp
  obtain rfl : e.machine = m := hmachine
  obtain rfl : e.maxSteps = limit := hmax
  obtain ⟨s, hs, -⟩ := he.id?_state hd
  obtain ⟨hhalts, hnone⟩ := (TuringMachine.mem_stuckStates_iff himp.distinct hs).1 hstuck
  have hdiff := TuringMachine.nextDiff_of_no_rules hs hhalts hnone
  refine ⟨⟨_, hdiff, rfl⟩, fun hlimit => ?_⟩
  have hrun : ¬d.Halted e.current.moment := fun hhalted => by
    rw [(himp.halts_iff (a := e.current.moment) hs).2 hhalted] at hhalts
    cases hhalts
  refine ⟨_, step_of_nextDiff (hfollows.status_eq_running hrun hlimit) hlimit hdiff
    (Configuration.apply_eq_ok_iff.2 ⟨⟨rfl, rfl, rfl⟩, rfl⟩), Array.size_push _, rfl, ?_, rfl, ?_⟩
  · exact himp.status_eq_rejected (StateTable.name_of_id? himp.distinct himp.reject)
  · rw [Tape.read_extendTo, Tape.read_write]
    exact Function.update_eq_self _ _

/-- What is found without running a machine holds of every run on every word, however far it has
come. It is in no state that is reported as unreachable. From one that is reported to be without
rules it goes to the rejecting state, with its tape and head as they were. A symbol that is reported
as unused is on its tape only if it is an input symbol. -/
theorem findings_hold_of_runs (hd : d.build = .ok m) (he : e.Advanced m word limit) :
    (∀ names, .unreachableStates names ∈ (Automaton.tm m).findings → e.current.state ∉ names) ∧
    (∀ names, .stuckStates names ∈ (Automaton.tm m).findings → e.current.state ∈ names →
      (∃ change, m.nextDiff e.current = .ok (some change) ∧ change.nextState = m.rejectState) ∧
      (e.steps < limit → ∃ next, e.step = .ok next ∧ next.steps = e.steps + 1 ∧
        next.current.state = m.rejectState ∧ next.status = .rejected ∧
        next.current.head = e.current.head ∧
        next.current.tape.read = e.current.tape.read)) ∧
    ∀ symbols, .unusedSymbols symbols ∈ (Automaton.tm m).findings →
    ∀ x ∈ symbols, x ∉ m.inputAlphabet →
      x ∉ e.current.tape.cells ∧ ∀ p, e.current.tape.read p ≠ x := by
  have himp := Definition.implements_of_build hd
  refine ⟨fun names hnames hmem => ?_, fun names hnames hmem => ?_, fun symbols hsymbols x hx => ?_⟩
  · obtain ⟨s, hs, hcounted⟩ := he.id?_state hd
    rcases TuringMachine.eq_of_mem_findings hnames with heq | heq | heq <;> cases heq
    exact (TuringMachine.mem_unreachableStates_iff himp.distinct hs).1 hmem hcounted
  · rcases TuringMachine.eq_of_mem_findings hnames with heq | heq | heq <;> cases heq
    exact he.step_of_stuck hd hmem
  · rcases TuringMachine.eq_of_mem_findings hsymbols with heq | heq | heq <;> cases heq
    exact he.without_unused hd hx

theorem findings_hold_of_runs_idle :
    let d : Definition :=
      ⟨["start", "idle", "spare", "yes", "no"], ['0'], ['x', 'y'], "start", "yes", "no",
      [("start", '0', ⟨"idle", 'x', .right⟩), ("start", blankSymbol, ⟨"yes", blankSymbol, .stay⟩)]⟩
    ∃ (m : TuringMachine) (e : Execution), d.build = .ok m ∧ e.Advanced m ['0'] 9 ∧ e.steps = 1 ∧
      (Automaton.tm m).findings = [.unreachableStates ["spare"], .stuckStates ["idle", "spare"],
        .unusedSymbols ['y']] ∧
      e.current.state ≠ "spare" ∧
      (∃ next, e.step = .ok next ∧ next.current.state = "no" ∧ next.status = .rejected) ∧
      ∀ p, e.current.tape.read p ≠ 'y' := by
  intro d
  let m : TuringMachine := ⟨⟨#["start", "idle", "spare", "yes", "no"]⟩, ⟨['0'], by decide⟩,
    ⟨['0', 'x', 'y', blankSymbol], by decide⟩, 0, 3, 4,
    ⟨#[#[some ⟨1, 'x', .right⟩, none, none, some ⟨3, blankSymbol, .stay⟩],
      #[none, none, none, none],
      #[none, none, none, none], #[none, none, none, none], #[none, none, none, none]]⟩⟩
  have hd : d.build = .ok m := by decide +kernel
  have hword : ∀ c ∈ ['0'], c ∈ m.inputAlphabet := List.forall_mem_singleton.2 List.mem_cons_self
  have hrun : runFor 1 (fresh m ['0'] 9) = .ok ⟨m, ⟨"start", ⟨#['0'], #[], blankSymbol⟩, 0⟩,
    ⟨"idle", ⟨#['x', blankSymbol], #[], blankSymbol⟩, 1⟩, #[⟨"start", "idle", 0, 1, '0', 'x'⟩], 9,
    .running⟩ := by cbv
  have he := Advanced.runFor 1 (.start (start_eq_ok hword)) hrun
  have hfindings : (Automaton.tm m).findings =
      [.unreachableStates ["spare"], .stuckStates ["idle", "spare"], .unusedSymbols ['y']] := by
        decide +kernel
  obtain ⟨hunreachable, hstuck, hunused⟩ := findings_hold_of_runs hd he
  have hspare := hunreachable ["spare"] (by rw [hfindings]; decide)
  obtain ⟨-, hnext⟩ := hstuck ["idle", "spare"] (by rw [hfindings]; decide) List.mem_cons_self
  obtain ⟨next, hstep, -, hstate, hstatus, -⟩ := hnext (by decide)
  obtain ⟨-, hread⟩ := hunused ['y'] (by rw [hfindings]; decide) 'y' List.mem_cons_self (by decide)
  exact ⟨m, _, hd, he, rfl, hfindings, fun h => hspare (List.mem_singleton.2 h),
    ⟨next, hstep, hstate, hstatus⟩, hread⟩

end Execution

namespace TuringMachine

variable {d : Definition} {m : TuringMachine} {s t : Nat} {name target : String}

def Leads (m : TuringMachine) (name target : String) : Prop :=
  ∃ c action, m.transition? name c = some action ∧ action.nextState = target

def Moves (m : TuringMachine) (name target : String) : Prop :=
  m.isHalting name = false ∧ m.Leads name target

/-- A rule that the search uses, which it does in every state but the rejecting one, where it does
not come. -/
def Visits (m : TuringMachine) (name target : String) : Prop :=
  m.Leads name target ∧ target ≠ m.rejectState

theorem eq_of_visits_of_no_rules (hnone : ∀ c, m.transition? name c = none)
    (h : ReflTransGen m.Visits name target) :
    name = target := by
  rcases h.cases_head with heq | ⟨_, ⟨⟨c, action, haction, -⟩, -⟩, -⟩
  · exact heq
  · cases (hnone c).symm.trans haction

namespace Implements

theorem isHalting_iff (h : m.Implements d) :
    m.isHalting name = true ↔ name = m.acceptState ∨ name = m.rejectState := by
  have haccept : m.acceptState = d.acceptState := StateTable.name_of_id? h.distinct h.accept
  have hreject : m.rejectState = d.rejectState := StateTable.name_of_id? h.distinct h.reject
  rw [haccept, hreject, isHalting, Option.any_eq_true]
  constructor
  · intro hname
    obtain ⟨s, hs, hhalts⟩ := hname
    exact (h.halts_iff (a := ⟨name, fun _ => blankSymbol, 0⟩) hs).1 hhalts
  · intro hname
    rcases hname with rfl | rfl
    · exact ⟨m.accept, h.accept, by rw [halts, beq_self_eq_true, Bool.true_or]⟩
    · exact ⟨m.reject, h.reject, by rw [halts, beq_self_eq_true, Bool.or_true]⟩

theorem acceptState_ne_rejectState (h : m.Implements d) : m.acceptState ≠ m.rejectState := by
  intro heq
  have haccept := StateTable.lt_size_of_id? h.distinct h.accept
  have hreject := StateTable.lt_size_of_id? h.distinct h.reject
  exact h.accept_ne_reject ((h.distinct.name_inj haccept hreject).1 heq)

theorem visits_iff_mem_successors (h : m.Implements d) (hs : m.states.id? name = some s)
    (ht : m.states.id? target = some t) : m.Visits name target ↔ t ∈ m.successors s := by
  have hlt := StateTable.lt_size_of_id? h.distinct ht
  have htarget := StateTable.name_of_id? h.distinct ht
  have hreject := StateTable.lt_size_of_id? h.distinct h.reject
  rw [mem_successors_iff, Visits, ← htarget, rejectState, Ne, h.distinct.name_inj hlt hreject]
  refine and_congr_left fun _ => ⟨fun hleads => ?_, fun hrule => ?_⟩
  · obtain ⟨c, action, haction, hnext⟩ := hleads
    obtain ⟨s', hs', r, hr, rfl⟩ := transition?_eq_some_iff.1 haction
    obtain rfl := Option.some.inj (hs'.symm.trans hs)
    exact ⟨c, r, hr, (h.distinct.name_inj (h.next_lt _ _ _ hr) hlt).1 hnext⟩
  · obtain ⟨c, r, hr, rfl⟩ := hrule
    exact ⟨c, m.action r, transition?_eq_some_iff.2 ⟨s, hs, r, hr, rfl⟩, rfl⟩

/-- The search goes from number to number, but just where rules lead from name to name. -/
theorem reaches_iff (h : m.Implements d) (hs : m.states.id? name = some s) :
    Search.Reaches m.states.size m.successors [m.start] s ↔
    ReflTransGen m.Visits m.startState name := by
  constructor
  · intro hreaches
    obtain ⟨u, hu, hlt, hpath⟩ := hreaches
    obtain rfl := List.mem_singleton.1 hu
    induction hpath generalizing name with
    | refl => rw [startState, StateTable.name_of_id? h.distinct hs]
    | tail hpath hstep ih =>
      have hbefore := h.distinct.id?_name (Search.Reaches.lt_bound ⟨_, hu, hlt, hpath⟩)
      exact (ih hbefore).tail ((h.visits_iff_mem_successors hbefore hs).2 hstep.1)
  · intro hpath
    induction hpath generalizing s with
    | refl =>
      have hstart := StateTable.lt_size_of_id? h.distinct h.start
      obtain rfl := Option.some.inj ((h.distinct.id?_name hstart).symm.trans hs)
      exact .start (List.mem_singleton_self _) hstart
    | tail _ hstep ih =>
      obtain ⟨c, action, haction, -⟩ := hstep.1
      obtain ⟨u, hu, -⟩ := transition?_eq_some_iff.1 haction
      exact (ih hu).tail ((h.visits_iff_mem_successors hu hs).1 hstep)
        (StateTable.lt_size_of_id? h.distinct hs)

theorem visits_of_moves (h : m.Implements d) (hpath : ReflTransGen m.Moves name target)
    (htarget : target ≠ m.rejectState) : ReflTransGen m.Visits name target := by
  induction hpath with
  | refl => exact .refl
  | tail _ hstep ih =>
    refine (ih fun hreject => ?_).tail ⟨hstep.2, htarget⟩
    have hhalting := h.isHalting_iff.2 (.inr hreject)
    rw [hstep.1] at hhalting
    cases hhalting

/-- The search comes to where runs can come, and from the halting states to where their rules lead:
from the accepting state, if it comes there, and from the rejecting one, if it starts there. -/
theorem visits_iff (h : m.Implements d) (hname : name ≠ m.rejectState) :
    ReflTransGen m.Visits m.startState name ↔
    ReflTransGen m.Moves m.startState name ∨
    (ReflTransGen m.Moves m.startState m.acceptState ∧ ReflTransGen m.Visits m.acceptState name) ∨
    (m.startState = m.rejectState ∧ ReflTransGen m.Visits m.rejectState name) := by
  constructor
  · intro hpath
    induction hpath with
    | refl => exact .inl .refl
    | tail hpath hstep ih =>
      rename_i before target
      by_cases hreject : before = m.rejectState
      · -- no rule was followed to the rejecting state, so the search started there
        subst hreject
        rcases hpath.cases_tail with heq | ⟨_, -, hlast⟩
        · exact .inr (.inr ⟨heq.symm, .single hstep⟩)
        · exact absurd rfl hlast.2
      · rcases ih hreject with hmoves | ⟨haccept, hafter⟩ | ⟨hstart, hafter⟩
        · by_cases haccept : before = m.acceptState
          · subst haccept
            exact .inr (.inl ⟨hmoves, .single hstep⟩)
          · have hrunning := mt h.isHalting_iff.1 (not_or.2 ⟨haccept, hreject⟩)
            exact .inl (hmoves.tail ⟨Bool.eq_false_iff.2 hrunning, hstep.1⟩)
        · exact .inr (.inl ⟨haccept, hafter.tail hstep⟩)
        · exact .inr (.inr ⟨hstart, hafter.tail hstep⟩)
  · intro hpath
    rcases hpath with hmoves | ⟨haccept, hafter⟩ | ⟨hstart, hafter⟩
    · exact h.visits_of_moves hmoves hname
    · exact (h.visits_of_moves haccept h.acceptState_ne_rejectState).trans hafter
    · rwa [hstart]

theorem visits_iff_moves (h : m.Implements d) (hname : name ≠ m.rejectState)
    (hnone : ∀ halting c, m.isHalting halting = true → m.transition? halting c = none) :
    ReflTransGen m.Visits m.startState name ↔ ReflTransGen m.Moves m.startState name := by
  rw [h.visits_iff hname]
  refine ⟨fun hpath => ?_, .inl⟩
  rcases hpath with hmoves | ⟨hmoves, hafter⟩ | ⟨-, hafter⟩
  · exact hmoves
  · have haccept :=
      eq_of_visits_of_no_rules (fun c => hnone _ c (h.isHalting_iff.2 (.inl rfl))) hafter
    rwa [haccept] at hmoves
  · have hreject :=
      eq_of_visits_of_no_rules (fun c => hnone _ c (h.isHalting_iff.2 (.inr rfl))) hafter
    exact absurd hreject.symm hname

theorem mem_reported_iff (h : m.Implements d) (hname : name ∈ m.states.names.toList) :
    name ∈ Finding.reported (Automaton.tm m).findings ↔
      name ≠ m.rejectState ∧ ¬ReflTransGen m.Visits m.startState name := by
  obtain ⟨s, hs⟩ := StateTable.mem_names_iff.1 hname
  have hlt := StateTable.lt_size_of_id? h.distinct hs
  have hreject := StateTable.lt_size_of_id? h.distinct h.reject
  rw [Automaton.findings, reported_findings, mem_unreachableStates_iff h.distinct hs, Counted,
    not_or, h.reaches_iff hs, rejectState, ← StateTable.name_of_id? h.distinct hs, Ne,
    h.distinct.name_inj hlt hreject]

end Implements

theorem sublist_unreachableStates (m : TuringMachine) :
    m.unreachableStates.Sublist m.states.names.toList := by
  rw [← array_map_getD_range m.states.names ""]
  exact (List.filter_sublist.trans List.filter_sublist).map _

/-- The states of a machine are reported as unreachable in their order. A declared state other than
the rejecting one is missing there if rules used in states that are not halting lead to it, or if
rules lead to it from a halting state that the search goes on from: from the accepting one, if runs
can come there, or from the rejecting one, if it is the start. So where halting states have no
rules, exactly the states where no run can come are reported. -/
theorem reported_iff_off_rules (hd : d.build = .ok m) :
    (Finding.reported (Automaton.tm m).findings).Sublist m.states.names.toList ∧
    (∀ name ∈ m.states.names.toList, name ∈ Finding.reported (Automaton.tm m).findings ↔
      name ≠ m.rejectState ∧ ¬ReflTransGen m.Moves m.startState name ∧
      ¬(ReflTransGen m.Moves m.startState m.acceptState ∧
        ReflTransGen m.Visits m.acceptState name) ∧
      ¬(m.startState = m.rejectState ∧ ReflTransGen m.Visits m.rejectState name)) ∧
    ((∀ halting c, m.isHalting halting = true → m.transition? halting c = none) →
      ∀ name ∈ m.states.names.toList, name ∈ Finding.reported (Automaton.tm m).findings ↔
        name ≠ m.rejectState ∧ ¬ReflTransGen m.Moves m.startState name) := by
  have himp := Definition.implements_of_build hd
  refine ⟨?_, fun name hname => ?_, fun hnone name hname => ?_⟩
  · rw [Automaton.findings, reported_findings]
    exact m.sublist_unreachableStates
  · refine (himp.mem_reported_iff hname).trans (and_congr_right fun hreject => ?_)
    rw [himp.visits_iff hreject, not_or, not_or]
  · rw [himp.mem_reported_iff hname]
    exact and_congr_right fun hreject => not_congr (himp.visits_iff_moves hreject hnone)

theorem reported_iff_off_rules_afterAccept :
    let d (rules : List (String × Char × Action)) : Definition :=
      ⟨["s", "y", "n", "after"], ['a'], [], "s", "y", "n", ("s", 'a', ⟨"y", 'a', .right⟩) :: rules⟩
    ∃ m m', (d [("y", 'a', ⟨"after", 'a', .right⟩)]).build = .ok m ∧ (d []).build = .ok m' ∧
      "after" ∉ Finding.reported (Automaton.tm m).findings ∧
      "after" ∈ Finding.reported (Automaton.tm m').findings ∧
      ¬ReflTransGen m'.Moves "s" "after" := by
  intro d
  let m (row : Array (Option Rule)) : TuringMachine :=
    ⟨⟨#["s", "y", "n", "after"]⟩, ⟨['a'], by decide⟩,
    ⟨['a', blankSymbol], by decide⟩, 0, 1, 2,
    ⟨#[#[some ⟨1, 'a', .right⟩, none], row, #[none, none], #[none, none]]⟩⟩
  have hd : (d [("y", 'a', ⟨"after", 'a', .right⟩)]).build =
      .ok (m #[some ⟨3, 'a', .right⟩, none]) := by
    decide +kernel
  have hd' : (d []).build = .ok (m #[none, none]) := by decide +kernel
  obtain ⟨-, hreported, -⟩ := reported_iff_off_rules hd
  obtain ⟨-, -, hexact⟩ := reported_iff_off_rules hd'
  have hmoves : (m #[some ⟨3, 'a', .right⟩, none]).Moves "s" "y" :=
    ⟨by decide +kernel, 'a', ⟨"y", 'a', .right⟩, by decide +kernel, rfl⟩
  have hvisits : (m #[some ⟨3, 'a', .right⟩, none]).Visits "y" "after" :=
    ⟨⟨'a', ⟨"after", 'a', .right⟩, by decide +kernel, rfl⟩, by decide +kernel⟩
  have hafter : "after" ∈ Finding.reported (Automaton.tm (m #[none, none])).findings := by
    decide +kernel
  refine ⟨_, _, hd, hd', fun hmem => ?_, hafter, ?_⟩
  · obtain ⟨-, -, hnot, -⟩ := (hreported "after" (by decide)).1 hmem
    exact hnot ⟨.single hmoves, .single hvisits⟩
  · have hnone : ∀ halting c, (m #[none, none]).isHalting halting = true →
        (m #[none, none]).transition? halting c = none := by
      intro halting c hhalting
      rw [Option.eq_none_iff_forall_ne_some]
      intro action haction
      have hentry := (Definition.build_eq_ok_iff.1 hd').transition?_eq_some_iff.1 haction
      cases List.mem_singleton.1 hentry
      have hrunning : (m #[none, none]).isHalting "s" = false := by decide +kernel
      cases hhalting.symm.trans hrunning
    exact ((hexact hnone "after" (by decide)).1 hafter).2

/-- A state that no run comes to is not reported, because a rule of the accepting state leads
there. -/
theorem exists_unreachable_not_reported :
    let d : Definition := ⟨["s", "y", "n", "lost"], ['a'], [], "s", "y", "n",
      [("s", 'a', ⟨"y", 'a', .right⟩), ("y", 'a', ⟨"lost", 'a', .right⟩),
        ("lost", 'a', ⟨"lost", 'a', .right⟩)]⟩
    ∃ m, d.build = .ok m ∧ "lost" ∈ m.states.names.toList ∧ "lost" ≠ m.rejectState ∧
      ¬ReflTransGen m.Moves m.startState "lost" ∧ (Automaton.tm m).findings = [] := by
  intro d
  let m : TuringMachine :=
    ⟨⟨#["s", "y", "n", "lost"]⟩, ⟨['a'], by decide⟩, ⟨['a', blankSymbol], by decide⟩, 0, 1, 2,
    ⟨#[#[some ⟨1, 'a', .right⟩, none], #[some ⟨3, 'a', .right⟩, none], #[none, none],
      #[some ⟨3, 'a', .right⟩, none]]⟩⟩
  have hd : d.build = .ok m := by decide +kernel
  have hclosed : ∀ name, ReflTransGen m.Moves m.startState name → name = "s" ∨ name = "y" := by
    intro name hpath
    induction hpath with
    | refl => exact .inl rfl
    | tail _ hstep ih =>
      obtain ⟨hrunning, c, action, haction, rfl⟩ := hstep
      have hentry := (Definition.build_eq_ok_iff.1 hd).transition?_eq_some_iff.1 haction
      rcases ih with rfl | rfl
      · refine .inr ?_
        simp only [d, List.mem_cons, Prod.mk.injEq, List.not_mem_nil, or_false] at hentry
        rcases hentry with ⟨-, -, rfl⟩ | ⟨hne, -⟩ | ⟨hne, -⟩
        · rfl
        · exact absurd hne (by decide)
        · exact absurd hne (by decide)
      · have hhalting : m.isHalting "y" = true := by decide +kernel
        cases hrunning.symm.trans hhalting
  refine ⟨m, hd, by decide, by decide +kernel, fun hpath => ?_, by decide +kernel⟩
  rcases hclosed _ hpath with hname | hname
  · exact absurd hname (by decide)
  · exact absurd hname (by decide)

end TuringMachine

end Acceptors
