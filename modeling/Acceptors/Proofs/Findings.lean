import Mathlib.Tactic.Common
import Acceptors.Findings
import Acceptors.Proofs.Nfa.Simulation

/-! The states of a finite automaton that are reported as unreachable. The search for the others
goes from one state to the next, by single symbols; a trace goes along a whole word. What a trace
shows was met after a prefix of its word, and prefixes are words themselves, so both know the same
states. -/

namespace Acceptors

theorem mem_iff_of_prefixes {α β : Type} {xs : List β} {w : List α} {f : List α → β} {x : β}
    (hlength : xs.length = w.length + 1) (hget : ∀ k ≤ w.length, xs[k]? = some (f (w.take k))) :
    x ∈ xs ↔ ∃ v, v <+: w ∧ f v = x := by
  rw [List.mem_iff_getElem?]
  constructor
  · intro h
    obtain ⟨k, hk⟩ := h
    have hlt := (List.getElem?_eq_some_iff.1 hk).1
    rw [hget k (by omega)] at hk
    exact ⟨w.take k, List.take_prefix k w, Option.some.inj hk⟩
  · intro h
    obtain ⟨v, hv, rfl⟩ := h
    refine ⟨v.length, ?_⟩
    rw [hget _ hv.length_le, ← List.prefix_iff_eq_take.1 hv]

theorem Alphabet.avoided_iff {a : Alphabet} {τ : Type}
    {trace : List Char → Except DomainError τ} {Shows : τ → Prop}
    {Leads : List Char → Prop} (htrace : ∀ w, (∀ c ∈ w, c ∈ a) → ∃ t, trace w = .ok t)
    (hshows : ∀ w t, trace w = .ok t → (Shows t ↔ ∃ v, v <+: w ∧ Leads v)) :
    (∀ w, (∀ c ∈ w, c ∈ a) → ∃ t, trace w = .ok t ∧ ¬Shows t) ↔
    ¬∃ w, (∀ c ∈ w, c ∈ a) ∧ Leads w := by
  constructor
  · intro h hleads
    obtain ⟨w, hw, hleads⟩ := hleads
    obtain ⟨t, ht, hnot⟩ := h w hw
    exact hnot ((hshows w t ht).2 ⟨w, List.prefix_rfl, hleads⟩)
  · intro h w hw
    obtain ⟨t, ht⟩ := htrace w hw
    refine ⟨t, ht, fun hshown => h ?_⟩
    obtain ⟨v, hv, hleads⟩ := (hshows w t ht).1 hshown
    exact ⟨v, fun c hc => hw c (hv.subset hc), hleads⟩

namespace Finding

variable {name : String} {names reachable : List String}

theorem mem_unreached_iff : name ∈ unreached names reachable ↔ name ∈ names ∧ name ∉ reachable := by
  simp [unreached]

def unreachableNames : Finding → List String
  | unreachableStates names => names
  | _ => []

def reported (findings : List Finding) : List String := findings.flatMap unreachableNames

theorem reported_append (findings findings' : List Finding) :
    reported (findings ++ findings') = reported findings ++ reported findings' :=
  List.flatMap_append

theorem reported_ofItems {α : Type} {finding : List α → Finding}
    (hnil : (finding []).unreachableNames = []) (items : List α) :
    reported (ofItems finding items) = (finding items).unreachableNames := by
  cases items with
  | nil => exact hnil.symm
  | cons item items => exact List.flatMap_singleton _ _

end Finding

namespace Dfa

variable {d : Dfa} {w : List Char} {name : String}

theorem reported_findings (d : Dfa) : Finding.reported d.findings = d.unreachableStates := by
  rw [findings, Finding.reported_append, Finding.reported_append, Finding.reported_ofItems rfl,
    Finding.reported_ofItems rfl, Finding.reported_ofItems rfl]
  simp [Finding.unreachableNames]

theorem exists_trace (hw : ∀ c ∈ w, c ∈ d.alphabet) : ∃ trace, d.trace w = .ok trace :=
  ⟨_, map_eq_ok_iff.2 ⟨w, Alphabet.tokenize_eq_ok_iff.2 ⟨rfl, hw⟩, rfl⟩⟩

theorem mem_states_iff {trace : Trace} (h : d.trace w = .ok trace) : some name ∈ trace.states ↔
    ∃ v, v <+: w ∧ (d.run (some d.start) v).map d.states.name = some name := by
  obtain ⟨-, hlength, hget⟩ := trace_spec h
  exact mem_iff_of_prefixes hlength hget

theorem mem_alphabet_of_run {s t : Nat} (h : d.run (some s) w = some t) :
    ∀ c ∈ w, c ∈ d.alphabet := by
  induction w generalizing s with
  | nil => exact List.forall_mem_nil _
  | cons c w ih =>
    rw [run_cons, step_some] at h
    cases hc : d.next? s c with
    | none =>
      rw [hc, run_none] at h
      cases h
    | some u =>
      rw [hc] at h
      exact List.forall_mem_cons.2 ⟨mem_alphabet_of_next? hc, ih h⟩

theorem mem_reachableStates_iff (h : d.WellFormed) : name ∈ d.reachableStates ↔
    ∃ w, (∀ c ∈ w, c ∈ d.alphabet) ∧ (d.run (some d.start) w).map d.states.name = some name := by
  rw [reachableStates, List.mem_map]
  constructor
  · intro hname
    obtain ⟨s, hs, rfl⟩ := hname
    obtain ⟨w, hw⟩ := (mem_reachable_iff h).1 hs
    exact ⟨w, mem_alphabet_of_run hw, by rw [hw, Option.map_some]⟩
  · intro hname
    obtain ⟨w, -, hw⟩ := hname
    obtain ⟨s, hs, hsname⟩ := Option.map_eq_some_iff.1 hw
    exact ⟨s, (mem_reachable_iff h).2 ⟨w, hs⟩, hsname⟩

theorem mem_unreachableStates_iff (h : d.WellFormed) :
    name ∈ d.unreachableStates ↔ name ∈ d.states.names.toList ∧
    ∀ w, (∀ c ∈ w, c ∈ d.alphabet) → ∃ trace, d.trace w = .ok trace ∧ some name ∉ trace.states := by
  rw [unreachableStates, Finding.mem_unreached_iff, mem_reachableStates_iff h,
    Alphabet.avoided_iff (fun w => exists_trace) fun w trace => mem_states_iff]

end Dfa

namespace Nfa

variable {n : Nfa} {w : List Char} {name : String} {set : StateSet} {s t : Nat} {c : Char}

theorem reported_findings (n : Nfa) : Finding.reported n.findings = n.unreachableStates := by
  rw [findings, Finding.reported_append, Finding.reported_ofItems rfl, Finding.reported_ofItems rfl]
  simp [Finding.unreachableNames]

theorem exists_trace (hw : ∀ c ∈ w, c ∈ n.alphabet) : ∃ trace, n.trace w = .ok trace :=
  ⟨_, map_eq_ok_iff.2 ⟨w, Alphabet.tokenize_eq_ok_iff.2 ⟨rfl, hw⟩, rfl⟩⟩

theorem mem_stateSets_iff {trace : Trace} (h : n.trace w = .ok trace) :
    (∃ set ∈ trace.stateSets, name ∈ set) ↔
    ∃ v, v <+: w ∧ name ∈ n.setNames (n.run n.startSet v) := by
  obtain ⟨-, hlength, hget⟩ := trace_spec h
  simp only [mem_iff_of_prefixes (f := fun v => n.setNames (n.run n.startSet v)) hlength hget]
  constructor
  · intro hset
    obtain ⟨_, ⟨v, hv, rfl⟩, hname⟩ := hset
    exact ⟨v, hv, hname⟩
  · intro hv
    obtain ⟨v, hv, hname⟩ := hv
    exact ⟨_, ⟨v, hv, rfl⟩, hname⟩

theorem lt_of_mem_closure (hs : s ∈ n.closure set) : s < n.states.size :=
  (Search.mem_reachable_iff.1 hs).lt_bound

theorem mem_step_iff_exists_mem (h : n.WellFormed) :
    t ∈ n.step set c ↔ ∃ s ∈ set, t ∈ n.step [s] c := by
  simp only [mem_step_iff h, List.mem_singleton, exists_eq_left]

/-- Steps from single states go together to runs over words. -/
theorem mem_reachable_iff (h : n.WellFormed) :
    s ∈ n.reachable ↔ ∃ w, (∀ c ∈ w, c ∈ n.alphabet) ∧ s ∈ n.run n.startSet w := by
  rw [reachable, Search.mem_reachable_iff]
  constructor
  · intro hs
    obtain ⟨u, hu, -, hpath⟩ := hs
    induction hpath with
    | refl => exact ⟨[], List.forall_mem_nil _, hu⟩
    | tail _ hstep ih =>
      obtain ⟨w, hw, hrun⟩ := ih
      obtain ⟨c, hc, hstep⟩ := List.mem_flatMap.1 hstep.1
      refine ⟨w ++ [c], List.forall_mem_append.2 ⟨hw, List.forall_mem_singleton.2 hc⟩, ?_⟩
      rw [run_concat, mem_step_iff_exists_mem h]
      exact ⟨_, hrun, hstep⟩
  · intro hs
    obtain ⟨w, hw, hs⟩ := hs
    induction w using List.reverseRecOn generalizing s with
    | nil => exact .start hs (lt_of_mem_closure hs)
    | append_singleton w c ih =>
      obtain ⟨hw, hc⟩ := List.forall_mem_append.1 hw
      rw [run_concat, mem_step_iff_exists_mem h] at hs
      obtain ⟨u, hu, hs⟩ := hs
      exact (ih hw hu).tail (List.mem_flatMap.2 ⟨c, List.forall_mem_singleton.1 hc, hs⟩)
        (lt_of_mem_closure hs)

theorem mem_reachableStates_iff (h : n.WellFormed) : name ∈ n.reachableStates ↔
    ∃ w, (∀ c ∈ w, c ∈ n.alphabet) ∧ name ∈ n.setNames (n.run n.startSet w) := by
  simp only [reachableStates, setNames, List.mem_map, mem_reachable_iff h]
  constructor
  · intro hname
    obtain ⟨s, ⟨w, hw, hs⟩, hsname⟩ := hname
    exact ⟨w, hw, s, hs, hsname⟩
  · intro hname
    obtain ⟨w, hw, s, hs, hsname⟩ := hname
    exact ⟨s, ⟨w, hw, hs⟩, hsname⟩

theorem mem_unreachableStates_iff (h : n.WellFormed) :
    name ∈ n.unreachableStates ↔ name ∈ n.states.names.toList ∧
    ∀ w, (∀ c ∈ w, c ∈ n.alphabet) → ∃ trace, n.trace w = .ok trace ∧
    ∀ set ∈ trace.stateSets, name ∉ set := by
  rw [unreachableStates, Finding.mem_unreached_iff, mem_reachableStates_iff h,
    ← Alphabet.avoided_iff (fun w => exists_trace) fun w trace => mem_stateSets_iff]
  simp only [not_exists, not_and]

end Nfa

/-- Whatever is reported as unreachable is reported in the order of the states. It is what no trace
of a word over the alphabet shows, for automata without choices and for those with choices and empty
moves. -/
theorem Automaton.reported_iff_avoided :
    (∀ d : Dfa, d.Constructed → (Finding.reported (dfa d).findings).Sublist d.states.names.toList ∧
      ∀ name ∈ d.states.names.toList, name ∈ Finding.reported (dfa d).findings ↔
        ∀ w, (∀ c ∈ w, c ∈ d.alphabet) → ∃ trace, d.trace w = .ok trace ∧
        some name ∉ trace.states) ∧
    ∀ n : Nfa, n.Constructed → (Finding.reported (nfa n).findings).Sublist n.states.names.toList ∧
      ∀ name ∈ n.states.names.toList, name ∈ Finding.reported (nfa n).findings ↔
        ∀ w, (∀ c ∈ w, c ∈ n.alphabet) →
          ∃ trace, n.trace w = .ok trace ∧ ∀ set ∈ trace.stateSets, name ∉ set := by
  refine ⟨fun d h => ?_, fun n h => ?_⟩
  · rw [findings, Dfa.reported_findings]
    refine ⟨List.filter_sublist, fun name hname => ?_⟩
    rw [Dfa.mem_unreachableStates_iff h.wellFormed, and_iff_right hname]
  · rw [findings, Nfa.reported_findings]
    refine ⟨List.filter_sublist, fun name hname => ?_⟩
    rw [Nfa.mem_unreachableStates_iff h.wellFormed, and_iff_right hname]

theorem Automaton.reported_iff_avoided_after_symbol :
    let dfaDefinition :
    Dfa.Definition := ⟨["s", "p", "r"], ['a'], "p", ["r"], [("s", 'a', "p"), ("p", 'a', "r")]⟩
    let nfaDefinition : Nfa.Definition := ⟨["s", "p", "q", "r"], ['a'], "p", ["r"],
      [("s", none, ["p"]), ("p", some 'a', ["q"]), ("q", none, ["r"])]⟩
    ∃ d n, dfaDefinition.build false = .ok d ∧ nfaDefinition.build = .ok n ∧
      (∀ w, (∀ c ∈ w, c ∈ d.alphabet) → ∃ trace, d.trace w = .ok trace ∧ some "s" ∉ trace.states) ∧
      (∀ w, (∀ c ∈ w, c ∈ n.alphabet) → ∃ trace, n.trace w = .ok trace ∧ ∀ set ∈ trace.stateSets,
        "s" ∉ set) ∧
      "r" ∉ Finding.reported (dfa d).findings ∧ "r" ∉ Finding.reported (nfa n).findings := by
  intro dfaDefinition nfaDefinition
  let d : Dfa := ⟨⟨#["s", "p", "r"]⟩, ⟨['a'], by decide⟩, 1, #[false, false, true],
    ⟨#[#[some 1], #[some 2], #[none]]⟩⟩
  let n : Nfa := ⟨⟨#["s", "p", "q", "r"]⟩, ⟨['a'], by decide⟩, 1, #[false, false, false, true],
    #[[⟨none, 1⟩], [⟨some 'a', 2⟩], [⟨none, 3⟩], []]⟩
  have hd : dfaDefinition.build false = .ok d := by decide +kernel
  have hn : nfaDefinition.build = .ok n := by decide +kernel
  obtain ⟨hdfa, hnfa⟩ := reported_iff_avoided
  obtain ⟨-, hdfa⟩ := hdfa d (.definition hd)
  obtain ⟨-, hnfa⟩ := hnfa n (.definition hn)
  refine ⟨d, n, hd, hn, (hdfa "s" (by decide)).1 (by decide +kernel),
    (hnfa "s" (by decide)).1 (by decide +kernel),
    fun hr => ?_, fun hr => ?_⟩
  · obtain ⟨trace, htrace, havoids⟩ := (hdfa "r" (by decide)).1 hr ['a'] fun _ hc => hc
    have hstates : d.trace ['a'] = .ok ⟨['a'], [some "p", some "r"], true⟩ := by decide +kernel
    cases htrace.symm.trans hstates
    exact havoids (by decide)
  · obtain ⟨trace, htrace, havoids⟩ := (hnfa "r" (by decide)).1 hr ['a'] fun _ hc => hc
    have hsets : n.trace ['a'] = .ok ⟨['a'], [["p"], ["q", "r"]], true⟩ := by decide +kernel
    cases htrace.symm.trans hsets
    exact havoids ["q", "r"] (by decide) (by decide)

end Acceptors
