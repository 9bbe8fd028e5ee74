import Mathlib.Data.List.Sort
import Acceptors.Proofs.Dfa.Canonical
import Acceptors.Proofs.Dfa.Names

/-! Minimal automata are fixed by minimization. Each of their states is a class of its own, and the
classes are numbered in the order of the states, so numbers and names stay as they are. -/

namespace Acceptors.Dfa

variable {d m : Dfa} {s t i j k : Nat}

attribute [ext] Dfa

structure Filled (m : Dfa) : Prop where
  accepting : m.accepting.size = m.states.size
  table : m.table.Shaped m.states.size m.alphabet.size

theorem filled_minimize (d : Dfa) : d.minimize.Filled where
  accepting := by
    rw [minimize_accepting, size_states_minimize, List.size_toArray, List.length_map, groups,
      List.length_map]
  table := by
    rw [minimize_table, size_states_minimize, minimize_alphabet]
    exact TransitionTable.shaped_tabulate

theorem nameClasses_lone (taken : Std.TreeSet String) (names : List String) :
    nameClasses taken (names.map fun name => [name]) = names := by
  induction names with
  | nil => rfl
  | cons name names ih => rw [List.map_cons, nameClasses, ih]

namespace Minimal

theorem mem_reachable_iff (h : m.Minimal) : s ∈ m.reachable ↔ s < m.states.size :=
  ⟨lt_of_mem_reachable, fun hs => (Dfa.mem_reachable_iff h.wellFormed).2 (h.reached s hs)⟩

theorem reachable_eq (h : m.Minimal) : m.reachable = List.range m.states.size :=
  (Search.reachable_sorted _ _ _).eq_of_mem_iff List.pairwise_lt_range fun s => by
    rw [← reachable, h.mem_reachable_iff, List.mem_range]

theorem classOf_inj (h : m.Minimal) (hs : s < m.states.size) (ht : t < m.states.size) :
    m.partition.classOf s = m.partition.classOf t ↔ s = t := by
  refine ⟨fun heq => h.distinct s hs t ht ?_, fun heq => by rw [heq]⟩
  rw [← kindOf_eq_iff h.wellFormed (visited_some (h.mem_reachable_iff.2 hs))
    (visited_some (h.mem_reachable_iff.2 ht))]
  exact heq

theorem classOf_eq (h : m.Minimal) (hs : s < m.states.size) : m.partition.classOf s = s := by
  have hclass : ∀ p < m.states.size, m.partition.classes.getD p 0 = m.partition.classOf p := by
    intro p hp
    have hplace : m.reachable[p]? = some p := by rw [h.reachable_eq, List.getElem?_range hp]
    rw [Array.getD_eq_getD_getElem?, getElem?_classes_eq_classOf hplace, Option.getD_some]
  rw [← hclass s hs]
  refine m.ordered_classes.getD_eq_self (fun p hp q hq heq => ?_) hs
  rwa [hclass p hp, hclass q hq, h.classOf_inj hp hq] at heq

theorem eq_start_of_classOf_eq_dead (h : m.Minimal) (hs : s < m.states.size)
    (hdead : m.partition.classOf s = m.partition.dead) : s = m.start := by
  have hfuture : m.future (some s) = 0 := by
    rw [← m.future_none, ← kindOf_eq_iff h.wellFormed (visited_some (h.mem_reachable_iff.2 hs))
      m.visited_none]
    exact hdead
  obtain ⟨w, hw, rfl | hne⟩ := h.future_mem_quotients hs
  · exact (h.future_eq_language_iff hs).1 hw
  · exact absurd hfuture hne

theorem keptClasses_eq (h : m.Minimal) : m.keptClasses = List.range m.states.size := by
  refine (List.pairwise_lt_range.filter _).eq_of_mem_iff List.pairwise_lt_range fun k => ?_
  rw [← keptClasses, mem_keptClasses_iff, List.mem_range]
  constructor
  · rintro ⟨⟨s, hs, rfl⟩, -⟩
    rw [h.mem_reachable_iff] at hs
    rwa [h.classOf_eq hs]
  · intro hk
    refine ⟨⟨k, h.mem_reachable_iff.2 hk, h.classOf_eq hk⟩, ?_⟩
    rw [h.classOf_eq h.wellFormed.start_lt, ne_eq, or_iff_not_imp_left, not_not]
    intro hdead
    exact h.eq_start_of_classOf_eq_dead hk ((h.classOf_eq hk).trans hdead)

theorem number?_eq_some_iff (h : m.Minimal) (hk : k < m.states.size) :
    m.number? k = some j ↔ j = k := by
  rw [Dfa.number?_eq_some_iff, h.keptClasses_eq]
  constructor
  · intro hj
    obtain ⟨hlt, hj⟩ := List.getElem?_eq_some_iff.1 hj
    rwa [List.getElem_range] at hj
  · rintro rfl
    exact List.getElem?_range hk

theorem groups_eq (h : m.Minimal) : m.groups = (List.range m.states.size).map fun s => [s] := by
  rw [groups, h.keptClasses_eq, List.map_inj_left]
  intro k hk
  rw [List.mem_range] at hk
  have hlt : k < m.partition.members.size := h.classOf_eq hk ▸ m.classOf_lt k
  have hsorted : (m.partition.members.getD k []).Pairwise (· < ·) := by
    rw [Array.getD_eq_getD_getElem?, getElem?_members hlt, Option.getD_some]
    exact (Search.reachable_sorted _ _ _).filter _
  refine hsorted.eq_of_mem_iff (List.pairwise_singleton _ k) fun s => ?_
  rw [mem_members_iff hlt, h.mem_reachable_iff, List.mem_singleton]
  constructor
  · rintro ⟨hs, hclass⟩
    rwa [h.classOf_eq hs] at hclass
  · rintro rfl
    exact ⟨hk, h.classOf_eq hk⟩

theorem representative_eq (h : m.Minimal) (hj : j < m.states.size) : m.representative j = j := by
  rw [representative, h.groups_eq, List.map_map, Array.getD_eq_getD_getElem?, List.getElem?_toArray,
    List.getElem?_map, List.getElem?_range hj]
  rfl

theorem target?_eq (h : m.Minimal) (hj : j < m.states.size) (hi : i < m.alphabet.size) :
    m.target? j i = m.table.get? j i := by
  ext k
  rw [target?_eq_some_iff, h.representative_eq hj]
  constructor
  · rintro ⟨t, ht, -, hnumber⟩
    have hlt := h.wellFormed.target_lt j i t ht
    rw [h.classOf_eq hlt, h.number?_eq_some_iff hlt] at hnumber
    rwa [hnumber]
  · intro ht
    have hlt := h.wellFormed.target_lt j i k ht
    have hc : m.column? m.alphabet.symbols[i] = some i :=
      column?_eq_some_iff.2 (List.getElem?_eq_getElem hi)
    have hlive := h.live j hj _ k (Dfa.next?_eq_some_iff.2 ⟨i, hc, ht⟩)
    refine ⟨k, ht, (classOf_ne_dead_iff h.wellFormed (h.mem_reachable_iff.2 hlt)).2 hlive, ?_⟩
    rw [h.classOf_eq hlt, h.number?_eq_some_iff hlt]

theorem states_minimize (h : m.Minimal) : m.minimize.states = m.states := by
  have hnames : (m.groups.map fun group => group.map m.states.name) =
      m.states.names.toList.map fun name => [name] := by
    rw [h.groups_eq, ← array_map_getD_range m.states.names "", List.map_map, List.map_map]
    rfl
  have hlist : m.minimize.states.names.toList = m.states.names.toList := by
    rw [names_minimize, hnames, nameClasses_lone]
  exact congrArg StateTable.mk (Array.toList_inj.1 hlist)

theorem start_minimize (h : m.Minimal) : m.minimize.start = m.start := by
  have hstart := h.wellFormed.start_lt
  rw [minimize_start, h.classOf_eq hstart, (h.number?_eq_some_iff hstart).2 rfl]
  rfl

theorem accepting_minimize (h : m.Minimal) (hf : m.Filled) :
    m.minimize.accepting = m.accepting := by
  have hmap : (List.range m.states.size).map (fun s => [s].any fun s => m.isAccepting (some s)) =
      m.accepting.toList := by
    rw [← hf.accepting, ← array_map_getD_range m.accepting false]
    exact List.map_congr_left fun s _ => Bool.or_false _
  rw [minimize_accepting, h.groups_eq, List.map_map, ← Array.toList_inj]
  exact hmap

theorem table_minimize (h : m.Minimal) (hf : m.Filled) : m.minimize.table = m.table := by
  rw [minimize_table, h.keptClasses_eq, List.length_range]
  exact hf.table.tabulate_eq fun j hj i hi => h.target?_eq hj hi

theorem minimize_eq (h : m.Minimal) (hf : m.Filled) : m.minimize = m :=
  Dfa.ext h.states_minimize m.minimize_alphabet h.start_minimize (h.accepting_minimize hf)
    (h.table_minimize hf)

end Minimal

/-- Minimizing a second time changes nothing, names and numbers of states included. -/
theorem minimize_minimize (h : d.Constructed) : d.minimize.minimize = d.minimize :=
  (minimal_minimize h.wellFormed).minimize_eq d.filled_minimize

/-- The second pass keeps the prime of a merged name, since the states of the first pass are lone
members. -/
theorem minimize_minimize_primed :
    let f : Definition := ⟨["s", "a", "b", "\x7ba,b\x7d"], ['0', '1'], "s", ["a", "b"],
      [("s", '0', "a"), ("s", '1', "\x7ba,b\x7d"), ("a", '0', "b"), ("a", '1', "s"),
        ("b", '0', "a"),
        ("b", '1', "s"), ("\x7ba,b\x7d", '0', "s"), ("\x7ba,b\x7d", '1', "\x7ba,b\x7d")]⟩
    ∃ d, f.build true = .ok d ∧
      d.minimize.minimize.states.names = #["s", "\x7ba,b\x7d'", "\x7ba,b\x7d"] ∧
      d.minimize.minimize = d.minimize := by
  intro f
  let d : Dfa := ⟨⟨#["s", "a", "b", "\x7ba,b\x7d"]⟩, ⟨['0', '1'], by decide⟩, 0,
    #[false, true, true, false],
    ⟨#[#[some 1, some 3], #[some 2, some 0], #[some 1, some 0], #[some 0, some 3]]⟩⟩
  have hd : f.build true = .ok d := by decide +kernel
  have hnames : d.minimize.states.names = #["s", "\x7ba,b\x7d'", "\x7ba,b\x7d"] := by decide +kernel
  have hfixed : d.minimize.minimize = d.minimize := minimize_minimize (.definition hd)
  exact ⟨d, hd, by rw [hfixed, hnames], hfixed⟩

end Acceptors.Dfa
