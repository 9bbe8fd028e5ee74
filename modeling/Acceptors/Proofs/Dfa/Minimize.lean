import Acceptors.Proofs.Dfa.Partition
import Acceptors.Proofs.TransitionTable

/-! The minimal automaton. Each of its states stands for the reachable states of one class, and its
transitions are those of the states it stands for, less the ones to states that accept nothing. -/

namespace Acceptors.Dfa

variable {d : Dfa} {s t i j k : Nat} {o o' : Option Nat} {c : Char} {w : List Char}

namespace Partition

theorem size_foldr_modify (pairs : List (Nat × Nat)) (groups : Array (List Nat)) :
    (pairs.foldr (fun m groups => groups.modify m.2 (m.1 :: ·)) groups).size = groups.size := by
  induction pairs with
  | nil => rfl
  | cons m pairs ih => rw [List.foldr_cons, Array.size_modify, ih]

theorem getElem?_foldr_modify (pairs : List (Nat × Nat)) (n : Nat) (hk : k < n) :
    (pairs.foldr (fun m groups => groups.modify m.2 (m.1 :: ·)) (Array.replicate n []))[k]? =
      some ((pairs.filter (·.2 = k)).map Prod.fst) := by
  induction pairs with
  | nil => exact Array.getElem?_replicate.trans (if_pos hk)
  | cons m pairs ih =>
    rw [List.foldr_cons, Array.getElem?_modify, ih, List.filter_cons]
    by_cases hm : m.2 = k
    · simp [hm]
    · simp [hm]

end Partition

theorem reachable_zip_classes (d : Dfa) : d.reachable.zip d.partition.classes.toList =
    d.reachable.map fun s => (s, d.partition.classOf s) := by
  refine List.ext_getElem? fun p => ?_
  have hclasses : d.partition.classes.toList[p]? = d.partition.classes[p]? := Array.getElem?_toList
  rw [List.getElem?_map, List.zip, List.getElem?_zipWith, hclasses]
  cases hs : d.reachable[p]? with
  | none => rfl
  | some s => rw [getElem?_classes_eq_classOf hs, Option.map_some]

theorem size_members (d : Dfa) :
    d.partition.members.size = Partition.count d.partition.classes := by
  rw [Partition.members, Partition.size_foldr_modify, Array.size_replicate]

theorem classOf_lt (d : Dfa) (s : Nat) : d.partition.classOf s < d.partition.members.size := by
  rw [size_members, ← Partition.kindOf_some]
  exact d.kindOf_lt_count (some s)

theorem getElem?_members (hk : k < d.partition.members.size) :
    d.partition.members[k]? = some (d.reachable.filter (d.partition.classOf · = k)) := by
  rw [size_members] at hk
  rw [Partition.members, Partition.getElem?_foldr_modify _ _ hk, reached_partition,
    reachable_zip_classes, List.filter_map, List.map_map]
  generalize d.partition.classOf = classOf
  exact congrArg some (List.map_id _)

theorem mem_members_iff (hk : k < d.partition.members.size) :
    s ∈ d.partition.members.getD k [] ↔ s ∈ d.reachable ∧ d.partition.classOf s = k := by
  rw [Array.getD_eq_getD_getElem?, getElem?_members hk, Option.getD_some, List.mem_filter,
    decide_eq_true_iff]

/-- The classes that become states: those with a member, other than the dead one unless the
automaton starts there. -/
def keptClasses (d : Dfa) : List Nat :=
  (List.range d.partition.members.size).filter fun k =>
    !(d.partition.members.getD k []).isEmpty &&
      (k != d.partition.dead || k == d.partition.classOf d.start)

def groups (d : Dfa) : List (List Nat) := d.keptClasses.map fun k => d.partition.members.getD k []

def number? (d : Dfa) (k : Nat) : Option Nat :=
  (places d.partition.members.size d.keptClasses).getD k none

def representative (d : Dfa) (j : Nat) : Nat :=
  (d.groups.map fun group => group.headD 0).toArray.getD j 0

def target? (d : Dfa) (j column : Nat) : Option Nat := do
  let image := d.partition.classOf (← d.table.get? (d.representative j) column)
  if image = d.partition.dead then none else d.number? image

theorem minimize_start : d.minimize.start = (d.number? (d.partition.classOf d.start)).getD 0 := by
  rw [minimize, number?, keptClasses]

theorem minimize_alphabet : d.minimize.alphabet = d.alphabet := by
  rw [minimize]

theorem minimize_table :
    d.minimize.table = .tabulate d.keptClasses.length d.alphabet.size d.target? := by
  rw [minimize]
  rfl

theorem minimize_accepting : d.minimize.accepting =
    (d.groups.map fun group => group.any fun s => d.isAccepting (some s)).toArray := by
  rw [minimize]
  rfl

theorem column?_minimize (d : Dfa) (c : Char) : d.minimize.column? c = d.column? c := by
  rw [column?, minimize_alphabet, column?]

theorem target?_eq_some_iff : d.target? j i = some k ↔ ∃ t,
    d.table.get? (d.representative j) i = some t ∧ d.partition.classOf t ≠ d.partition.dead ∧
      d.number? (d.partition.classOf t) = some k := by
  refine Option.bind_eq_some_iff.trans (exists_congr fun t => and_congr_right fun _ => ?_)
  rw [Option.ite_none_left_eq_some]

theorem length_nameClasses (taken : Std.TreeSet String) (names : List (List String)) :
    (nameClasses taken names).length = names.length := by
  fun_induction nameClasses taken names with
  | case1 => rfl
  | case2 _ name rest ih => rw [List.length_cons, List.length_cons, ih]
  | case3 _ members rest _ _ ih => rw [List.length_cons, List.length_cons, ih]

theorem size_states_minimize (d : Dfa) : d.minimize.states.size = d.keptClasses.length := by
  rw [minimize, StateTable.size, List.size_toArray, length_nameClasses, List.length_map,
    List.length_map]
  rfl

theorem nodup_keptClasses (d : Dfa) : d.keptClasses.Nodup := List.nodup_range.filter _

theorem mem_keptClasses_iff : k ∈ d.keptClasses ↔ (∃ s ∈ d.reachable, d.partition.classOf s = k) ∧
    (k ≠ d.partition.dead ∨ k = d.partition.classOf d.start) := by
  rw [keptClasses, List.mem_filter, List.mem_range, Bool.and_eq_true, Bool.or_eq_true, bne_iff_ne,
    beq_iff_eq, Bool.not_eq_true', List.isEmpty_eq_false_iff_exists_mem, ← and_assoc]
  refine and_congr_left fun _ => ?_
  constructor
  · rintro ⟨hk, s, hs⟩
    exact ⟨s, (mem_members_iff hk).1 hs⟩
  · rintro ⟨s, hs, rfl⟩
    exact ⟨d.classOf_lt s, s, (mem_members_iff (d.classOf_lt s)).2 ⟨hs, rfl⟩⟩

theorem number?_eq_some_iff : d.number? k = some j ↔ d.keptClasses[j]? = some k := by
  rw [number?, getD_places_eq_some_iff d.nodup_keptClasses]
  refine and_iff_right_of_imp fun hj => ?_
  obtain ⟨⟨s, _, rfl⟩, _⟩ := mem_keptClasses_iff.1 (List.mem_of_getElem? hj)
  exact d.classOf_lt s

/-- A state of the minimal automaton stands for the reachable states of its class. -/
def Stands (d : Dfa) (j s : Nat) : Prop :=
  s ∈ d.reachable ∧ d.keptClasses[j]? = some (d.partition.classOf s)

namespace Stands

theorem lt_size (hj : d.Stands j s) : j < d.minimize.states.size := by
  rw [size_states_minimize]
  exact (List.getElem?_eq_some_iff.1 hj.2).1

theorem start (h : d.WellFormed) : d.Stands d.minimize.start d.start := by
  have hstart := start_mem_reachable h
  have hkept := mem_keptClasses_iff.2 ⟨⟨d.start, hstart, rfl⟩, .inr rfl⟩
  obtain ⟨j, hj⟩ := List.mem_iff_getElem?.1 hkept
  rw [minimize_start, number?_eq_some_iff.2 hj]
  exact ⟨hstart, hj⟩

theorem exists_of_lt (hj : j < d.minimize.states.size) : ∃ s, d.Stands j s := by
  rw [size_states_minimize] at hj
  have hget := List.getElem?_eq_getElem hj
  obtain ⟨⟨s, hs, hclass⟩, _⟩ := mem_keptClasses_iff.1 (List.getElem_mem hj)
  exact ⟨s, hs, by rw [hget, hclass]⟩

theorem exists_of_future_ne_zero (h : d.WellFormed) (hs : s ∈ d.reachable)
    (hlive : d.future (some s) ≠ 0) : ∃ j, d.Stands j s := by
  have hdead : d.partition.classOf s ≠ d.partition.dead := by
    intro heq
    rw [← Partition.kindOf_some, ← Partition.kindOf_none,
      kindOf_eq_iff h (visited_some hs) d.visited_none, future_none] at heq
    exact hlive heq
  obtain ⟨j, hj⟩ := List.mem_iff_getElem?.1 (mem_keptClasses_iff.2 ⟨⟨s, hs, rfl⟩, .inl hdead⟩)
  exact ⟨j, hs, hj⟩

theorem future_eq_iff (h : d.WellFormed) (hs : d.Stands j s) (ht : d.Stands k t) :
    d.future (some s) = d.future (some t) ↔ j = k := by
  rw [← kindOf_eq_iff h (visited_some hs.1) (visited_some ht.1), Partition.kindOf_some,
    Partition.kindOf_some]
  constructor
  · intro heq
    have hj := (List.getElem?_eq_some_iff.1 hs.2).1
    exact (List.getElem?_inj hj d.nodup_keptClasses).1 (by rw [hs.2, ht.2, heq])
  · rintro rfl
    exact Option.some.inj (hs.2.symm.trans ht.2)

theorem eq_start (h : d.WellFormed) (hj : d.Stands j s) (hdead : d.future (some s) = 0) :
    j = d.minimize.start := by
  have heq : d.partition.classOf s = d.partition.dead := by
    rw [← Partition.kindOf_some, ← Partition.kindOf_none,
      kindOf_eq_iff h (visited_some hj.1) d.visited_none, hdead, future_none]
  obtain ⟨_, hne | hstart⟩ := mem_keptClasses_iff.1 (List.mem_of_getElem? hj.2)
  · exact absurd heq hne
  · have hst := start h
    exact (List.getElem?_inj (List.getElem?_eq_some_iff.1 hj.2).1 d.nodup_keptClasses).1
      (by rw [hj.2, hst.2, hstart])

theorem getElem?_groups (hj : d.Stands j s) :
    ∃ group, d.groups[j]? = some group ∧ s ∈ group ∧ ∀ t ∈ group, d.Stands j t := by
  have hlt := d.classOf_lt s
  refine ⟨d.partition.members.getD (d.partition.classOf s) [], ?_, ?_, fun t ht => ?_⟩
  · rw [groups, List.getElem?_map, hj.2, Option.map_some]
  · exact (mem_members_iff hlt).2 ⟨hj.1, rfl⟩
  · obtain ⟨ht, hclass⟩ := (mem_members_iff hlt).1 ht
    exact ⟨ht, by rw [hclass, hj.2]⟩

theorem isAccepting (h : d.WellFormed) (hj : d.Stands j s) :
    d.minimize.isAccepting (some j) = d.isAccepting (some s) := by
  obtain ⟨group, hgroup, hs, hstands⟩ := hj.getElem?_groups
  have haccepting : ∀ t ∈ group, d.isAccepting (some t) = d.isAccepting (some s) := by
    intro t ht
    have hfuture := (future_eq_iff h (hstands t ht) hj).2 rfl
    rw [Bool.eq_iff_iff, ← nil_mem_future_iff, ← nil_mem_future_iff, hfuture]
  rw [Dfa.isAccepting, minimize_accepting, Array.getD_eq_getD_getElem?, List.getElem?_toArray,
    List.getElem?_map, hgroup, Option.map_some, Option.getD_some, Bool.eq_iff_iff, List.any_eq_true]
  constructor
  · rintro ⟨t, ht, hacc⟩
    rwa [← haccepting t ht]
  · intro hacc
    exact ⟨s, hs, hacc⟩

theorem representative (hj : d.Stands j s) : d.Stands j (d.representative j) := by
  obtain ⟨group, hgroup, hs, hstands⟩ := hj.getElem?_groups
  rw [Dfa.representative, Array.getD_eq_getD_getElem?, List.getElem?_toArray, List.getElem?_map,
    hgroup, Option.map_some, Option.getD_some]
  obtain ⟨r, group, rfl⟩ := List.exists_cons_of_ne_nil (List.ne_nil_of_mem hs)
  exact hstands r List.mem_cons_self

theorem of_future_eq (h : d.WellFormed) (hj : d.Stands j s) (ht : t ∈ d.reachable)
    (heq : d.future (some t) = d.future (some s)) : d.Stands j t := by
  rw [← kindOf_eq_iff h (visited_some ht) (visited_some hj.1), Partition.kindOf_some,
    Partition.kindOf_some] at heq
  exact ⟨ht, by rw [heq, hj.2]⟩

theorem exists_next? (h : d.WellFormed) (hs : d.Stands j s) (ht : d.Stands j t)
    (hnext : ∃ u, d.next? s c = some u ∧ d.future (some u) ≠ 0 ∧ d.Stands k u) :
    ∃ u, d.next? t c = some u ∧ d.future (some u) ≠ 0 ∧ d.Stands k u := by
  obtain ⟨u, hu, hlive, hk⟩ := hnext
  have heq : d.future (d.next? t c) = d.future (some u) := by
    rw [← hu, ← step_some, ← step_some, future_step, future_step, (future_eq_iff h ht hs).2 rfl]
  obtain ⟨v, hv⟩ := Dfa.exists_of_future_ne_zero (heq ▸ hlive)
  rw [hv] at heq
  exact ⟨v, hv, heq ▸ hlive, hk.of_future_eq h (mem_reachable_of_next? h ht.1 hv) heq⟩

end Stands

theorem classOf_ne_dead_iff (h : d.WellFormed) (hs : s ∈ d.reachable) :
    d.partition.classOf s ≠ d.partition.dead ↔ d.future (some s) ≠ 0 := by
  rw [← Partition.kindOf_some, ← Partition.kindOf_none, ← d.future_none,
    Ne, kindOf_eq_iff h (visited_some hs) d.visited_none]

theorem next?_minimize_representative (h : d.WellFormed) (hj : d.Stands j s) :
    d.minimize.next? j c = some k ↔
      ∃ t, d.next? (d.representative j) c = some t ∧ d.future (some t) ≠ 0 ∧ d.Stands k t := by
  have hlt : j < d.keptClasses.length := d.size_states_minimize ▸ hj.lt_size
  rw [next?_eq_some_iff, column?_minimize, minimize_table]
  constructor
  · rintro ⟨i, hi, hget⟩
    obtain ⟨_, _, htarget⟩ := TransitionTable.get?_tabulate_eq_some_iff.1 hget
    obtain ⟨t, ht, hclass, hk⟩ := target?_eq_some_iff.1 htarget
    have hnext : d.next? (d.representative j) c = some t := next?_eq_some_iff.2 ⟨i, hi, ht⟩
    have hreach := mem_reachable_of_next? h hj.representative.1 hnext
    exact ⟨t, hnext, (classOf_ne_dead_iff h hreach).1 hclass, hreach, number?_eq_some_iff.1 hk⟩
  · rintro ⟨t, hnext, hlive, hk⟩
    obtain ⟨i, hi, ht⟩ := next?_eq_some_iff.1 hnext
    have hi' : i < d.alphabet.size := (List.getElem?_eq_some_iff.1 (column?_eq_some_iff.1 hi)).1
    exact ⟨i, hi, TransitionTable.get?_tabulate_eq_some_iff.2 ⟨hlt, hi', target?_eq_some_iff.2
      ⟨t, ht, (classOf_ne_dead_iff h hk.1).2 hlive, number?_eq_some_iff.2 hk.2⟩⟩⟩

theorem Stands.next?_eq_some_iff (h : d.WellFormed) (hj : d.Stands j s) :
    d.minimize.next? j c = some k ↔
      ∃ t, d.next? s c = some t ∧ d.future (some t) ≠ 0 ∧ d.Stands k t := by
  rw [next?_minimize_representative h hj]
  exact ⟨exists_next? h hj.representative hj, exists_next? h hj hj.representative⟩

/-- Runs that go in step: the states stand for each other, or nothing is accepted from here on. -/
def InStep (d : Dfa) (o' o : Option Nat) : Prop :=
  (∃ j s, o' = some j ∧ o = some s ∧ d.Stands j s) ∨ (o' = none ∧ d.future o = 0)

theorem InStep.step (h : d.WellFormed) (hin : d.InStep o' o) (c : Char) :
    d.InStep (d.minimize.step o' c) (d.step o c) := by
  rcases hin with ⟨j, s, rfl, rfl, hj⟩ | ⟨rfl, hdead⟩
  · rw [step_some, step_some]
    by_cases hlive : d.future (d.next? s c) = 0
    · have hnone : d.minimize.next? j c = none := by
        rw [Option.eq_none_iff_forall_ne_some]
        intro k hk
        obtain ⟨t, ht, hne, _⟩ := (hj.next?_eq_some_iff h).1 hk
        exact hne (ht ▸ hlive)
      exact .inr ⟨hnone, hlive⟩
    · obtain ⟨t, ht⟩ := exists_of_future_ne_zero hlive
      rw [ht] at hlive
      obtain ⟨k, hk⟩ := Stands.exists_of_future_ne_zero h (mem_reachable_of_next? h hj.1 ht) hlive
      exact .inl ⟨k, t, (hj.next?_eq_some_iff h).2 ⟨t, ht, hlive, hk⟩, ht, hk⟩
  · refine .inr ⟨rfl, ?_⟩
    rw [future_step, hdead]
    rfl

theorem InStep.run (h : d.WellFormed) (hin : d.InStep o' o) (w : List Char) :
    d.InStep (d.minimize.run o' w) (d.run o w) := by
  induction w generalizing o' o with
  | nil => exact hin
  | cons c w ih => exact ih (hin.step h c)

theorem InStep.future (h : d.WellFormed) (hin : d.InStep o' o) :
    d.minimize.future o' = d.future o := by
  ext w
  rw [mem_future_iff, mem_future_iff]
  rcases hin.run h w with ⟨j, s, hj', hs, hj⟩ | ⟨hnone, hdead⟩
  · rw [hj', hs, hj.isAccepting h]
  · rw [hnone, ← nil_mem_future_iff (o := d.run o w), hdead]
    exact iff_of_false Bool.noConfusion (Language.notMem_zero [])

theorem Stands.future (h : d.WellFormed) (hj : d.Stands j s) :
    d.minimize.future (some j) = d.future (some s) :=
  InStep.future h (.inl ⟨j, s, rfl, rfl, hj⟩)

theorem recognizes_minimize (h : d.WellFormed) (w : List Char) :
    d.minimize.recognizes w = d.recognizes w := by
  have hfuture := Stands.future h (Stands.start h)
  rw [Bool.eq_iff_iff]
  exact Set.ext_iff.1 hfuture w

theorem wellFormed_minimize (h : d.WellFormed) : d.minimize.WellFormed := by
  refine ⟨(Stands.start h).lt_size, fun s i t ht => ?_⟩
  rw [minimize_table] at ht
  obtain ⟨_, _, htarget⟩ := TransitionTable.get?_tabulate_eq_some_iff.1 ht
  obtain ⟨_, _, _, hnumber⟩ := target?_eq_some_iff.1 htarget
  rw [size_states_minimize]
  exact (List.getElem?_eq_some_iff.1 (number?_eq_some_iff.1 hnumber)).1

end Acceptors.Dfa
