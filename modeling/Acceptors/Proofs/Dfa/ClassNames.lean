import Acceptors.Proofs.Dfa.Names

/-! How minimization names its states. A state stands for a class of reachable states; it keeps the
name of a lone member and is named after all members otherwise. States stand in the order of their
first members. -/

namespace Acceptors.Dfa

variable {d : Dfa} {i j s t : Nat} {group members : List Nat} {names : List (List String)}

/-- A state that a state of the minimal automaton stands for: both accept the same words. -/
def IsMember (d : Dfa) (j s : Nat) : Prop :=
  s ∈ d.reachable ∧ d.future (some s) = d.minimize.future (some j)

structure Members (d : Dfa) (j : Nat) (members : List Nat) : Prop where
  sorted : members.Pairwise (· < ·)
  mem_iff : ∀ s, s ∈ members ↔ d.IsMember j s

inductive ClassName : List String → String → Prop
  | lone (name : String) : ClassName [name] name
  | merged (first second : String) (rest : List String) (primes : Nat) :
    ClassName (first :: second :: rest)
      (primed ("\x7b" ++ String.intercalate "," (first :: second :: rest) ++ "\x7d") primes)

theorem className_primed {group : List String} (hnil : group ≠ []) (hlone : ∀ name, group ≠ [name])
    (primes : Nat) : ClassName group (primed (className group) primes) := by
  match group with
  | [] => exact absurd rfl hnil
  | [name] => exact absurd rfl (hlone name)
  | first :: second :: rest => exact .merged first second rest primes

theorem forall₂_nameClasses (hne : ∀ group ∈ names, group ≠ []) (taken : Std.TreeSet String) :
    List.Forall₂ ClassName names (nameClasses taken names) := by
  fun_induction nameClasses taken names with
  | case1 => exact .nil
  | case2 taken name rest ih => exact .cons (.lone name) (ih (List.forall_mem_cons.1 hne).2)
  | case3 taken members rest hmembers fresh ih =>
    obtain ⟨hnil, hrest⟩ := List.forall_mem_cons.1 hne
    obtain ⟨primes, hfresh, -, -⟩ := freshName_spec taken.contains taken.size (className members)
    have hname : ClassName members (freshName taken.contains taken.size (className members)) := by
      rw [hfresh]
      exact className_primed hnil hmembers primes
    exact .cons hname (ih hrest)

theorem isMember_iff_stands (h : d.WellFormed) (hj : j < d.minimize.states.size) :
    d.IsMember j s ↔ d.Stands j s := by
  constructor
  · rintro ⟨hs, hfuture⟩
    obtain ⟨t, ht⟩ := Stands.exists_of_lt hj
    exact ht.of_future_eq h hs (hfuture.trans (ht.future h))
  · intro hs
    exact ⟨hs.1, (hs.future h).symm⟩

theorem members_of_getElem?_groups (h : d.WellFormed) (hgroup : d.groups[j]? = some group) :
    d.Members j group := by
  rw [groups, List.getElem?_map, Option.map_eq_some_iff] at hgroup
  obtain ⟨k, hk, rfl⟩ := hgroup
  have hj : j < d.minimize.states.size := by
    rw [size_states_minimize]
    exact (List.getElem?_eq_some_iff.1 hk).1
  obtain ⟨⟨r, -, rfl⟩, -⟩ := mem_keptClasses_iff.1 (List.mem_of_getElem? hk)
  have hlt := d.classOf_lt r
  refine ⟨?_, fun s => ?_⟩
  · rw [Array.getD_eq_getD_getElem?, getElem?_members hlt, Option.getD_some]
    exact (Search.reachable_sorted _ _ _).filter _
  · rw [mem_members_iff hlt, isMember_iff_stands h hj, Stands, hk, Option.some_inj]
    exact and_congr_right fun _ => eq_comm

theorem Members.ne_nil (h : d.WellFormed) (hj : j < d.minimize.states.size)
    (hmembers : d.Members j members) :
    members ≠ [] := by
  obtain ⟨s, hs⟩ := Stands.exists_of_lt hj
  exact List.ne_nil_of_mem ((hmembers.mem_iff s).2 ((isMember_iff_stands h hj).2 hs))

theorem length_groups (d : Dfa) : d.groups.length = d.minimize.states.size := by
  rw [groups, List.length_map, size_states_minimize]

theorem exists_members (h : d.WellFormed) (hj : j < d.minimize.states.size) :
    ∃ members, d.Members j members ∧
    ClassName (members.map d.states.name) (d.minimize.states.name j) := by
  have hmembers : ∀ i (hi : i < d.groups.length), d.Members i d.groups[i] := fun i hi =>
    members_of_getElem?_groups h (List.getElem?_eq_getElem hi)
  have hne : ∀ names ∈ d.groups.map fun group => group.map d.states.name, names ≠ [] := by
    refine List.forall_mem_map.2 fun group hgroup hnil => ?_
    obtain ⟨i, hi, rfl⟩ := List.getElem_of_mem hgroup
    exact (hmembers i hi).ne_nil h (d.length_groups ▸ hi) (List.map_eq_nil_iff.1 hnil)
  have hlt : j < d.groups.length := d.length_groups ▸ hj
  refine ⟨d.groups[j], hmembers j hlt, ?_⟩
  have hnamed := forall₂_nameClasses hne
    (.ofList ((d.groups.map fun group => group.map d.states.name).filterMap loneName?))
  rw [← names_minimize] at hnamed
  have hname := hnamed.get (i := j) (by rwa [List.length_map]) hj
  rw [List.get_eq_getElem, List.get_eq_getElem, List.getElem_map, Array.getElem_toList] at hname
  rwa [StateTable.name, Array.getD_eq_getD_getElem?, Array.getElem?_eq_getElem hj]

theorem Stands.exists_before (hij : i < j) (ht : d.Stands j t) : ∃ s, d.Stands i s ∧ s < t := by
  obtain ⟨hreach, hkept⟩ := ht
  obtain ⟨hj, hclass⟩ := List.getElem?_eq_some_iff.1 hkept
  have hi : i < d.keptClasses.length := Nat.lt_trans hij hj
  have hlt : d.keptClasses[i] < d.partition.classOf t := by
    rw [← hclass]
    exact List.pairwise_iff_getElem.1 (List.pairwise_lt_range.filter _) i j hi hj hij
  obtain ⟨p, hp⟩ := List.mem_iff_getElem?.1 hreach
  have hplace : d.partition.classes.getD p 0 = d.partition.classOf t := by
    rw [Array.getD_eq_getD_getElem?, getElem?_classes_eq_classOf hp, Option.getD_some]
  obtain ⟨q, hq, hfirst⟩ := d.ordered_classes p _ (hplace ▸ hlt)
  obtain ⟨hplt, hpt⟩ := List.getElem?_eq_some_iff.1 hp
  have hqlt : q < d.reachable.length := Nat.lt_trans hq hplt
  have hs := List.getElem?_eq_getElem hqlt
  refine ⟨d.reachable[q], ⟨List.getElem_mem hqlt, ?_⟩, ?_⟩
  · rw [Array.getD_eq_getD_getElem?, getElem?_classes_eq_classOf hs, Option.getD_some] at hfirst
    rw [hfirst, List.getElem?_eq_getElem hi]
  · rw [← hpt]
    exact List.pairwise_iff_getElem.1 (Search.reachable_sorted _ _ _) q p hqlt hplt hq

theorem exists_isMember_before (h : d.WellFormed) (hij : i < j) (hj : j < d.minimize.states.size) :
    ∃ s, d.IsMember i s ∧ ∀ t, d.IsMember j t → s < t := by
  obtain ⟨members, hmembers, -⟩ := exists_members h hj
  obtain ⟨first, rest, rfl⟩ := List.exists_cons_of_ne_nil (hmembers.ne_nil h hj)
  have hfirst : d.Stands j first :=
    (isMember_iff_stands h hj).1 ((hmembers.mem_iff first).1 List.mem_cons_self)
  obtain ⟨s, hs, hlt⟩ := hfirst.exists_before hij
  refine ⟨s, (isMember_iff_stands h (Nat.lt_trans hij hj)).2 hs, fun t ht => ?_⟩
  rcases List.mem_cons.1 ((hmembers.mem_iff t).2 ht) with rfl | ht
  · exact hlt
  · exact Nat.lt_trans hlt (List.rel_of_pairwise_cons hmembers.sorted ht)

/-- The names of a minimal automaton are different, each is made of the declared names of all
members, and the states are in the order of their first members. The start state and all states that
accept something are members. Entering the names in a table adds no primes to them. -/
theorem states_named_after_members (h : d.Constructed) :
    d.minimize.states.Distinct ∧
      (∀ j < d.minimize.states.size, ∃ members, d.Members j members ∧
        ClassName (members.map d.states.name) (d.minimize.states.name j)) ∧
      (∀ i j, i < j → j < d.minimize.states.size →
        ∃ s, d.IsMember i s ∧ ∀ t, d.IsMember j t → s < t) ∧
      (∀ s ∈ d.reachable, s = d.start ∨ d.future (some s) ≠ 0 →
        ∃ j < d.minimize.states.size, d.IsMember j s) ∧
      d.minimize.states.names.toList.foldl StateTable.push .empty = d.minimize.states := by
  have hwf := h.wellFormed
  have hdistinct : d.minimize.states.Distinct := distinct_minimize h.distinct
  have hkept : ∀ s ∈ d.reachable, s = d.start ∨ d.future (some s) ≠ 0 → ∃ j, d.Stands j s := by
    rintro s hs (rfl | hlive)
    · exact ⟨_, .start hwf⟩
    · exact Stands.exists_of_future_ne_zero hwf hs hlive
  refine ⟨hdistinct, fun j hj => exists_members hwf hj,
    fun i j hij hj => exists_isMember_before hwf hij hj, fun s hs hlive => ?_, hdistinct.foldl_push⟩
  obtain ⟨j, hj⟩ := hkept s hs hlive
  exact ⟨j, hj.lt_size, (isMember_iff_stands hwf hj.lt_size).2 hj⟩

theorem states_named_after_members_primed :
    let f : Definition :=
      ⟨["s", "a", "b", "\x7ba,b\x7d", "\x7ba,b\x7d'"], ['0', '1'], "s", ["a", "b"],
      [("s", '0', "a"), ("s", '1', "\x7ba,b\x7d"), ("a", '0', "b"), ("a", '1', "s"),
        ("b", '0', "a"),
        ("b", '1', "s"), ("\x7ba,b\x7d", '0', "s"), ("\x7ba,b\x7d", '1', "\x7ba,b\x7d'"),
        ("\x7ba,b\x7d'", '0', "\x7ba,b\x7d'"), ("\x7ba,b\x7d'", '1', "s")]⟩
    ∃ d members, f.build true = .ok d ∧
      d.minimize.states.names = #["s", "\x7ba,b\x7d''", "\x7ba,b\x7d", "\x7ba,b\x7d'"] ∧
      d.minimize.states.Distinct ∧ d.Members 1 members ∧
      ClassName (members.map d.states.name) "\x7ba,b\x7d''" := by
  intro f
  let d : Dfa := ⟨⟨#["s", "a", "b", "\x7ba,b\x7d", "\x7ba,b\x7d'"]⟩, ⟨['0', '1'], by decide⟩, 0,
    #[false, true, true, false, false],
    ⟨#[#[some 1, some 3], #[some 2, some 0], #[some 1, some 0], #[some 0, some 4],
      #[some 4, some 0]]⟩⟩
  have hd : f.build true = .ok d := by decide +kernel
  have hnames : d.minimize.states.names = #["s", "\x7ba,b\x7d''", "\x7ba,b\x7d",
      "\x7ba,b\x7d'"] := by
    decide +kernel
  obtain ⟨hdistinct, hmembers, -⟩ := states_named_after_members (.definition hd)
  obtain ⟨members, hmem, hname⟩ := hmembers 1 (by rw [StateTable.size, hnames]; decide)
  rw [StateTable.name, hnames] at hname
  exact ⟨d, members, hd, hnames, hdistinct, hmem, hname⟩

end Acceptors.Dfa
