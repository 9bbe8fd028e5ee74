import Mathlib.Tactic.Common
import Acceptors.Proofs.Dfa.Constructed
import Acceptors.Proofs.StateTable

/-! The names of minimal automata. A class with one member keeps a declared name, and every other
name is fresh, so the states of every automaton can be told apart by their names. -/

namespace Acceptors.Dfa

variable {d : Dfa} {name : String} {names : List (List String)} {taken : Std.TreeSet String}

def loneName? : List String → Option String
  | [name] => some name
  | _ => none

theorem loneName?_eq_some_iff {group : List String} :
    loneName? group = some name ↔ group = [name] := by
  match group with
  | [] => simp [loneName?]
  | [_] => simp [loneName?]
  | _ :: _ :: _ => simp [loneName?]

theorem length_le_size_taken : taken.toList.length ≤ taken.size :=
  Nat.le_of_eq Std.TreeSet.length_toList

theorem nodup_nameClasses (hlone : (names.filterMap loneName?).Nodup)
    (htaken : ∀ s ∈ names.filterMap loneName?, taken.contains s = true) :
    (nameClasses taken names).Nodup ∧
      ∀ s ∈ nameClasses taken names, s ∈ names.filterMap loneName? ∨ taken.contains s = false := by
  fun_induction nameClasses taken names with
  | case1 => exact ⟨.nil, fun s hs => absurd hs List.not_mem_nil⟩
  | case2 taken name rest ih =>
    have hcons : ([name] :: rest).filterMap loneName? = name :: rest.filterMap loneName? := rfl
    rw [hcons] at hlone htaken ⊢
    obtain ⟨hname, hrest⟩ := List.nodup_cons.1 hlone
    obtain ⟨hnodup, hnames⟩ := ih hrest fun s hs => htaken s (List.mem_cons_of_mem _ hs)
    refine ⟨List.nodup_cons.2 ⟨fun hmem => ?_, hnodup⟩, fun s hs => ?_⟩
    · rcases hnames name hmem with hlone | hfree
      · exact hname hlone
      · exact absurd (htaken name List.mem_cons_self) (hfree ▸ Bool.false_ne_true)
    · rcases List.mem_cons.1 hs with rfl | hs
      · exact .inl List.mem_cons_self
      · exact (hnames s hs).imp_left (List.mem_cons_of_mem _)
  | case3 taken members rest hmembers fresh ih =>
    have hcons : (members :: rest).filterMap loneName? = rest.filterMap loneName? := by
      refine List.filterMap_cons_none (Option.eq_none_iff_forall_ne_some.2 fun name hname => ?_)
      exact hmembers name (loneName?_eq_some_iff.1 hname)
    rw [hcons] at hlone htaken ⊢
    have hfree : taken.contains fresh = false :=
      freshName_free (className members) (fun s hs => Std.TreeSet.mem_toList.2 hs)
        length_le_size_taken
    have hinsert : ∀ s, (taken.insert fresh).contains s = true ↔
        s = fresh ∨ taken.contains s = true := by
      intro s
      rw [Std.TreeSet.contains_insert, Bool.or_eq_true, beq_iff_eq, Std.compare_eq_iff_eq, eq_comm]
    obtain ⟨hnodup, hnames⟩ := ih hlone fun s hs => (hinsert s).2 (.inr (htaken s hs))
    refine ⟨List.nodup_cons.2 ⟨fun hmem => ?_, hnodup⟩, fun s hs => ?_⟩
    · rcases hnames fresh hmem with hlone | hnew
      · exact absurd (htaken fresh hlone) (hfree ▸ Bool.false_ne_true)
      · exact absurd ((hinsert fresh).2 (.inl rfl)) (hnew ▸ Bool.false_ne_true)
    · rcases List.mem_cons.1 hs with rfl | hs
      · exact .inr hfree
      · refine (hnames s hs).imp_right fun hnew => ?_
        rw [Bool.eq_false_iff] at hnew ⊢
        exact fun hs => hnew ((hinsert s).2 (.inr hs))

theorem names_minimize (d : Dfa) : d.minimize.states.names.toList =
    nameClasses (.ofList ((d.groups.map fun group => group.map d.states.name).filterMap loneName?))
      (d.groups.map fun group => group.map d.states.name) := by
  rw [minimize]
  rfl

theorem nodup_loneNames (h : d.states.Distinct) :
    ((d.groups.map fun group => group.map d.states.name).filterMap loneName?).Nodup := by
  have hlone : ∀ k ∈ d.keptClasses, ∀ name,
      loneName? ((d.partition.members.getD k []).map d.states.name) = some name →
        ∃ s < d.states.size, d.partition.classOf s = k ∧ d.states.name s = name := by
    intro k hk name hname
    obtain ⟨s, hs, rfl⟩ := List.map_eq_singleton_iff.1 (loneName?_eq_some_iff.1 hname)
    obtain ⟨⟨t, -, rfl⟩, -⟩ := mem_keptClasses_iff.1 hk
    obtain ⟨hreach, hclass⟩ := (mem_members_iff (d.classOf_lt t)).1 (hs ▸ List.mem_singleton.2 rfl)
    exact ⟨s, lt_of_mem_reachable hreach, hclass, rfl⟩
  rw [groups, List.map_map, List.filterMap_map, List.Nodup, List.pairwise_filterMap]
  refine d.nodup_keptClasses.imp_of_mem fun {k k'} hk hk' hne name hname name' hname' heq => hne ?_
  obtain ⟨s, hs, rfl, hsname⟩ := hlone k hk name hname
  obtain ⟨s', hs', rfl, hsname'⟩ := hlone k' hk' name' hname'
  rw [(h.name_inj hs hs').1 (hsname.trans (heq.trans hsname'.symm))]

theorem distinct_minimize (h : d.states.Distinct) : d.minimize.states.Distinct := by
  rw [StateTable.Distinct, names_minimize]
  refine (nodup_nameClasses (nodup_loneNames h) fun s hs => ?_).1
  rw [Std.TreeSet.contains_ofList]
  exact List.contains_iff_mem.2 hs

theorem Constructed.distinct (h : d.Constructed) : d.states.Distinct := by
  induction h with
  | definition h => exact (Definition.build_eq_ok_iff.1 h).distinct
  | subsets h => exact StateTable.distinct_generate _
  | minimal _ ih => exact distinct_minimize ih

end Acceptors.Dfa
