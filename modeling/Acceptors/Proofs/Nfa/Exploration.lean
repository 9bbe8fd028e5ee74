import Mathlib.Data.List.Sublists
import Mathlib.Tactic.Common
import Acceptors.Nfa.Determinize
import Acceptors.Proofs.Nfa.Determinize
import Acceptors.Proofs.Search

/-! How far the subset construction goes. Only live sets of words are found, each of them once, so
there are fewer than two to the number of states, and the exploration expands all of them before its
fuel is used up. -/

namespace Acceptors.Nfa

variable {n : Nfa} {set : StateSet} {w : List Char} {c : Char}

theorem closure_sublist (n : Nfa) (set : StateSet) : (n.closure set).Sublist n.stateIds :=
  Search.reachable_sublist _ _ _

theorem run_sublist (hset : set.Sublist n.stateIds) (w : List Char) :
    (n.run set w).Sublist n.stateIds := by
  induction w generalizing set with
  | nil => exact hset
  | cons c w ih => exact ih (n.closure_sublist _)

theorem run_concat (n : Nfa) (set : StateSet) (w : List Char) (c : Char) :
    n.run set (w ++ [c]) = n.step (n.run set w) c := by
  rw [run, List.foldl_concat, ← run]

/-- The live sets of the words over the alphabet, unless they are empty. -/
def Live (n : Nfa) (set : StateSet) : Prop :=
  set ≠ [] ∧ ∃ w, (∀ c ∈ w, c ∈ n.alphabet) ∧ n.run n.startSet w = set

theorem Live.sublist (h : n.Live set) : set.Sublist n.stateIds := by
  obtain ⟨_, w, _, rfl⟩ := h
  exact run_sublist (n.closure_sublist _) w

theorem live_startSet (h : n.WellFormed) : n.Live n.startSet :=
  ⟨startSet_ne_nil h, [], fun _ hc => absurd hc List.not_mem_nil, rfl⟩

theorem Live.step (h : n.Live set) (hc : c ∈ n.alphabet) (hne : n.step set c ≠ []) :
    n.Live (n.step set c) := by
  obtain ⟨_, w, hw, rfl⟩ := h
  refine ⟨hne, w ++ [c], fun a ha => ?_, n.run_concat _ w c⟩
  rcases List.mem_append.1 ha with ha | ha
  · exact hw a ha
  · exact List.mem_singleton.1 ha ▸ hc

namespace Subsets

variable {found further : Subsets} {rows : Array (List (Option Nat))} {fuel more : Nat}

theorem live_locate (h : ∀ s ∈ found.sets, n.Live s) (hset : set ≠ [] → n.Live set) :
    ∀ s ∈ (found.locate set).1.sets, n.Live s := by
  rw [locate]
  split
  · exact h
  · rename_i hne
    split
    · exact h
    · intro s hs
      rcases Array.mem_push.1 hs with hs | rfl
      · exact h s hs
      · exact hset fun hnil => hne (List.isEmpty_iff.2 hnil)

theorem live_expand (hset : n.Live set) (symbols : List Char)
    (hsymbols : ∀ c ∈ symbols, c ∈ n.alphabet) (h : ∀ s ∈ found.sets, n.Live s) :
    ∀ s ∈ (expand n set symbols found).1.sets, n.Live s := by
  induction symbols generalizing found with
  | nil => exact h
  | cons c symbols ih =>
    obtain ⟨hc, hsymbols⟩ := List.forall_mem_cons.1 hsymbols
    exact ih hsymbols (live_locate h (hset.step hc))

/-- What else holds at every point of an exploration: it has gone astray nowhere, and no row is
without a set. -/
structure Bounded (n : Nfa) (found : Subsets) (rows : Array (List (Option Nat))) : Prop where
  explored : Explored n found rows
  live : ∀ s ∈ found.sets, n.Live s
  rows_le : rows.size ≤ found.sets.size

theorem Bounded.expand (h : Bounded n found rows) (hset : found.sets[rows.size]? = some set) :
    Bounded n (expand n set n.alphabet.symbols found).1
      (rows.push (expand n set n.alphabet.symbols found).2) := by
  obtain ⟨_, hextends, _⟩ := expand_spec (n := n) set n.alphabet.symbols h.explored.indexed
  refine ⟨h.explored.expand hset, ?_, ?_⟩
  · exact live_expand (h.live set (Array.mem_of_getElem? hset)) _ (fun _ hc => hc) h.live
  · rw [Array.size_push]
    exact (Array.getElem?_eq_some_iff.1 (hextends _ _ hset)).1

theorem Bounded.explore (fuel : Nat) (h : Bounded n found rows) :
    Bounded n (explore n fuel found rows).1 (explore n fuel found rows).2 := by
  induction fuel generalizing found rows with
  | zero => exact h
  | succ fuel ih =>
    rw [Subsets.explore]
    split
    · exact h
    · rename_i set hset
      exact ih (h.expand hset)

/-- The measure: a set that was not found yet is one of the subsets that are left. -/
theorem Bounded.size_lt (h : Bounded n found rows) : found.sets.size < 2 ^ n.states.size := by
  have hnodup : ([] :: found.sets.toList).Nodup := by
    refine List.nodup_cons.2 ⟨fun hnil => ?_, h.explored.indexed.nodup⟩
    exact (h.live [] (Array.mem_toList_iff.1 hnil)).1 rfl
  have hsubset : [] :: found.sets.toList ⊆ n.stateIds.sublists := by
    refine List.cons_subset.2 ⟨List.mem_sublists.2 (List.nil_sublist _), fun s hs => ?_⟩
    exact List.mem_sublists.2 (h.live s (Array.mem_toList_iff.1 hs)).sublist
  have hle := (List.subperm_of_subset hnodup hsubset).length_le
  rwa [List.length_cons, Array.length_toList, List.length_sublists, stateIds,
    List.length_range] at hle

theorem explore_exhausts (n : Nfa) (fuel : Nat) (found : Subsets)
    (rows : Array (List (Option Nat))) :
    (explore n fuel found rows).1.sets.size ≤ (explore n fuel found rows).2.size ∨
      (explore n fuel found rows).2.size = rows.size + fuel := by
  induction fuel generalizing found rows with
  | zero => exact .inr rfl
  | succ fuel ih =>
    rw [Subsets.explore]
    split
    · rename_i hnone
      exact .inl (Array.getElem?_eq_none_iff.1 hnone)
    · rename_i set hset
      rcases ih (Subsets.expand n set n.alphabet.symbols found).1
        (rows.push (Subsets.expand n set n.alphabet.symbols found).2) with hdone | hfuel
      · exact .inl hdone
      · refine .inr (hfuel.trans ?_)
        rw [Array.size_push]
        omega

theorem explore_of_le (hfuel : fuel ≤ more)
    (hdone : (explore n fuel found rows).1.sets.size ≤ (explore n fuel found rows).2.size) :
    explore n more found rows = explore n fuel found rows := by
  induction fuel generalizing found rows more with
  | zero =>
    cases more with
    | zero => rfl
    | succ more =>
      have hnone : found.sets[rows.size]? = none := Array.getElem?_eq_none hdone
      rw [Subsets.explore, Subsets.explore, hnone]
  | succ fuel ih =>
    obtain ⟨more, rfl⟩ := Nat.exists_eq_add_of_le' (Nat.lt_of_lt_of_le (Nat.succ_pos fuel) hfuel)
    rw [Subsets.explore] at hdone ⊢
    rw [Subsets.explore]
    split at hdone
    · rfl
    · exact ih (Nat.le_of_succ_le_succ hfuel) hdone

end Subsets

theorem bounded_subsets (h : n.WellFormed) : Subsets.Bounded n n.subsets.1 n.subsets.2 := by
  refine Subsets.Bounded.explore _ ⟨?_, ?_, Nat.zero_le _⟩
  · exact explored_start h
  · refine Subsets.live_locate (fun s hs => ?_) fun _ => live_startSet h
    exact absurd hs (Array.not_mem_empty s)

theorem size_rows_subsets (h : n.WellFormed) : n.subsets.2.size = n.subsets.1.sets.size := by
  have hbounded := bounded_subsets h
  refine Nat.le_antisymm hbounded.rows_le ?_
  rcases Subsets.explore_exhausts n (Nat.pow 2 n.states.size)
    (Subsets.empty.locate n.startSet).1 #[] with
    hdone | hfuel
  · exact hdone
  · rw [← subsets, Array.size_empty, Nat.zero_add] at hfuel
    exact hfuel.symm ▸ hbounded.size_lt.le

end Acceptors.Nfa
