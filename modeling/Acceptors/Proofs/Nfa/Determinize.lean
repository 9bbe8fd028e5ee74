import Acceptors.Nfa.Determinize
import Acceptors.Proofs.Dfa.Language
import Acceptors.Proofs.Nfa.Path
import Acceptors.Proofs.Numbering
import Acceptors.Proofs.StateTable
import Acceptors.Proofs.TransitionTable

/-! The subset construction. Sets are never removed and keep their numbers, so a row that was right
when it was written stays right; the rows of the finished automaton tell where each symbol leads
from the set with the number of the row. -/

namespace Acceptors

namespace Nfa

namespace Subsets

variable {n : Nfa} {found further : Subsets} {set : StateSet} {target : Option Nat}

def Locates (found : Subsets) (set : StateSet) (target : Option Nat) : Prop :=
  (set = [] ∧ target = none) ∨ (∃ i, target = some i ∧ found.sets[i]? = some set)

def Extends (found further : Subsets) : Prop :=
  ∀ (i : Nat) (set : StateSet), found.sets[i]? = some set → further.sets[i]? = some set

def Indexed (found : Subsets) : Prop := Numbers found.numbers found.sets.toList

theorem Locates.mono (h : Extends found further) (hl : found.Locates set target) :
    further.Locates set target := by
  rcases hl with hl | ⟨i, hi, hset⟩
  · exact .inl hl
  · exact .inr ⟨i, hi, h i set hset⟩

theorem Locates.lt_size {i : Nat} (h : found.Locates set (some i)) : i < found.sets.size := by
  rcases h with ⟨_, h⟩ | ⟨j, hj, h⟩
  · cases h
  · cases hj
    exact (Array.getElem?_eq_some_iff.1 h).1

theorem indexed_empty : empty.Indexed := Numbers.empty

theorem locate_spec (h : found.Indexed) (set : StateSet) :
    (found.locate set).1.Indexed ∧ Extends found (found.locate set).1 ∧
      (found.locate set).1.Locates set (found.locate set).2 := by
  rw [locate]
  split
  · rename_i hset
    exact ⟨h, fun _ _ hi => hi, .inl ⟨List.isEmpty_iff.1 hset, rfl⟩⟩
  · split
    · rename_i i hi
      refine ⟨h, fun _ _ hi => hi, .inr ⟨i, rfl, ?_⟩⟩
      rw [← Array.getElem?_toList]
      exact (h.getElem?_iff set i).1 hi
    · rename_i hnone
      have hnew := h.insert (h.not_mem_iff.2 hnone)
      refine ⟨?_, fun i set' hi => ?_, .inr ⟨_, rfl, Array.getElem?_push_size⟩⟩
      · rw [Indexed, Array.toList_push]
        exact hnew
      · obtain ⟨hlt, rfl⟩ := Array.getElem?_eq_some_iff.1 hi
        exact Array.getElem?_push_lt hlt

theorem sets_locate_empty (hset : set ≠ []) : (empty.locate set).1.sets = #[set] := by
  have hfalse : ¬set.isEmpty = true := fun h => hset (List.isEmpty_iff.1 h)
  have hnone : empty.numbers[set]? = none := Std.TreeMap.getElem?_emptyc
  rw [locate, if_neg hfalse, hnone]
  rfl

theorem expand_spec (set : StateSet) (symbols : List Char) (h : found.Indexed) :
    (expand n set symbols found).1.Indexed ∧ Extends found (expand n set symbols found).1 ∧
      List.Forall₂ (fun c target => (expand n set symbols found).1.Locates (n.step set c) target)
        symbols (expand n set symbols found).2 := by
  induction symbols generalizing found with
  | nil => exact ⟨h, fun _ _ hi => hi, .nil⟩
  | cons c symbols ih =>
    obtain ⟨hindexed, hextends, hlocates⟩ := locate_spec h (n.step set c)
    obtain ⟨hindexed', hextends', hrow⟩ := ih hindexed
    exact ⟨hindexed', fun i set' hi => hextends' i set' (hextends i set' hi),
      .cons (hlocates.mono hextends') hrow⟩

/-- What holds of the sets and the rows at every point of the exploration. -/
structure Explored (n : Nfa) (found : Subsets) (rows : Array (List (Option Nat))) : Prop where
  indexed : found.Indexed
  start : found.sets[0]? = some n.startSet
  row_spec : ∀ (p : Nat) (row : List (Option Nat)), rows[p]? = some row →
    ∃ set, found.sets[p]? = some set ∧
    List.Forall₂ (fun c target => found.Locates (n.step set c) target) n.alphabet.symbols row

theorem Explored.expand {rows : Array (List (Option Nat))} (h : Explored n found rows)
    (hset : found.sets[rows.size]? = some set) :
    Explored n (expand n set n.alphabet.symbols found).1
      (rows.push (expand n set n.alphabet.symbols found).2) := by
  obtain ⟨hindexed, hextends, hrow⟩ := expand_spec (n := n) set n.alphabet.symbols h.indexed
  refine ⟨hindexed, hextends _ _ h.start, fun p row hp => ?_⟩
  rw [← Array.getElem?_toList, Array.toList_push, getElem?_append_singleton_eq_some_iff] at hp
  rcases hp with hp | ⟨rfl, rfl⟩
  · rw [Array.getElem?_toList] at hp
    obtain ⟨set', hset', hold⟩ := h.row_spec p row hp
    exact ⟨set', hextends p set' hset', hold.imp fun _ _ hl => hl.mono hextends⟩
  · exact ⟨set, hextends _ set hset, hrow⟩

theorem Explored.explore {rows : Array (List (Option Nat))} (fuel : Nat)
    (h : Explored n found rows) :
    Explored n (explore n fuel found rows).1 (explore n fuel found rows).2 := by
  induction fuel generalizing found rows with
  | zero => exact h
  | succ fuel ih =>
    rw [Subsets.explore]
    split
    · exact h
    · rename_i set hset
      exact ih (h.expand hset)

end Subsets

theorem startSet_ne_nil {n : Nfa} (h : n.WellFormed) : n.startSet ≠ [] :=
  List.ne_nil_of_mem ((mem_run_startSet_iff (w := []) h).2 (.nil n.start))

theorem explored_start {n : Nfa} (h : n.WellFormed) :
    Subsets.Explored n (Subsets.empty.locate n.startSet).1 #[] := by
  refine ⟨(Subsets.locate_spec Subsets.indexed_empty n.startSet).1, ?_, fun p row hp => ?_⟩
  · rw [Subsets.sets_locate_empty (startSet_ne_nil h)]
    rfl
  · rw [Array.getElem?_empty] at hp
    cases hp

theorem explored_subsets {n : Nfa} (h : n.WellFormed) :
    Subsets.Explored n n.subsets.1 n.subsets.2 :=
  (explored_start h).explore _

theorem size_toDfa (n : Nfa) : n.toDfa.states.size = n.subsets.1.sets.size := by
  rw [toDfa, StateTable.size_generate, List.length_map, Array.length_toList]

theorem get?_table_toDfa (n : Nfa) (i k : Nat) :
    n.toDfa.table.get? i k = (n.subsets.2[i]?.bind fun row => row[k]?).join := by
  apply Option.ext
  intro t
  rw [TransitionTable.get?_eq_some_iff, Option.join_eq_some_iff, Option.bind_eq_some_iff]
  constructor
  · rintro ⟨row, hrow, ht⟩
    rw [toDfa, Array.getElem?_map, Option.map_eq_some_iff] at hrow
    obtain ⟨targets, htargets, rfl⟩ := hrow
    exact ⟨targets, htargets, by rwa [List.getElem?_toArray] at ht⟩
  · rintro ⟨targets, htargets, ht⟩
    refine ⟨targets.toArray, ?_, by rwa [List.getElem?_toArray]⟩
    rw [toDfa, Array.getElem?_map, htargets]
    rfl

theorem wellFormed_toDfa {n : Nfa} (h : n.WellFormed) : n.toDfa.WellFormed := by
  have hexplored := explored_subsets h
  refine ⟨?_, fun s i t ht => ?_⟩
  · rw [size_toDfa]
    exact (Array.getElem?_eq_some_iff.1 hexplored.start).1
  · rw [size_toDfa]
    rw [get?_table_toDfa, Option.join_eq_some_iff, Option.bind_eq_some_iff] at ht
    obtain ⟨targets, htargets, ht⟩ := ht
    obtain ⟨set, _, hlocates⟩ := hexplored.row_spec s targets htargets
    obtain ⟨hi, htarget⟩ := List.getElem?_eq_some_iff.1 ht
    have hlocate := hlocates.get (hlocates.length_eq ▸ hi) hi
    simp only [List.get_eq_getElem, htarget] at hlocate
    exact hlocate.lt_size

end Nfa

end Acceptors
