import Acceptors.Proofs.Dfa.Language
import Acceptors.Proofs.Dfa.Refinement

/-! The classes of a deterministic automaton. Two reachable states are in one class exactly when the
same words are accepted from both; the dead state takes part as one that accepts nothing. -/

namespace Acceptors.Dfa

variable {d : Dfa} {s t i k p q bound : Nat} {o o' : Option Nat} {c : Char} {numbers : List Nat}

theorem getD_setIfInBounds_eq_some_iff {found : Array (Option Nat)} :
    (found.setIfInBounds t (some k)).getD s none = some i ↔
      (t = s ∧ s < found.size ∧ i = k) ∨ (t ≠ s ∧ found.getD s none = some i) := by
  rw [Array.getD_eq_getD_getElem?, Array.getElem?_setIfInBounds, Array.getD_eq_getD_getElem?]
  by_cases hst : t = s
  · subst hst
    by_cases hlt : t < found.size
    · simp [hlt, eq_comm]
    · simp [hlt]
  · simp [hst]

theorem getD_places_eq_some_iff (h : numbers.Nodup) :
    (places bound numbers).getD s none = some i ↔ s < bound ∧ numbers[i]? = some s := by
  suffices hfold : ∀ (start : Nat) (found : Array (Option Nat)),
      ((numbers.zipIdx start).foldl (fun found p =>
          found.setIfInBounds p.1 (some p.2)) found).getD s none = some i ↔
        (s < found.size ∧ ∃ j, numbers[j]? = some s ∧ i = start + j) ∨
            (s ∉ numbers ∧ found.getD s none = some i) by
    rw [places, hfold, getD_replicate_self, Array.size_replicate]
    simp
  induction numbers with
  | nil => simp
  | cons t numbers ih =>
    intro start found
    obtain ⟨ht, hnodup⟩ := List.nodup_cons.1 h
    have hplace : (∃ j, (t :: numbers)[j]? = some s ∧ i = start + j) ↔
        (t = s ∧ i = start) ∨ ∃ j, numbers[j]? = some s ∧ i = start + 1 + j := by
      constructor
      · rintro ⟨_ | j, hj, rfl⟩
        · exact .inl ⟨Option.some.inj hj, rfl⟩
        · exact .inr ⟨j, hj, by omega⟩
      · rintro (⟨rfl, rfl⟩ | ⟨j, hj, rfl⟩)
        · exact ⟨0, rfl, rfl⟩
        · exact ⟨j + 1, hj, by omega⟩
    have hmem : (∃ j, numbers[j]? = some s ∧ i = start + 1 + j) → s ∈ numbers := by
      rintro ⟨j, hj, _⟩
      exact List.mem_of_getElem? hj
    simp only [List.zipIdx_cons, List.foldl_cons, ih hnodup, getD_setIfInBounds_eq_some_iff,
      Array.size_setIfInBounds, hplace, List.mem_cons]
    generalize (∃ j, numbers[j]? = some s ∧ i = start + 1 + j) = later at hmem ⊢
    clear ih h hplace
    by_cases hts : t = s
    · subst hts
      tauto
    · have hst : s ≠ t := Ne.symm hts
      tauto

def Visited (d : Dfa) (o : Option Nat) : Prop := ∀ s, o = some s → s ∈ d.reachable

theorem visited_some (hs : s ∈ d.reachable) : d.Visited (some s) := by
  intro t ht
  cases ht
  exact hs

theorem visited_none (d : Dfa) : d.Visited none := by
  intro s hs
  cases hs

theorem Visited.step (h : d.WellFormed) (ho : d.Visited o) (c : Char) : d.Visited (d.step o c) := by
  intro t ht
  cases o with
  | none => cases ht
  | some s => exact mem_reachable_of_next? h (ho s rfl) ht

def Partition.placeOf (p : Partition) (o : Option Nat) : Nat :=
  (o.bind fun s => p.place.getD s none).getD p.reached.length

def Partition.kindOf (p : Partition) (o : Option Nat) : Nat := p.classes.getD (p.placeOf o) 0

theorem Partition.kindOf_some (p : Partition) (s : Nat) : p.kindOf (some s) = p.classOf s := rfl

theorem Partition.kindOf_none (p : Partition) : p.kindOf none = p.dead := rfl

abbrev stateAt (d : Dfa) (p : Nat) : Option Nat := d.reachable[p]?

theorem reached_partition (d : Dfa) : d.partition.reached = d.reachable := rfl

theorem place_partition (d : Dfa) : d.partition.place = places d.states.size d.reachable := rfl

theorem visited_stateAt (d : Dfa) (p : Nat) : d.Visited (d.stateAt p) :=
  fun _ hs => List.mem_of_getElem? hs

theorem place_eq_some_iff :
    d.partition.place.getD s none = some p ↔ d.reachable[p]? = some s := by
  rw [partition, getD_places_eq_some_iff d.nodup_reachable]
  constructor
  · exact And.right
  · intro hs
    exact ⟨lt_of_mem_reachable (List.mem_of_getElem? hs), hs⟩

theorem stateAt_placeOf (ho : d.Visited o) : d.stateAt (d.partition.placeOf o) = o := by
  cases o with
  | none => exact List.getElem?_eq_none (Nat.le_refl _)
  | some s =>
    obtain ⟨p, hp⟩ := List.mem_iff_getElem?.1 (ho s rfl)
    rw [Partition.placeOf, Option.bind_some, place_eq_some_iff.2 hp, Option.getD_some]
    exact hp

theorem placeOf_stateAt (hp : p ≤ d.reachable.length) : d.partition.placeOf (d.stateAt p) = p := by
  rcases Nat.lt_or_eq_of_le hp with hlt | rfl
  · rw [stateAt, List.getElem?_eq_getElem hlt, Partition.placeOf, Option.bind_some,
      place_eq_some_iff.2 (List.getElem?_eq_getElem hlt), Option.getD_some]
  · rw [stateAt, List.getElem?_eq_none (Nat.le_refl _)]
    rfl

theorem placeOf_le (d : Dfa) (o : Option Nat) : d.partition.placeOf o ≤ d.reachable.length := by
  rw [Partition.placeOf]
  cases hp : o.bind fun s => d.partition.place.getD s none with
  | none => exact Nat.le_refl _
  | some p =>
    obtain ⟨s, _, hs⟩ := Option.bind_eq_some_iff.1 hp
    obtain ⟨hlt, _⟩ := List.getElem?_eq_some_iff.1 (place_eq_some_iff.1 hs)
    exact Nat.le_of_lt hlt

def succPlace (d : Dfa) (p i : Nat) : Nat :=
  d.partition.placeOf ((d.stateAt p).bind fun s => d.table.get? s i)

theorem rows_successorRows (d : Dfa) :
    Partition.Rows (d.reachable.length + 1) d.alphabet.size d.succPlace
      (d.successorRows d.reachable d.partition.place) where
  length_eq := by
    rw [successorRows, List.length_append, List.length_map]
    rfl
  row_eq p hp := by
    rw [successorRows, getElem?_map_append_singleton (Nat.le_of_lt_succ hp)]
    cases hs : d.reachable[p]? with
    | none =>
      refine congrArg some (List.map_congr_left fun i _ => ?_)
      rw [succPlace, stateAt, hs]
      rfl
    | some s =>
      refine congrArg some (List.map_congr_left fun i _ => ?_)
      rw [succPlace, stateAt, hs]
      rfl
  succ_lt p _ i _ := Nat.lt_succ_of_le (d.placeOf_le _)

def acceptance (d : Dfa) : List (List Nat) :=
  d.reachable.map (fun s => [if d.isAccepting (some s) then 1 else 0]) ++ [[0]]

theorem classes_partition (d : Dfa) : d.partition.classes =
    Partition.refine (d.successorRows d.reachable d.partition.place) (d.reachable.length + 1)
      (Partition.renumber d.acceptance) := by
  rw [place_partition, partition, acceptance]

theorem getElem?_acceptance (hp : p ≤ d.reachable.length) :
    d.acceptance[p]? = some [if d.isAccepting (d.stateAt p) then 1 else 0] := by
  rw [acceptance, getElem?_map_append_singleton hp, stateAt]
  cases hs : d.reachable[p]? <;> rfl

theorem getD_acceptance_eq_iff (hp : p ≤ d.reachable.length) (hq : q ≤ d.reachable.length) :
    (Partition.renumber d.acceptance).getD p 0 = (Partition.renumber d.acceptance).getD q 0 ↔
      d.isAccepting (d.stateAt p) = d.isAccepting (d.stateAt q) := by
  rw [Partition.getD_renumber_eq_iff (getElem?_acceptance hp) (getElem?_acceptance hq)]
  cases d.isAccepting (d.stateAt p) <;> cases d.isAccepting (d.stateAt q) <;> simp

theorem numbering_acceptance (d : Dfa) :
    Partition.Numbering (d.reachable.length + 1) (Partition.renumber d.acceptance) := by
  have h := Partition.numbering_renumber d.acceptance
  rwa [acceptance, List.length_append, List.length_map] at h

theorem partition_spec (d : Dfa) :
    Partition.Numbering (d.reachable.length + 1) d.partition.classes ∧
      Partition.Stable (d.reachable.length + 1) d.alphabet.size d.succPlace d.partition.classes ∧
      Partition.Refines (d.reachable.length + 1) d.partition.classes
        (Partition.renumber d.acceptance) := by
  have hpos := d.numbering_acceptance.lt_count (Nat.zero_lt_succ _)
  have hfuel : d.reachable.length + 1 <
      d.reachable.length + 1 + Partition.count (Partition.renumber d.acceptance) := by omega
  rw [classes_partition]
  exact Partition.refine_spec d.rows_successorRows d.numbering_acceptance hfuel

theorem ordered_classes (d : Dfa) : Partition.Ordered d.partition.classes := by
  rw [classes_partition]
  exact (Partition.ordered_renumber d.acceptance).refine _ _

theorem bind_get?_eq_step (hi : d.column? c = some i) (o : Option Nat) :
    (o.bind fun s => d.table.get? s i) = d.step o c := by
  cases o with
  | none => rfl
  | some s =>
    rw [step_some, next?, hi]
    rfl

theorem kindOf_lt_count (d : Dfa) (o : Option Nat) :
    d.partition.kindOf o < Partition.count d.partition.classes := by
  rw [Partition.kindOf]
  exact d.partition_spec.1.lt_count (Nat.lt_succ_of_le (d.placeOf_le o))

theorem getElem?_classes (hp : p ≤ d.reachable.length) :
    d.partition.classes[p]? = some (d.partition.kindOf (d.stateAt p)) := by
  have hlt : p < d.partition.classes.size := d.partition_spec.1.size_eq ▸ Nat.lt_succ_of_le hp
  rw [Partition.kindOf, placeOf_stateAt hp, Array.getD_eq_getD_getElem?,
    Array.getElem?_eq_getElem hlt, Option.getD_some]

theorem getElem?_classes_eq_classOf (hp : d.reachable[p]? = some s) :
    d.partition.classes[p]? = some (d.partition.classOf s) := by
  have hle := Nat.le_of_lt (List.getElem?_eq_some_iff.1 hp).1
  rw [getElem?_classes hle, stateAt, hp, Partition.kindOf_some]

theorem succPlace_placeOf (ho : d.Visited o) (hi : d.column? c = some i) :
    d.succPlace (d.partition.placeOf o) i = d.partition.placeOf (d.step o c) := by
  rw [succPlace, stateAt_placeOf ho, bind_get?_eq_step hi]

theorem stateAt_succPlace (h : d.WellFormed) (hi : d.column? c = some i) (p : Nat) :
    d.stateAt (d.succPlace p i) = d.step (d.stateAt p) c := by
  rw [succPlace, bind_get?_eq_step hi, stateAt_placeOf ((d.visited_stateAt p).step h c)]

theorem kindOf_step (ho : d.Visited o) (ho' : d.Visited o')
    (heq : d.partition.kindOf o = d.partition.kindOf o') (c : Char) :
    d.partition.kindOf (d.step o c) = d.partition.kindOf (d.step o' c) := by
  cases hi : d.column? c with
  | none =>
    have hstep : ∀ o, d.step o c = none := by
      rintro (_ | s)
      · rfl
      · rw [step_some, next?, hi]
    rw [hstep, hstep]
  | some i =>
    have hlt : i < d.alphabet.size := (List.getElem?_eq_some_iff.1 (column?_eq_some_iff.1 hi)).1
    have hstable := d.partition_spec.2.1 _ (Nat.lt_succ_of_le (d.placeOf_le o)) _
      (Nat.lt_succ_of_le (d.placeOf_le o')) heq i hlt
    rwa [succPlace_placeOf ho hi, succPlace_placeOf ho' hi] at hstable

theorem isAccepting_eq_of_kindOf_eq (ho : d.Visited o) (ho' : d.Visited o')
    (heq : d.partition.kindOf o = d.partition.kindOf o') : d.isAccepting o = d.isAccepting o' := by
  have hfirst := d.partition_spec.2.2 _ (Nat.lt_succ_of_le (d.placeOf_le o)) _
    (Nat.lt_succ_of_le (d.placeOf_le o')) heq
  rwa [getD_acceptance_eq_iff (d.placeOf_le o) (d.placeOf_le o'), stateAt_placeOf ho,
    stateAt_placeOf ho'] at hfirst

theorem future_eq_of_kindOf_eq (h : d.WellFormed) (ho : d.Visited o) (ho' : d.Visited o')
    (heq : d.partition.kindOf o = d.partition.kindOf o') : d.future o = d.future o' := by
  ext w
  induction w generalizing o o' with
  | nil => rw [nil_mem_future_iff, nil_mem_future_iff, isAccepting_eq_of_kindOf_eq ho ho' heq]
  | cons c w ih =>
    rw [cons_mem_future_iff, cons_mem_future_iff]
    exact ih (ho.step h c) (ho'.step h c) (kindOf_step ho ho' heq c)

theorem future_succPlace (h : d.WellFormed) (hpq : d.future (d.stateAt p) = d.future (d.stateAt q))
    (hi : i < d.alphabet.size) :
    d.future (d.stateAt (d.succPlace p i)) = d.future (d.stateAt (d.succPlace q i)) := by
  have hc : d.column? d.alphabet.symbols[i] = some i :=
    column?_eq_some_iff.2 (List.getElem?_eq_getElem hi)
  rw [stateAt_succPlace h hc, stateAt_succPlace h hc, future_step, future_step, hpq]

/-- States with the same language have successors with the same language, so they are never told
apart. -/
theorem kindOf_eq_of_future_eq (h : d.WellFormed) (ho : d.Visited o) (ho' : d.Visited o')
    (heq : d.future o = d.future o') : d.partition.kindOf o = d.partition.kindOf o' := by
  have hfirst : ∀ p < d.reachable.length + 1, ∀ q < d.reachable.length + 1,
      d.future (d.stateAt p) = d.future (d.stateAt q) →
        (Partition.renumber d.acceptance).getD p 0 =
        (Partition.renumber d.acceptance).getD q 0 := by
    intro p hp q hq hpq
    rw [getD_acceptance_eq_iff (Nat.le_of_lt_succ hp) (Nat.le_of_lt_succ hq), Bool.eq_iff_iff,
      ← nil_mem_future_iff, ← nil_mem_future_iff, hpq]
  have hsucc : ∀ p q, d.future (d.stateAt p) = d.future (d.stateAt q) → ∀ i < d.alphabet.size,
      d.future (d.stateAt (d.succPlace p i)) = d.future (d.stateAt (d.succPlace q i)) :=
    fun p q hpq i hi => future_succPlace h hpq hi
  have hrespects := Partition.refine_respects
    (R := fun p q => d.future (d.stateAt p) = d.future (d.stateAt q)) d.rows_successorRows hsucc
    d.numbering_acceptance hfirst (d.reachable.length + 1)
  rw [Partition.kindOf, Partition.kindOf, classes_partition]
  apply hrespects _ (Nat.lt_succ_of_le (d.placeOf_le o)) _ (Nat.lt_succ_of_le (d.placeOf_le o'))
  rw [stateAt_placeOf ho, stateAt_placeOf ho', heq]

theorem kindOf_eq_iff (h : d.WellFormed) (ho : d.Visited o) (ho' : d.Visited o') :
    d.partition.kindOf o = d.partition.kindOf o' ↔ d.future o = d.future o' :=
  ⟨future_eq_of_kindOf_eq h ho ho', kindOf_eq_of_future_eq h ho ho'⟩

end Acceptors.Dfa
