import Mathlib.Tactic.Common
import Acceptors.Proofs.Outcome
import Acceptors.Proofs.Places
import Acceptors.TransitionTable

/-! Entries of transition tables. An entry that is found was put there, within the bounds of a
tabulated function the entries are its values, and a table that has as many entries as cells has one
in each. -/

namespace Acceptors.TransitionTable

variable {α : Type} {t : TransitionTable α} {states symbols s i s' i' : Nat} {x y : α}

theorem get?_eq_some_iff :
    t.get? s i = some x ↔ ∃ row, t.rows[s]? = some row ∧ row[i]? = some (some x) := by
  rw [get?, Array.getD_eq_getD_getElem?, Array.getD_eq_getD_getElem?]
  cases t.rows[s]? with
  | none => simp
  | some row => cases h : row[i]? <;> simp [h]

theorem get?_empty : (empty states symbols : TransitionTable α).get? s i = none := by
  rw [Option.eq_none_iff_forall_ne_some]
  intro x h
  obtain ⟨row, hrow, hx⟩ := get?_eq_some_iff.1 h
  rw [empty, Array.getElem?_replicate, Option.ite_none_right_eq_some] at hrow
  obtain ⟨_, hrow⟩ := hrow
  cases hrow
  rw [Array.getElem?_replicate, Option.ite_none_right_eq_some] at hx
  obtain ⟨_, hx⟩ := hx
  cases hx

theorem get?_tabulate_eq_some_iff {entry : Nat → Nat → Option α} :
    (tabulate states symbols entry).get? s i = some x ↔
      s < states ∧ i < symbols ∧ entry s i = some x := by
  rw [get?_eq_some_iff, tabulate]
  constructor
  · rintro ⟨row, hrow, hx⟩
    obtain ⟨hs, rfl⟩ := Array.getElem?_eq_some_iff.1 hrow
    obtain ⟨hi, hx⟩ := Array.getElem?_eq_some_iff.1 hx
    simp only [Array.size_ofFn, Array.getElem_ofFn] at hs hi hx
    exact ⟨hs, hi, hx⟩
  · rintro ⟨hs, hi, hx⟩
    simp [hs, hi, hx]

theorem get?_insert_eq_some (h : (t.insert s i x).get? s' i' = some y) :
    (s' = s ∧ i' = i ∧ y = x) ∨ t.get? s' i' = some y := by
  obtain ⟨row, hrow, hy⟩ := get?_eq_some_iff.1 h
  rw [insert, Array.getElem?_modify] at hrow
  split at hrow
  · rename_i hs
    obtain ⟨old, hold, rfl⟩ := Option.map_eq_some_iff.1 hrow
    rw [Array.getElem?_setIfInBounds] at hy
    split at hy
    · rename_i hi
      split at hy
      · cases hy
        exact .inl ⟨hs.symm, hi.symm, rfl⟩
      · cases hy
    · exact .inr (get?_eq_some_iff.2 ⟨old, hs ▸ hold, hy⟩)
  · exact .inr (get?_eq_some_iff.2 ⟨row, hrow, hy⟩)

def Shaped (t : TransitionTable α) (states symbols : Nat) : Prop :=
  t.rows.size = states ∧ ∀ (s : Nat) (row : Array (Option α)), t.rows[s]? = some row →
    row.size = symbols

theorem shaped_empty : (empty states symbols : TransitionTable α).Shaped states symbols := by
  refine ⟨Array.size_replicate, fun s row hrow => ?_⟩
  rw [empty, Array.getElem?_replicate, Option.ite_none_right_eq_some] at hrow
  obtain ⟨_, hrow⟩ := hrow
  cases hrow
  exact Array.size_replicate

theorem shaped_tabulate {entry : Nat → Nat → Option α} :
    (tabulate states symbols entry).Shaped states symbols := by
  refine ⟨Array.size_ofFn, fun s row hrow => ?_⟩
  obtain ⟨_, rfl⟩ := Array.getElem?_eq_some_iff.1 hrow
  simp only [tabulate, Array.getElem_ofFn, Array.size_ofFn]

theorem Shaped.tabulate_eq (h : t.Shaped states symbols) {entry : Nat → Nat → Option α}
    (hentry : ∀ s < states, ∀ i < symbols, entry s i = t.get? s i) :
    tabulate states symbols entry = t := by
  obtain ⟨rows⟩ := t
  obtain ⟨hsize, hrows⟩ := h
  rw [tabulate, mk.injEq]
  refine Array.ext (by rw [Array.size_ofFn, hsize]) fun s hs hs' => ?_
  have hrow := hrows s rows[s] (Array.getElem?_eq_getElem hs')
  rw [Array.getElem_ofFn]
  refine Array.ext (by rw [Array.size_ofFn, hrow]) fun i hi hi' => ?_
  rw [Array.getElem_ofFn, hentry s (hsize ▸ hs') i (hrow ▸ hi'), get?]
  simp only [Array.getD_eq_getD_getElem?, Array.getElem?_eq_getElem hs', Option.getD_some,
    Array.getElem?_eq_getElem hi']

theorem Shaped.insert (h : t.Shaped states symbols) : (t.insert s i x).Shaped states symbols := by
  refine ⟨by rw [TransitionTable.insert, Array.size_modify, h.1], fun s' row hrow => ?_⟩
  rw [TransitionTable.insert, Array.getElem?_modify] at hrow
  split at hrow
  · obtain ⟨old, hold, rfl⟩ := Option.map_eq_some_iff.1 hrow
    rw [Array.size_setIfInBounds, h.2 s' old hold]
  · exact h.2 s' row hrow

theorem Shaped.get?_insert (h : t.Shaped states symbols) (hs : s < states) (hi : i < symbols)
    (x : α) (s' i' : Nat) :
    (t.insert s i x).get? s' i' = if s' = s ∧ i' = i then some x else t.get? s' i' := by
  have hlt : s < t.rows.size := h.1 ▸ hs
  have hrow := Array.getElem?_eq_getElem hlt
  have hsize := h.2 s _ hrow
  rw [get?, get?, TransitionTable.insert]
  simp only [Array.getD_eq_getD_getElem?, Array.getElem?_modify]
  by_cases hs' : s = s'
  · subst hs'
    by_cases hi' : i = i'
    · subst hi'
      simp [hrow, hsize, hi]
    · simp [hrow, hi', Ne.symm hi']
  · simp [hs', Ne.symm hs']

theorem Shaped.length_cells (h : t.Shaped states symbols) : t.cells.length = states * symbols := by
  have hrow : ∀ row ∈ t.rows.toList, row.toList.length = symbols := by
    intro row hrow
    obtain ⟨s, hs⟩ := List.mem_iff_getElem?.1 hrow
    exact h.2 s row (Array.getElem?_toList ▸ hs)
  rw [cells, List.length_flatMap, List.map_congr_left hrow, List.map_const', List.sum_replicate_nat,
    Array.length_toList, h.1]

theorem Shaped.mem_cells_iff (h : t.Shaped states symbols) {cell : Option α} :
    cell ∈ t.cells ↔ ∃ s < states, ∃ i < symbols, t.get? s i = cell := by
  rw [cells, List.mem_flatMap]
  simp only [get?, Array.getD_eq_getD_getElem?]
  constructor
  · intro hcell
    obtain ⟨row, hrow, hcell⟩ := hcell
    obtain ⟨s, hs⟩ := List.mem_iff_getElem?.1 hrow
    obtain ⟨i, hi⟩ := List.mem_iff_getElem?.1 hcell
    rw [Array.getElem?_toList] at hs hi
    refine ⟨s, h.1 ▸ (Array.getElem?_eq_some_iff.1 hs).1, i,
      h.2 s row hs ▸ (Array.getElem?_eq_some_iff.1 hi).1, ?_⟩
    rw [hs, Option.getD_some, hi, Option.getD_some]
  · intro hcell
    obtain ⟨s, hs, i, hi, rfl⟩ := hcell
    obtain ⟨row, hrow⟩ : ∃ row, t.rows[s]? = some row :=
      ⟨_, Array.getElem?_eq_getElem (h.1.symm ▸ hs)⟩
    obtain ⟨cell, hcell⟩ : ∃ cell, row[i]? = some cell :=
      ⟨_, Array.getElem?_eq_getElem (h.2 s row hrow ▸ hi)⟩
    rw [hrow, Option.getD_some, hcell, Option.getD_some]
    exact ⟨row, Array.mem_toList_iff.2 (Array.mem_of_getElem? hrow),
      Array.mem_toList_iff.2 (Array.mem_of_getElem? hcell)⟩

theorem Shaped.size_eq_iff (h : t.Shaped states symbols) :
    t.size = states * symbols ↔ ∀ s < states, ∀ i < symbols, (t.get? s i).isSome = true := by
  rw [size, ← h.length_cells, List.countP_eq_length]
  constructor
  · intro hall s hs i hi
    exact hall _ (h.mem_cells_iff.2 ⟨s, hs, i, hi, rfl⟩)
  · intro hall cell hcell
    obtain ⟨s, hs, i, hi, rfl⟩ := h.mem_cells_iff.1 hcell
    exact hall s hs i hi

theorem insert_comm (h : ¬(s' = s ∧ i' = i)) (t : TransitionTable α) (x y : α) :
    (t.insert s i x).insert s' i' y = (t.insert s' i' y).insert s i x := by
  rw [insert, insert, insert, insert, mk.injEq]
  apply Array.ext_getElem?
  intro j
  simp only [Array.getElem?_modify]
  by_cases hs : s = j
  · by_cases hs' : s' = j
    · have hi : i ≠ i' := fun hi => h ⟨hs'.trans hs.symm, hi.symm⟩
      simp only [hs, hs', if_true, Option.map_map]
      congr 1
      funext row
      exact Array.setIfInBounds_comm _ _ hi
    · simp only [hs, hs', if_true, if_false]
  · simp only [hs, if_false]

/-- A step that puts in one entry, at a place that was free. -/
structure Enters {ε δ : Type} (f : TransitionTable α → δ → Except ε (TransitionTable α))
    (place : δ → Nat → Nat → α → Prop) (states symbols : Nat) : Prop where
  lt {d s i x} : place d s i x → s < states ∧ i < symbols
  eq_ok_iff {t d t'} : f t d = .ok t' ↔ ∃ s i x, place d s i x ∧ t.get? s i = none ∧
    t' = t.insert s i x

theorem Enters.exists_of_foldlM {ε δ : Type}
    {f : TransitionTable α → δ → Except ε (TransitionTable α)}
    {place : δ → Nat → Nat → α → Prop} (hf : Enters f place states symbols) {l : List δ}
    (h : l.foldlM f (.empty states symbols) = .ok t) (hx : t.get? s i = some x) :
    ∃ d ∈ l, place d s i x := by
  revert hx
  refine foldlM_prefix_induction (P := fun done (t : TransitionTable α) =>
    t.get? s i = some x → ∃ d ∈ done, place d s i x) ?_ ?_ h
  · intro done t d t' ih hstep hx
    obtain ⟨s', i', x', hplace, -, rfl⟩ := hf.eq_ok_iff.1 hstep
    rcases get?_insert_eq_some hx with ⟨rfl, rfl, rfl⟩ | hold
    · exact ⟨d, List.mem_append_right _ (List.mem_singleton_self d), hplace⟩
    · obtain ⟨d', hd', hplace'⟩ := ih hold
      exact ⟨d', List.mem_append_left _ hd', hplace'⟩
  · intro hx
    rw [get?_empty] at hx
    cases hx

theorem Enters.get?_of_foldlM {ε δ : Type}
    {f : TransitionTable α → δ → Except ε (TransitionTable α)}
    {place : δ → Nat → Nat → α → Prop} (hf : Enters f place states symbols) {l : List δ}
    (h : l.foldlM f (.empty states symbols) = .ok t) :
    t.Shaped states symbols ∧ ∀ d ∈ l, ∃ s i x, place d s i x ∧ t.get? s i = some x := by
  refine foldlM_prefix_induction (P := fun done (t : TransitionTable α) =>
    t.Shaped states symbols ∧ ∀ d ∈ done, ∃ s i x, place d s i x ∧ t.get? s i = some x) ?_
    ⟨shaped_empty, List.forall_mem_nil _⟩ h
  intro done t d t' ih hstep
  obtain ⟨hshaped, hdone⟩ := ih
  obtain ⟨s, i, x, hplace, hnew, rfl⟩ := hf.eq_ok_iff.1 hstep
  obtain ⟨hs, hi⟩ := hf.lt hplace
  have hget := hshaped.get?_insert hs hi x
  refine ⟨hshaped.insert, List.forall_mem_append.2 ⟨fun d' hd' => ?_,
    List.forall_mem_singleton.2 ?_⟩⟩
  · obtain ⟨s', i', x', hplace', hold⟩ := hdone d' hd'
    refine ⟨s', i', x', hplace', ?_⟩
    rw [hget, if_neg, hold]
    intro hsame
    rw [hsame.1, hsame.2, hnew] at hold
    cases hold
  · exact ⟨s, i, x, hplace, by rw [hget, if_pos ⟨rfl, rfl⟩]⟩

theorem Enters.foldlM_perm {ε δ : Type} {f : TransitionTable α → δ → Except ε (TransitionTable α)}
    {place : δ → Nat → Nat → α → Prop} (hf : Enters f place states symbols) {l l' : List δ}
    {t r : TransitionTable α} (ht : t.Shaped states symbols) (hperm : l.Perm l')
    (h : l.foldlM f t = .ok r) : l'.foldlM f t = .ok r := by
  refine Acceptors.foldlM_perm (P := fun t => t.Shaped states symbols) ?_ ?_ hperm ht h
  · intro t d r ht h
    obtain ⟨s, i, x, -, -, rfl⟩ := hf.eq_ok_iff.1 h
    exact ht.insert
  · intro t d d' t₁ r ht h₁ h₂
    obtain ⟨s, i, x, hx, hnew, rfl⟩ := hf.eq_ok_iff.1 h₁
    obtain ⟨s', i', x', hx', hnew', rfl⟩ := hf.eq_ok_iff.1 h₂
    obtain ⟨hs, hi⟩ := hf.lt hx
    obtain ⟨hs', hi'⟩ := hf.lt hx'
    rw [ht.get?_insert hs hi] at hnew'
    split at hnew'
    · cases hnew'
    · rename_i hne
      -- The places differ, since the second step found its own one free.
      refine ⟨t.insert s' i' x', hf.eq_ok_iff.2 ⟨s', i', x', hx', hnew', rfl⟩, ?_⟩
      refine hf.eq_ok_iff.2 ⟨s, i, x, hx, ?_, insert_comm hne t x x'⟩
      rw [ht.get?_insert hs' hi', if_neg, hnew]
      rintro ⟨rfl, rfl⟩
      exact hne ⟨rfl, rfl⟩

end Acceptors.TransitionTable
