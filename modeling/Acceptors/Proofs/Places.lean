import Mathlib.Data.List.Nodup

/-! Places in lists and arrays. Without repeats an element stands at exactly one place, the one
where a search finds it. -/

namespace Acceptors

theorem getD_replicate_self {α : Type} (n i : Nat) (x : α) :
    (Array.replicate n x).getD i x = x := by
  rw [Array.getD_eq_getD_getElem?, Array.getElem?_replicate]
  split <;> rfl

theorem array_getD_inj {α : Type} {xs : Array α} (h : xs.toList.Nodup) {i j : Nat}
    (hi : i < xs.size) (hj : j < xs.size) (y : α) : xs.getD i y = xs.getD j y ↔ i = j := by
  refine ⟨fun heq => ?_, fun heq => by rw [heq]⟩
  rw [Array.getD_eq_getD_getElem?, Array.getD_eq_getD_getElem?, Array.getElem?_eq_getElem hi,
    Array.getElem?_eq_getElem hj] at heq
  exact h.getElem_inj_iff.1 heq

theorem array_getD_push_of_lt {α : Type} {xs : Array α} {i : Nat} (hi : i < xs.size) (x y : α) :
    (xs.push x).getD i y = xs.getD i y := by
  rw [Array.getD_eq_getD_getElem?, Array.getElem?_push_lt hi, Array.getD_eq_getD_getElem?,
    Array.getElem?_eq_getElem hi]

theorem array_getD_push_size {α : Type} (xs : Array α) (x y : α) :
    (xs.push x).getD xs.size y = x := by
  rw [Array.getD_eq_getD_getElem?, Array.getElem?_push_size]
  rfl

theorem array_map_getD_range {α : Type} (xs : Array α) (y : α) :
    (List.range xs.size).map (fun i => xs.getD i y) = xs.toList := by
  refine List.ext_getElem (by rw [List.length_map, List.length_range,
    Array.length_toList]) fun i _ hi => ?_
  rw [List.getElem_map, List.getElem_range, Array.getD_eq_getD_getElem?,
    Array.getElem?_eq_getElem hi, Option.getD_some, Array.getElem_toList]

theorem getElem?_append_singleton_eq_some_iff {α : Type} {l : List α} {i : Nat} {x y : α} :
    (l ++ [x])[i]? = some y ↔ l[i]? = some y ∨ (i = l.length ∧ y = x) := by
  by_cases hi : i < l.length
  · rw [List.getElem?_append_left hi]
    constructor
    · exact Or.inl
    · rintro (h | ⟨rfl, _⟩)
      · exact h
      · exact absurd hi (Nat.lt_irrefl _)
  · have hl := Nat.le_of_not_lt hi
    rw [List.getElem?_append_right hl, List.getElem?_singleton, List.getElem?_eq_none hl]
    constructor
    · intro h
      obtain ⟨hi', hx⟩ := Option.ite_none_right_eq_some.1 h
      exact .inr ⟨by omega, (Option.some.inj hx).symm⟩
    · rintro (h | ⟨rfl, rfl⟩)
      · cases h
      · rw [Nat.sub_self, if_pos rfl]

theorem getElem?_map_append_singleton {α β : Type} {l : List α} {i : Nat} (hi : i ≤ l.length)
    (f : α → β) (y : β) : (l.map f ++ [y])[i]? = some ((l[i]?.map f).getD y) := by
  have hlength : (l.map f).length = l.length := List.length_map f
  rcases Nat.lt_or_eq_of_le hi with hlt | rfl
  · rw [List.getElem?_append_left (hlength ▸ hlt), List.getElem?_map, List.getElem?_eq_getElem hlt]
    rfl
  · rw [List.getElem?_eq_none (Nat.le_refl _), ← hlength, List.getElem?_concat_length]
    rfl

theorem eq_of_getElem?_eq_some {α : Type} {l : List α} (h : l.Nodup) {i j : Nat} {x : α}
    (hi : l[i]? = some x) (hj : l[j]? = some x) : i = j :=
  (List.getElem?_inj (List.getElem?_eq_some_iff.1 hi).1 h).1 (hi.trans hj.symm)

variable {α : Type} [BEq α] [LawfulBEq α] {x : α} {i : Nat}

theorem list_idxOf?_eq_some_iff {l : List α} (h : l.Nodup) :
    l.idxOf? x = some i ↔ l[i]? = some x := by
  rw [List.idxOf?, List.findIdx?_eq_some_iff_getElem, List.getElem?_eq_some_iff]
  constructor
  · rintro ⟨hi, hx, _⟩
    exact ⟨hi, eq_of_beq hx⟩
  · rintro ⟨hi, rfl⟩
    refine ⟨hi, beq_self_eq_true _, fun j hj hjx => ?_⟩
    have hji := (List.Nodup.getElem_inj_iff h).1 (eq_of_beq hjx)
    omega

theorem array_idxOf?_eq_some_iff {xs : Array α} (h : xs.toList.Nodup) :
    xs.idxOf? x = some i ↔ xs[i]? = some x := by
  rcases xs with ⟨l⟩
  rw [List.idxOf?_toArray, List.getElem?_toArray]
  exact list_idxOf?_eq_some_iff h

end Acceptors
