import Mathlib.Logic.Function.Basic
import Mathlib.Tactic.Common
import Acceptors.Turing.Tape

/-! What can be read from a tape, and what is stored of it. Cells that are not stored are blank, so
storing more of them changes nothing, and a written symbol is read in its place and nowhere else. -/

namespace Acceptors.Tape

variable {half : Array Char} {blank c : Char} {n i : Nat} {t : Tape} {p : Int}

theorem getD_pad (half : Array Char) (blank : Char) (n i : Nat) :
    (pad half blank n).getD i blank = half.getD i blank := by
  rw [pad, Array.getD_eq_getD_getElem?, Array.getD_eq_getD_getElem?, Array.getElem?_append]
  split
  · rfl
  · rename_i hi
    rw [Array.getElem?_eq_none (Nat.le_of_not_lt hi), Array.getElem?_replicate]
    split <;> rfl

theorem lt_size_pad (half : Array Char) (blank : Char) (n : Nat) : n < (pad half blank n).size := by
  rw [pad, Array.size_append, Array.size_replicate]
  omega

theorem getD_store (half : Array Char) (blank c : Char) (n i : Nat) :
    (store half blank n c).getD i blank = if i = n then c else half.getD i blank := by
  rw [store, ← getD_pad half blank n i, Array.getD_eq_getD_getElem?, Array.getElem?_setIfInBounds,
    Array.getD_eq_getD_getElem?]
  by_cases hi : n = i
  · subst hi
    rw [if_pos rfl, if_pos (lt_size_pad half blank n), if_pos rfl]
    rfl
  · rw [if_neg hi, if_neg (Ne.symm hi)]

theorem read_extendTo (t : Tape) (p : Int) : (t.extendTo p).read = t.read := by
  funext q
  cases p with
  | ofNat n =>
    cases q with
    | ofNat i => exact getD_pad t.right t.blank n i
    | negSucc i => rfl
  | negSucc n =>
    cases q with
    | ofNat i => rfl
    | negSucc i => exact getD_pad t.left t.blank n i

theorem read_write (t : Tape) (p : Int) (c : Char) :
    (t.write p c).read = Function.update t.read p c := by
  funext q
  rw [Function.update_apply]
  cases p with
  | ofNat n =>
    cases q with
    | ofNat i =>
      simp only [Int.ofNat.injEq]
      exact getD_store t.right t.blank c n i
    | negSucc i => exact (if_neg Int.noConfusion).symm
  | negSucc n =>
    cases q with
    | ofNat i => exact (if_neg Int.noConfusion).symm
    | negSucc i =>
      simp only [Int.negSucc.injEq]
      exact getD_store t.left t.blank c n i

def holding (word : List Char) (blank : Char) : Int → Char
  | .ofNat n => word.getD n blank
  | .negSucc _ => blank

theorem read_ofInput (word : List Char) (blank : Char) :
    (ofInput word blank).read = holding word blank := by
  funext p
  cases p with
  | ofNat n =>
    rw [holding, List.getD_eq_getElem?_getD, ← List.getElem?_toArray,
      ← Array.getD_eq_getD_getElem?]
    rfl
  | negSucc n => rfl

/-! The stored range. -/

theorem first_nonpos (t : Tape) : t.first ≤ 0 := Int.neg_nonpos_of_nonneg (Int.natCast_nonneg _)

theorem stop_nonneg (t : Tape) : 0 ≤ t.stop := Int.natCast_nonneg _

theorem length_cells (t : Tape) : (t.cells.length : Int) = t.stop - t.first := by
  rw [cells, List.length_append, List.length_reverse, Array.length_toList,
    Array.length_toList, stop, first]
  omega

theorem size_pad (half : Array Char) (blank : Char) (n : Nat) :
    (pad half blank n).size = max half.size (n + 1) := by
  rw [pad, Array.size_append, Array.size_replicate]
  omega

theorem size_store (half : Array Char) (blank c : Char) (n : Nat) :
    (store half blank n c).size = max half.size (n + 1) := by
  rw [store, Array.size_setIfInBounds, size_pad]

theorem first_extendTo (t : Tape) (p : Int) : (t.extendTo p).first = min t.first p := by
  have hfirst := t.first_nonpos
  cases p with
  | ofNat n => exact (Int.min_eq_left (Int.le_trans hfirst (Int.natCast_nonneg n))).symm
  | negSucc n =>
    rw [first, extendTo, size_pad, first, Int.negSucc_eq]
    omega

theorem stop_extendTo (t : Tape) (p : Int) : (t.extendTo p).stop = max t.stop (p + 1) := by
  have hstop := t.stop_nonneg
  cases p with
  | ofNat n =>
    rw [stop, extendTo, size_pad, stop, Int.ofNat_eq_natCast]
    omega
  | negSucc n =>
    have hbefore : Int.negSucc n + 1 ≤ t.stop := by
      rw [Int.negSucc_eq]
      omega
    exact (Int.max_eq_left hbefore).symm

theorem first_write (t : Tape) (p : Int) (c : Char) : (t.write p c).first = min t.first p := by
  rw [← first_extendTo]
  cases p with
  | ofNat n => rfl
  | negSucc n => rw [first, first, write, extendTo, size_store, size_pad]

theorem stop_write (t : Tape) (p : Int) (c : Char) : (t.write p c).stop = max t.stop (p + 1) := by
  rw [← stop_extendTo]
  cases p with
  | ofNat n => rw [stop, stop, write, extendTo, size_store, size_pad]
  | negSucc n => rfl

theorem cells_extendTo (t : Tape) (p : Int) :
    (t.extendTo p).cells = List.replicate (t.first - p).toNat t.blank ++ t.cells ++
      List.replicate (p + 1 - t.stop).toNat t.blank := by
  cases p with
  | ofNat n =>
    have hleft : (t.first - Int.ofNat n).toNat = 0 := by
      rw [first, Int.ofNat_eq_natCast]
      omega
    have hright : (Int.ofNat n + 1 - t.stop).toNat = n + 1 - t.right.size := by
      rw [stop, Int.ofNat_eq_natCast]
      omega
    rw [hleft, hright]
    simp only [extendTo, pad, cells, Array.toList_append, Array.toList_replicate,
      List.replicate_zero, List.nil_append, List.append_assoc]
  | negSucc n =>
    have hleft : (t.first - Int.negSucc n).toNat = n + 1 - t.left.size := by
      rw [first, Int.negSucc_eq]
      omega
    have hright : (Int.negSucc n + 1 - t.stop).toNat = 0 := by
      rw [stop, Int.negSucc_eq]
      omega
    rw [hleft, hright]
    simp only [extendTo, pad, cells, Array.toList_append, Array.toList_replicate,
      List.replicate_zero, List.append_nil, List.reverse_append, List.reverse_replicate,
      List.append_assoc]

theorem reverse_set {α : Type} {l : List α} {n : Nat} {x : α} (h : n < l.length) :
    (l.set n x).reverse = l.reverse.set (l.length - 1 - n) x := by
  refine List.ext_getElem (by simp) fun i hi hi' => ?_
  rw [List.length_reverse, List.length_set] at hi
  simp only [List.getElem_reverse, List.getElem_set, List.length_set]
  congr 1
  exact propext (by omega)

theorem cells_write (t : Tape) (p : Int) (c : Char) :
    (t.write p c).cells = (t.extendTo p).cells.set (p - (t.extendTo p).first).toNat c := by
  cases p with
  | ofNat n =>
    have hplace : (Int.ofNat n - (t.extendTo (.ofNat n)).first).toNat =
        t.left.toList.reverse.length + n := by
      simp only [extendTo, first, List.length_reverse, Array.length_toList, Int.ofNat_eq_natCast]
      omega
    rw [hplace]
    simp only [write, extendTo, cells, store, Array.toList_setIfInBounds]
    rw [List.set_append_right _ _ (Nat.le_add_right _ _), Nat.add_sub_cancel_left]
  | negSucc n =>
    have hlt : n < (pad t.left t.blank n).toList.length := by
      rw [Array.length_toList]
      exact lt_size_pad _ _ _
    have hplace : (Int.negSucc n - (t.extendTo (.negSucc n)).first).toNat =
        (pad t.left t.blank n).toList.length - 1 - n := by
      simp only [extendTo, first, Array.length_toList, Int.negSucc_eq]
      omega
    rw [hplace]
    simp only [write, extendTo, cells, store, Array.toList_setIfInBounds]
    rw [reverse_set hlt, List.set_append_left _ _ (by rw [List.length_reverse]; omega)]

theorem mem_cells_extendTo {x : Char} (h : x ∈ (t.extendTo p).cells) :
    x ∈ t.cells ∨ x = t.blank := by
  rw [cells_extendTo, List.mem_append, List.mem_append] at h
  rcases h with (h | h) | h
  · exact .inr (List.eq_of_mem_replicate h)
  · exact .inl h
  · exact .inr (List.eq_of_mem_replicate h)

theorem mem_cells_write {x : Char} (h : x ∈ (t.write p c).cells) :
    x ∈ t.cells ∨ x = t.blank ∨ x = c := by
  rw [cells_write] at h
  rcases List.mem_or_eq_of_mem_set h with h | h
  · rw [← or_assoc]
    exact .inl (mem_cells_extendTo h)
  · exact .inr (.inr h)

end Acceptors.Tape
