import Mathlib.Data.List.DropRight
import Mathlib.Data.List.GetD
import Acceptors.Proofs.Turing.Tape

/-! The symbols of a tape from the first to the last that is not blank. Together with the place of
the first they tell what every cell holds, and two lists without blanks at their ends that tell the
same are the same. So tapes are equal exactly when they have one blank and the same symbol in every
place. -/

namespace Acceptors.Tape

variable {a b t : Tape} {blank : Char} {front back word word' : List Char} {start start' p : Int}

theorem holding_eq (word : List Char) (blank : Char) (p : Int) :
    holding word blank p = if 0 ≤ p then word.getD p.toNat blank else blank := by
  cases p with
  | ofNat n => exact (if_pos (Int.natCast_nonneg n)).symm
  | negSucc n => exact (if_neg (Int.not_le.2 (Int.negSucc_lt_zero n))).symm

theorem holding_nil (blank : Char) (p : Int) : holding [] blank p = blank := by
  cases p <;> rfl

theorem bounds_of_holding_ne (h : holding word blank p ≠ blank) : 0 ≤ p ∧ p < word.length := by
  rw [holding_eq] at h
  split at h
  · rename_i hp
    refine ⟨hp, Int.not_le.1 fun hlen => h ?_⟩
    exact List.getD_eq_default _ _ (by omega)
  · exact absurd rfl h

theorem getD_of_forall_eq (h : ∀ c ∈ back, c = blank) (n : Nat) : back.getD n blank = blank := by
  rw [List.getD_eq_getElem?_getD]
  cases hc : back[n]? with
  | none => rfl
  | some c => exact h c (List.mem_of_getElem? hc)

theorem holding_append_blanks (h : ∀ c ∈ back, c = blank) (p : Int) :
    holding (word ++ back) blank p = holding word blank p := by
  rw [holding_eq, holding_eq]
  by_cases hlt : p.toNat < word.length
  · rw [List.getD_append _ _ _ _ hlt]
  · have hle := Nat.le_of_not_lt hlt
    rw [List.getD_append_right _ _ _ _ hle, getD_of_forall_eq h, List.getD_eq_default _ _ hle]

theorem holding_blanks_append (h : ∀ c ∈ front, c = blank) (p : Int) :
    holding (front ++ word) blank p = holding word blank (p - front.length) := by
  rw [holding_eq, holding_eq]
  by_cases hp : p < front.length
  · have hneg : ¬0 ≤ p - front.length := by omega
    rw [if_neg hneg]
    split
    · rw [List.getD_append _ _ _ _ (by omega), getD_of_forall_eq h]
    · rfl
  · have hnonneg : 0 ≤ p ∧ 0 ≤ p - front.length := by omega
    rw [if_pos hnonneg.1, if_pos hnonneg.2, List.getD_append_right _ _ _ _ (by omega)]
    congr 1
    omega

theorem read_eq_holding_cells (t : Tape) (p : Int) :
    t.read p = holding t.cells t.blank (p - t.first) := by
  rw [holding_eq, cells, first, Int.sub_neg]
  cases p with
  | ofNat n =>
    have hnonneg : 0 ≤ Int.ofNat n + t.left.size := Int.add_nonneg (Int.natCast_nonneg n) (by omega)
    have hplace : (Int.ofNat n + t.left.size).toNat = t.left.toList.reverse.length + n := by
      rw [List.length_reverse, Array.length_toList, Int.ofNat_eq_natCast]
      omega
    rw [if_pos hnonneg, hplace, List.getD_append_right _ _ _ _ (Nat.le_add_right _ n),
      Nat.add_sub_cancel_left, List.getD_eq_getElem?_getD,
      Array.getElem?_toList, ← Array.getD_eq_getD_getElem?]
    rfl
  | negSucc n =>
    rw [read, Array.getD_eq_getD_getElem?]
    by_cases hn : n < t.left.size
    · have hlt : (Int.negSucc n + t.left.size).toNat < t.left.toList.reverse.length := by
        rw [List.length_reverse, Array.length_toList]
        omega
      have hplace : t.left.toList.length - 1 - (Int.negSucc n + t.left.size).toNat = n := by
        rw [Array.length_toList]
        omega
      rw [if_pos (by omega), List.getD_append _ _ _ _ hlt, List.getD_eq_getElem?_getD,
        List.getElem?_reverse (List.length_reverse ▸ hlt), hplace, Array.getElem?_toList]
    · rw [if_neg (by omega), Array.getElem?_eq_none (Nat.le_of_not_lt hn)]
      rfl

theorem exists_cells_eq (t : Tape) : ∃ front back, t.cells = front ++ (t.trimmed ++ back) ∧
    (∀ c ∈ front, c = t.blank) ∧ (∀ c ∈ back, c = t.blank) ∧
    (t.trimmed ≠ [] → t.firstSymbol = t.first + front.length) := by
  refine ⟨t.cells.takeWhile (· == t.blank),
    (t.cells.dropWhile (· == t.blank)).rtakeWhile (· == t.blank),
    ?_, ?_, ?_, ?_⟩
  · have htrimmed : t.trimmed = (t.cells.dropWhile (· == t.blank)).rdropWhile (· == t.blank) := rfl
    rw [htrimmed, List.rdropWhile_append_rtakeWhile, List.takeWhile_append_dropWhile]
  · intro c hc
    have hblank := List.mem_takeWhile_imp hc
    exact eq_of_beq hblank
  · intro c hc
    have hblank := List.mem_rtakeWhile_imp hc
    exact eq_of_beq hblank
  · intro hne
    rw [firstSymbol]
    split
    · contradiction
    · rfl

theorem firstSymbol_of_nil (h : t.trimmed = []) : t.firstSymbol = 0 := by
  rw [firstSymbol, h]

theorem read_eq_holding_trimmed (t : Tape) (p : Int) :
    t.read p = holding t.trimmed t.blank (p - t.firstSymbol) := by
  obtain ⟨front, back, hcells, hfront, hback, hfirst⟩ := t.exists_cells_eq
  rw [read_eq_holding_cells, hcells, holding_blanks_append hfront, holding_append_blanks hback]
  by_cases h : t.trimmed = []
  · rw [h, holding_nil, holding_nil]
  · rw [hfirst h, Int.sub_sub]

theorem bounds_of_read_ne (h : t.read p ≠ t.blank) :
    t.firstSymbol ≤ p ∧ p < t.firstSymbol + t.trimmed.length := by
  rw [read_eq_holding_trimmed] at h
  obtain ⟨hfirst, hlast⟩ := bounds_of_holding_ne h
  omega

theorem read_firstSymbol_add (t : Tape) (n : Nat) :
    t.read (t.firstSymbol + n) = t.trimmed.getD n t.blank := by
  have hplace : t.firstSymbol + n - t.firstSymbol = Int.ofNat n := by
    rw [Int.ofNat_eq_natCast]
    omega
  rw [read_eq_holding_trimmed, hplace]
  rfl

theorem read_firstSymbol_ne (h : t.trimmed ≠ []) : t.read t.firstSymbol ≠ t.blank := by
  obtain ⟨rest, hrest⟩ : t.trimmed <+: t.cells.dropWhile (· == t.blank) :=
    List.rdropWhile_prefix _ _
  have hread := t.read_firstSymbol_add 0
  rw [Int.natCast_zero, Int.add_zero] at hread
  cases htrimmed : t.trimmed with
  | nil => exact absurd htrimmed h
  | cons c word =>
    rw [htrimmed, List.cons_append] at hrest
    have hhead := List.head?_dropWhile_not (· == t.blank) t.cells
    rw [← hrest] at hhead
    rw [hread, htrimmed]
    exact ne_of_beq_false hhead

theorem read_lastSymbol_ne (h : t.trimmed ≠ []) :
    t.read (t.firstSymbol + (t.trimmed.length - 1 : Nat)) ≠ t.blank := by
  have hlast : ¬(t.trimmed.getLast h == t.blank) := List.rdropWhile_last_not _ _ h
  have hlt : t.trimmed.length - 1 < t.trimmed.length := Nat.sub_one_lt (List.length_pos_iff.2 h).ne'
  rw [read_firstSymbol_add, List.getD_eq_getElem _ _ hlt, ← List.getLast_eq_getElem h]
  exact fun heq => hlast (beq_iff_eq.2 heq)

theorem trimmed_eq_nil_iff : t.trimmed = [] ↔ ∀ p, t.read p = t.blank := by
  constructor
  · intro h p
    rw [read_eq_holding_trimmed, h, holding_nil]
  · intro h
    by_contra hne
    exact read_firstSymbol_ne hne (h t.firstSymbol)

theorem firstSymbol_le_of_read_eq (hblank : a.blank = b.blank) (hread : ∀ p, a.read p = b.read p)
    (ha : a.trimmed ≠ []) : b.firstSymbol ≤ a.firstSymbol ∧
      a.firstSymbol + a.trimmed.length ≤ b.firstSymbol + b.trimmed.length := by
  have hfirst := read_firstSymbol_ne ha
  have hlast := read_lastSymbol_ne ha
  rw [hread, hblank] at hfirst hlast
  have hpos := List.length_pos_iff.2 ha
  obtain ⟨hle, -⟩ := bounds_of_read_ne hfirst
  obtain ⟨-, hlt⟩ := bounds_of_read_ne hlast
  omega

/-- Tapes are equal when they have one blank and hold the same symbols, whatever part of them is
stored. -/
theorem beq_iff : (a == b) = true ↔ a.blank = b.blank ∧ ∀ p, a.read p = b.read p := by
  have hbeq : (a == b) = true ↔
      (a.blank = b.blank ∧ a.firstSymbol = b.firstSymbol) ∧ a.trimmed = b.trimmed := by
    change (a.blank == b.blank && a.firstSymbol == b.firstSymbol && a.trimmed == b.trimmed) = true ↔
      _
    rw [Bool.and_eq_true, Bool.and_eq_true, beq_iff_eq, beq_iff_eq, beq_iff_eq]
  rw [hbeq]
  constructor
  · rintro ⟨⟨hblank, hfirst⟩, htrimmed⟩
    refine ⟨hblank, fun p => ?_⟩
    rw [read_eq_holding_trimmed, read_eq_holding_trimmed, hblank, hfirst, htrimmed]
  · rintro ⟨hblank, hread⟩
    by_cases ha : a.trimmed = []
    · have hb : b.trimmed = [] := by
        rw [trimmed_eq_nil_iff] at ha ⊢
        exact fun p => (hread p).symm.trans ((ha p).trans hblank)
      exact ⟨⟨hblank, (firstSymbol_of_nil ha).trans (firstSymbol_of_nil hb).symm⟩, ha.trans hb.symm⟩
    · have hb : b.trimmed ≠ [] := by
        intro hb
        rw [trimmed_eq_nil_iff] at ha hb
        exact ha fun p => (hread p).trans ((hb p).trans hblank.symm)
      obtain ⟨hba, hba'⟩ := firstSymbol_le_of_read_eq hblank hread ha
      obtain ⟨hab, hab'⟩ := firstSymbol_le_of_read_eq hblank.symm (fun p => (hread p).symm) hb
      have hfirst : a.firstSymbol = b.firstSymbol := Int.le_antisymm hab hba
      refine ⟨⟨hblank, hfirst⟩, List.ext_getElem (by omega) fun n hna hnb => ?_⟩
      rw [← List.getD_eq_getElem _ a.blank hna, ← List.getD_eq_getElem _ b.blank hnb,
        ← read_firstSymbol_add, ← read_firstSymbol_add, hread, hfirst]

end Acceptors.Tape
