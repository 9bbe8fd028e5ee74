import Mathlib.Data.Finset.Card
import Mathlib.Logic.Function.Iterate
import Acceptors.Grammar.Chart
import Acceptors.Proofs.Grammar.Definition
import Acceptors.Proofs.Grammar.Derivation

/-! The cells of a chart and what one round does to them. A body matches a part of the input when
the part can be cut into pieces for its symbols, and matching from known facts is deriving from the
words of these facts. -/

namespace Acceptors

open Grammar (Symbol DerivesWithin)

def part (w : List Char) (i j : Nat) : List Char := (w.drop i).take (j - i)

section Part

variable {w u v : List Char} {i j : Nat}

theorem part_eq_nil_iff (hij : i ≤ j) (hj : j ≤ w.length) : part w i j = [] ↔ i = j := by
  rw [part, List.take_eq_nil_iff, List.drop_eq_nil_iff]
  omega

theorem part_eq_cons_iff {c : Char} (hij : i ≤ j) (hj : j ≤ w.length) :
    part w i j = c :: v ↔ i < j ∧ w[i]? = some c ∧ v = part w (i + 1) j := by
  rcases Nat.lt_or_ge i j with h | h
  · have hi : i < w.length := by omega
    have hs : j - i = j - (i + 1) + 1 := by omega
    rw [part, List.drop_eq_getElem_cons hi, hs, List.take_succ_cons, List.cons.injEq,
      List.getElem?_eq_getElem hi, Option.some.injEq, part, eq_comm (b := v)]
    simp [h]
  · have hn : part w i j = [] := (part_eq_nil_iff hij hj).2 (by omega)
    rw [hn]
    simp [Nat.not_lt.2 h]

theorem part_append {m : Nat} (him : i ≤ m) (hmj : m ≤ j) :
    part w i m ++ part w m j = part w i j := by
  have hs : j - i = (m - i) + (j - m) := by omega
  have hd : w.drop m = (w.drop i).drop (m - i) := by
    rw [List.drop_drop, Nat.add_sub_cancel' him]
  rw [part, part, part, hs, List.take_add, hd]

theorem part_eq_append_iff (hij : i ≤ j) (hj : j ≤ w.length) :
    part w i j = u ++ v ↔ ∃ m, i ≤ m ∧ m ≤ j ∧ u = part w i m ∧ v = part w m j := by
  constructor
  · intro h
    have hl : u.length + v.length = j - i := by
      rw [← List.length_append, ← h, part, List.length_take, List.length_drop]
      omega
    have hm : part w i (i + u.length) ++ part w (i + u.length) j = u ++ v := by
      rw [part_append (by omega) (by omega), h]
    obtain ⟨hu, hv⟩ := List.append_inj hm (by
      rw [part, List.length_take, List.length_drop]
      omega)
    exact ⟨i + u.length, by omega, by omega, hu.symm, hv.symm⟩
  · rintro ⟨m, him, hmj, rfl, rfl⟩
    exact (part_append him hmj).symm

end Part

namespace Chart

variable {c : Chart} {bound k a b i j r : Nat} {body : List Symbol}

def word (c : Chart) : List Char := c.input.toList

@[simp] theorem length_word (c : Chart) : c.word.length = c.length := Array.length_toList

def Leads (c : Chart) (bound : Nat) (i j : Nat) : Symbol → Prop
  | .terminal t => c.input[i]? = some t ∧ j = i + 1
  | .nonterminal a => i ≤ j ∧ j ≤ c.length ∧ c.isBelow bound a i j = true

def Covers (c : Chart) (bound : Nat) : List Symbol → Nat → Nat → Prop
  | [], i, j => i = j
  | s :: body, i, j => ∃ m, c.Leads bound i m s ∧ c.Covers bound body m j

theorem mem_reachOver_iff {positions : List Nat} {s : Symbol} :
    j ∈ c.reachOver bound positions s ↔ ∃ i ∈ positions, c.Leads bound i j s := by
  cases s with
  | terminal t => simp [reachOver, Leads, eq_comm]
  | nonterminal a =>
    rcases positions with _ | ⟨i, _ | ⟨i', rest⟩⟩
    · simp [reachOver]
    · have hr : (i ≤ j ∧ j < i + (c.length + 1 - i)) ↔ i ≤ j ∧ j ≤ c.length := by omega
      simp only [reachOver, Leads, List.mem_filter, List.mem_range'_1, List.mem_singleton,
        exists_eq_left, hr, and_assoc]
    · simp only [reachOver, Leads, List.mem_filter, List.mem_range, List.any_eq_true,
        Bool.and_eq_true, decide_eq_true_eq, Nat.lt_succ_iff]
      constructor
      · rintro ⟨hj, m, hm, hmj, hb⟩
        exact ⟨m, hm, hmj, hj, hb⟩
      · rintro ⟨m, hm, hmj, hj, hb⟩
        exact ⟨hj, m, hm, hmj, hb⟩

theorem mem_reach_iff : j ∈ c.reach body i bound ↔ c.Covers bound body i j := by
  suffices h : ∀ positions, j ∈ body.foldl (c.reachOver bound) positions ↔
      ∃ i ∈ positions, c.Covers bound body i j by
    simpa only [reach, List.mem_singleton, exists_eq_left] using h [i]
  induction body with
  | nil => simp [Covers]
  | cons s body ih =>
    intro positions
    simp only [List.foldl_cons, ih, mem_reachOver_iff, Covers]
    constructor
    · rintro ⟨m, ⟨i, hi, hs⟩, hb⟩
      exact ⟨i, hi, m, hs, hb⟩
    · rintro ⟨i, hi, m, hs, hb⟩
      exact ⟨m, ⟨i, hi, hs⟩, hb⟩

theorem Leads.bounds {s : Symbol} (h : c.Leads bound i j s) : i ≤ j ∧ j ≤ c.length := by
  cases s with
  | terminal t =>
    obtain ⟨ht, rfl⟩ := h
    obtain ⟨hi, _⟩ := Array.getElem?_eq_some_iff.1 ht
    exact ⟨Nat.le_succ _, hi⟩
  | nonterminal a => exact ⟨h.1, h.2.1⟩

theorem Covers.bounds (h : c.Covers bound body i j) (hi : i ≤ c.length) :
    i ≤ j ∧ j ≤ c.length := by
  induction body generalizing i with
  | nil =>
    cases h
    exact ⟨Nat.le_refl _, hi⟩
  | cons s body ih =>
    obtain ⟨m, hs, hb⟩ := h
    obtain ⟨him, hm⟩ := hs.bounds
    obtain ⟨hmj, hj⟩ := ih hb hm
    exact ⟨Nat.le_trans him hmj, hj⟩

theorem mem_newFacts_iff {cell : Nat} :
    cell ∈ c.newFacts bound ↔ ∃ p ∈ c.grammar.productions, ∃ i ≤ c.length, ∃ j,
      c.Covers bound p.body i j ∧ c.rank? p.head i j = none ∧ c.index p.head i j = cell := by
  simp only [newFacts, List.mem_flatMap, List.mem_filterMap, List.mem_range, mem_reach_iff,
    Nat.lt_succ_iff, Option.ite_none_right_eq_some, Option.some.injEq, Option.isNone_iff_eq_none]

/-- The exact number of cells; a chart has so many unless this exceeds the largest count. -/
def Sized (c : Chart) : Prop :=
  c.ranks.size = c.grammar.nonterminals.size * (c.length + 1) * (c.length + 1)

theorem index_lt (h : c.Sized) (ha : a < c.grammar.nonterminals.size) (hi : i ≤ c.length)
    (hj : j ≤ c.length) : c.index a i j < c.ranks.size := by
  rw [h, index]
  have hrow : a * (c.length + 1) + i + 1 ≤ c.grammar.nonterminals.size * (c.length + 1) := by
    have := Nat.mul_le_mul_right (c.length + 1) (Nat.succ_le_of_lt ha)
    rw [Nat.succ_mul] at this
    omega
  have := Nat.mul_le_mul_right (c.length + 1) hrow
  rw [Nat.succ_mul] at this
  omega

theorem mul_add_inj {x y m n width : Nat} (hm : m < width) (hn : n < width)
    (h : x * width + m = y * width + n) : x = y ∧ m = n := by
  have hw : 0 < width := Nat.zero_lt_of_lt hm
  have hx : x = y := by
    have hd := congrArg (· / width) h
    simpa only [Nat.mul_comm _ width, Nat.mul_add_div hw, Nat.div_eq_of_lt hm,
      Nat.div_eq_of_lt hn, Nat.add_zero] using hd
  subst hx
  exact ⟨rfl, Nat.add_left_cancel h⟩

theorem index_inj {i' j' : Nat} (hi : i ≤ c.length) (hj : j ≤ c.length) (hi' : i' ≤ c.length)
    (hj' : j' ≤ c.length) (h : c.index a i j = c.index b i' j') : a = b ∧ i = i' ∧ j = j' := by
  obtain ⟨hrow, hcol⟩ := mul_add_inj (Nat.lt_succ_of_le hj) (Nat.lt_succ_of_le hj') h
  obtain ⟨ha, hi⟩ := mul_add_inj (Nat.lt_succ_of_le hi) (Nat.lt_succ_of_le hi') hrow
  exact ⟨ha, hi, hcol⟩

theorem getD_foldl_set (found : List Nat) (ranks : Array (Option Nat)) (rank : Option Nat)
    {cell : Nat} (hc : cell < ranks.size) :
    (found.foldl (fun ranks cell => ranks.setIfInBounds cell rank) ranks).getD cell none =
      if cell ∈ found then rank else ranks.getD cell none := by
  induction found generalizing ranks with
  | nil => simp
  | cons f found ih =>
    rw [List.foldl_cons, ih _ (by simpa using hc)]
    by_cases hm : cell ∈ found
    · simp [hm]
    · by_cases hf : f = cell
      · subst hf
        simp [hc]
      · simp [hm, hf, Ne.symm hf]

theorem size_foldl_set (found : List Nat) (ranks : Array (Option Nat)) (rank : Option Nat) :
    (found.foldl (fun ranks cell => ranks.setIfInBounds cell rank) ranks).size = ranks.size := by
  induction found generalizing ranks with
  | nil => rfl
  | cons f found ih => rw [List.foldl_cons, ih, Array.size_setIfInBounds]

@[simp] theorem grammar_advance (c : Chart) : c.advance.grammar = c.grammar := by
  unfold advance
  split <;> rfl

@[simp] theorem input_advance (c : Chart) : c.advance.input = c.input := by
  unfold advance
  split <;> rfl

@[simp] theorem length_advance (c : Chart) : c.advance.length = c.length := by
  rw [length, input_advance, length]

@[simp] theorem index_advance (c : Chart) (a i j : Nat) :
    c.advance.index a i j = c.index a i j := by
  rw [index, length_advance, index]

theorem size_ranks_advance (c : Chart) : c.advance.ranks.size = c.ranks.size := by
  unfold advance
  split
  · rfl
  · exact size_foldl_set ..

theorem sized_advance (h : c.Sized) : c.advance.Sized := by
  rw [Sized, size_ranks_advance, grammar_advance, length_advance, h]

theorem advance_of_isComplete (h : c.isComplete = true) : c.advance = c := by
  rw [advance, if_pos h]

theorem rounds_advance (h : c.isComplete = false) : c.advance.rounds = c.rounds + 1 := by
  simp [advance, h]

theorem isComplete_advance (h : c.isComplete = false) :
    c.advance.isComplete = (c.newFacts (c.rounds + 1)).isEmpty := by
  simp [advance, h]

theorem getD_ranks_advance {cell : Nat} (hc : c.isComplete = false) (h : cell < c.ranks.size) :
    c.advance.ranks.getD cell none =
      if cell ∈ c.newFacts (c.rounds + 1) then some (c.rounds + 1)
      else c.ranks.getD cell none := by
  rw [← getD_foldl_set _ _ _ h]
  simp [advance, hc]

theorem rank?_advance (hc : c.isComplete = false) (h : c.index a i j < c.ranks.size) :
    c.advance.rank? a i j =
      if c.index a i j ∈ c.newFacts (c.rounds + 1) then some (c.rounds + 1)
      else c.rank? a i j := by
  rw [rank?, index_advance, rank?, getD_ranks_advance hc h]

end Chart

end Acceptors
