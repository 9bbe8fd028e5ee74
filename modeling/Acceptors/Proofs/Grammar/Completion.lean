import Mathlib.Algebra.BigOperators.Intervals
import Mathlib.Order.Interval.Set.Basic
import Acceptors.Proofs.Grammar.Partial

/-! The rounds that complete a chart. Every round but the last one finds a fact, which gets the
number of the round as its rank, so the ranks leave no gaps and there are no more such rounds than
nonterminals over parts of the input. -/

namespace Acceptors.Chart

variable {c : Chart} {k m a i j r : Nat}

def factRanks (c : Chart) : Set Nat := {r | ∃ a i j, c.rank? a i j = some r}

/-- The rounds that found a fact. The round that completes a chart is the only one that found
none. -/
def fruitful (c : Chart) : Nat := if c.isComplete then c.rounds - 1 else c.rounds

theorem fruitful_of_not_isComplete (h : c.isComplete = false) : c.fruitful = c.rounds := by
  rw [fruitful, h]
  rfl

theorem fruitful_of_isComplete (h : c.isComplete = true) : c.fruitful = c.rounds - 1 := by
  rw [fruitful, h]
  rfl

/-- What the rounds leave behind: facts of nonterminals over parts of the input, and one for each
round that found any. -/
structure Paced (c : Chart) : Prop where
  placed : ∀ a i j r, c.rank? a i j = some r →
    ∃ a' i' j', a' < c.grammar.nonterminals.size ∧ i' ≤ j' ∧ j' ≤ c.length ∧
    c.rank? a' i' j' = some r
  ranks : c.factRanks = Set.Icc 1 c.fruitful

theorem rank?_ofInput {g : Grammar} {w : List Char} (h : ofInput g w = .ok c) (a i j : Nat) :
    c.rank? a i j = none := by
  obtain ⟨-, rfl⟩ := ofInput_eq_ok h
  exact getD_replicate_self _ _ none

theorem paced_ofInput {g : Grammar} {w : List Char} (h : ofInput g w = .ok c) : c.Paced := by
  have hnone : ∀ a i j r, c.rank? a i j ≠ some r := by
    intro a i j r
    rw [rank?_ofInput h]
    exact (Option.some_ne_none r).symm
  obtain ⟨-, rfl⟩ := ofInput_eq_ok h
  refine ⟨fun a i j r hr => absurd hr (hnone a i j r), ?_⟩
  rw [fruitful_of_not_isComplete rfl, Set.Icc_eq_empty (Nat.not_succ_le_zero 0),
    Set.eq_empty_iff_forall_notMem]
  rintro r ⟨a, i, j, hr⟩
  exact hnone a i j r hr

theorem rank?_advance_of_mem_newFacts (hs : c.Sized) (hg : c.grammar.WellFormed)
    (hc : c.isComplete = false) {cell : Nat} (hcell : cell ∈ c.newFacts (c.rounds + 1)) :
    ∃ a i j, a < c.grammar.nonterminals.size ∧ i ≤ j ∧ j ≤ c.length ∧ c.index a i j = cell ∧
      c.advance.rank? a i j = some (c.rounds + 1) := by
  obtain ⟨p, hp, i, hi, j, hcovers, -, rfl⟩ := mem_newFacts_iff.1 hcell
  obtain ⟨hij, hj⟩ := hcovers.bounds hi
  refine ⟨p.head, i, j, hg.head_lt p hp, hij, hj, rfl, ?_⟩
  rw [rank?_advance hc (index_lt hs (hg.head_lt p hp) hi hj), if_pos hcell]

theorem factRanks_advance (hs : c.Sized) (hg : c.grammar.WellFormed) (hc : c.isComplete = false) :
    c.advance.factRanks =
      if c.advance.isComplete then c.factRanks else insert (c.rounds + 1) c.factRanks := by
  have hsub : ∀ r ∈ c.factRanks, r ∈ c.advance.factRanks := by
    rintro r ⟨a, i, j, hr⟩
    exact ⟨a, i, j, rank?_advance_of_some hr⟩
  have hnew : ∀ r ∈ c.advance.factRanks,
      r ∈ c.factRanks ∨ r = c.rounds + 1 ∧ c.newFacts (c.rounds + 1) ≠ [] := by
    rintro r ⟨a, i, j, hr⟩
    rcases rank?_of_advance hr with hr | ⟨-, rfl, hcell⟩
    · exact .inl ⟨a, i, j, hr⟩
    · exact .inr ⟨rfl, List.ne_nil_of_mem hcell⟩
  have hcomplete := isComplete_advance hc
  ext r
  split
  · rename_i h
    rw [h] at hcomplete
    refine ⟨fun hr => (hnew r hr).resolve_right fun hlast => ?_, hsub r⟩
    exact hlast.2 (List.isEmpty_iff.1 hcomplete.symm)
  · rename_i h
    rw [Bool.not_eq_true] at h
    rw [h] at hcomplete
    obtain ⟨cell, hcell⟩ := List.exists_mem_of_ne_nil _ (List.isEmpty_eq_false_iff.1 hcomplete.symm)
    obtain ⟨a, i, j, -, -, -, -, hrank⟩ := rank?_advance_of_mem_newFacts hs hg hc hcell
    rw [Set.mem_insert_iff]
    constructor
    · exact fun hr => (hnew r hr).symm.imp_left And.left
    · rintro (rfl | hr)
      · exact ⟨a, i, j, hrank⟩
      · exact hsub r hr

theorem Paced.advance (h : c.Paced) (hs : c.Sized) (hg : c.grammar.WellFormed) :
    c.advance.Paced := by
  cases hc : c.isComplete with
  | true => rwa [advance_of_isComplete hc]
  | false =>
    refine ⟨fun a i j r hr => ?_, ?_⟩
    · rw [grammar_advance, length_advance]
      rcases rank?_of_advance hr with hr | ⟨-, rfl, hcell⟩
      · obtain ⟨a', i', j', ha, hij, hj, hr⟩ := h.placed a i j r hr
        exact ⟨a', i', j', ha, hij, hj, rank?_advance_of_some hr⟩
      · obtain ⟨a', i', j', ha, hij, hj, -, hrank⟩ := rank?_advance_of_mem_newFacts hs hg hc hcell
        exact ⟨a', i', j', ha, hij, hj, hrank⟩
    · have hranks := h.ranks
      rw [fruitful_of_not_isComplete hc] at hranks
      rw [factRanks_advance hs hg hc, hranks]
      cases hn : c.advance.isComplete with
      | true =>
        rw [fruitful_of_isComplete hn, rounds_advance hc, Nat.add_sub_cancel]
        rfl
      | false =>
        rw [fruitful_of_not_isComplete hn, rounds_advance hc, if_neg Bool.false_ne_true]
        ext r
        rw [Set.mem_insert_iff, Set.mem_Icc, Set.mem_Icc]
        omega

theorem Paced.iterate (h : c.Paced) (he : c.Exact) (hg : c.grammar.WellFormed) (k : Nat) :
    (Chart.advance^[k] c).Paced := by
  induction k with
  | zero => exact h
  | succ k ih =>
    obtain ⟨hexact, hgrammar, -⟩ := exact_iterate he hg k
    rw [Function.iterate_succ_apply']
    exact ih.advance hexact.sized (hgrammar ▸ hg)

/-! The number of rounds. -/

def spans (n : Nat) : Finset (Σ _ : Nat, Nat) := (Finset.range (n + 1)).sigma fun j =>
      Finset.range (j + 1)

theorem card_spans (n : Nat) : (spans n).card * 2 = (n + 1) * (n + 2) := by
  have hsum : ∑ j ∈ Finset.range (n + 1), (j + 1) = ∑ j ∈ Finset.range (n + 2), j := by
    rw [Finset.sum_range_succ' _ (n + 1)]
    rfl
  rw [spans, Finset.card_sigma]
  simp only [Finset.card_range]
  rw [hsum, Finset.sum_range_id_mul_two, Nat.mul_comm]
  rfl

theorem Paced.fruitful_le (h : c.Paced) :
    c.fruitful ≤ c.grammar.nonterminals.size * (spans c.length).card := by
  -- one fact for each rank, and its rank tells it from the facts of the others
  have hsub : Finset.Icc 1 c.fruitful ⊆
      (Finset.range c.grammar.nonterminals.size ×ˢ spans c.length).image
      fun f => (c.rank? f.1 f.2.2 f.2.1).getD 0 := by
    intro r hr
    obtain ⟨a, i, j, hrank⟩ : r ∈ c.factRanks := h.ranks ▸ Finset.mem_Icc.1 hr
    obtain ⟨a, i, j, ha, hij, hj, hrank⟩ := h.placed a i j r hrank
    refine Finset.mem_image.2 ⟨(a, ⟨j, i⟩), ?_, by rw [hrank]; rfl⟩
    rw [Finset.mem_product, spans, Finset.mem_sigma, Finset.mem_range, Finset.mem_range,
      Finset.mem_range]
    exact ⟨ha, Nat.lt_succ_of_le hj, Nat.lt_succ_of_le hij⟩
  have hcard := (Finset.card_le_card hsub).trans Finset.card_image_le
  rwa [Nat.card_Icc, Nat.add_sub_cancel, Finset.card_product, Finset.card_range] at hcard

theorem Paced.rounds_le (h : c.Paced) :
    c.rounds ≤ c.grammar.nonterminals.size * (c.length + 1) * (c.length + 2) / 2 + 1 := by
  have hrounds : c.rounds ≤ c.fruitful + 1 := by
    rw [fruitful]
    split <;> omega
  rw [Nat.mul_assoc, ← card_spans, ← Nat.mul_assoc, Nat.mul_div_cancel _ Nat.two_pos]
  exact hrounds.trans (Nat.succ_le_succ h.fruitful_le)

theorem Paced.rounds_iterate_le (h : c.Paced) (he : c.Exact) (hg : c.grammar.WellFormed) (k : Nat) :
    (Chart.advance^[k] c).rounds ≤ c.grammar.nonterminals.size * (c.length + 1) *
    (c.length + 2) / 2 + 1 := by
  have hextends := extends_iterate c k
  have hrounds := (h.iterate he hg k).rounds_le
  rwa [hextends.grammar, hextends.length_eq] at hrounds

theorem exists_first_complete (fuel : Nat) (hc : c.isComplete = false)
    (h : (advanceAll fuel c).isComplete = true) :
    ∃ k, advanceAll fuel c = advance^[k + 1] c ∧ ∀ m ≤ k, (advance^[m] c).isComplete = false := by
  induction fuel generalizing c with
  | zero =>
    rw [advanceAll, hc] at h
    cases h
  | succ fuel ih =>
    have hzero : ∀ m ≤ 0, (advance^[m] c).isComplete = false := fun m hm => Nat.le_zero.1 hm ▸ hc
    rw [advanceAll] at h ⊢
    cases hn : c.advance.isComplete with
    | true => exact ⟨0, by rw [if_pos rfl]; rfl, hzero⟩
    | false =>
      rw [hn, if_neg Bool.false_ne_true] at h
      obtain ⟨k, hk, hbefore⟩ := ih hn h
      refine ⟨k + 1, by rw [if_neg Bool.false_ne_true, hk]; rfl, fun m hm => ?_⟩
      cases m with
      | zero => exact hc
      | succ m => exact hbefore m (Nat.le_of_succ_le_succ hm)

theorem rounds_of_not_isComplete (h : (advance^[k] c).isComplete = false) :
    (advance^[k] c).rounds = c.rounds + k := by
  rcases rounds_iterate c k with hrounds | ⟨hcomplete, -⟩
  · exact hrounds
  · rw [h] at hcomplete
    cases hcomplete

theorem complete_spec (hs : c.Sized) (hg : c.grammar.WellFormed) (hr : c.rounds = 0)
    (hc : c.isComplete = false) :
    ∃ k, c.complete = advance^[k + 1] c ∧ c.complete.rounds = k + 1 ∧
      ∀ m ≤ k, (advance^[m] c).isComplete = false := by
  obtain ⟨k, hk, hbefore⟩ := exists_first_complete _ hc (isComplete_complete hs hg)
  refine ⟨k, hk, ?_, hbefore⟩
  have hlast := hbefore k (Nat.le_refl k)
  rw [complete, hk, Function.iterate_succ_apply', rounds_advance hlast,
    rounds_of_not_isComplete hlast, hr, Nat.zero_add]

theorem size_ranks_le {g : Grammar} {w : List Char} (h : ofInput g w = .ok c) :
    c.ranks.size ≤ g.maxChartCells := by
  obtain ⟨hle, rfl⟩ := ofInput_eq_ok h
  rwa [Array.size_replicate]

theorem half_cells_le (a n : Nat) : a * (n + 1) * (n + 2) / 2 ≤ a * (n + 1) * (n + 1) := by
  have hwidth : n + 2 ≤ 2 * (n + 1) := by omega
  apply Nat.div_le_of_le_mul
  rw [Nat.mul_left_comm]
  exact Nat.mul_le_mul_left _ hwidth

/-- A chart is complete after one round more than its largest rank says, which is at most one more
than there are nonterminals over parts of the input. Further rounds change nothing, so with fewer
than `2 ^ 32 - 1` cells allowed the number of a round always fits 32 bits. -/
theorem complete_within_rounds {d : Grammar.Definition} {g : Grammar}
    {w : List Char} (hd : d.build = .ok g) (treeDepth chartCells : Nat)
    (hc : ofInput (g.withLimits treeDepth chartCells) w = .ok c)
    (hcount : Countable (g.withLimits treeDepth chartCells) w) :
    c.complete.isComplete = true ∧ c.complete = advance^[c.complete.rounds] c ∧
    (∀ k < c.complete.rounds, (advance^[k] c).isComplete = false) ∧
    c.complete.rounds ≤ g.nonterminals.size * (w.length + 1) * (w.length + 2) / 2 + 1 ∧
    (c.complete.factRanks = ∅ ∧ c.complete.rounds = 1 ∨
      ∃ r, IsGreatest c.complete.factRanks r ∧ c.complete.rounds = 1 + r) ∧
    (∀ k, advance^[k] c.complete = c.complete) ∧
    (chartCells < 2 ^ 32 - 1 → ∀ k, (advance^[k] c).rounds < 2 ^ 32) := by
  have hg := (Grammar.Definition.wellFormed_of_build hd).withLimits treeDepth chartCells
  obtain ⟨hexact, hgrammar, hword, hzero⟩ := exact_of_countable hc hcount
  have hfresh : c.isComplete = false := by
    obtain ⟨-, rfl⟩ := ofInput_eq_ok hc
    rfl
  rw [← hgrammar] at hg
  have hcomplete := isComplete_complete hexact.sized hg
  obtain ⟨k, hk, hrounds, hbefore⟩ := complete_spec hexact.sized hg hzero hfresh
  have hpaced : c.complete.Paced := hk ▸ (paced_ofInput hc).iterate hexact hg (k + 1)
  have hranks := hpaced.ranks
  rw [fruitful_of_isComplete hcomplete, hrounds, Nat.add_sub_cancel] at hranks
  have hbound : ∀ m, (advance^[m] c).rounds ≤ g.nonterminals.size * (w.length + 1) *
      (w.length + 2) / 2 + 1 := by
    intro m
    have hle := (paced_ofInput hc).rounds_iterate_le hexact hg m
    rw [hgrammar, ← length_word, hword] at hle
    exact hle
  refine ⟨hcomplete, hrounds ▸ hk, fun m hm => hbefore m (by omega), hk ▸ hbound (k + 1), ?_,
    fun m => Function.iterate_fixed (advance_of_isComplete hcomplete) m, fun hcells m => ?_⟩
  · rw [hranks, hrounds]
    rcases Nat.eq_zero_or_pos k with rfl | hpos
    · exact .inl ⟨Set.Icc_eq_empty (Nat.not_succ_le_zero 0), rfl⟩
    · exact .inr ⟨k, isGreatest_Icc hpos, Nat.add_comm k 1⟩
  · have hcells' := size_ranks_le hc
    rw [hexact.sized, hgrammar, ← length_word, hword] at hcells'
    have hhalf := half_cells_le g.nonterminals.size w.length
    calc (advance^[m] c).rounds
      _ ≤ g.nonterminals.size * (w.length + 1) * (w.length + 2) / 2 + 1 := hbound m
      _ ≤ g.nonterminals.size * (w.length + 1) * (w.length + 1) + 1 := Nat.succ_le_succ hhalf
      _ ≤ chartCells + 1 := Nat.succ_le_succ hcells'
      _ < 2 ^ 32 := by omega

theorem complete_within_rounds_cycle :
    let d : Grammar.Definition := ⟨[("E", ["E+T", "T"]), ("T", ["E", "a", ""])]⟩
    ∃ g c, d.build = .ok g ∧ ofInput (g.withLimits 5 8) ['a'] = .ok c ∧ c.complete.rounds = 3 ∧
      IsGreatest c.complete.factRanks 2 ∧ ∀ k, (advance^[k] c).rounds < 2 ^ 32 := by
  intro d
  let g : Grammar := ⟨#["E", "T"],
    [⟨0, [.nonterminal 0, .terminal '+', .nonterminal 1]⟩, ⟨0, [.nonterminal 1]⟩,
      ⟨1, [.nonterminal 0]⟩, ⟨1, [.terminal 'a']⟩, ⟨1, []⟩], 10000, 4194304⟩
  have hd : d.build = .ok g := by decide +kernel
  let c : Chart := ⟨g.withLimits 5 8, #['a'], Array.replicate 8 none, 0, false⟩
  have hc : ofInput (g.withLimits 5 8) ['a'] = .ok c := rfl
  have hrounds : c.complete.rounds = 3 := by decide +kernel
  obtain ⟨-, -, -, -, hranks, -, hfits⟩ := complete_within_rounds hd 5 8 hc (.inl (by decide))
  rw [hrounds] at hranks
  obtain ⟨-, hnone⟩ | ⟨r, hr, hlast⟩ := hranks
  · cases hnone
  · obtain rfl : r = 2 := by omega
    exact ⟨g, c, hd, hc, hrounds, hr, hfits (by decide)⟩

end Acceptors.Chart
