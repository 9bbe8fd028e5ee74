import Acceptors.Proofs.Grammar.Chart
import Acceptors.Proofs.Places

/-! The rounds of a chart. After `k` rounds a nonterminal has a fact over a part of the input
exactly when a derivation tree of height at most `k` has that part as its leaves, and a round
without new facts has found every derivation. -/

namespace Acceptors.Chart

open Grammar (Symbol DerivesWithin Forest)

variable {c : Chart} {bound k m a i j : Nat} {body : List Symbol}

theorem isBelow_iff : c.isBelow bound a i j = true ↔ ∃ r, c.rank? a i j = some r ∧ r < bound := by
  unfold isBelow
  split <;> simp_all

theorem covers_iff_derivesWithin
    (hfacts : ∀ a i j, a < c.grammar.nonterminals.size → i ≤ j → j ≤ c.length →
      (c.isBelow bound a i j = true ↔
        c.grammar.DerivesWithin k [.nonterminal a] (part c.word i j)))
    (hbody : ∀ a, .nonterminal a ∈ body → a < c.grammar.nonterminals.size) (hi : i ≤ c.length) :
    c.Covers bound body i j ↔
      i ≤ j ∧ j ≤ c.length ∧ c.grammar.DerivesWithin k body (part c.word i j) := by
  induction body generalizing i with
  | nil =>
    constructor
    · rintro rfl
      have hp := (part_eq_nil_iff (w := c.word) (Nat.le_refl i) (by simpa using hi)).2 rfl
      exact ⟨Nat.le_refl i, hi, Grammar.derivesWithin_nil.2 hp⟩
    · rintro ⟨hij, hj, hd⟩
      exact (part_eq_nil_iff hij (by simpa using hj)).1 (Grammar.derivesWithin_nil.1 hd)
  | cons s body ih =>
    have hrest : ∀ a, .nonterminal a ∈ body → a < c.grammar.nonterminals.size :=
      fun a ha => hbody a (List.mem_cons_of_mem s ha)
    cases s with
    | terminal t =>
      constructor
      · rintro ⟨m, ⟨ht, rfl⟩, hb⟩
        obtain ⟨hlt, _⟩ := Array.getElem?_eq_some_iff.1 ht
        obtain ⟨hij, hj, hd⟩ := (ih hrest hlt).1 hb
        refine ⟨by omega, hj, Grammar.derivesWithin_terminal.2 ⟨part c.word (i + 1) j, ?_, hd⟩⟩
        rw [part_eq_cons_iff (by omega) (by simpa using hj), word, Array.getElem?_toList]
        exact ⟨by omega, ht, rfl⟩
      · rintro ⟨hij, hj, hd⟩
        obtain ⟨v, hv, hd⟩ := Grammar.derivesWithin_terminal.1 hd
        rw [part_eq_cons_iff hij (by simpa using hj), word, Array.getElem?_toList] at hv
        obtain ⟨hlt, ht, rfl⟩ := hv
        exact ⟨i + 1, ⟨ht, rfl⟩, (ih hrest (by omega)).2 ⟨hlt, hj, hd⟩⟩
    | nonterminal a =>
      have ha := hbody a List.mem_cons_self
      constructor
      · rintro ⟨m, ⟨him, hm, hf⟩, hb⟩
        obtain ⟨hmj, hj, hd⟩ := (ih hrest hm).1 hb
        refine ⟨by omega, hj, Grammar.derivesWithin_nonterminal.2
          ⟨part c.word i m, part c.word m j, (part_append him hmj).symm, ?_, hd⟩⟩
        exact (hfacts a i m ha him hm).1 hf
      · rintro ⟨hij, hj, hd⟩
        obtain ⟨u, v, huv, hu, hd⟩ := Grammar.derivesWithin_nonterminal.1 hd
        obtain ⟨m, him, hmj, rfl, rfl⟩ := (part_eq_append_iff hij (by simpa using hj)).1 huv
        have hm : m ≤ c.length := by omega
        exact ⟨m, ⟨him, hm, (hfacts a i m ha him hm).2 hu⟩, (ih hrest hm).2 ⟨hmj, hj, hd⟩⟩

theorem covers_of_forest
    (hclosed : ∀ p ∈ c.grammar.productions, ∀ i ≤ c.length, ∀ j,
      c.Covers bound p.body i j → c.isBelow bound p.head i j = true)
    {form : List Symbol} {w : List Char} (f : Forest c.grammar form w) (hij : i ≤ j)
    (hj : j ≤ c.length) (hw : part c.word i j = w) : c.Covers bound form i j := by
  induction f generalizing i j with
  | nil => exact (part_eq_nil_iff hij (by simpa using hj)).1 hw
  | terminal t rest ih =>
    rw [part_eq_cons_iff hij (by simpa using hj), word, Array.getElem?_toList] at hw
    obtain ⟨hlt, ht, rfl⟩ := hw
    exact ⟨i + 1, ⟨ht, rfl⟩, ih hlt hj rfl⟩
  | node h children rest ihc ihr =>
    obtain ⟨m, him, hmj, rfl, rfl⟩ := (part_eq_append_iff hij (by simpa using hj)).1 hw
    have hm : m ≤ c.length := by omega
    have hf := hclosed _ h i (by omega) m (ihc him hm rfl)
    exact ⟨m, ⟨him, hm, hf⟩, ihr hmj hj rfl⟩

/-- What holds of a chart between two rounds: the facts of the first `k` rounds are the trees of
height at most `k`, and all trees when the chart is complete. -/
structure Exact (c : Chart) : Prop where
  sized : c.Sized
  rank_le : ∀ a i j r, c.rank? a i j = some r → r ≤ c.rounds
  isBelow_iff : ∀ k ≤ c.rounds, ∀ a i j, a < c.grammar.nonterminals.size → i ≤ j →
    j ≤ c.length → (c.isBelow (k + 1) a i j = true ↔
      c.grammar.DerivesWithin k [.nonterminal a] (part c.word i j))
  complete : c.isComplete = true → ∀ k a i j, a < c.grammar.nonterminals.size → i ≤ j →
    j ≤ c.length →
    c.grammar.DerivesWithin k [.nonterminal a] (part c.word i j) →
    c.grammar.DerivesWithin c.rounds [.nonterminal a] (part c.word i j)

theorem index_lt_of_rank? {r : Nat} (h : c.rank? a i j = some r) :
    c.index a i j < c.ranks.size := by
  by_contra hn
  rw [rank?, Array.getD_eq_getD_getElem?, Array.getElem?_eq_none (Nat.not_lt.1 hn)] at h
  cases h

namespace Exact

theorem known_iff (h : c.Exact) :
    c.isBelow (c.rounds + 1) a i j = true ↔ c.rank? a i j ≠ none := by
  rw [Chart.isBelow_iff]
  constructor
  · rintro ⟨r, hr, _⟩
    simp [hr]
  · intro hn
    obtain ⟨r, hr⟩ := Option.ne_none_iff_exists'.1 hn
    exact ⟨r, hr, Nat.lt_succ_of_le (h.rank_le a i j r hr)⟩

theorem covers_iff (h : c.Exact)
    (hbody : ∀ a, .nonterminal a ∈ body → a < c.grammar.nonterminals.size) (hi : i ≤ c.length) :
    c.Covers (c.rounds + 1) body i j ↔
      i ≤ j ∧ j ≤ c.length ∧ c.grammar.DerivesWithin c.rounds body (part c.word i j) :=
  covers_iff_derivesWithin (h.isBelow_iff c.rounds (Nat.le_refl _)) hbody hi

theorem mem_newFacts_iff (h : c.Exact) (hg : c.grammar.WellFormed)
    (hij : i ≤ j) (hj : j ≤ c.length) :
    c.index a i j ∈ c.newFacts (c.rounds + 1) ↔ c.rank? a i j = none ∧
      c.grammar.DerivesWithin (c.rounds + 1) [.nonterminal a] (part c.word i j) := by
  rw [Chart.mem_newFacts_iff, Grammar.derivesWithin_tree]
  constructor
  · rintro ⟨p, hp, i', hi', j', hcov, hr, he⟩
    obtain ⟨hij', hj', hd⟩ := (h.covers_iff (hg.index_lt p hp) hi').1 hcov
    obtain ⟨rfl, rfl, rfl⟩ := index_inj hi' hj' (by omega) hj he
    exact ⟨hr, p.body, hp, hd⟩
  · rintro ⟨hr, body, hp, hd⟩
    have hcov := (h.covers_iff (hg.index_lt _ hp) (by omega)).2 ⟨hij, hj, hd⟩
    exact ⟨⟨a, body⟩, hp, i, by omega, j, hcov, hr, rfl⟩

theorem rank_le_advance (h : c.Exact) (hc : c.isComplete = false) {r : Nat}
    (hr : c.advance.rank? a i j = some r) : r ≤ c.rounds + 1 := by
  have hi : c.index a i j < c.ranks.size := by
    have hs := index_lt_of_rank? hr
    rwa [sized_advance h.sized, grammar_advance, length_advance, ← h.sized, index_advance] at hs
  rw [rank?_advance hc hi] at hr
  split at hr
  · cases hr
    exact Nat.le_refl _
  · exact Nat.le_succ_of_le (h.rank_le a i j r hr)

theorem isBelow_advance (h : c.Exact) (hg : c.grammar.WellFormed) (hc : c.isComplete = false)
    (hk : k ≤ c.rounds + 1) (ha : a < c.grammar.nonterminals.size) (hij : i ≤ j)
    (hj : j ≤ c.length) :
    c.advance.isBelow (k + 1) a i j = true ↔
      c.grammar.DerivesWithin k [.nonterminal a] (part c.word i j) := by
  have hnew := h.mem_newFacts_iff hg (a := a) hij hj
  have hold := fun m (hm : m ≤ c.rounds) => h.isBelow_iff m hm a i j ha hij hj
  rw [Chart.isBelow_iff, rank?_advance hc (index_lt h.sized ha (by omega) hj)]
  rcases Nat.lt_or_ge c.rounds k with hlt | hle
  · -- the new rank is the largest so far, so all facts count, the new ones among them
    obtain rfl : k = c.rounds + 1 := by omega
    split
    · rename_i hm
      exact iff_of_true ⟨_, rfl, by omega⟩ (hnew.1 hm).2
    · rename_i hm
      constructor
      · rintro ⟨r, hr, _⟩
        have hd := (hold c.rounds (Nat.le_refl _)).1 (h.known_iff.2 (by simp [hr]))
        exact hd.mono (Nat.le_succ _)
      · intro hd
        by_contra hn
        apply hm
        rw [hnew]
        refine ⟨?_, hd⟩
        by_contra hr
        obtain ⟨r, hr⟩ := Option.ne_none_iff_exists'.1 hr
        have := h.rank_le a i j r hr
        exact hn ⟨r, hr, by omega⟩
  · -- the new facts have too large a rank to count, and none of them was known
    rw [← hold k hle, Chart.isBelow_iff]
    split
    · rename_i hm
      have hr := (hnew.1 hm).1
      rw [hr]
      constructor
      · rintro ⟨r, hr', hlt⟩
        cases hr'
        omega
      · rintro ⟨r, hr', _⟩
        cases hr'
    · rfl

theorem derivesWithin_of_newFacts_eq_nil (h : c.Exact) (hn : c.newFacts (c.rounds + 1) = [])
    (ha : a < c.grammar.nonterminals.size) (hij : i ≤ j) (hj : j ≤ c.length)
    (hd : c.grammar.DerivesWithin k [.nonterminal a] (part c.word i j)) :
    c.grammar.DerivesWithin c.rounds [.nonterminal a] (part c.word i j) := by
  have hclosed : ∀ p ∈ c.grammar.productions, ∀ i ≤ c.length, ∀ j,
      c.Covers (c.rounds + 1) p.body i j → c.isBelow (c.rounds + 1) p.head i j = true := by
    intro p hp i hi j hcov
    rw [h.known_iff]
    intro hr
    have hm := Chart.mem_newFacts_iff.2 ⟨p, hp, i, hi, j, hcov, hr, rfl⟩
    rw [hn] at hm
    cases hm
  obtain ⟨t, _⟩ := hd
  obtain ⟨m, ⟨_, _, hf⟩, rfl⟩ := covers_of_forest hclosed t hij hj rfl
  exact (h.isBelow_iff c.rounds (Nat.le_refl _) a i m ha hij hj).1 hf

theorem advance (h : c.Exact) (hg : c.grammar.WellFormed) : c.advance.Exact := by
  cases hc : c.isComplete with
  | true => rwa [advance_of_isComplete hc]
  | false =>
    have hw : c.advance.word = c.word := by rw [word, input_advance, word]
    refine ⟨sized_advance h.sized, ?_, ?_, ?_⟩
    · intro a i j r hr
      rw [rounds_advance hc]
      exact h.rank_le_advance hc hr
    · intro k hk a i j ha hij hj
      rw [rounds_advance hc] at hk
      rw [grammar_advance] at ha ⊢
      rw [length_advance] at hj
      rw [hw]
      exact h.isBelow_advance hg hc hk ha hij hj
    · intro hcomplete k a i j ha hij hj hd
      rw [isComplete_advance hc, List.isEmpty_iff] at hcomplete
      rw [grammar_advance] at ha hd ⊢
      rw [length_advance] at hj
      rw [hw] at hd ⊢
      rw [rounds_advance hc]
      exact (h.derivesWithin_of_newFacts_eq_nil hcomplete ha hij hj hd).mono (Nat.le_succ _)

theorem derives_iff (h : c.Exact) (hg : c.grammar.WellFormed) (A : String) :
    c.derives A i j = true ↔ ∃ a, c.grammar.nonterminals[a]? = some A ∧ i ≤ j ∧ j ≤ c.length ∧
      c.grammar.DerivesWithin c.rounds [.nonterminal a] (part c.word i j) := by
  simp only [derives, ← array_idxOf?_eq_some_iff hg.nodup]
  cases hA : c.grammar.nonterminals.idxOf? A with
  | none => simp
  | some a =>
    obtain ⟨ha, _⟩ := Array.getElem?_eq_some_iff.1 ((array_idxOf?_eq_some_iff hg.nodup).1 hA)
    simp only [Bool.and_eq_true, decide_eq_true_eq, Option.some.injEq, exists_eq_left',
      and_assoc]
    refine and_congr_right fun hij => and_congr_right fun hj => ?_
    rw [← h.isBelow_iff c.rounds (Nat.le_refl _) a i j ha hij hj, h.known_iff,
      ← Option.isSome_iff_ne_none]

end Exact

theorem exact_iterate (h : c.Exact) (hg : c.grammar.WellFormed) (k : Nat) :
    (advance^[k] c).Exact ∧ (advance^[k] c).grammar = c.grammar ∧
      (advance^[k] c).input = c.input := by
  induction k with
  | zero => exact ⟨h, rfl, rfl⟩
  | succ k ih =>
    obtain ⟨he, hgr, hin⟩ := ih
    rw [Function.iterate_succ_apply']
    exact ⟨he.advance (hgr ▸ hg), by rw [grammar_advance, hgr], by rw [input_advance, hin]⟩

theorem rounds_iterate (c : Chart) (k : Nat) :
    (advance^[k] c).rounds = c.rounds + k ∨
      (advance^[k] c).isComplete = true ∧ (advance^[k] c).rounds ≤ c.rounds + k := by
  induction k with
  | zero => exact Or.inl rfl
  | succ k ih =>
    rw [Function.iterate_succ_apply']
    cases hc : (advance^[k] c).isComplete with
    | true =>
      rw [advance_of_isComplete hc]
      exact Or.inr ⟨hc, by omega⟩
    | false =>
      rw [rounds_advance hc]
      rcases ih with ih | ⟨ih, _⟩
      · exact Or.inl (by omega)
      · rw [hc] at ih
        cases ih

theorem derives_iterate_iff (h : c.Exact) (hg : c.grammar.WellFormed) (hr : c.rounds = 0) (k : Nat)
    (A : String) :
    (advance^[k] c).derives A i j = true ↔
      ∃ a, c.grammar.nonterminals[a]? = some A ∧ i ≤ j ∧ j ≤ c.length ∧
        c.grammar.DerivesWithin k [.nonterminal a] (part c.word i j) := by
  obtain ⟨he, hgr, hin⟩ := exact_iterate h hg k
  rw [he.derives_iff (hgr ▸ hg), hgr, length, word, hin]
  refine exists_congr fun a => and_congr_right fun ha => and_congr_right fun hij =>
    and_congr_right fun hj => ?_
  rcases rounds_iterate c k with hk | ⟨hcomplete, hk⟩
  · rw [hk, hr, Nat.zero_add]
    rfl
  · obtain ⟨ha, _⟩ := Array.getElem?_eq_some_iff.1 ha
    have hall := he.complete hcomplete k a i j
    rw [hgr, length, hin, word, hin] at hall
    exact ⟨fun hd => hd.mono (by omega), hall ha hij hj⟩

theorem Exact.derives_iff_of_isComplete (h : c.Exact) (hg : c.grammar.WellFormed)
    (hc : c.isComplete = true) (A : String) :
    c.derives A i j = true ↔
      ∃ a, c.grammar.nonterminals[a]? = some A ∧ i ≤ j ∧ j ≤ c.length ∧
        c.grammar.Derives [.nonterminal a] (Grammar.word (part c.word i j)) := by
  rw [h.derives_iff hg]
  refine exists_congr fun a => and_congr_right fun ha => and_congr_right fun hij =>
    and_congr_right fun hj => ?_
  obtain ⟨ha, _⟩ := Array.getElem?_eq_some_iff.1 ha
  rw [Grammar.derives_word_iff]
  constructor
  · intro hd
    exact ⟨c.rounds, hd⟩
  · rintro ⟨k, hd⟩
    exact h.complete hc k a i j ha hij hj hd

/-! Completion. Every round but the last adds a fact. -/

def known (c : Chart) : Finset Nat :=
  (Finset.range c.ranks.size).filter fun cell => (c.ranks.getD cell none).isSome

theorem mem_known {cell : Nat} :
    cell ∈ c.known ↔ cell < c.ranks.size ∧ c.ranks.getD cell none ≠ none := by
  rw [known, Finset.mem_filter, Finset.mem_range, Option.isSome_iff_ne_none]

theorem card_known_le (c : Chart) : c.known.card ≤ c.ranks.size := by
  have h := Finset.card_filter_le (Finset.range c.ranks.size) fun cell =>
    (c.ranks.getD cell none).isSome = true
  rwa [Finset.card_range] at h

theorem card_known_advance (hs : c.Sized) (hg : c.grammar.WellFormed)
    (hc : c.isComplete = false) (hn : c.advance.isComplete = false) :
    c.known.card < c.advance.known.card := by
  rw [isComplete_advance hc] at hn
  obtain ⟨cell, hcell⟩ := List.exists_mem_of_ne_nil _ (List.isEmpty_eq_false_iff.1 hn)
  obtain ⟨p, hp, i, hi, j, hcov, hr, rfl⟩ := mem_newFacts_iff.1 hcell
  have hlt := index_lt hs (hg.head_lt p hp) hi (hcov.bounds hi).2
  apply Finset.card_lt_card
  rw [Finset.ssubset_iff_of_subset]
  · refine ⟨_, mem_known.2 ⟨size_ranks_advance c ▸ hlt, ?_⟩, fun hm => (mem_known.1 hm).2 hr⟩
    rw [getD_ranks_advance hc hlt, if_pos hcell]
    exact Option.some_ne_none _
  · intro cell hm
    obtain ⟨hlt, hr⟩ := mem_known.1 hm
    refine mem_known.2 ⟨size_ranks_advance c ▸ hlt, ?_⟩
    rw [getD_ranks_advance hc hlt]
    by_cases hnew : cell ∈ c.newFacts (c.rounds + 1)
    · rw [if_pos hnew]
      exact Option.some_ne_none _
    · rwa [if_neg hnew]

theorem isComplete_advanceAll (fuel : Nat) (hs : c.Sized) (hg : c.grammar.WellFormed)
    (hf : c.ranks.size < fuel + c.known.card) : (advanceAll fuel c).isComplete = true := by
  induction fuel generalizing c with
  | zero =>
    have hle := card_known_le c
    omega
  | succ fuel ih =>
    rw [advanceAll]
    cases hn : c.advance.isComplete with
    | true => rw [if_pos rfl, hn]
    | false =>
      have hc : c.isComplete = false := by
        by_contra hc
        rw [advance_of_isComplete (by simpa using hc)] at hn
        exact hc hn
      have hk := card_known_advance hs hg hc hn
      rw [if_neg Bool.false_ne_true]
      apply ih (sized_advance hs)
      · rwa [grammar_advance]
      · rw [size_ranks_advance]
        omega

theorem isComplete_complete (hs : c.Sized) (hg : c.grammar.WellFormed) :
    c.complete.isComplete = true :=
  isComplete_advanceAll _ hs hg (by omega)

theorem advanceAll_eq_iterate (fuel : Nat) (c : Chart) :
    ∃ k, advanceAll fuel c = advance^[k] c := by
  induction fuel generalizing c with
  | zero => exact ⟨0, rfl⟩
  | succ fuel ih =>
    rw [advanceAll]
    split
    · exact ⟨1, rfl⟩
    · obtain ⟨k, hk⟩ := ih c.advance
      exact ⟨k + 1, by rw [hk, Function.iterate_succ_apply]⟩

/-! Fresh charts. -/

theorem cellCount_eq_saturate (nonterminals length : Nat) :
    cellCount nonterminals length = saturate (nonterminals * (length + 1) * (length + 1)) := by
  rw [cellCount, saturate, saturate, saturate]
  rcases Nat.le_total (nonterminals * (length + 1)) 18446744073709551615 with hl | hl
  · rw [Nat.min_eq_left hl]
  · have hlarge := Nat.le_mul_of_pos_right 18446744073709551615 (Nat.succ_pos length)
    rw [Nat.min_eq_right hl, Nat.min_eq_right hlarge,
      Nat.min_eq_right (Nat.le_trans hlarge (Nat.mul_le_mul_right _ hl))]

theorem cellCount_eq {nonterminals length : Nat}
    (h : cellCount nonterminals length < 18446744073709551615) :
    cellCount nonterminals length = nonterminals * (length + 1) * (length + 1) := by
  rw [cellCount_eq_saturate, saturate] at h ⊢
  omega

theorem ofInput_eq_ok {g : Grammar} {w : List Char} (h : ofInput g w = .ok c) :
    cellCount g.nonterminals.size w.length ≤ g.maxChartCells ∧
      c = ⟨g, w.toArray, Array.replicate (cellCount g.nonterminals.size w.length) none, 0,
        false⟩ := by
  simp only [ofInput] at h
  split at h
  · cases h
  · rename_i hle
    exact ⟨Nat.not_lt.1 hle, (Except.ok.inj h).symm⟩

theorem exact_of_sized {g : Grammar} {w : List Char} (h : ofInput g w = .ok c) (hsized : c.Sized) :
    c.Exact ∧ c.grammar = g ∧ c.word = w ∧ c.rounds = 0 := by
  obtain ⟨_, rfl⟩ := ofInput_eq_ok h
  refine ⟨⟨hsized, ?_, ?_, ?_⟩, rfl, rfl, rfl⟩
  · intro a i j r hr
    rw [rank?, getD_replicate_self] at hr
    cases hr
  · intro k hk a i j _ _ _
    obtain rfl : k = 0 := Nat.le_zero.1 hk
    rw [isBelow_iff]
    constructor
    · rintro ⟨r, hr, _⟩
      rw [rank?, getD_replicate_self] at hr
      cases hr
    · intro hd
      exact absurd hd Grammar.not_derivesWithin_zero
  · intro hc
    cases hc

theorem exact_ofInput {g : Grammar} {w : List Char} (h : ofInput g w = .ok c)
    (hcells : g.maxChartCells < 18446744073709551615) :
    c.Exact ∧ c.grammar = g ∧ c.word = w ∧ c.rounds = 0 := by
  refine exact_of_sized h ?_
  obtain ⟨hle, rfl⟩ := ofInput_eq_ok h
  rw [Sized, Array.size_replicate]
  exact cellCount_eq (by omega)

/-- The facts of the first `k` rounds are the derivation trees of height at most `k`, and the facts
of a complete chart are all derivations; rounds do complete a chart. -/
theorem derives_iterate_advance_iff {d : Grammar.Definition} {g : Grammar} {w : List Char}
    (hd : d.build = .ok g) (hc : ofInput g w = .ok c) (A : String) (i j : Nat) :
    (∀ k, (advance^[k] c).derives A i j = true ↔
      ∃ a, g.nonterminals[a]? = some A ∧ i ≤ j ∧ j ≤ w.length ∧
        ∃ t : g.DerivationTree a (part w i j), t.height ≤ k) ∧
    (∀ k, (advance^[k] c).isComplete = true → ((advance^[k] c).derives A i j = true ↔
      ∃ a, g.nonterminals[a]? = some A ∧ i ≤ j ∧ j ≤ w.length ∧
        g.Derives [.nonterminal a] (Grammar.word (part w i j)))) ∧
    (c.complete.derives A i j = true ↔
      ∃ a, g.nonterminals[a]? = some A ∧ i ≤ j ∧ j ≤ w.length ∧
        g.Derives [.nonterminal a] (Grammar.word (part w i j))) ∧
    c.complete.isComplete = true ∧ ∃ k, c.complete = advance^[k] c := by
  have hg := Grammar.Definition.wellFormed_of_build hd
  have hcells : g.maxChartCells < 18446744073709551615 := by
    obtain ⟨_, productions, _, rfl⟩ := Grammar.Definition.build_eq_ok hd
    exact (by decide : Grammar.defaultChartCells < 18446744073709551615)
  obtain ⟨h, rfl, rfl, hr⟩ := exact_ofInput hc hcells
  have hall : ∀ k, (advance^[k] c).isComplete = true → ((advance^[k] c).derives A i j = true ↔
      ∃ a, c.grammar.nonterminals[a]? = some A ∧ i ≤ j ∧ j ≤ c.word.length ∧
        c.grammar.Derives [.nonterminal a] (Grammar.word (part c.word i j))) := by
    intro k hk
    obtain ⟨he, hgr, hin⟩ := exact_iterate h hg k
    rw [he.derives_iff_of_isComplete (hgr ▸ hg) hk, hgr, length, word, hin, length_word]
    rfl
  obtain ⟨m, hm⟩ := advanceAll_eq_iterate (c.ranks.size + 1) c
  have hcomplete := isComplete_complete h.sized hg
  refine ⟨fun k => ?_, hall, ?_, hcomplete, m, hm⟩
  · rw [derives_iterate_iff h hg hr, length_word]
    rfl
  · rw [complete, hm] at hcomplete ⊢
    exact hall m hcomplete

theorem derives_iterate_advance_iff_cycle :
    let d : Grammar.Definition := ⟨[("E", ["E+T", "T"]), ("T", ["E", "a", ""])]⟩
    ∃ g c, d.build = .ok g ∧ ofInput g ['a'] = .ok c ∧
      c.complete.derives "E" 0 1 = true ∧ ∃ a, g.nonterminals[a]? = some "E" ∧
        g.Derives [.nonterminal a] (Grammar.word ['a']) := by
  intro d
  let g : Grammar := ⟨#["E", "T"],
    [⟨0, [.nonterminal 0, .terminal '+', .nonterminal 1]⟩, ⟨0, [.nonterminal 1]⟩,
      ⟨1, [.nonterminal 0]⟩, ⟨1, [.terminal 'a']⟩, ⟨1, []⟩], 10000, 4194304⟩
  have hd : d.build = .ok g := by decide +kernel
  let c : Chart := ⟨g, #['a'], Array.replicate 8 none, 0, false⟩
  have hc : ofInput g ['a'] = .ok c := rfl
  have hE : c.complete.derives "E" 0 1 = true := by decide +kernel
  obtain ⟨a, ha, _, _, h⟩ := (derives_iterate_advance_iff hd hc "E" 0 1).2.2.1.1 hE
  exact ⟨g, c, hd, hc, hE, a, ha, h⟩

end Acceptors.Chart
