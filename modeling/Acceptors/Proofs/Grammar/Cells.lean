import Mathlib.Algebra.Group.Nat.Defs
import Mathlib.Tactic.Common
import Acceptors.Proofs.Grammar.Partial

/-! The cells of a chart, counted and addressed in words of 64 bits. A count that does not fit stops
at the largest word, which no limit below it allows. In a chart that is allowed every fact has a
cell of its own, and no sum or product on the way to its address is too large for a word. -/

namespace Acceptors

namespace Word

variable {m n : Nat}

def add? (x y : UInt64) : Option UInt64 := if x.toNat + y.toNat < 2 ^ 64 then some (x + y) else none

def mul? (x y : UInt64) : Option UInt64 := if x.toNat * y.toNat < 2 ^ 64 then some (x * y) else none

def mulOrMax (x y : UInt64) : UInt64 := (mul? x y).getD (.ofNat (2 ^ 64 - 1))

theorem toNat_ofNat (h : n < 2 ^ 64) : (UInt64.ofNat n).toNat = n := UInt64.toNat_ofNat_of_lt' h

theorem add?_ofNat (h : m + n < 2 ^ 64) : add? (.ofNat m) (.ofNat n) = some (.ofNat (m + n)) := by
  rw [add?, toNat_ofNat (by omega), toNat_ofNat (by omega), if_pos h, UInt64.ofNat_add]

theorem mul?_ofNat (hm : m < 2 ^ 64) (hn : n < 2 ^ 64) (h : m * n < 2 ^ 64) :
    mul? (.ofNat m) (.ofNat n) = some (.ofNat (m * n)) := by
  rw [mul?, toNat_ofNat hm, toNat_ofNat hn, if_pos h, UInt64.ofNat_mul]

theorem toNat_mulOrMax (x y : UInt64) :
    (mulOrMax x y).toNat = Chart.saturate (x.toNat * y.toNat) := by
  rw [mulOrMax, mul?, Chart.saturate]
  split
  · rename_i hfits
    rw [Option.getD_some, UInt64.toNat_mul, Nat.mod_eq_of_lt hfits]
    omega
  · rename_i hlarge
    rw [Option.getD_none, toNat_ofNat (by decide)]
    omega

end Word

namespace Chart

variable {c : Chart} {a b i j i' j' : Nat} {g : Grammar} {w : List Char}

def wordCount (nonterminals length : UInt64) : UInt64 :=
  Word.mulOrMax (Word.mulOrMax nonterminals (length + 1)) (length + 1)

/-- The address of a cell, computed in words, unless a sum or a product does not fit. -/
def address? (c : Chart) (a i j : UInt64) : Option UInt64 := do
  let width ← Word.add? (.ofNat c.length) 1
  let row ← Word.add? (← Word.mul? a width) i
  Word.add? (← Word.mul? row width) j

def Spans (c : Chart) (a i j : Nat) : Prop := a < c.grammar.nonterminals.size ∧
    i ≤ c.length ∧ j ≤ c.length

theorem toNat_wordCount {nonterminals length : UInt64} (h : length.toNat + 1 < 2 ^ 64) :
    (wordCount nonterminals length).toNat = cellCount nonterminals.toNat length.toNat := by
  have hwidth : (length + 1).toNat = length.toNat + 1 := by
    rw [UInt64.toNat_add]
    exact Nat.mod_eq_of_lt h
  rw [wordCount, Word.toNat_mulOrMax, Word.toNat_mulOrMax, hwidth, cellCount]

theorem wordCount_lt_iff (hlimit : g.maxChartCells < 2 ^ 64 - 1)
    (hnonterminals : g.nonterminals.size < 2 ^ 64) (hlength : w.length + 1 < 2 ^ 64) :
    UInt64.ofNat g.maxChartCells < wordCount (.ofNat g.nonterminals.size) (.ofNat w.length) ↔
      g.maxChartCells < g.nonterminals.size * (w.length + 1) * (w.length + 1) := by
  have hword : (UInt64.ofNat w.length).toNat = w.length := Word.toNat_ofNat (by omega)
  rw [UInt64.lt_iff_toNat_lt, toNat_wordCount (by omega), hword, Word.toNat_ofNat (by omega),
    Word.toNat_ofNat hnonterminals, cellCount_eq_saturate, saturate]
  omega

theorem ofInput_eq_error_iff (hlimit : g.maxChartCells < 2 ^ 64 - 1) (e : DomainError) :
    ofInput g w = .error e ↔ g.maxChartCells < g.nonterminals.size * (w.length + 1) *
    (w.length + 1) ∧
      e = .chartTooLarge w.length
      (min (g.nonterminals.size * (w.length + 1) * (w.length + 1)) (2 ^ 64 - 1))
        g.maxChartCells := by
  have hcount := cellCount_eq_saturate g.nonterminals.size w.length
  rw [saturate] at hcount
  simp only [ofInput, hcount]
  split
  · rename_i hlarge
    have hmax : 2 ^ 64 - 1 = 18446744073709551615 := rfl
    rw [Except.error.injEq, eq_comm, hmax, and_iff_right (by omega)]
  · rename_i hsmall
    simp only [reduceCtorEq, false_iff, not_and]
    intro hlarge
    omega

theorem spec_of_ofInput (hlimit : g.maxChartCells < 2 ^ 64 - 1) (hc : ofInput g w = .ok c) :
    g.nonterminals.size * (w.length + 1) * (w.length + 1) ≤ g.maxChartCells ∧ c.grammar = g ∧
      c.length = w.length ∧ c.Sized := by
  obtain ⟨hle, rfl⟩ := ofInput_eq_ok hc
  have hcells : g.nonterminals.size * (w.length + 1) * (w.length + 1) ≤ g.maxChartCells := by
    have hcount := cellCount_eq_saturate g.nonterminals.size w.length
    rw [saturate] at hcount
    omega
  refine ⟨hcells, rfl, rfl, ?_⟩
  rw [Sized, Array.size_replicate]
  exact cellCount_eq (by omega)

/-- Everything that an address is computed from is at most as large as the address, or as the
chart. -/
theorem address?_eq (hs : c.Sized) (hsize : c.ranks.size < 2 ^ 64) (h : c.Spans a i j) :
    c.address? (.ofNat a) (.ofNat i) (.ofNat j) = some (.ofNat (c.index a i j)) := by
  obtain ⟨ha, hi, hj⟩ := h
  have hcell : (a * (c.length + 1) + i) * (c.length + 1) + j < c.ranks.size := index_lt hs ha hi hj
  have hrow : a * (c.length + 1) + i ≤ (a * (c.length + 1) + i) * (c.length + 1) :=
    Nat.le_mul_of_pos_right _ (Nat.succ_pos _)
  have hstart : a ≤ a * (c.length + 1) := Nat.le_mul_of_pos_right _ (Nat.succ_pos _)
  have hwidth : c.length + 1 ≤ c.ranks.size := by
    rw [hs]
    exact Nat.le_mul_of_pos_left _ (Nat.mul_pos (Nat.zero_lt_of_lt ha) (Nat.succ_pos _))
  have hone : (1 : UInt64) = .ofNat 1 := rfl
  simp only [address?, hone, Word.add?_ofNat (show c.length + 1 < 2 ^ 64 by omega),
    Option.bind_eq_bind, Option.bind_some]
  rw [Word.mul?_ofNat (by omega) (by omega) (by omega), Option.bind_some,
    Word.add?_ofNat (by omega), Option.bind_some, Word.mul?_ofNat (by omega) (by omega) (by omega),
    Option.bind_some, Word.add?_ofNat (by omega), index]

def setRank (c : Chart) (a i j : Nat) (rank : Option Nat) : Chart :=
  { c with ranks := c.ranks.setIfInBounds (c.index a i j) rank }

theorem rank?_setRank_self (hs : c.Sized) (h : c.Spans a i j) (rank : Option Nat) :
    (c.setRank a i j rank).rank? a i j = rank := by
  have hlt := index_lt hs h.1 h.2.1 h.2.2
  have hindex : (c.setRank a i j rank).index a i j = c.index a i j := rfl
  rw [rank?, hindex, setRank, Array.getD_eq_getD_getElem?,
    Array.getElem?_setIfInBounds_self_of_lt hlt, Option.getD_some]

theorem rank?_setRank_of_ne (h : c.Spans a i j) (h' : c.Spans b i' j')
    (hne : (a, i, j) ≠ (b, i', j')) (rank : Option Nat) :
    (c.setRank a i j rank).rank? b i' j' = c.rank? b i' j' := by
  have hindex : (c.setRank a i j rank).index b i' j' = c.index b i' j' := rfl
  have hcells : c.index a i j ≠ c.index b i' j' := fun heq => by
    obtain ⟨rfl, rfl, rfl⟩ := index_inj h.2.1 h.2.2 h'.2.1 h'.2.2 heq
    exact hne rfl
  rw [rank?, hindex, setRank, Array.getD_eq_getD_getElem?, Array.getElem?_setIfInBounds_ne hcells,
    ← Array.getD_eq_getD_getElem?, rank?]

/-- A fact that the next round adds: some body of the nonterminal leads from one position to the
other. -/
def Adds (c : Chart) (a i j : Nat) : Prop :=
  c.isComplete = false ∧ c.rank? a i j = none ∧
    ∃ body, ⟨a, body⟩ ∈ c.grammar.productions ∧ j ∈ c.reach body i (c.rounds + 1)

theorem adds_iff (hc : c.isComplete = false) (h : c.Spans a i j) :
    c.Adds a i j ↔ c.index a i j ∈ c.newFacts (c.rounds + 1) := by
  obtain ⟨-, hi, hj⟩ := h
  rw [Adds, and_iff_right hc, mem_newFacts_iff]
  constructor
  · intro hadds
    obtain ⟨hnew, body, hbody, hreach⟩ := hadds
    exact ⟨_, hbody, i, hi, j, mem_reach_iff.1 hreach, hnew, rfl⟩
  · intro hfound
    obtain ⟨p, hp, i', hi', j', hcovers, hnew, hindex⟩ := hfound
    obtain ⟨rfl, rfl, rfl⟩ := index_inj hi' (hcovers.bounds hi').2 hi hj hindex
    exact ⟨hnew, p.body, hp, mem_reach_iff.2 hcovers⟩

theorem rank?_advance_of_adds (hs : c.Sized) (h : c.Spans a i j) (hadds : c.Adds a i j) :
    c.advance.rank? a i j = some (c.rounds + 1) := by
  rw [rank?_advance hadds.1 (index_lt hs h.1 h.2.1 h.2.2), if_pos ((adds_iff hadds.1 h).1 hadds)]

theorem rank?_advance_of_not_adds (hs : c.Sized) (h : c.Spans a i j) (hadds : ¬c.Adds a i j) :
    c.advance.rank? a i j = c.rank? a i j := by
  cases hc : c.isComplete with
  | true => rw [advance_of_isComplete hc]
  | false => rw [rank?_advance hc (index_lt hs h.1 h.2.1 h.2.2),
    if_neg (mt (adds_iff hc h).2 hadds)]

/-- Every fact has a cell of its own within the table, and its address is computed without overflow.
What is written for one fact is read back for it and for no other, and a round adds just the facts
that bodies of their own nonterminals lead to. -/
structure OwnCells (c : Chart) : Prop where
  index_lt : ∀ a i j, c.Spans a i j → c.index a i j < c.ranks.size
  address?_eq : ∀ a i j, c.Spans a i j → c.address? (.ofNat a) (.ofNat i) (.ofNat j) =
    some (.ofNat (c.index a i j))
  index_inj : ∀ a i j b i' j', c.Spans a i j → c.Spans b i' j' → c.index a i j = c.index b i' j' →
    (a, i, j) = (b, i', j')
  rank?_setRank_self : ∀ a i j rank, c.Spans a i j → (c.setRank a i j rank).rank? a i j = rank
  rank?_setRank_of_ne : ∀ a i j b i' j' rank, c.Spans a i j → c.Spans b i' j' →
    (a, i, j) ≠ (b, i', j') →
    (c.setRank a i j rank).rank? b i' j' = c.rank? b i' j'
  rank?_advance_of_adds : ∀ a i j, c.Spans a i j → c.Adds a i j →
    c.advance.rank? a i j = some (c.rounds + 1)
  rank?_advance_of_not_adds : ∀ a i j, c.Spans a i j → ¬c.Adds a i j →
    c.advance.rank? a i j = c.rank? a i j

theorem Sized.ownCells (hs : c.Sized) (hsize : c.ranks.size < 2 ^ 64) : c.OwnCells where
  index_lt _ _ _ h := Chart.index_lt hs h.1 h.2.1 h.2.2
  address?_eq _ _ _ h := Chart.address?_eq hs hsize h
  index_inj a i j b i' j' h h' heq := by
    obtain ⟨rfl, rfl, rfl⟩ := Chart.index_inj h.2.1 h.2.2 h'.2.1 h'.2.2 heq
    rfl
  rank?_setRank_self _ _ _ rank h := Chart.rank?_setRank_self hs h rank
  rank?_setRank_of_ne _ _ _ _ _ _ rank h h' hne := Chart.rank?_setRank_of_ne h h' hne rank
  rank?_advance_of_adds _ _ _ h hadds := Chart.rank?_advance_of_adds hs h hadds
  rank?_advance_of_not_adds _ _ _ h hadds := Chart.rank?_advance_of_not_adds hs h hadds

theorem Sized.iterate (hs : c.Sized) (k : Nat) : (advance^[k] c).Sized := by
  induction k with
  | zero => exact hs
  | succ k ih =>
    rw [Function.iterate_succ_apply']
    exact sized_advance ih

/-- With a limit below the largest word, a chart is refused just when the exact number of its cells
is beyond the limit, and the computation in words tells the same. In a chart that is not refused
every fact has a cell of its own after any number of rounds, and there is one if its cells of eight
bytes each can be addressed. -/
theorem facts_have_own_cells (hlimit : g.maxChartCells < 2 ^ 64 - 1) (w : List Char) :
    let cells := g.nonterminals.size * (w.length + 1) * (w.length + 1)
    (∀ e, ofInput g w = .error e ↔ g.maxChartCells < cells ∧
      e = .chartTooLarge w.length (min cells (2 ^ 64 - 1)) g.maxChartCells) ∧
    (g.nonterminals.size < 2 ^ 64 → w.length + 1 < 2 ^ 64 →
      (UInt64.ofNat g.maxChartCells < wordCount (.ofNat g.nonterminals.size) (.ofNat w.length) ↔
        g.maxChartCells < cells)) ∧
    (∀ c, ofInput g w = .ok c → cells ≤ g.maxChartCells ∧ ∀ k, (advance^[k] c).grammar = g ∧
      (advance^[k] c).length = w.length ∧ (advance^[k] c).ranks.size = cells ∧
      (advance^[k] c).OwnCells) ∧
    (cells ≤ g.maxChartCells → cells < 2 ^ 60 → ∃ c, ofInput g w = .ok c) := by
  intro cells
  refine ⟨ofInput_eq_error_iff hlimit, wordCount_lt_iff hlimit, fun c hc => ?_, fun hcells _ => ?_⟩
  · obtain ⟨hcells, hgrammar, hlength, hsized⟩ := spec_of_ofInput hlimit hc
    refine ⟨hcells, fun k => ?_⟩
    have hextends := extends_iterate c k
    have hgrammar' := hextends.grammar.trans hgrammar
    have hlength' := hextends.length_eq.trans hlength
    have hsized' := hsized.iterate k
    have hsize : (advance^[k] c).ranks.size = cells := by rw [hsized', hgrammar', hlength']
    exact ⟨hgrammar', hlength', hsize, hsized'.ownCells (by omega)⟩
  · cases hc : ofInput g w with
    | error e => exact absurd ((ofInput_eq_error_iff hlimit e).1 hc).1 (Nat.not_lt.2 hcells)
    | ok c => exact ⟨c, rfl⟩

theorem facts_have_own_cells_limit :
    let d : Grammar.Definition := ⟨[("S", ["aSb", ""]), ("T", ["S"])]⟩
    ∃ g, d.build = .ok g ∧
      ofInput (g.withLimits 3 17) ['a', 'b'] = .error (.chartTooLarge 2 18 17) ∧
      ∃ c, ofInput (g.withLimits 3 18) ['a', 'b'] = .ok c ∧ (advance^[2] c).Spans 1 2 2 ∧
        (advance^[2] c).address? 1 2 2 = some 17 := by
  intro d
  let g : Grammar := ⟨#["S", "T"],
    [⟨0, [.terminal 'a', .nonterminal 0, .terminal 'b']⟩, ⟨0, []⟩, ⟨1, [.nonterminal 0]⟩],
    10000, 4194304⟩
  have hd : d.build = .ok g := by decide +kernel
  obtain ⟨hrefused, -⟩ := facts_have_own_cells (g := g.withLimits 3 17) (by decide) ['a', 'b']
  obtain ⟨-, -, hcells, hreturned⟩ :=
    facts_have_own_cells (g := g.withLimits 3 18) (by decide) ['a', 'b']
  obtain ⟨c, hc⟩ := hreturned (by decide) (by decide)
  obtain ⟨hgrammar, hlength, -, hown⟩ := (hcells c hc).2 2
  have hspans : (advance^[2] c).Spans 1 2 2 := by
    rw [Spans, hgrammar, hlength]
    decide
  refine ⟨g, hd, (hrefused _).2 (by decide), c, hc, hspans, ?_⟩
  refine (hown.address?_eq 1 2 2 hspans).trans ?_
  rw [index, hlength]
  rfl

end Chart

end Acceptors
