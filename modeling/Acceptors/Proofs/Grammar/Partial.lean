import Mathlib.Tactic.Common
import Acceptors.Proofs.Grammar.Parsing

/-! Charts that are not complete. Later rounds never touch a fact that is known, and the facts they
add have ranks above all earlier ones. A tree is built from facts of falling rank, so once there is
one for the whole input, no later round has a part in it. -/

namespace Acceptors.Chart

open Grammar (Symbol)

variable {c c' c'' : Chart} {bound k m a i j r : Nat} {body : List Symbol} {p : Symbol × Nat × Nat}

/-! One round. -/

theorem rank?_advance_of_some (h : c.rank? a i j = some r) : c.advance.rank? a i j = some r := by
  cases hc : c.isComplete with
  | true => rwa [advance_of_isComplete hc]
  | false =>
    rw [rank?_advance hc (index_lt_of_rank? h), if_neg, h]
    intro hnew
    obtain ⟨p, -, i', -, j', -, hnone, hcell⟩ := mem_newFacts_iff.1 hnew
    rw [rank?, hcell, ← rank?, h] at hnone
    cases hnone

theorem rank?_of_advance (h : c.advance.rank? a i j = some r) : c.rank? a i j = some r ∨
    (c.isComplete = false ∧ r = c.rounds + 1 ∧ c.index a i j ∈ c.newFacts (c.rounds + 1)) := by
  cases hc : c.isComplete with
  | true =>
    rw [advance_of_isComplete hc] at h
    exact .inl h
  | false =>
    have hlt := index_lt_of_rank? h
    rw [index_advance, size_ranks_advance] at hlt
    rw [rank?_advance hc hlt] at h
    split at h
    · rename_i hnew
      cases h
      exact .inr ⟨rfl, rfl, hnew⟩
    · exact .inl h

/-! Later charts. -/

/-- A chart that more rounds have made of another one. What was known is known with the same rank,
and what has come to be known has a rank beyond the rounds before. -/
structure Extends (c c' : Chart) : Prop where
  grammar : c'.grammar = c.grammar
  input : c'.input = c.input
  rounds : c.rounds ≤ c'.rounds
  kept : ∀ a i j r, c.rank? a i j = some r → c'.rank? a i j = some r
  new : ∀ a i j r, c'.rank? a i j = some r → c.rank? a i j = some r ∨ c.rounds < r

theorem Extends.refl (c : Chart) : c.Extends c :=
  ⟨rfl, rfl, Nat.le_refl _, fun _ _ _ _ => id, fun _ _ _ _ => .inl⟩

theorem Extends.trans (h : c.Extends c') (h' : c'.Extends c'') : c.Extends c'' := by
  refine ⟨h'.grammar.trans h.grammar, h'.input.trans h.input, Nat.le_trans h.rounds h'.rounds,
    fun a i j r hr => h'.kept a i j r (h.kept a i j r hr), fun a i j r hr => ?_⟩
  rcases h'.new a i j r hr with hr | hlt
  · exact h.new a i j r hr
  · exact .inr (Nat.lt_of_le_of_lt h.rounds hlt)

theorem extends_advance (c : Chart) : c.Extends c.advance := by
  refine ⟨grammar_advance c, input_advance c, ?_, fun _ _ _ _ => rank?_advance_of_some,
    fun a i j r hr => ?_⟩
  · cases hc : c.isComplete with
    | true => rw [advance_of_isComplete hc]
    | false => exact rounds_advance hc ▸ Nat.le_succ _
  · rcases rank?_of_advance hr with hr | ⟨-, rfl, -⟩
    · exact .inl hr
    · exact .inr (Nat.lt_succ_self _)

theorem extends_iterate (c : Chart) (n : Nat) : c.Extends (advance^[n] c) := by
  induction n with
  | zero => exact .refl c
  | succ n ih =>
    rw [Function.iterate_succ_apply']
    exact ih.trans (extends_advance _)

theorem extends_complete (c : Chart) : c.Extends c.complete := by
  obtain ⟨n, hn⟩ := advanceAll_eq_iterate (c.ranks.size + 1) c
  rw [complete, hn]
  exact extends_iterate c n

namespace Extends

theorem length_eq (h : c.Extends c') : c'.length = c.length := by rw [length, h.input, length]

theorem word_eq (h : c.Extends c') : c'.word = c.word := by rw [word, h.input, word]

theorem isBelow_eq (h : c.Extends c') (hbound : bound ≤ c.rounds + 1) (a i j : Nat) :
    c'.isBelow bound a i j = c.isBelow bound a i j := by
  rw [Bool.eq_iff_iff, isBelow_iff, isBelow_iff]
  constructor
  · rintro ⟨r, hr, hlt⟩
    -- a bound within the rounds of the earlier chart lets no later fact pass
    refine ⟨r, (h.new a i j r hr).resolve_right ?_, hlt⟩
    omega
  · rintro ⟨r, hr, hlt⟩
    exact ⟨r, h.kept a i j r hr, hlt⟩

theorem split_eq (h : c.Extends c') (hbound : bound ≤ c.rounds + 1)
    (body : List Symbol) (i j : Nat) :
    c'.split bound body i j = c.split bound body i j := by
  induction body generalizing i with
  | nil => rfl
  | cons s body ih =>
    cases s with
    | terminal t => simp only [split, h.input, ih]
    | nonterminal a => simp only [split, h.isBelow_eq hbound, ih]

theorem derivation?_eq (h : c.Extends c') (hbound : bound ≤ c.rounds + 1) (a i j : Nat) :
    c'.derivation? bound a i j = c.derivation? bound a i j := by
  simp only [derivation?, h.grammar, h.split_eq hbound]

theorem covers (h : c.Extends c') (hcovers : c.Covers bound body i j) :
    c'.Covers bound body i j := by
  induction body generalizing i with
  | nil => exact hcovers
  | cons s body ih =>
    obtain ⟨mid, hs, hrest⟩ := hcovers
    refine ⟨mid, ?_, ih hrest⟩
    cases s with
    | terminal t => exact ⟨h.input ▸ hs.1, hs.2⟩
    | nonterminal b =>
      obtain ⟨him, hmid, hbelow⟩ := hs
      obtain ⟨r, hr, hlt⟩ := isBelow_iff.1 hbelow
      exact ⟨him, h.length_eq ▸ hmid, isBelow_iff.2 ⟨r, h.kept b i mid r hr, hlt⟩⟩

end Extends

/-! Justified facts. -/

structure Justified (c : Chart) : Prop where
  rank_le : ∀ a i j r, c.rank? a i j = some r → r ≤ c.rounds
  covered : ∀ a i j r, i ≤ c.length → j ≤ c.length → c.rank? a i j = some r →
    ∃ body, ⟨a, body⟩ ∈ c.grammar.productions ∧ c.Covers r body i j

theorem Justified.advance (h : c.Justified) : c.advance.Justified := by
  have hextends := extends_advance c
  refine ⟨fun a i j r hr => ?_, fun a i j r hi hj hr => ?_⟩
  · rcases rank?_of_advance hr with hr | ⟨hc, rfl, -⟩
    · exact Nat.le_trans (h.rank_le a i j r hr) hextends.rounds
    · exact Nat.le_of_eq (rounds_advance hc).symm
  · rw [length_advance] at hi hj
    rw [grammar_advance]
    rcases rank?_of_advance hr with hr | ⟨-, rfl, hnew⟩
    · obtain ⟨body, hp, hcovers⟩ := h.covered a i j r hi hj hr
      exact ⟨body, hp, hextends.covers hcovers⟩
    · obtain ⟨⟨head, body⟩, hp, i', hi', j', hcovers, -, hcell⟩ := mem_newFacts_iff.1 hnew
      obtain ⟨rfl, rfl, rfl⟩ := index_inj hi' (hcovers.bounds hi').2 hi hj hcell
      exact ⟨body, hp, hextends.covers hcovers⟩

theorem justified_ofInput {g : Grammar} {w : List Char} (h : ofInput g w = .ok c) :
    c.Justified := by
  obtain ⟨-, rfl⟩ := ofInput_eq_ok h
  refine ⟨fun a i j r hr => ?_, fun a i j r _ _ hr => ?_⟩ <;>
  · rw [rank?, getD_replicate_self] at hr
    cases hr

theorem Justified.iterate (h : c.Justified) (n : Nat) : (Chart.advance^[n] c).Justified := by
  induction n with
  | zero => exact h
  | succ n ih =>
    rw [Function.iterate_succ_apply']
    exact ih.advance

theorem Justified.exists_derivation? (h : c.Justified) (hi : i ≤ c.length) (hj : j ≤ c.length)
    (hr : c.rank? a i j = some r) : ∃ parts, c.derivation? r a i j = some parts := by
  obtain ⟨body, hp, hcovers⟩ := h.covered a i j r hi hj hr
  exact Option.isSome_iff_exists.1 (isSome_derivation? hi hp hcovers)

theorem Tiles.exists_rank? {parts : List (Symbol × Nat × Nat)} (h : c.Tiles bound parts i j)
    (hp : p ∈ parts) (hs : p.1 = .nonterminal a) :
    p.2.1 ≤ c.length ∧ p.2.2 ≤ c.length ∧ ∃ r, c.rank? a p.2.1 p.2.2 = some r := by
  have hleads := h.leads p hp
  rw [hs] at hleads
  obtain ⟨hfirst, hlast, hbelow⟩ := hleads
  obtain ⟨r, hr, -⟩ := isBelow_iff.1 hbelow
  exact ⟨Nat.le_trans hfirst hlast, hlast, r, hr⟩

theorem Extends.build_eq (h : c.Extends c') (hc : c.Justified) (levels : Nat) (hi : i ≤ c.length)
    (hj : j ≤ c.length) (hr : c.rank? a i j = some r) :
    c'.build levels a i j = c.build levels a i j := by
  -- the parts of a derivation are facts of lower rank, so they are known as well
  induction levels generalizing a i j r with
  | zero => rw [build, build, h.grammar]
  | succ levels ih =>
    obtain ⟨parts, hparts⟩ := hc.exists_derivation? hi hj hr
    have hbound : r ≤ c.rounds + 1 := Nat.le_succ_of_le (hc.rank_le a i j r hr)
    have hparts' : c'.derivation? r a i j = some parts :=
      (h.derivation?_eq hbound a i j).trans hparts
    obtain ⟨-, htiles⟩ := tiles_of_derivation? hj hparts
    have hchildren : parts.mapM (c'.buildPart levels) = parts.mapM (c.buildPart levels) := by
      refine mapM_congr fun p hp => ?_
      obtain ⟨s, first, last⟩ := p
      cases s with
      | terminal t => rfl
      | nonterminal b =>
        obtain ⟨hfirst, hlast, r', hr'⟩ := htiles.exists_rank? hp rfl
        exact ih hfirst hlast hr'
    rw [Chart.build_eq hr hparts, Chart.build_eq (h.kept a i j r hr) hparts', h.grammar, hchildren]

theorem Extends.parseTree_eq (h : c.Extends c') (hc : c.Justified) (haccepts : c.accepts = true) :
    c'.parseTree = c.parseTree := by
  obtain ⟨r, hr⟩ := Option.isSome_iff_exists.1 haccepts
  have haccepts' : c'.accepts = true := by
    rw [accepts, h.length_eq, h.kept 0 0 c.length r hr]
    rfl
  rw [parseTree, parseTree, if_pos haccepts, if_pos haccepts', h.grammar, h.length_eq,
    h.build_eq hc _ (Nat.zero_le _) (Nat.le_refl _) hr]

theorem Justified.build_cases (h : c.Justified) (levels : Nat) (hi : i ≤ c.length)
    (hj : j ≤ c.length) (hr : c.rank? a i j = some r) :
    (∃ t, c.build levels a i j = .ok t) ∨
      c.build levels a i j = .error (.treeTooDeep c.grammar.maxTreeDepth) := by
  induction levels generalizing a i j r with
  | zero => exact .inr rfl
  | succ levels ih =>
    obtain ⟨parts, hparts⟩ := h.exists_derivation? hi hj hr
    obtain ⟨-, htiles⟩ := tiles_of_derivation? hj hparts
    rw [build_eq hr hparts]
    split
    · exact .inl ⟨_, rfl⟩
    · have hcases : ∀ p ∈ parts, (∃ t, c.buildPart levels p = .ok t ∧ True) ∨
          (c.buildPart levels p = .error (.treeTooDeep c.grammar.maxTreeDepth) ∧ True) := by
        rintro ⟨s, first, last⟩ hp
        simp only [and_true]
        cases s with
        | terminal t => exact .inl ⟨.leaf t, rfl⟩
        | nonterminal b =>
          obtain ⟨hfirst, hlast, r', hr'⟩ := htiles.exists_rank? hp rfl
          exact ih hfirst hlast hr'
      rcases mapM_ok_or_error (P := fun _ _ => True) hcases with
        ⟨children, hchildren, -⟩ | ⟨herror, -⟩
      · exact .inl ⟨_, by rw [hchildren]; rfl⟩
      · exact .inr (by rw [herror]; rfl)

theorem Justified.parseTree_cases (h : c.Justified) :
    (∃ result, c.parseTree = .ok result) ∨ c.parseTree =
    .error (.treeTooDeep c.grammar.maxTreeDepth) := by
  rw [parseTree]
  split
  · rename_i haccepts
    obtain ⟨r, hr⟩ := Option.isSome_iff_exists.1 haccepts
    rcases h.build_cases c.grammar.maxTreeDepth (Nat.zero_le _) (Nat.le_refl _) hr with
      ⟨t, ht⟩ | herror
    · exact .inl ⟨some t, by rw [ht]; rfl⟩
    · exact .inr (by rw [herror]; rfl)
  · exact .inl ⟨none, rfl⟩

theorem parseTree_iterate_eq (hc : c.Justified) (haccepts : (advance^[k] c).accepts = true)
    (hm : k ≤ m ∨ (advance^[m] c).isComplete = true) :
    (advance^[m] c).parseTree = (advance^[k] c).parseTree := by
  rcases Nat.le_total k m with hle | hle
  · obtain ⟨n, rfl⟩ := Nat.exists_eq_add_of_le' hle
    rw [Function.iterate_add_apply]
    exact (extends_iterate _ n).parseTree_eq (hc.iterate k) haccepts
  · rcases hm with hm | hcomplete
    · rw [Nat.le_antisymm hle hm]
    · obtain ⟨n, rfl⟩ := Nat.exists_eq_add_of_le' hle
      rw [Function.iterate_add_apply, Function.iterate_fixed (advance_of_isComplete hcomplete)]

/-- What a chart says between two rounds is final. Ranks stay as they are, the outcome of an
accepting chart is the outcome of every later one and of the complete one, and all that can be wrong
with it is its depth. -/
theorem partial_outcome_final {d : Grammar.Definition} {g : Grammar}
    {w : List Char} (hd : d.build = .ok g) (treeDepth chartCells : Nat)
    (hc : ofInput (g.withLimits treeDepth chartCells) w = .ok c) :
    (∀ k n a i j r, (advance^[k] c).rank? a i j = some r →
      (advance^[n + k] c).rank? a i j = some r) ∧
    (∀ k m, (advance^[k] c).accepts = true → k ≤ m ∨ (advance^[m] c).isComplete = true →
      (advance^[m] c).parseTree = (advance^[k] c).parseTree) ∧
    (Countable (g.withLimits treeDepth chartCells) w → c.complete.isComplete = true ∧
      ∀ k, (advance^[k] c).accepts = true → c.complete.parseTree = (advance^[k] c).parseTree) ∧
    ∀ k, (∃ result, (advance^[k] c).parseTree = .ok result) ∨
      (advance^[k] c).parseTree = .error (.treeTooDeep treeDepth) := by
  have hjustified := justified_ofInput hc
  refine ⟨fun k n a i j r hr => ?_, fun k m => parseTree_iterate_eq hjustified,
    fun hcount => ?_, fun k => ?_⟩
  · rw [Function.iterate_add_apply]
    exact (extends_iterate _ n).kept a i j r hr
  · obtain ⟨hexact, hgrammar, -⟩ := exact_of_countable hc hcount
    have hg := (Grammar.Definition.wellFormed_of_build hd).withLimits treeDepth chartCells
    have hcomplete := isComplete_complete hexact.sized (hgrammar ▸ hg)
    obtain ⟨m, hm⟩ := advanceAll_eq_iterate (c.ranks.size + 1) c
    rw [complete, hm] at hcomplete ⊢
    exact ⟨hcomplete, fun k haccepts => parseTree_iterate_eq hjustified haccepts (.inr hcomplete)⟩
  · have hgrammar : (advance^[k] c).grammar.maxTreeDepth = treeDepth := by
      obtain ⟨-, rfl⟩ := ofInput_eq_ok hc
      rw [(extends_iterate _ k).grammar]
      rfl
    exact hgrammar ▸ (hjustified.iterate k).parseTree_cases

/-- A chart that accepts before it is complete: facts are still to be found, and none of them is
used. -/
theorem partial_outcome_final_unfinished :
    let d : Grammar.Definition := ⟨[("S", ["aSb", ""]), ("T", ["S"])]⟩
    ∃ g c, d.build = .ok g ∧ ofInput (g.withLimits 3 100) ['a', 'b'] = .ok c ∧
      (advance^[2] c).isComplete = false ∧ (advance^[2] c).derives "T" 0 2 = false ∧
      c.complete.derives "T" 0 2 = true ∧ c.complete.parseTree = (advance^[2] c).parseTree := by
  intro d
  let g : Grammar := ⟨#["S", "T"],
    [⟨0, [.terminal 'a', .nonterminal 0, .terminal 'b']⟩, ⟨0, []⟩, ⟨1, [.nonterminal 0]⟩],
    10000, 4194304⟩
  let c : Chart := ⟨g.withLimits 3 100, #['a', 'b'], Array.replicate 18 none, 0, false⟩
  have hd : d.build = .ok g := by decide +kernel
  have hc : ofInput (g.withLimits 3 100) ['a', 'b'] = .ok c := rfl
  have haccepts : (advance^[2] c).accepts = true := by decide +kernel
  obtain ⟨-, -, hcomplete, -⟩ := partial_outcome_final hd 3 100 hc
  obtain ⟨-, houtcome⟩ := hcomplete (.inl (by decide))
  exact ⟨g, c, hd, hc, by decide +kernel, by decide +kernel, by decide +kernel, houtcome 2 haccepts⟩

end Acceptors.Chart
