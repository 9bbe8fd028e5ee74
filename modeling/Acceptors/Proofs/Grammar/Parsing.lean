import Mathlib.Tactic.Common
import Acceptors.Grammar.Chart
import Acceptors.Proofs.Grammar.Build

/-! Parsing. What comes out for a word is a shallowest parse tree, the news that there is none, or
the refusal to build a tree beyond the limit of depth; the chart itself may have been refused
before. -/

namespace Acceptors

theorem part_full (w : List Char) : part w 0 w.length = w := by
  rw [part, List.drop_zero, Nat.sub_zero, List.take_length]

namespace Chart

open Grammar (Symbol DerivesWithin)

variable {c : Chart} {k : Nat}

/-- The number of cells is counted exactly, or is refused where the count stops. Only charts with
more cells than there are 64-bit numbers, which no memory holds, are an exception. -/
def Countable (g : Grammar) (word : List Char) : Prop :=
  g.maxChartCells < 18446744073709551615 ∨
    g.nonterminals.size * (word.length + 1) * (word.length + 1) ≤ 18446744073709551615

theorem exact_of_countable {g : Grammar} {w : List Char} (h : ofInput g w = .ok c)
    (hcount : Countable g w) : c.Exact ∧ c.grammar = g ∧ c.word = w ∧ c.rounds = 0 := by
  rcases hcount with hcells | hle
  · exact exact_ofInput h hcells
  · refine exact_of_sized h ?_
    obtain ⟨_, rfl⟩ := ofInput_eq_ok h
    rw [Sized, Array.size_replicate, cellCount_eq_saturate, saturate]
    exact Nat.min_eq_left hle

theorem exact_complete (h : c.Exact) (hg : c.grammar.WellFormed) :
    c.complete.Exact ∧ c.complete.grammar = c.grammar ∧ c.complete.input = c.input := by
  obtain ⟨k, hk⟩ := advanceAll_eq_iterate (c.ranks.size + 1) c
  rw [complete, hk]
  exact exact_iterate h hg k

theorem idxOf?_startSymbol {g : Grammar} (hg : g.WellFormed) (hpos : 0 < g.nonterminals.size) :
    g.nonterminals.idxOf? g.startSymbol = some 0 := by
  rw [array_idxOf?_eq_some_iff hg.nodup, Grammar.startSymbol, Grammar.name,
    Array.getD_eq_getD_getElem?, Array.getElem?_eq_getElem hpos]
  rfl

theorem accepts_eq_derives (hg : c.grammar.WellFormed) (hpos : 0 < c.grammar.nonterminals.size) :
    c.accepts = c.derives c.grammar.startSymbol 0 c.length := by
  rw [accepts, derives, idxOf?_startSymbol hg hpos]
  simp

theorem accepts_iterate_iff (h : c.Exact) (hg : c.grammar.WellFormed) (hr : c.rounds = 0)
    (hpos : 0 < c.grammar.nonterminals.size) :
    (advance^[k] c).accepts = true ↔ c.grammar.DerivesWithin k [.nonterminal 0] c.word := by
  obtain ⟨_, hgrammar, hinput⟩ := exact_iterate h hg k
  have hlength : (advance^[k] c).length = c.length := by rw [length, hinput, length]
  have hstart := idxOf?_startSymbol hg hpos
  rw [accepts_eq_derives (hgrammar ▸ hg) (hgrammar ▸ hpos), hgrammar, hlength,
    derives_iterate_iff h hg hr, ← length_word, part_full]
  constructor
  · rintro ⟨a, ha, _, _, hd⟩
    obtain rfl := Option.some.inj (((array_idxOf?_eq_some_iff hg.nodup).2 ha).symm.trans hstart)
    exact hd
  · intro hd
    exact ⟨0, (array_idxOf?_eq_some_iff hg.nodup).1 hstart, Nat.zero_le _, Nat.le_refl _, hd⟩

theorem Exact.parseTree_cases (h : c.Exact) (hg : c.grammar.WellFormed)
    (hcomplete : c.isComplete = true) (hpos : 0 < c.grammar.nonterminals.size) :
    (c.parseTree = .ok none ∧ ∀ k, ¬c.grammar.DerivesWithin k [.nonterminal 0] c.word) ∨
    ∃ r, (∀ k, c.grammar.DerivesWithin k [.nonterminal 0] c.word ↔ r ≤ k) ∧
      ((∃ t, c.parseTree = .ok (some t) ∧ r ≤ c.grammar.maxTreeDepth ∧
          c.Fits (.nonterminal 0) 0 c.length (r + 1) t) ∨
        (c.parseTree = .error (.treeTooDeep c.grammar.maxTreeDepth) ∧
          c.grammar.maxTreeDepth < r)) := by
  have hword : part c.word 0 c.length = c.word := by rw [← length_word, part_full]
  have hlength := Nat.le_refl c.length
  rw [parseTree, accepts]
  cases hr : c.rank? 0 0 c.length with
  | none =>
    refine .inl ⟨rfl, fun k => ?_⟩
    rw [← hword]
    exact h.not_derivesWithin hcomplete hpos (Nat.zero_le _) hlength hr
  | some r =>
    refine .inr ⟨r, fun k => ?_, ?_⟩
    · rw [← hword]
      exact h.derivesWithin_iff hpos (Nat.zero_le _) hlength hr
    · rw [Option.isSome_some, if_pos rfl]
      rcases h.builds hg c.grammar.maxTreeDepth hpos (Nat.zero_le _) hlength hr with
        ⟨t, ht, hle, hfits⟩ | ⟨herror, hlt⟩
      · exact .inl ⟨t, by rw [ht]; rfl, hle, hfits⟩
      · exact .inr ⟨by rw [herror]; rfl, hlt⟩

end Chart

namespace Grammar

variable {d : Definition} {g : Grammar} {w : List Char} {c : Chart} {t : Tree} {r : Nat}

theorem parseTree_of_ofInput (hc : Chart.ofInput g w = .ok c) :
    g.parseTree w = c.complete.parseTree.mapError Failure.violation := by
  rw [parseTree, hc]
  rfl

theorem parseTree_of_refused {e : DomainError} (hc : Chart.ofInput g w = .error e) :
    g.parseTree w = .error (.domain e) := by
  rw [parseTree, hc]
  rfl

/-- A tree of the least depth, and on no path of it a nonterminal twice over the same part. -/
structure Shallowest (g : Grammar) (t : Tree) (w : List Char) : Prop where
  parse : g.IsParse t w
  depth_le : ∀ t', g.IsParse t' w → t.depth ≤ t'.depth
  nodup : ∀ path ∈ t.paths 0, path.Nodup

theorem exists_parse_iff {k : Nat} :
    (∃ t, g.IsParse t w ∧ t.depth ≤ k) ↔ g.DerivesWithin k [.nonterminal 0] w := by
  rw [derivesWithin_iff_exists_tree]
  constructor
  · rintro ⟨t, ht, hk⟩
    exact ⟨t, ht.spells, ht.yield, hk⟩
  · rintro ⟨t, hspells, hyield, hk⟩
    exact ⟨t, ⟨hspells, hyield⟩, hk⟩

theorem parseTree_cases (hg : g.WellFormed) (hpos : 0 < g.nonterminals.size)
    (hc : Chart.ofInput g w = .ok c) (hcount : Chart.Countable g w) :
    (g.parseTree w = .ok none ∧ ∀ k, ¬g.DerivesWithin k [.nonterminal 0] w) ∨
    ∃ r, (∀ k, g.DerivesWithin k [.nonterminal 0] w ↔ r ≤ k) ∧
      ((∃ t, g.parseTree w = .ok (some t) ∧ r ≤ g.maxTreeDepth ∧ t.depth = r ∧ g.Shallowest t w) ∨
        (g.parseTree w = .error (.violation (.treeTooDeep g.maxTreeDepth)) ∧
          g.maxTreeDepth < r)) := by
  obtain ⟨hexact, rfl, rfl, _⟩ := Chart.exact_of_countable hc hcount
  rw [parseTree_of_ofInput hc]
  have hcomplete := Chart.isComplete_complete hexact.sized hg
  obtain ⟨hfull, hgrammar, hinput⟩ := Chart.exact_complete hexact hg
  have hword : c.complete.word = c.word := by rw [Chart.word, hinput, Chart.word]
  have hcases := hfull.parseTree_cases (hgrammar ▸ hg) hcomplete (hgrammar ▸ hpos)
  rw [hgrammar, hword] at hcases
  rcases hcases with ⟨hnone, hd⟩ | ⟨r, hd, ⟨t, ht, hle, hfits⟩ | ⟨herror, hlt⟩⟩
  · exact .inl ⟨by rw [hnone]; rfl, hd⟩
  · have hparse : c.grammar.IsParse t c.word := by
      refine ⟨hgrammar ▸ hfits.spells, ?_⟩
      rw [hfits.yield, ← Chart.length_word, part_full, hword]
    have hmin : ∀ t', c.grammar.IsParse t' c.word → r ≤ t'.depth := fun t' ht' =>
      (hd _).1 (exists_parse_iff.1 ⟨t', ht', Nat.le_refl _⟩)
    have hdepth : t.depth = r := Nat.le_antisymm (Nat.le_of_lt_succ hfits.depth_lt) (hmin t hparse)
    refine .inr ⟨r, hd, .inl ⟨t, by rw [ht]; rfl, hle, hdepth, hparse, ?_, fun path hpath => ?_⟩⟩
    · rw [hdepth]
      exact hmin
    · exact (hfits.descends path hpath).nodup (hgrammar ▸ hg)
  · exact .inr ⟨r, hd, .inr ⟨by rw [herror]; rfl, hlt⟩⟩

/-- A result is a parse tree of the word, or none if there is no derivation, and the answers of
`accepts` and `trace` are drawn from it. -/
theorem parseTree_genuine (hd : d.build = .ok g) (treeDepth chartCells : Nat)
    (hcount : Chart.Countable (g.withLimits treeDepth chartCells) w) :
    let limited := g.withLimits treeDepth chartCells
    (∀ result, limited.parseTree w = .ok result →
      (result = none ↔ ¬limited.Derives [.nonterminal 0] (word w)) ∧
      ∀ t, result = some t → t.symbol = limited.startSymbol ∧ limited.IsParse t w) ∧
    limited.accepts w = (limited.parseTree w).map Option.isSome ∧
    (limited.trace w).map Trace.accepted = limited.accepts w := by
  intro limited
  refine ⟨fun result hresult => ?_, rfl, ?_⟩
  · have hg := (Definition.wellFormed_of_build hd).withLimits treeDepth chartCells
    cases hc : Chart.ofInput limited w with
    | error e =>
      rw [parseTree_of_refused hc] at hresult
      cases hresult
    | ok c =>
      rw [derives_word_iff]
      have hpos : 0 < limited.nonterminals.size := Definition.size_pos_of_build (g := g) hd
      rcases parseTree_cases hg hpos hc hcount with
        ⟨hnone, hnot⟩ | ⟨r, hr, ⟨t, ht, -, -, hshallowest⟩ | ⟨herror, -⟩⟩
      · cases hnone.symm.trans hresult
        exact ⟨iff_of_true rfl (not_exists.2 hnot), fun t ht => by cases ht⟩
      · cases ht.symm.trans hresult
        refine ⟨iff_of_false (Option.some_ne_none t) (not_not_intro ⟨r, (hr r).2 (Nat.le_refl r)⟩),
          ?_⟩
        rintro t' ⟨⟩
        exact ⟨hshallowest.parse.symbol_eq, hshallowest.parse⟩
      · cases herror.symm.trans hresult
  · rw [trace, accepts]
    cases limited.parseTree w <;> rfl

theorem parseTree_genuine_cycle :
    let d : Definition := ⟨[("E", ["E+T", "T"]), ("T", ["E", "a", ""])]⟩
    ∃ g t, d.build = .ok g ∧ g.parseTree ['+', 'a'] = .ok (some t) ∧ g.IsParse t ['+', 'a'] := by
  intro d
  let g : Grammar := ⟨#["E", "T"],
    [⟨0, [.nonterminal 0, .terminal '+', .nonterminal 1]⟩, ⟨0, [.nonterminal 1]⟩,
      ⟨1, [.nonterminal 0]⟩, ⟨1, [.terminal 'a']⟩, ⟨1, []⟩], 10000, 4194304⟩
  have hd : d.build = .ok g := by decide +kernel
  have haccepts : g.accepts ['+', 'a'] = .ok true := by decide +kernel
  obtain ⟨result, hresult, hsome⟩ := map_eq_ok_iff.1 haccepts
  obtain ⟨t, rfl⟩ := Option.isSome_iff_exists.1 hsome
  obtain ⟨hgenuine, -⟩ := parseTree_genuine hd 10000 4194304 (w := ['+', 'a']) (.inl (by decide))
  exact ⟨g, t, hd, hresult, ((hgenuine (some t) hresult).2 t rfl).2⟩

/-- The tree is built exactly if one within the limit exists. It is as deep as the chart took rounds
to accept, and a limit that is too low is never mistaken for the lack of a derivation. -/
theorem parseTree_shallowest (hd : d.build = .ok g) (treeDepth chartCells : Nat)
    (hc : Chart.ofInput (g.withLimits treeDepth chartCells) w = .ok c)
    (hcount : Chart.Countable (g.withLimits treeDepth chartCells) w) :
    let limited := g.withLimits treeDepth chartCells
    ((∃ t, limited.IsParse t w ∧ t.depth ≤ treeDepth) →
      ∃ t, limited.parseTree w = .ok (some t) ∧ limited.IsParse t w ∧
        (∀ t', limited.IsParse t' w → t.depth ≤ t'.depth) ∧
        ∀ k, (Chart.advance^[k] c).accepts = true ↔ t.depth ≤ k) ∧
    (limited.Derives [.nonterminal 0] (word w) → (∀ t, limited.IsParse t w → treeDepth < t.depth) →
      limited.parseTree w = .error (.violation (.treeTooDeep treeDepth)) ∧
        limited.accepts w = .error (.violation (.treeTooDeep treeDepth))) ∧
    (¬limited.Derives [.nonterminal 0] (word w) →
      limited.parseTree w = .ok none ∧ limited.accepts w = .ok false) ∧
    ∀ t, limited.parseTree w = .ok (some t) → ∀ path ∈ t.paths 0, path.Nodup := by
  intro limited
  have hg : limited.WellFormed :=
    (Definition.wellFormed_of_build hd).withLimits treeDepth chartCells
  have hpos : 0 < limited.nonterminals.size := Definition.size_pos_of_build (g := g) hd
  obtain ⟨hexact, hgrammar, hword, hrounds⟩ := Chart.exact_of_countable hc hcount
  have haccepts : limited.accepts w = (limited.parseTree w).map Option.isSome := rfl
  rw [derives_word_iff, exists_parse_iff, haccepts]
  rcases parseTree_cases hg hpos hc hcount with
    ⟨hnone, hnot⟩ | ⟨r, hr, ⟨t, ht, hle, hdepth, hshallowest⟩ | ⟨herror, hlt⟩⟩
  · rw [hnone]
    refine ⟨fun hd => absurd hd (hnot _), fun ⟨k, hk⟩ => absurd hk (hnot k),
      fun _ => ⟨rfl, rfl⟩, ?_⟩
    rintro t ⟨⟩
  · have hderived : ∃ k, limited.DerivesWithin k [.nonterminal 0] w := ⟨r, (hr r).2 (Nat.le_refl r)⟩
    rw [ht]
    refine ⟨fun _ => ⟨t, rfl, hshallowest.parse, hshallowest.depth_le, fun k => ?_⟩,
      fun _ hdeep => ?_,
      fun hnot => absurd hderived hnot, ?_⟩
    · rw [Chart.accepts_iterate_iff hexact (hgrammar ▸ hg) hrounds (hgrammar ▸ hpos), hgrammar,
        hword, hr, hdepth]
    · exact absurd (hdeep t hshallowest.parse) (Nat.not_lt.2 (hdepth ▸ hle))
    · rintro t' ⟨⟩
      exact hshallowest.nodup
  · rw [herror]
    refine ⟨fun hd => absurd ((hr _).1 hd) (Nat.not_le.2 hlt), fun _ _ => ⟨rfl, rfl⟩,
      fun hnot => absurd ⟨r, (hr r).2 (Nat.le_refl r)⟩ hnot, ?_⟩
    rintro t ⟨⟩

theorem parseTree_shallowest_limits :
    let d : Definition := ⟨[("S", ["aSb", ""])]⟩
    ∃ g t, d.build = .ok g ∧ (g.withLimits 3 100).parseTree ['a', 'a', 'b', 'b'] = .ok (some t) ∧
      t.depth ≤ 3 ∧ (g.withLimits 2 100).parseTree ['a', 'a', 'b', 'b'] =
        .error (.violation (.treeTooDeep 2)) := by
  intro d
  let g : Grammar := ⟨#["S"],
    [⟨0, [.terminal 'a', .nonterminal 0, .terminal 'b']⟩, ⟨0, []⟩], 10000, 4194304⟩
  let w := ['a', 'a', 'b', 'b']
  have hd : d.build = .ok g := by decide +kernel
  let c : Grammar → Chart := fun g => ⟨g, w.toArray, Array.replicate 25 none, 0, false⟩
  have hc : ∀ depth, Chart.ofInput (g.withLimits depth 100) w = .ok (c (g.withLimits depth 100)) :=
    fun _ => rfl
  have hcount : ∀ depth, Chart.Countable (g.withLimits depth 100) w := fun _ =>
    .inl (by decide : 100 < 18446744073709551615)
  let t : Tree :=
    .node "S" [.leaf 'a', .node "S" [.leaf 'a', .node "S" [.empty], .leaf 'b'], .leaf 'b']
  have ht : ∀ depth, (g.withLimits depth 100).IsParse t w := by
    intro depth
    have hinner : (g.withLimits depth 100).Spells [.terminal 'a', .nonterminal 0, .terminal 'b']
        [.leaf 'a', .node "S" [.empty], .leaf 'b'] :=
      .terminal 'a' (.empty (List.mem_cons_of_mem _ List.mem_cons_self) (.terminal 'b' .nil))
    refine ⟨.node List.mem_cons_self (List.cons_ne_nil _ _) (.terminal 'a' (.node List.mem_cons_self
      (List.cons_ne_nil _ _) hinner (.terminal 'b' .nil))) .nil, rfl⟩
  obtain ⟨hbuilt, -⟩ := parseTree_shallowest hd 3 100 (hc 3) (hcount 3)
  obtain ⟨-, hdeep, -⟩ := parseTree_shallowest hd 2 100 (hc 2) (hcount 2)
  obtain ⟨t', ht', -, hmin, -⟩ := hbuilt ⟨t, ht 3, by decide⟩
  refine ⟨g, t', hd, ht', hmin t (ht 3), (hdeep (derives_iff_exists_parse.2 ⟨t, ht 2⟩) fun u hu =>
    ?_).1⟩
  by_contra hle
  have hwithin := exists_parse_iff.1 ⟨u, hu, Nat.le_of_not_lt hle⟩
  obtain ⟨hexact, -, -, hrounds⟩ := Chart.exact_of_countable (hc 2) (hcount 2)
  have hg := (Definition.wellFormed_of_build hd).withLimits 2 100
  have haccepts := (Chart.accepts_iterate_iff hexact hg hrounds (by decide)).2 hwithin
  have hnot : (Chart.advance^[2] (c (g.withLimits 2 100))).accepts = false := by decide +kernel
  exact Bool.false_ne_true (hnot.symm.trans haccepts)

end Grammar

end Acceptors
