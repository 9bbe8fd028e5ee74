import Mathlib.Data.List.Lex
import Mathlib.Tactic.Common
import Acceptors.Proofs.Grammar.Build

/-! Which tree is built where there are several. Matching by sets of positions finds out where a
body can end, and matching by search finds the parts; they succeed together. The search tries nearer
ends first and comes back to a symbol only when the symbols after it cannot go on, so of all ways to
cut a part of the input for a body it finds the one whose ends come first in the order of words. -/

namespace Acceptors.Chart

open Grammar (Symbol)

variable {c : Chart} {bound levels a i j r : Nat} {s : Symbol} {body : List Symbol}
    {spans : List (Nat × Nat)} {p : Symbol × Nat × Nat} {parts others : List (Symbol × Nat × Nat)}
    {t : Tree} {ts children : List Tree}

def ends (parts : List (Symbol × Nat × Nat)) : List Nat := parts.map fun p => p.2.2

/-- Parts for a body whose ends are the first ones in the order of words. -/
structure Leftmost (c : Chart) (bound : Nat) (body : List Symbol) (i j : Nat)
    (parts : List (Symbol × Nat × Nat)) :
    Prop where
  body_eq : parts.map Prod.fst = body
  tiles : c.Tiles bound parts i j
  least : ∀ others, others.map Prod.fst = body → c.Tiles bound others i j →
    ends parts = ends others ∨ List.Lex (· < ·) (ends parts) (ends others)

structure Chosen (c : Chart) (r a i j : Nat) (parts : List (Symbol × Nat × Nat)) : Prop where
  first : ∃ before after, c.grammar.bodies a = before ++ parts.map Prod.fst :: after ∧
    ∀ body ∈ before, ∀ others, others.map Prod.fst = body → ¬c.Tiles r others i j
  leftmost : c.Leftmost r (parts.map Prod.fst) i j parts

/-- Trees for parts side by side. The children of a node are trees for the parts that are chosen by
facts of lower rank than its own. -/
inductive Selects (c : Chart) : List (Symbol × Nat × Nat) → List Tree → Prop
  | nil : Selects c [] []
  | terminal (symbol : Char) (i j : Nat) {parts : List (Symbol × Nat × Nat)} {ts : List Tree}
      (rest : Selects c parts ts) :
      Selects c ((.terminal symbol, i, j) :: parts) (.leaf symbol :: ts)
  | empty {a i j r : Nat} {parts : List (Symbol × Nat × Nat)} {ts : List Tree}
      (hr : c.rank? a i j = some r) (h : c.Chosen r a i j []) (rest : Selects c parts ts) :
      Selects c ((.nonterminal a, i, j) :: parts) (.node (c.grammar.name a) [.empty] :: ts)
  | node {a i j r : Nat} {chosen parts : List (Symbol × Nat × Nat)} {children ts : List Tree}
      (hr : c.rank? a i j = some r) (h : c.Chosen r a i j chosen) (hne : chosen ≠ [])
      (hchildren : Selects c chosen children) (rest : Selects c parts ts) :
      Selects c ((.nonterminal a, i, j) :: parts) (.node (c.grammar.name a) children :: ts)

/-! Tilings. -/

theorem covers_iff_exists_tiles :
    c.Covers bound body i j ↔ ∃ parts, parts.map Prod.fst = body ∧ c.Tiles bound parts i j := by
  constructor
  · intro h
    induction body generalizing i with
    | nil => exact ⟨[], rfl, h⟩
    | cons s body ih =>
      obtain ⟨mid, hs, hrest⟩ := h
      obtain ⟨parts, rfl, htiles⟩ := ih hrest
      exact ⟨(s, i, mid) :: parts, rfl, rfl, hs, htiles⟩
  · intro h
    obtain ⟨parts, rfl, htiles⟩ := h
    exact htiles.covers

theorem Tiles.eq_of_ends_eq (h : c.Tiles bound parts i j) (h' : c.Tiles bound others i j)
    (hbody : parts.map Prod.fst = others.map Prod.fst) (hends : ends parts = ends others) :
    parts = others := by
  induction parts generalizing i others with
  | nil => exact (List.map_eq_nil_iff.1 hbody.symm).symm
  | cons p parts ih =>
    cases others with
    | nil => cases hbody
    | cons q others =>
      obtain ⟨s, first, last⟩ := p
      obtain ⟨s', first', last'⟩ := q
      obtain ⟨rfl, -, hrest⟩ := h
      obtain ⟨rfl, -, hrest'⟩ := h'
      obtain ⟨hs, hbody'⟩ := List.cons.inj hbody
      obtain ⟨hlast, hends'⟩ := List.cons.inj hends
      obtain rfl : s = s' := hs
      obtain rfl : last = last' := hlast
      rw [ih hrest hrest' hbody' hends']

theorem Leftmost.unique (h : c.Leftmost bound body i j parts)
    (h' : c.Leftmost bound body i j others) :
    parts = others := by
  refine h.tiles.eq_of_ends_eq h'.tiles (h.body_eq.trans h'.body_eq.symm) ?_
  rcases h.least others h'.body_eq h'.tiles with heq | hlt
  · exact heq
  · rcases h'.least parts h.body_eq h.tiles with heq | hgt
    · exact heq.symm
    · exact absurd hgt (Std.Asymm.asymm _ _ hlt)

/-! Search. -/

theorem length_split (h : c.split bound body i j = some spans) (hj : j ≤ c.length) :
    spans.length = body.length := by
  induction body generalizing i spans with
  | nil =>
    rw [split, Option.ite_none_right_eq_some, Option.some_inj] at h
    obtain ⟨-, rfl⟩ := h
    rfl
  | cons s body ih =>
    obtain ⟨mid, rest, rfl, -, hrest, -⟩ := split_cons h hj
    exact congrArg Nat.succ (ih hrest)

theorem ends_first_of_split (h : c.split bound body i j = some spans) (hj : j ≤ c.length)
    (hbody : others.map Prod.fst = body) (htiles : c.Tiles bound others i j) :
    ends (body.zip spans) = ends others ∨
    List.Lex (· < ·) (ends (body.zip spans)) (ends others) := by
  induction body generalizing i spans others with
  | nil =>
    obtain rfl := List.map_eq_nil_iff.1 hbody
    exact .inl rfl
  | cons s body ih =>
    obtain ⟨mid, rest, rfl, -, hrest, hbefore⟩ := split_cons h hj
    obtain ⟨⟨s', first, mid'⟩, others, rfl, rfl, rfl⟩ := List.map_eq_cons_iff.1 hbody
    obtain ⟨rfl, hs', htiles⟩ := htiles
    rcases Nat.lt_trichotomy mid mid' with hlt | rfl | hgt
    · exact .inr (.rel hlt)
    · exact (ih hrest rfl htiles).imp (congrArg (mid :: ·)) .cons
    · -- the other symbols cover the rest from the nearer end, where the search would have stopped
      have hsome := isSome_split hs'.bounds.2 htiles.covers
      rw [hbefore mid' hgt hs'] at hsome
      cases hsome

theorem leftmost_split (h : c.split bound body i j = some spans) (hj : j ≤ c.length) :
    (body.zip spans).map Prod.snd = spans ∧ c.Leftmost bound body i j (body.zip spans) := by
  obtain ⟨htiles, hbody⟩ := tiles_split hj h
  exact ⟨List.map_snd_zip (Nat.le_of_eq (length_split h hj)), hbody, htiles, fun others =>
    ends_first_of_split h hj⟩

theorem isSome_split_iff (hi : i ≤ c.length) (hj : j ≤ c.length) :
    (c.split bound body i j).isSome = true ↔ c.Covers bound body i j := by
  refine ⟨fun h => ?_, isSome_split hi⟩
  obtain ⟨spans, hspans⟩ := Option.isSome_iff_exists.1 h
  exact covers_iff_exists_tiles.2 ⟨_, (tiles_split hj hspans).2, (tiles_split hj hspans).1⟩

theorem split_eq_some_iff (hi : i ≤ c.length) (hj : j ≤ c.length) :
    c.split bound body i j = some spans ↔
    ∃ parts, parts.map Prod.snd = spans ∧ c.Leftmost bound body i j parts := by
  constructor
  · intro h
    obtain ⟨hspans, hleftmost⟩ := leftmost_split h hj
    exact ⟨_, hspans, hleftmost⟩
  · intro h
    obtain ⟨parts, rfl, hleftmost⟩ := h
    have hcovers := covers_iff_exists_tiles.2 ⟨parts, hleftmost.body_eq, hleftmost.tiles⟩
    obtain ⟨spans, hspans⟩ := Option.isSome_iff_exists.1 ((isSome_split_iff hi hj).2 hcovers)
    obtain ⟨hspans', hleftmost'⟩ := leftmost_split hspans hj
    rw [hspans, ← hspans', hleftmost.unique hleftmost']

/-! Trees. -/

theorem chosen_of_derivation? (h : c.derivation? r a i j = some parts) (hi : i ≤ c.length)
    (hj : j ≤ c.length) :
    c.Chosen r a i j parts := by
  rw [derivation?, List.findSome?_eq_some_iff] at h
  obtain ⟨before, body, after, hbodies, hsplit, hbefore⟩ := h
  obtain ⟨spans, hspans, rfl⟩ := Option.map_eq_some_iff.1 hsplit
  have hleftmost := (leftmost_split hspans hj).2
  refine ⟨⟨before, after, ?_, fun earlier hearlier others hbody htiles => ?_⟩, ?_⟩
  · rw [hleftmost.body_eq]
    exact hbodies
  · have hsome := (isSome_split_iff hi hj).2 (covers_iff_exists_tiles.2 ⟨others, hbody, htiles⟩)
    rw [Option.map_eq_none_iff.1 (hbefore earlier hearlier)] at hsome
    cases hsome
  · rw [hleftmost.body_eq]
    exact hleftmost

theorem Selects.cons (h : c.Selects [p] [t]) (hrest : c.Selects parts ts) :
    c.Selects (p :: parts) (t :: ts) := by
  cases h with
  | terminal symbol i j _ => exact .terminal symbol i j hrest
  | empty hr h _ => exact .empty hr h hrest
  | node hr h hne hchildren _ => exact .node hr h hne hchildren hrest

theorem selects_of_forall₂ (h : List.Forall₂ (fun p t => c.Selects [p] [t]) parts children) :
    c.Selects parts children := by
  induction h with
  | nil => exact .nil
  | cons hp _ ih => exact hp.cons ih

theorem selects_of_build (hi : i ≤ c.length) (hj : j ≤ c.length)
    (h : c.build levels a i j = .ok t) :
    c.Selects [(.nonterminal a, i, j)] [t] := by
  induction levels generalizing a i j t with
  | zero => cases h
  | succ levels ih =>
    obtain ⟨r, parts, hr, hparts⟩ := exists_derivation_of_build h
    have hchosen := chosen_of_derivation? hparts hi hj
    rw [build_eq hr hparts] at h
    split at h
    · rename_i hnil
      cases h
      subst hnil
      exact .empty hr hchosen .nil
    · rename_i hne
      obtain ⟨children, hchildren, rfl⟩ := map_eq_ok_iff.1 h
      have hbuilt := (List.forall₂_and_left parts children).2
        ⟨hchosen.leftmost.tiles.leads, mapM_eq_ok_iff.1 hchildren⟩
      refine .node hr hchosen hne (selects_of_forall₂ (hbuilt.imp fun p t hpart => ?_)) .nil
      obtain ⟨hleads, ht⟩ := hpart
      obtain ⟨s, first, last⟩ := p
      cases s with
      | terminal symbol =>
        cases ht
        exact .terminal symbol first last .nil
      | nonterminal b => exact ih (Nat.le_trans hleads.1 hleads.2.1) hleads.2.1 ht

/-- The search for the parts of a body finds some exactly if the set of positions that the body can
end at holds the end, and then it finds the leftmost ones. So each node of a tree that is built has
the first body for which there are parts by facts of lower rank, and the leftmost of these parts. -/
theorem split_refines_reach (c : Chart) :
    (∀ body i j bound, i ≤ j → j ≤ c.length →
      ((c.split bound body i j).isSome = true ↔ j ∈ c.reach body i bound) ∧
      ∀ spans, c.split bound body i j = some spans ↔
        ∃ parts, parts.map Prod.snd = spans ∧ c.Leftmost bound body i j parts) ∧
    ∀ t, c.parseTree = .ok (some t) → c.Selects [(.nonterminal 0, 0, c.length)] [t] := by
  refine ⟨fun body i j bound hij hj => ⟨?_, fun spans => ?_⟩, fun t ht => ?_⟩
  · rw [mem_reach_iff, isSome_split_iff (Nat.le_trans hij hj) hj]
  · exact split_eq_some_iff (Nat.le_trans hij hj) hj
  · rw [parseTree] at ht
    split at ht
    · obtain ⟨t', ht', heq⟩ := map_eq_ok_iff.1 ht
      cases heq
      exact selects_of_build (Nat.zero_le _) (Nat.le_refl _) ht'
    · cases ht

/-- Of the two symbols before the last terminal either could cover the first letter. The first one
takes nothing, so the second one takes it. -/
theorem split_refines_reach_ambiguous :
    let d : Grammar.Definition := ⟨[("S", ["AAb"]), ("A", ["a", ""])]⟩
    let body : List Symbol := [.nonterminal 1, .nonterminal 1, .terminal 'b']
    let parts : List (Symbol × Nat × Nat) :=
      [(.nonterminal 1, 0, 0), (.nonterminal 1, 0, 1), (.terminal 'b', 1, 2)]
    let others : List (Symbol × Nat × Nat) :=
      [(.nonterminal 1, 0, 1), (.nonterminal 1, 1, 1), (.terminal 'b', 1, 2)]
    ∃ g c t, d.build = .ok g ∧ ofInput g ['a', 'b'] = .ok c ∧
      c.advance.advance.parseTree = .ok (some t) ∧ t.leftmostDerivation = ["S", "AAb", "Ab", "ab"] ∧
      2 ∈ c.advance.advance.reach body 0 2 ∧
      c.advance.advance.split 2 body 0 2 = some [(0, 0), (0, 1), (1, 2)] ∧
      c.advance.advance.Leftmost 2 body 0 2 parts ∧ c.advance.advance.Tiles 2 others 0 2 ∧
      c.advance.advance.Selects [(.nonterminal 0, 0, 2)] [t] := by
  intro d body parts others
  let g : Grammar := ⟨#["S", "A"], [⟨0, body⟩, ⟨1, [.terminal 'a']⟩, ⟨1, []⟩], 10000, 4194304⟩
  let c : Chart := ⟨g, #['a', 'b'], Array.replicate 18 none, 0, false⟩
  have hd : d.build = .ok g := by decide +kernel
  have hc : ofInput g ['a', 'b'] = .ok c := rfl
  have hderivation : c.advance.advance.parseTree.map (Option.map Tree.leftmostDerivation) =
      .ok (some ["S", "AAb", "Ab", "ab"]) := by decide +kernel
  obtain ⟨result, ht, hresult⟩ := map_eq_ok_iff.1 hderivation
  obtain ⟨t, rfl, hforms⟩ := Option.map_eq_some_iff.1 hresult
  have hsplit : c.advance.advance.split 2 body 0 2 = some [(0, 0), (0, 1), (1, 2)] := by
    decide +kernel
  obtain ⟨hmatchers, htrees⟩ := c.advance.advance.split_refines_reach
  obtain ⟨hreach, hleftmost⟩ := hmatchers body 0 2 2 (by decide) (by decide +kernel)
  obtain ⟨chosen, hspans, hchosen⟩ := (hleftmost _).1 hsplit
  have heq : chosen = parts := by
    rw [List.zip_of_prod hchosen.body_eq hspans]
    rfl
  have hfirst : c.advance.advance.Leads 2 0 1 (.nonterminal 1) :=
    ⟨by decide, by decide +kernel, by decide +kernel⟩
  have hsecond : c.advance.advance.Leads 2 1 1 (.nonterminal 1) :=
    ⟨by decide, by decide +kernel, by decide +kernel⟩
  have hlast : c.advance.advance.Leads 2 1 2 (.terminal 'b') := ⟨by decide +kernel, rfl⟩
  exact ⟨g, c, t, hd, hc, ht, hforms, hreach.1 (by rw [hsplit]; rfl), hsplit, heq ▸ hchosen,
    ⟨rfl, hfirst, rfl, hsecond, rfl, hlast, rfl⟩, htrees t ht⟩

end Acceptors.Chart
