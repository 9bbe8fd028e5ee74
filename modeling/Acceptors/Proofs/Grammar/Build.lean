import Mathlib.Tactic.Common
import Acceptors.Grammar.Chart
import Acceptors.Proofs.Grammar.ParseTree
import Acceptors.Proofs.Grammar.Rounds
import Acceptors.Proofs.Outcome

/-! Trees from a chart. The rank of a fact is the depth of its shallowest tree. A body that covers
the fact by facts of lower rank exists, the trees of these make up a tree of the fact, and this tree
is a shallowest one because no other could be lower than the rank. -/

namespace Acceptors

mutual

/-- The nonterminals on each way from the root to a leaf, with the first and last position of what
they derive; the leaves of the tree begin at `start`. -/
def Tree.paths (start : Nat) : Tree → List (List (String × Nat × Nat))
  | .node symbol children =>
    (Tree.pathsOf start children).map ((symbol, start, start + (Tree.yieldOf children).length) :: ·)
  | .leaf _ => [[]]
  | .empty => [[]]

def Tree.pathsOf (start : Nat) : List Tree → List (List (String × Nat × Nat))
  | [] => []
  | t :: ts => Tree.paths start t ++ Tree.pathsOf (start + t.yield.length) ts

end

theorem length_part {w : List Char} {i j : Nat} (hj : j ≤ w.length) :
    (part w i j).length = j - i := by
  rw [part, List.length_take, List.length_drop]
  omega

namespace Chart

open Grammar (Symbol DerivesWithin Spells)

variable {c : Chart} {bound levels a i j r k m : Nat} {s : Symbol} {body : List Symbol}
  {spans : List (Nat × Nat)} {parts : List (Symbol × Nat × Nat)} {t : Tree} {children : List Tree}
  {path : List (String × Nat × Nat)}

/-! Ranks. -/

theorem Exact.derivesWithin_iff (h : c.Exact) (ha : a < c.grammar.nonterminals.size) (hij : i ≤ j)
    (hj : j ≤ c.length) (hr : c.rank? a i j = some r) :
    c.grammar.DerivesWithin k [.nonterminal a] (part c.word i j) ↔ r ≤ k := by
  have hiff := fun k (hk : k ≤ c.rounds) => h.isBelow_iff k hk a i j ha hij hj
  have hrounds := h.rank_le a i j r hr
  rcases Nat.le_total k c.rounds with hk | hk
  · rw [← hiff k hk, Chart.isBelow_iff, hr]
    simp only [Option.some.injEq, exists_eq_left', Nat.lt_succ_iff]
  · have hd :=
      (hiff c.rounds (Nat.le_refl _)).1 (Chart.isBelow_iff.2 ⟨r, hr, Nat.lt_succ_of_le hrounds⟩)
    exact iff_of_true (hd.mono hk) (Nat.le_trans hrounds hk)

theorem Exact.not_derivesWithin (h : c.Exact) (hcomplete : c.isComplete = true)
    (ha : a < c.grammar.nonterminals.size) (hij : i ≤ j) (hj : j ≤ c.length)
    (hr : c.rank? a i j = none) :
    ¬c.grammar.DerivesWithin k [.nonterminal a] (part c.word i j) := by
  intro hd
  have hrounds := h.complete hcomplete k a i j ha hij hj hd
  exact h.known_iff.1 ((h.isBelow_iff c.rounds (Nat.le_refl _) a i j ha hij hj).2 hrounds) hr

/-! Splitting. -/

/-- Parts that lie end to end, each matched by its symbol with facts ranked below `bound`. -/
def Tiles (c : Chart) (bound : Nat) : List (Symbol × Nat × Nat) → Nat → Nat → Prop
  | [], i, j => i = j
  | (s, first, last) :: parts, i, j => first = i ∧ c.Leads bound i last s ∧
    c.Tiles bound parts last j

theorem Tiles.covers (h : c.Tiles bound parts i j) : c.Covers bound (parts.map Prod.fst) i j := by
  induction parts generalizing i with
  | nil => exact h
  | cons p parts ih =>
    obtain ⟨_, hs, hparts⟩ := h
    exact ⟨p.2.2, hs, ih hparts⟩

theorem Tiles.leads (h : c.Tiles bound parts i j) :
    ∀ p ∈ parts, c.Leads bound p.2.1 p.2.2 p.1 := by
  induction parts generalizing i with
  | nil => exact fun p hp => absurd hp List.not_mem_nil
  | cons p parts ih =>
    obtain ⟨hfirst, hs, hparts⟩ := h
    exact List.forall_mem_cons.2 ⟨hfirst ▸ hs, ih hparts⟩

theorem split_cons (h : c.split bound (s :: body) i j = some spans) (hj : j ≤ c.length) :
    ∃ mid rest, spans = (i, mid) :: rest ∧ c.Leads bound i mid s ∧
    c.split bound body mid j = some rest ∧
      ∀ m < mid, c.Leads bound i m s → c.split bound body m j = none := by
  cases s with
  | terminal t =>
    rw [split, Option.ite_none_right_eq_some, Option.map_eq_some_iff] at h
    obtain ⟨⟨_, ht⟩, rest, hrest, rfl⟩ := h
    exact ⟨i + 1, rest, rfl, ⟨ht, rfl⟩, hrest, fun m hm hleads => absurd hleads.2 (Nat.ne_of_lt hm)⟩
  | nonterminal a =>
    rw [split, List.findSome?_eq_some_iff] at h
    obtain ⟨before, mid, after, hmids, hmid, hbefore⟩ := h
    rw [Option.ite_none_right_eq_some, Option.map_eq_some_iff] at hmid
    obtain ⟨hbelow, rest, hrest, rfl⟩ := hmid
    have hbounds : i ≤ mid ∧ mid < i + (j + 1 - i) :=
      List.mem_range'_1.1 (hmids ▸ List.mem_append_right before List.mem_cons_self)
    refine ⟨mid, rest, rfl, ⟨hbounds.1, by omega, hbelow⟩, hrest, fun m hm hleads => ?_⟩
    have hmem : m ∈ before ++ mid :: after := hmids ▸ List.mem_range'_1.2 ⟨hleads.1, by omega⟩
    have hsorted : (before ++ mid :: after).Pairwise (· < ·) := hmids ▸ List.pairwise_lt_range'
    rcases List.mem_append.1 hmem with hm' | hm'
    · have hnone := hbefore m hm'
      rwa [if_pos hleads.2.2, Option.map_eq_none_iff] at hnone
    · -- a position from `mid` on is not before it
      have hle : mid ≤ m := by
        rcases List.mem_cons.1 hm' with rfl | hm'
        · exact Nat.le_refl _
        · exact Nat.le_of_lt (List.rel_of_pairwise_cons (List.pairwise_append.1 hsorted).2.1 hm')
      exact absurd hm (Nat.not_lt.2 hle)

theorem tiles_split (hj : j ≤ c.length) (h : c.split bound body i j = some spans) :
    c.Tiles bound (body.zip spans) i j ∧ (body.zip spans).map Prod.fst = body := by
  induction body generalizing i spans with
  | nil =>
    rw [split, Option.ite_none_right_eq_some] at h
    exact ⟨h.1, rfl⟩
  | cons s body ih =>
    obtain ⟨mid, rest, rfl, hs, hrest, -⟩ := split_cons h hj
    obtain ⟨htiles, hbody⟩ := ih hrest
    exact ⟨⟨rfl, hs, htiles⟩, congrArg (s :: ·) hbody⟩

theorem isSome_split (hi : i ≤ c.length) (h : c.Covers bound body i j) :
    (c.split bound body i j).isSome = true := by
  induction body generalizing i with
  | nil => exact Option.isSome_of_eq_some (if_pos h)
  | cons s body ih =>
    obtain ⟨mid, hs, hrest⟩ := h
    obtain ⟨him, hm⟩ := hs.bounds
    have hsome := ih hm hrest
    have hmj := (hrest.bounds hm).1
    cases s with
    | terminal t =>
      obtain ⟨ht, rfl⟩ := hs
      rw [split, if_pos ⟨hmj, ht⟩, Option.isSome_map]
      exact hsome
    | nonterminal a =>
      rw [split, List.findSome?_isSome_iff]
      refine ⟨mid, List.mem_range'_1.2 ⟨him, by omega⟩, ?_⟩
      rw [if_pos hs.2.2, Option.isSome_map]
      exact hsome

theorem tiles_of_derivation? (hj : j ≤ c.length) (h : c.derivation? r a i j = some parts) :
    ⟨a, parts.map Prod.fst⟩ ∈ c.grammar.productions ∧ c.Tiles r parts i j := by
  rw [derivation?, List.findSome?_eq_some_iff] at h
  obtain ⟨before, body, after, hbodies, hsplit, _⟩ := h
  obtain ⟨spans, hspans, rfl⟩ := Option.map_eq_some_iff.1 hsplit
  obtain ⟨htiles, hbody⟩ := tiles_split hj hspans
  have hmem : body ∈ c.grammar.bodies a := hbodies ▸ List.mem_append_right before List.mem_cons_self
  exact ⟨hbody.symm ▸ Grammar.mem_bodies_iff.1 hmem, htiles⟩

theorem isSome_derivation? (hi : i ≤ c.length) (hp : ⟨a, body⟩ ∈ c.grammar.productions)
    (h : c.Covers r body i j) : (c.derivation? r a i j).isSome = true := by
  rw [derivation?, List.findSome?_isSome_iff]
  refine ⟨body, Grammar.mem_bodies_iff.2 hp, ?_⟩
  rw [Option.isSome_map]
  exact isSome_split hi h

theorem Exact.pos_of_rank? (h : c.Exact) (ha : a < c.grammar.nonterminals.size) (hij : i ≤ j)
    (hj : j ≤ c.length) (hr : c.rank? a i j = some r) : 0 < r := by
  rw [Nat.pos_iff_ne_zero]
  rintro rfl
  exact Grammar.not_derivesWithin_zero ((h.derivesWithin_iff ha hij hj hr).2 (Nat.le_refl 0))

theorem Exact.exists_derivation? (h : c.Exact) (hg : c.grammar.WellFormed)
    (ha : a < c.grammar.nonterminals.size) (hij : i ≤ j) (hj : j ≤ c.length)
    (hr : c.rank? a i j = some r) :
    ∃ body parts, ⟨a, body⟩ ∈ c.grammar.productions ∧ c.derivation? r a i j = some parts ∧
      parts.map Prod.fst = body ∧ c.Tiles r parts i j := by
  obtain ⟨k, rfl⟩ := Nat.exists_eq_add_of_le' (h.pos_of_rank? ha hij hj hr)
  have hd := (h.derivesWithin_iff ha hij hj hr).2 (Nat.le_refl _)
  obtain ⟨body, hp, hd⟩ := Grammar.derivesWithin_tree.1 hd
  have hk : k ≤ c.rounds := Nat.le_of_succ_le (h.rank_le a i j _ hr)
  have hi : i ≤ c.length := Nat.le_trans hij hj
  have hcovers :=
    (covers_iff_derivesWithin (h.isBelow_iff k hk) (hg.index_lt _ hp) hi).2 ⟨hij, hj, hd⟩
  obtain ⟨parts, hparts⟩ := Option.isSome_iff_exists.1 (isSome_derivation? hi hp hcovers)
  obtain ⟨hproduction, htiles⟩ := tiles_of_derivation? hj hparts
  exact ⟨_, parts, hproduction, hparts, rfl, htiles⟩

/-! Building. -/

/-- Down a path the ranks of the facts fall, the first of them being below `bound`. -/
def Descends (c : Chart) : Nat → List (String × Nat × Nat) → Prop
  | _, [] => True
  | bound, (name, i, j) :: path => ∃ a r, a < c.grammar.nonterminals.size ∧
    c.grammar.name a = name ∧
      c.rank? a i j = some r ∧ r < bound ∧ c.Descends r path

theorem Descends.mono (h : c.Descends bound path) (hm : bound ≤ m) : c.Descends m path := by
  cases path with
  | nil => trivial
  | cons entry path =>
    obtain ⟨a, r, ha, hname, hr, hlt, hpath⟩ := h
    exact ⟨a, r, ha, hname, hr, Nat.lt_of_lt_of_le hlt hm, hpath⟩

theorem Descends.rank_lt (h : c.Descends bound path) {name : String} (hmem : (name, i, j) ∈ path) :
    ∃ a r, a < c.grammar.nonterminals.size ∧ c.grammar.name a = name ∧ c.rank? a i j = some r ∧
      r < bound := by
  induction path generalizing bound with
  | nil => cases hmem
  | cons entry path ih =>
    obtain ⟨a, r, ha, hname, hr, hlt, hpath⟩ := h
    rcases List.mem_cons.1 hmem with rfl | hmem
    · exact ⟨a, r, ha, hname, hr, hlt⟩
    · exact ih (hpath.mono (Nat.le_of_lt hlt)) hmem

theorem Descends.nodup (hg : c.grammar.WellFormed) (h : c.Descends bound path) : path.Nodup := by
  induction path generalizing bound with
  | nil => exact List.nodup_nil
  | cons entry path ih =>
    obtain ⟨name, i, j⟩ := entry
    obtain ⟨a, r, ha, hname, hr, _, hpath⟩ := h
    refine List.nodup_cons.2 ⟨fun hmem => ?_, ih hpath⟩
    -- if the fact came again further down, its rank would be below itself
    obtain ⟨b, r', hb, hname', hr', hlt⟩ := hpath.rank_lt hmem
    obtain rfl := (hg.name_inj ha hb).1 (hname.trans hname'.symm)
    cases hr.symm.trans hr'
    exact Nat.lt_irrefl r hlt

theorem part_of_terminal {symbol : Char} (h : c.Leads bound i j (.terminal symbol)) :
    part c.word i j = [symbol] := by
  obtain ⟨hinput, rfl⟩ := h
  obtain ⟨hlt, _⟩ := Array.getElem?_eq_some_iff.1 hinput
  rw [part_eq_cons_iff (Nat.le_succ i) (by rwa [length_word]), word, Array.getElem?_toList]
  refine ⟨Nat.lt_succ_self i, hinput, ?_⟩
  exact ((part_eq_nil_iff (Nat.le_refl _) (by rwa [← word, length_word])).2 rfl).symm

theorem Tiles.spells (h : c.Tiles bound parts i j) (hi : i ≤ c.length)
    (ht : List.Forall₂ (fun p t => c.grammar.Spells [p.1] [t] ∧ t.yield = part c.word p.2.1 p.2.2)
      parts children) :
    c.grammar.Spells (parts.map Prod.fst) children ∧ Tree.yieldOf children = part c.word i j := by
  induction ht generalizing i with
  | nil =>
    obtain rfl : i = j := h
    exact ⟨.nil,
      ((part_eq_nil_iff (w := c.word) (Nat.le_refl i) (by rwa [length_word])).2 rfl).symm⟩
  | @cons p t parts children hp _ ih =>
    obtain ⟨s, first, last⟩ := p
    obtain ⟨rfl, hs, hparts⟩ := h
    obtain ⟨hfirst, hlast⟩ := hs.bounds
    obtain ⟨hspells, hyield⟩ := ih hparts hlast
    refine ⟨hp.1.cons hspells, ?_⟩
    rw [Tree.yieldOf, hp.2, hyield, part_append hfirst (hparts.covers.bounds hlast).1]

/-- A parse tree for a symbol over a part of the input, made of facts ranked below `bound`. -/
structure Fits (c : Chart) (s : Symbol) (i j bound : Nat) (t : Tree) : Prop where
  spells : c.grammar.Spells [s] [t]
  yield : t.yield = part c.word i j
  depth_lt : t.depth < bound
  descends : ∀ path ∈ t.paths i, c.Descends bound path

theorem Fits.mono (h : c.Fits s i j bound t) (hm : bound ≤ m) : c.Fits s i j m t :=
  ⟨h.spells, h.yield, Nat.lt_of_lt_of_le h.depth_lt hm, fun path hp => (h.descends path hp).mono hm⟩

theorem fits_leaf {symbol : Char} (h : c.Leads bound i j (.terminal symbol)) (hm : 0 < m) :
    c.Fits (.terminal symbol) i j m (.leaf symbol) := by
  refine ⟨.terminal symbol .nil, (part_of_terminal h).symm, hm, fun path hpath => ?_⟩
  obtain rfl := List.mem_singleton.1 hpath
  trivial

theorem Tiles.assemble (h : c.Tiles bound parts i j) (hm : 0 < m)
    (ht : List.Forall₂ (fun p t => c.Fits p.1 p.2.1 p.2.2 m t) parts children) :
    Tree.greatestDepth children < m ∧ ∀ path ∈ Tree.pathsOf i children, c.Descends m path := by
  induction ht generalizing i with
  | nil => exact ⟨hm, fun path hpath => absurd hpath List.not_mem_nil⟩
  | @cons p t parts children hp _ ih =>
    obtain ⟨s, first, last⟩ := p
    obtain ⟨rfl, hs, hparts⟩ := h
    obtain ⟨hfirst, hlast⟩ := hs.bounds
    obtain ⟨hdepth, hpaths⟩ := ih hparts
    refine ⟨Nat.max_lt.2 ⟨hp.depth_lt, hdepth⟩, fun path hpath => ?_⟩
    have hlength : t.yield.length = last - first := by
      rw [hp.yield, length_part (by rwa [length_word])]
    rw [Tree.pathsOf, hlength, Nat.add_sub_cancel' hfirst] at hpath
    rcases List.mem_append.1 hpath with hpath | hpath
    · exact hp.descends path hpath
    · exact hpaths path hpath

def buildPart (c : Chart) (levels : Nat) (p : Symbol × Nat × Nat) : Except Violation Tree :=
  match p.1 with
  | .terminal t => .ok (.leaf t)
  | .nonterminal b => c.build levels b p.2.1 p.2.2

theorem build_eq (hr : c.rank? a i j = some r) (hparts : c.derivation? r a i j = some parts) :
    c.build (levels + 1) a i j =
      if parts = [] then .ok (.node (c.grammar.name a) [.empty])
      else (parts.mapM (c.buildPart levels)).map (.node (c.grammar.name a)) := by
  rw [build, hr]
  dsimp only
  rw [hparts]
  cases parts with
  | nil => rfl
  | cons p parts => exact bind_pure_comp _ _

theorem exists_derivation_of_build (h : c.build (levels + 1) a i j = .ok t) :
    ∃ r parts, c.rank? a i j = some r ∧ c.derivation? r a i j = some parts := by
  rw [build] at h
  split at h
  · cases h
  · rename_i r hr
    cases hparts : c.derivation? r a i j with
    | none =>
      rw [hparts] at h
      cases h
    | some parts => exact ⟨r, parts, hr, hparts⟩

/-- Whatever is built is a parse tree, even of a chart with wrong facts. -/
theorem spells_of_build (hi : i ≤ c.length) (hj : j ≤ c.length) (h : c.build levels a i j = .ok t) :
    c.grammar.Spells [.nonterminal a] [t] ∧ t.yield = part c.word i j := by
  induction levels generalizing a i j t with
  | zero => cases h
  | succ levels ih =>
    obtain ⟨r, parts, hr, hparts⟩ := exists_derivation_of_build h
    obtain ⟨hp, htiles⟩ := tiles_of_derivation? hj hparts
    rw [build_eq hr hparts] at h
    split at h
    · rename_i hnil
      cases h
      subst hnil
      obtain rfl : i = j := htiles
      exact ⟨.empty hp .nil, ((part_eq_nil_iff (Nat.le_refl i) (by rwa [length_word])).2 rfl).symm⟩
    · rename_i hnil
      obtain ⟨children, hchildren, rfl⟩ := map_eq_ok_iff.1 h
      have hbody : parts.map Prod.fst ≠ [] := mt List.map_eq_nil_iff.1 hnil
      have hbuilt :=
        (List.forall₂_and_left parts children).2 ⟨htiles.leads, mapM_eq_ok_iff.1 hchildren⟩
      obtain ⟨hspells, hyield⟩ := htiles.spells hi <| hbuilt.imp fun p t ⟨hleads, ht⟩ => by
        obtain ⟨s, first, last⟩ := p
        cases s with
        | terminal symbol =>
          cases ht
          exact ⟨.terminal symbol .nil, (part_of_terminal hleads).symm⟩
        | nonterminal b => exact ih (Nat.le_trans hleads.1 hleads.2.1) hleads.2.1 ht
      exact ⟨.node hp hbody hspells .nil, hyield⟩

theorem fits_node (ha : a < c.grammar.nonterminals.size) (hij : i ≤ j) (hj : j ≤ c.length)
    (hr : c.rank? a i j = some r)
    (hspells : c.grammar.Spells [.nonterminal a] [.node (c.grammar.name a) children])
    (hyield : Tree.yieldOf children = part c.word i j) (hdepth : Tree.depthOf children ≤ r)
    (hpaths : ∀ path ∈ Tree.pathsOf i children, c.Descends r path) :
    c.Fits (.nonterminal a) i j (r + 1) (.node (c.grammar.name a) children) := by
  refine ⟨hspells, hyield, Nat.lt_succ_of_le hdepth, fun path hpath => ?_⟩
  obtain ⟨rest, hrest, rfl⟩ := List.mem_map.1 hpath
  have hlength : (Tree.yieldOf children).length = j - i := by
    rw [hyield, length_part (by rwa [length_word])]
  rw [hlength, Nat.add_sub_cancel' hij]
  exact ⟨a, r, ha, rfl, hr, Nat.lt_succ_self r, hpaths rest hrest⟩

/-- What becomes of the tree of a fact of rank `r`: it is built if there are as many levels, and
otherwise there is only one way to fail. -/
def Builds (c : Chart) (levels a i j r : Nat) : Prop :=
  (∃ t, c.build levels a i j = .ok t ∧ r ≤ levels ∧ c.Fits (.nonterminal a) i j (r + 1) t) ∨
    (c.build levels a i j = .error (.treeTooDeep c.grammar.maxTreeDepth) ∧ levels < r)

theorem buildPart_cases {p : Symbol × Nat × Nat}
    (hbuild : ∀ b first last r', b < c.grammar.nonterminals.size → first ≤ last → last ≤ c.length →
      c.rank? b first last = some r' → c.Builds levels b first last r')
    (hsymbol : ∀ b, p.1 = .nonterminal b → b < c.grammar.nonterminals.size) (hpos : 0 < r)
    (hleads : c.Leads r p.2.1 p.2.2 p.1) :
    (∃ t, c.buildPart levels p = .ok t ∧ c.Fits p.1 p.2.1 p.2.2 (min r (levels + 1)) t) ∨
      (c.buildPart levels p = .error (.treeTooDeep c.grammar.maxTreeDepth) ∧ levels + 1 < r) := by
  obtain ⟨s, first, last⟩ := p
  cases s with
  | terminal t => exact .inl ⟨.leaf t, rfl, fits_leaf hleads (by omega)⟩
  | nonterminal b =>
    obtain ⟨hfirst, hlast, hbelow⟩ := hleads
    obtain ⟨r', hr', hlt⟩ := Chart.isBelow_iff.1 hbelow
    rcases hbuild b first last r' (hsymbol b rfl) hfirst hlast hr' with
      ⟨t, ht, hle, hfits⟩ | ⟨herror, hlevels⟩
    · exact .inl ⟨t, ht, hfits.mono (by omega)⟩
    · exact .inr ⟨herror, by omega⟩

theorem Exact.rank_le_depth (h : c.Exact) (ha : a < c.grammar.nonterminals.size) (hij : i ≤ j)
    (hj : j ≤ c.length) (hr : c.rank? a i j = some r)
    (hspells : c.grammar.Spells [.nonterminal a] [t]) (hyield : t.yield = part c.word i j) :
    r ≤ t.depth :=
  (h.derivesWithin_iff ha hij hj hr).1
    (Grammar.derivesWithin_iff_exists_tree.2 ⟨t, hspells, hyield, Nat.le_refl _⟩)

theorem Exact.builds (h : c.Exact) (hg : c.grammar.WellFormed) (levels : Nat)
    (ha : a < c.grammar.nonterminals.size) (hij : i ≤ j) (hj : j ≤ c.length)
    (hr : c.rank? a i j = some r) : c.Builds levels a i j r := by
  have hpos := h.pos_of_rank? ha hij hj hr
  induction levels generalizing a i j r with
  | zero => exact .inr ⟨rfl, hpos⟩
  | succ levels ih =>
    obtain ⟨body, parts, hp, hparts, rfl, htiles⟩ := h.exists_derivation? hg ha hij hj hr
    have hi : i ≤ c.length := Nat.le_trans hij hj
    rw [Builds, build_eq hr hparts]
    by_cases hnil : parts = []
    · subst hnil
      obtain rfl : i = j := htiles
      have hroot := Spells.empty hp .nil
      have hyield : [] = part c.word i i :=
        ((part_eq_nil_iff (Nat.le_refl i) (by rwa [length_word])).2 rfl).symm
      have hle : r ≤ 1 := h.rank_le_depth ha hij hj hr hroot hyield
      refine .inl ⟨_, if_pos rfl, by omega,
        fits_node ha hij hj hr hroot hyield hpos fun path hpath => ?_⟩
      obtain rfl := List.mem_singleton.1 hpath
      trivial
    · rw [if_neg hnil]
      have hcases := fun p (hmem : p ∈ parts) => buildPart_cases (p := p)
        (fun b first last r' hb hfirst hlast hr' =>
          ih hb hfirst hlast hr' (h.pos_of_rank? hb hfirst hlast hr'))
        (fun b hb => hg.index_lt _ hp b (List.mem_map.2 ⟨p, hmem, hb⟩)) hpos (htiles.leads p hmem)
      rcases mapM_ok_or_error hcases with ⟨children, hchildren, hfits⟩ | ⟨herror, hlt⟩
      · obtain ⟨hspells, hyield⟩ :=
          htiles.spells hi (hfits.imp fun _ _ hfit => ⟨hfit.spells, hfit.yield⟩)
        obtain ⟨hdepth, hpaths⟩ := htiles.assemble (by omega) hfits
        have hbody : parts.map Prod.fst ≠ [] := mt List.map_eq_nil_iff.1 hnil
        have hroot := Spells.node hp hbody hspells .nil
        have hdepthOf := Tree.depthOf_eq (hspells.ne_nil hbody)
        -- no tree is shallower than the rank, so this one is just as deep and the levels were
        -- enough
        have hle : r ≤ Tree.depthOf children := h.rank_le_depth ha hij hj hr hroot hyield
        refine .inl ⟨_, by rw [hchildren]; rfl, by omega,
          fits_node ha hij hj hr hroot hyield (by omega) ?_⟩
        exact fun path hpath => (hpaths path hpath).mono (Nat.min_le_left _ _)
      · exact .inr ⟨by rw [herror]; rfl, hlt⟩

end Chart

end Acceptors
