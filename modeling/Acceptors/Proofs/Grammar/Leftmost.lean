import Mathlib.Data.List.Chain
import Mathlib.Tactic.Common
import Acceptors.Proofs.Grammar.Partial

/-! Leftmost derivations. The frontier of a tree whose nodes are expanded from the left stands for a
sentential form: its nodes and leaves are the symbols, and the marks for empty bodies stand for
nothing. Expanding a node replaces the leftmost nonterminal of the form, so the frontiers of a parse
tree are a derivation of its word. -/

namespace Acceptors

namespace Tree

def text : Tree → String
  | empty => ""
  | t => t.symbol

theorem formOf_eq (ts : List Tree) : formOf ts =
    if (String.join (ts.map text)).isEmpty then emptyText else String.join (ts.map text) := rfl

theorem yieldOf_append (ts us : List Tree) : yieldOf (ts ++ us) = yieldOf ts ++ yieldOf us := by
  induction ts with
  | nil => rfl
  | cons t ts ih => rw [List.cons_append, yieldOf, ih, yieldOf, List.append_assoc]

theorem nodeCountOf_append (ts us : List Tree) :
    nodeCountOf (ts ++ us) = nodeCountOf ts + nodeCountOf us := by
  induction ts with
  | nil => exact (Nat.zero_add _).symm
  | cons t ts ih => rw [List.cons_append, nodeCountOf, ih, nodeCountOf, Nat.add_assoc]

end Tree

namespace Grammar

variable {g : Grammar} {form form' : List Symbol} {s : Symbol} {t : Tree} {ts us : List Tree}
    {w : List Char} {fuel : Nat}

/-- One step of a leftmost derivation: there are only terminals in front of the nonterminal
replaced. -/
inductive RewritesLeftmost (g : Grammar) : List Symbol → List Symbol → Prop
  | expand (before : List Char) (after : List Symbol) {a : Nat} {body : List Symbol}
      (h : ⟨a, body⟩ ∈ g.productions) :
      RewritesLeftmost g (word before ++ .nonterminal a :: after) (word before ++ body ++ after)

theorem RewritesLeftmost.append_left (h : g.RewritesLeftmost form form') (w : List Char) :
    g.RewritesLeftmost (word w ++ form) (word w ++ form') := by
  obtain ⟨before, after, hp⟩ := h
  have hstep := expand (w ++ before) after hp
  rwa [word, List.map_append, List.append_assoc, List.append_assoc, List.append_assoc,
    ← List.append_assoc _ _ after] at hstep

/-! Frontiers. -/

/-- Trees side by side that stand for a form, some of them perhaps for no symbol of it. -/
inductive Fronts (g : Grammar) : List Symbol → List Tree → Prop
  | nil : Fronts g [] []
  | empty {form : List Symbol} {ts : List Tree} (rest : Fronts g form ts) :
      Fronts g form (.empty :: ts)
  | cons {s : Symbol} {t : Tree} {form : List Symbol} {ts : List Tree} (h : g.Spells [s] [t])
      (rest : Fronts g form ts) : Fronts g (s :: form) (t :: ts)

theorem Fronts.append (h : g.Fronts form ts) (h' : g.Fronts form' us) :
    g.Fronts (form ++ form') (ts ++ us) := by
  induction h with
  | nil => exact h'
  | empty _ ih => exact .empty ih
  | cons hs _ ih => exact .cons hs ih

theorem Spells.fronts (h : g.Spells form ts) : g.Fronts form ts := by
  induction h with
  | nil => exact .nil
  | terminal c _ ih => exact .cons (.terminal c .nil) ih
  | empty h _ ih => exact .cons (.empty h .nil) ih
  | node h hbody hchildren _ _ ih => exact .cons (.node h hbody hchildren .nil) ih

theorem Spells.root_cases (h : g.Spells [s] [t]) : (∃ c, s = .terminal c ∧ t = .leaf c) ∨
    ∃ a body children, s = .nonterminal a ∧ t = .node (g.name a) children ∧
    ⟨a, body⟩ ∈ g.productions ∧
      g.Fronts body children := by
  cases h with
  | terminal c _ => exact .inl ⟨c, rfl, rfl⟩
  | @empty a _ _ h _ => exact .inr ⟨a, [], [.empty], rfl, rfl, h, .empty .nil⟩
  | @node a body _ children _ h _ hchildren _ =>
    exact .inr ⟨a, body, children, rfl, rfl, h, hchildren.fronts⟩

inductive Expands (g : Grammar) (form : List Symbol) (ts : List Tree) : Prop
  | step {next : List Tree} {form' : List Symbol} (hnext : Tree.expandLeftmost? ts = some next)
      (hrewrites : g.RewritesLeftmost form form') (hfronts : g.Fronts form' next)
      (hcount : Tree.nodeCountOf ts = Tree.nodeCountOf next + 1)
      (hyield : Tree.yieldOf next = Tree.yieldOf ts)
  | done (hnone : Tree.expandLeftmost? ts = none) (hcount : Tree.nodeCountOf ts = 0)
      (hform : form = word (Tree.yieldOf ts))

theorem Expands.cons (t : Tree) (h : g.Expands form ts)
    (hpassed : Tree.expandLeftmost? (t :: ts) = (Tree.expandLeftmost? ts).map (t :: ·))
    (hcount : t.nodeCount = 0)
    (hfronts : ∀ {form ts}, g.Fronts form ts → g.Fronts (word t.yield ++ form) (t :: ts)) :
    g.Expands (word t.yield ++ form) (t :: ts) := by
  cases h with
  | step hnext hrewrites hfronts' hcount' hyield =>
    refine .step (by rw [hpassed, hnext]; rfl) (hrewrites.append_left t.yield)
      (hfronts hfronts') ?_ ?_
    · rw [Tree.nodeCountOf, Tree.nodeCountOf, hcount', Nat.add_assoc]
    · rw [Tree.yieldOf, Tree.yieldOf, hyield]
  | done hnone hcount' hform =>
    refine .done (by rw [hpassed, hnone]; rfl) ?_ ?_
    · rw [Tree.nodeCountOf, hcount, hcount']
    · rw [hform, Tree.yieldOf, word, word, word, List.map_append]

theorem Fronts.expands (h : g.Fronts form ts) : g.Expands form ts := by
  induction h with
  | nil => exact .done rfl rfl rfl
  | empty _ ih => exact ih.cons .empty rfl rfl .empty
  | @cons s t form ts hroot hrest ih =>
    rcases hroot.root_cases with ⟨c, rfl, rfl⟩ | ⟨a, body, children, rfl, rfl, hp, hchildren⟩
    · exact ih.cons (.leaf c) rfl rfl (.cons hroot)
    · refine .step rfl (.expand [] form hp) (hchildren.append hrest) ?_ ?_
      · rw [Tree.nodeCountOf_append, Tree.nodeCountOf, Tree.nodeCount]
        omega
      · rw [Tree.yieldOf_append, Tree.yieldOf, Tree.yield]

/-- The forms that the frontiers stand for are the leftmost derivation of the word at the leaves,
one for each node and the last one. -/
theorem Fronts.frontiers (h : g.Fronts form ts) (hcount : Tree.nodeCountOf ts = fuel) :
    (Tree.frontiers fuel ts).length = fuel + 1 ∧
    ∃ forms, List.Forall₂ g.Fronts forms (Tree.frontiers fuel ts) ∧
    forms.IsChain g.RewritesLeftmost ∧
      forms.head? = some form ∧ forms.getLast? = some (word (Tree.yieldOf ts)) := by
  -- each expansion takes one of the nodes, so the fuel runs out just when none is left
  induction fuel generalizing form ts with
  | zero =>
    cases h.expands with
    | step _ _ _ hsucc _ => omega
    | done _ _ hform => exact ⟨rfl, [form], .cons h .nil, List.isChain_singleton _, rfl,
      congrArg some hform⟩
  | succ fuel ih =>
    cases h.expands with
    | done _ hzero _ => omega
    | @step next form' hnext hrewrites hfronts hsucc hyield =>
      obtain ⟨hlength, forms, hforms, hchain, hhead, hlast⟩ := ih hfronts (by omega)
      have hfrontiers : Tree.frontiers (fuel + 1) ts = ts :: Tree.frontiers fuel next := by
        rw [Tree.frontiers, hnext]
      rw [hfrontiers]
      refine ⟨congrArg Nat.succ hlength, form :: forms, .cons h hforms, ?_, rfl, ?_⟩
      · refine List.isChain_cons.2 ⟨fun y hy => ?_, hchain⟩
        rw [hhead] at hy
        cases hy
        exact hrewrites
      · rw [List.getLast?_cons, hlast, hyield]
        rfl

/-! Texts. -/

def Named (g : Grammar) : Prop := ∀ p ∈ g.productions, g.name p.head ≠ ""

theorem Spells.text_eq (h : g.Spells [s] [t]) : t.text = g.displaySymbol s := by
  rcases h.root_cases with ⟨c, rfl, rfl⟩ | ⟨a, body, children, rfl, rfl, -, -⟩ <;> rfl

theorem Spells.displaySymbol_ne (hg : g.Named) (h : g.Spells [s] [t]) : g.displaySymbol s ≠ "" := by
  rcases h.root_cases with ⟨c, rfl, rfl⟩ | ⟨a, body, children, rfl, rfl, hp, -⟩
  · intro hempty
    have hlist := congrArg String.toList hempty
    simp [displaySymbol] at hlist
  · exact hg _ hp

theorem Fronts.join_text_eq (h : g.Fronts form ts) :
    String.join (ts.map Tree.text) = String.join (form.map g.displaySymbol) := by
  induction h with
  | nil => rfl
  | empty _ ih =>
    rw [List.map_cons, String.join_cons, ih]
    exact String.empty_append
  | cons hroot _ ih => rw [List.map_cons, List.map_cons, String.join_cons, String.join_cons, ih,
    hroot.text_eq]

theorem Fronts.join_eq_empty_iff (hg : g.Named) (h : g.Fronts form ts) :
    String.join (form.map g.displaySymbol) = "" ↔ form = [] := by
  induction h with
  | nil => exact iff_of_true rfl rfl
  | empty _ ih => exact ih
  | cons hroot _ _ =>
    refine iff_of_false (fun hempty => ?_) (List.cons_ne_nil _ _)
    rw [List.map_cons, String.join_cons, String.append_eq_empty_iff] at hempty
    exact hroot.displaySymbol_ne hg hempty.1

theorem Fronts.formOf_eq (hg : g.Named) (h : g.Fronts form ts) :
    Tree.formOf ts = g.displayBody form := by
  rw [Tree.formOf_eq, h.join_text_eq, displayBody]
  congr 1
  rw [String.isEmpty_iff, h.join_eq_empty_iff hg, List.isEmpty_iff]

theorem join_word (g : Grammar) (w : List Char) :
    String.join ((word w).map g.displaySymbol) = String.ofList w := by
  induction w with
  | nil => rfl
  | cons c w ih =>
    rw [word, List.map_cons, List.map_cons, String.join_cons, ← word, ih]
    apply String.toList_injective
    simp [displaySymbol]

theorem displayBody_word (g : Grammar) (w : List Char) :
    g.displayBody (word w) = if w = [] then emptyText else String.ofList w := by
  rw [displayBody, join_word]
  congr 1
  rw [List.isEmpty_iff, word, List.map_eq_nil_iff]

/-! Derivations. -/

theorem named_of_build {d : Definition} (h : d.build = .ok g) : g.Named := fun p hp =>
  Definition.name_ne_empty_of_build h ((Definition.wellFormed_of_build h).head_lt p hp)

theorem isParse_of_parseTree (h : g.parseTree w = .ok (some t)) : g.IsParse t w := by
  obtain ⟨c, hc, h⟩ := bind_eq_ok_iff.1 h
  have hextends := c.extends_complete
  rw [mapError_eq_ok_iff, Chart.parseTree] at h
  split at h
  · obtain ⟨t', ht', heq⟩ := map_eq_ok_iff.1 h
    cases heq
    obtain ⟨hspells, hyield⟩ := Chart.spells_of_build (Nat.zero_le _) (Nat.le_refl _) ht'
    obtain ⟨-, rfl⟩ := Chart.ofInput_eq_ok (mapError_eq_ok_iff.1 hc)
    rw [hextends.grammar] at hspells
    rw [hextends.word_eq, hextends.length_eq] at hyield
    exact ⟨hspells, hyield.trans (part_full w)⟩
  · cases h

/-- The leftmost derivation of a tree that parsing returns. It has a form for each node and one
more, and each of its texts shows a form that comes from the one before it by replacing the leftmost
nonterminal. -/
theorem leftmostDerivation_derives {d : Definition}
    (hd : d.build = .ok g) (treeDepth chartCells : Nat)
    (ht : (g.withLimits treeDepth chartCells).parseTree w = .ok (some t)) :
    let limited := g.withLimits treeDepth chartCells
    t.leftmostDerivation.length = t.nodeCount + 1 ∧
    t.leftmostDerivation.head? = some limited.startSymbol ∧
    t.leftmostDerivation.getLast? = some (if w = [] then emptyText else String.ofList w) ∧
    ∃ forms : List (List Symbol), forms.map limited.displayBody = t.leftmostDerivation ∧
      forms.IsChain limited.RewritesLeftmost ∧ forms.head? = some [.nonterminal 0] ∧
      forms.getLast? = some (word w) := by
  intro limited
  have hnamed : limited.Named := named_of_build (g := g) hd
  obtain ⟨hspells, rfl⟩ := isParse_of_parseTree ht
  have hcount : Tree.nodeCountOf [t] = t.nodeCount := Nat.add_zero _
  have hleaves : Tree.yieldOf [t] = t.yield := List.append_nil _
  obtain ⟨hlength, forms, hforms, hchain, hhead, hlast⟩ := hspells.fronts.frontiers hcount
  rw [hleaves] at hlast
  have htexts : forms.map limited.displayBody = t.leftmostDerivation := by
    rw [Tree.leftmostDerivation, ← List.forall₂_eq_eq_eq, List.forall₂_map_left_iff,
      List.forall₂_map_right_iff]
    exact hforms.imp fun form frontier hfronts => (hfronts.formOf_eq hnamed).symm
  have hstart : limited.displayBody [.nonterminal 0] = limited.startSymbol := by
    rw [displayBody, List.map_singleton, String.join_cons, String.join_nil, String.append_empty]
    rfl
  refine ⟨?_, ?_, ?_, forms, htexts, hchain, hhead, hlast⟩
  · rw [Tree.leftmostDerivation, List.length_map, hlength]
  · rw [← htexts, List.head?_map, hhead, Option.map_some, hstart]
  · rw [← htexts, List.getLast?_map, hlast, Option.map_some, displayBody_word]

/-- Two nonterminals side by side, the first of them with the empty body: the mark at its leaf stays
in the frontier and shows in no text. -/
theorem leftmostDerivation_derives_empty_body :
    let d : Definition := ⟨[("S", ["AB"]), ("A", ["aA", ""]), ("B", ["b"])]⟩
    ∃ g t, d.build = .ok g ∧ (g.withLimits 5 100).parseTree ['a', 'b'] = .ok (some t) ∧
      t.leftmostDerivation.length = t.nodeCount + 1 ∧ t.leftmostDerivation.head? = some "S" ∧
      t.leftmostDerivation.getLast? = some "ab" := by
  intro d
  let g : Grammar := ⟨#["S", "A", "B"],
    [⟨0, [.nonterminal 1, .nonterminal 2]⟩, ⟨1, [.terminal 'a', .nonterminal 1]⟩, ⟨1, []⟩,
      ⟨2, [.terminal 'b']⟩], 10000, 4194304⟩
  have hd : d.build = .ok g := by decide +kernel
  have haccepts : (g.withLimits 5 100).accepts ['a', 'b'] = .ok true := by decide +kernel
  obtain ⟨result, ht, hsome⟩ := map_eq_ok_iff.1 haccepts
  obtain ⟨t, rfl⟩ := Option.isSome_iff_exists.1 hsome
  obtain ⟨hlength, hhead, hlast, -⟩ := leftmostDerivation_derives hd 5 100 ht
  exact ⟨g, t, hd, ht, hlength, hhead, hlast⟩

end Grammar

end Acceptors
