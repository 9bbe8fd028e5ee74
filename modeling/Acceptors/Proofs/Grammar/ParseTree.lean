import Mathlib.Tactic.Common
import Acceptors.Grammar.Tree
import Acceptors.Proofs.Grammar.Derivation

/-! Parse trees of a grammar. They are the derivation trees with the names of the nonterminals at
the nodes and a leaf for each empty body, and they are as deep as the derivation trees are high. -/

namespace Acceptors

def Tree.greatestDepth : List Tree → Nat
  | [] => 0
  | t :: ts => max t.depth (greatestDepth ts)

theorem Tree.depthOf_eq {ts : List Tree} (h : ts ≠ []) : depthOf ts = greatestDepth ts + 1 := by
  induction ts with
  | nil => exact absurd rfl h
  | cons t ts ih =>
    rw [depthOf, greatestDepth]
    cases ts with
    | nil => simp [depthOf, greatestDepth]
    | cons u us => rw [ih (List.cons_ne_nil u us), Nat.succ_max_succ]

namespace Grammar

variable {g : Grammar} {s : Symbol} {form : List Symbol} {t : Tree} {ts : List Tree} {w : List Char}
  {a k : Nat}

/-- Parse trees side by side, and the form that their roots spell. The children of a node spell a
body of its nonterminal, or are a single mark for the empty body. -/
inductive Spells (g : Grammar) : List Symbol → List Tree → Prop
  | nil : Spells g [] []
  | terminal (c : Char) {form : List Symbol} {ts : List Tree} (rest : Spells g form ts) :
      Spells g (.terminal c :: form) (.leaf c :: ts)
  | empty {a : Nat} {form : List Symbol} {ts : List Tree} (h : ⟨a, []⟩ ∈ g.productions)
      (rest : Spells g form ts) :
      Spells g (.nonterminal a :: form) (.node (g.name a) [.empty] :: ts)
  | node {a : Nat} {body form : List Symbol} {children ts : List Tree}
      (h : ⟨a, body⟩ ∈ g.productions) (hbody : body ≠ []) (hchildren : Spells g body children)
      (rest : Spells g form ts) :
      Spells g (.nonterminal a :: form) (.node (g.name a) children :: ts)

structure IsParse (g : Grammar) (t : Tree) (w : List Char) : Prop where
  spells : g.Spells [.nonterminal 0] [t]
  yield : t.yield = w

theorem Spells.cons (h : g.Spells [s] [t]) (hrest : g.Spells form ts) :
    g.Spells (s :: form) (t :: ts) := by
  cases h with
  | terminal c _ => exact .terminal c hrest
  | empty h _ => exact .empty h hrest
  | node h hbody hchildren _ => exact .node h hbody hchildren hrest

theorem Spells.ne_nil (h : g.Spells form ts) (hform : form ≠ []) : ts ≠ [] := by
  cases h with
  | nil => exact absurd rfl hform
  | terminal c _ => exact List.cons_ne_nil _ _
  | empty _ _ => exact List.cons_ne_nil _ _
  | node _ _ _ _ => exact List.cons_ne_nil _ _

theorem IsParse.symbol_eq (h : g.IsParse t w) : t.symbol = g.startSymbol := by
  cases h.spells with
  | empty _ _ => rfl
  | node _ _ _ _ => rfl

theorem Spells.derivesWithin (h : g.Spells form ts) :
    g.DerivesWithin (Tree.greatestDepth ts) form (Tree.yieldOf ts) := by
  induction h with
  | nil => exact derivesWithin_nil.2 rfl
  | terminal c rest ih =>
    exact derivesWithin_terminal.2 ⟨_, rfl, ih.mono (Nat.le_max_right _ _)⟩
  | empty h rest ih =>
    refine derivesWithin_nonterminal.2 ⟨[], _, rfl, ?_, ih.mono (Nat.le_max_right _ _)⟩
    exact (derivesWithin_tree.2 ⟨[], h, derivesWithin_nil.2 rfl⟩).mono (Nat.le_max_left 1 _)
  | node h hbody hchildren rest ihc ihr =>
    refine derivesWithin_nonterminal.2 ⟨_, _, rfl, ?_, ihr.mono (Nat.le_max_right _ _)⟩
    refine (derivesWithin_tree.2 ⟨_, h, ihc⟩).mono (Nat.le_trans ?_ (Nat.le_max_left _ _))
    exact Nat.le_of_eq (Tree.depthOf_eq (hchildren.ne_nil hbody)).symm

theorem DerivesWithin.exists_spells (h : g.DerivesWithin k form w) :
    ∃ ts, g.Spells form ts ∧ Tree.yieldOf ts = w ∧ Tree.greatestDepth ts ≤ k := by
  obtain ⟨f, hf⟩ := h
  induction f generalizing k with
  | nil => exact ⟨[], .nil, rfl, Nat.zero_le k⟩
  | terminal c rest ih =>
    obtain ⟨ts, hts, rfl, hdepth⟩ := ih hf
    exact ⟨.leaf c :: ts, .terminal c hts, rfl, Nat.max_le.2 ⟨Nat.zero_le k, hdepth⟩⟩
  | @node a body form u v h children rest ihc ihr =>
    obtain ⟨hchildren, hrest⟩ := Nat.max_le.1 hf
    obtain ⟨ts, hts, rfl, hdepth⟩ := ihr hrest
    cases body with
    | nil =>
      cases children
      exact ⟨.node (g.name a) [.empty] :: ts, .empty h hts, rfl, Nat.max_le.2 ⟨hchildren, hdepth⟩⟩
    | cons s body =>
      obtain ⟨us, hus, rfl, husdepth⟩ := ihc (Nat.le_sub_one_of_lt hchildren)
      have hbody : s :: body ≠ [] := List.cons_ne_nil s body
      refine ⟨.node (g.name a) us :: ts, .node h hbody hus hts, rfl, Nat.max_le.2 ⟨?_, hdepth⟩⟩
      rw [Tree.depth, Tree.depthOf_eq (hus.ne_nil hbody)]
      omega

theorem derivesWithin_iff_exists_tree :
    g.DerivesWithin k [.nonterminal a] w ↔
      ∃ t, g.Spells [.nonterminal a] [t] ∧ t.yield = w ∧ t.depth ≤ k := by
  constructor
  · intro h
    obtain ⟨ts, hts, rfl, hdepth⟩ := h.exists_spells
    obtain ⟨t, rfl⟩ : ∃ t, ts = [t] := by
      cases hts with
      | empty _ rest => cases rest; exact ⟨_, rfl⟩
      | node _ _ _ rest => cases rest; exact ⟨_, rfl⟩
    exact ⟨t, hts, (List.append_nil _).symm, (Nat.max_le.1 hdepth).1⟩
  · rintro ⟨t, ht, rfl, hdepth⟩
    have h := ht.derivesWithin
    rw [Tree.yieldOf, Tree.yieldOf, List.append_nil] at h
    exact h.mono (Nat.max_le.2 ⟨hdepth, Nat.zero_le k⟩)

theorem derives_iff_exists_parse :
    g.Derives [.nonterminal 0] (word w) ↔ ∃ t, g.IsParse t w := by
  rw [derives_word_iff]
  constructor
  · rintro ⟨k, h⟩
    obtain ⟨t, ht, hyield, _⟩ := derivesWithin_iff_exists_tree.1 h
    exact ⟨t, ht, hyield⟩
  · rintro ⟨t, ht⟩
    exact ⟨t.depth, derivesWithin_iff_exists_tree.2 ⟨t, ht.spells, ht.yield, Nat.le_refl _⟩⟩

end Grammar

end Acceptors
