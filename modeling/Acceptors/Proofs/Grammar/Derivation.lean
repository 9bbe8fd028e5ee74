import Mathlib.Logic.Relation
import Mathlib.Tactic.Common
import Acceptors.Grammar.Basic

/-! What a grammar derives. Derivations rewrite sentential forms, derivation trees show what became
of each symbol, and a form derives a word exactly when there are trees for its symbols whose leaves
spell the word. -/

namespace Acceptors.Grammar

open Relation (ReflTransGen)

variable {g : Grammar} {form x y : List Symbol} {u v w : List Char} {a k : Nat}

inductive Rewrites (g : Grammar) : List Symbol → List Symbol → Prop
  | expand (before after : List Symbol) {a : Nat} {body : List Symbol}
      (h : ⟨a, body⟩ ∈ g.productions) :
      Rewrites g (before ++ .nonterminal a :: after) (before ++ body ++ after)

def Derives (g : Grammar) : List Symbol → List Symbol → Prop := ReflTransGen g.Rewrites

def word (w : List Char) : List Symbol := w.map .terminal

/-- Derivation trees side by side. Their roots spell a form and their leaves a word. -/
inductive Forest (g : Grammar) : List Symbol → List Char → Type
  | nil : Forest g [] []
  | terminal (c : Char) {form : List Symbol} {w : List Char} (rest : Forest g form w) :
      Forest g (.terminal c :: form) (c :: w)
  | node {a : Nat} {body form : List Symbol} {u v : List Char}
      (h : ⟨a, body⟩ ∈ g.productions) (children : Forest g body u) (rest : Forest g form v) :
      Forest g (.nonterminal a :: form) (u ++ v)

def Forest.height {g : Grammar} {form : List Symbol} {w : List Char} : Forest g form w → Nat
  | nil => 0
  | terminal _ rest => rest.height
  | node _ children rest => max (children.height + 1) rest.height

abbrev DerivationTree (g : Grammar) (a : Nat) (w : List Char) : Type :=
  Forest g [.nonterminal a] w

def DerivesWithin (g : Grammar) (k : Nat) (form : List Symbol) (w : List Char) : Prop :=
  ∃ f : Forest g form w, f.height ≤ k

theorem mem_bodies_iff {body : List Symbol} : body ∈ g.bodies a ↔ ⟨a, body⟩ ∈ g.productions := by
  rw [bodies, List.mem_filterMap]
  constructor
  · rintro ⟨⟨head, body'⟩, hp, h⟩
    rw [Option.ite_none_right_eq_some] at h
    obtain ⟨rfl, h⟩ := h
    cases h
    exact hp
  · intro hp
    exact ⟨_, hp, if_pos rfl⟩

theorem DerivesWithin.mono {m : Nat} (h : g.DerivesWithin k form w) (hk : k ≤ m) :
    g.DerivesWithin m form w := by
  obtain ⟨f, hf⟩ := h
  exact ⟨f, Nat.le_trans hf hk⟩

theorem derivesWithin_nil : g.DerivesWithin k [] w ↔ w = [] := by
  constructor
  · rintro ⟨f, _⟩
    cases f
    rfl
  · rintro rfl
    exact ⟨.nil, Nat.zero_le k⟩

theorem derivesWithin_terminal {c : Char} :
    g.DerivesWithin k (.terminal c :: form) w ↔ ∃ v, w = c :: v ∧ g.DerivesWithin k form v := by
  constructor
  · rintro ⟨f, hf⟩
    cases f with
    | terminal _ rest => exact ⟨_, rfl, rest, hf⟩
  · rintro ⟨v, rfl, f, hf⟩
    exact ⟨.terminal c f, hf⟩

theorem derivesWithin_nonterminal :
    g.DerivesWithin k (.nonterminal a :: form) w ↔
      ∃ u v, w = u ++ v ∧ g.DerivesWithin k [.nonterminal a] u ∧ g.DerivesWithin k form v := by
  constructor
  · rintro ⟨f, hf⟩
    cases f with
    | @node _ body _ u v h children rest =>
      rw [Forest.height, Nat.max_le] at hf
      have ht : g.DerivesWithin k [.nonterminal a] (u ++ []) :=
        ⟨.node h children .nil, Nat.max_le.2 ⟨hf.1, Nat.zero_le k⟩⟩
      rw [List.append_nil] at ht
      exact ⟨u, v, rfl, ht, rest, hf.2⟩
  · rintro ⟨u, v, rfl, ⟨t, ht⟩, f, hf⟩
    cases t with
    | node h children rest =>
      cases rest
      rw [Forest.height, Nat.max_le] at ht
      rw [List.append_nil]
      exact ⟨.node h children f, Nat.max_le.2 ⟨ht.1, hf⟩⟩

theorem derivesWithin_tree :
    g.DerivesWithin (k + 1) [.nonterminal a] w ↔
      ∃ body, ⟨a, body⟩ ∈ g.productions ∧ g.DerivesWithin k body w := by
  constructor
  · rintro ⟨t, ht⟩
    cases t with
    | @node _ body _ u _ h children rest =>
      cases rest
      rw [Forest.height, Nat.max_le] at ht
      rw [List.append_nil]
      exact ⟨body, h, children, Nat.le_of_succ_le_succ ht.1⟩
  · rintro ⟨body, h, f, hf⟩
    have ht : g.DerivesWithin (k + 1) [.nonterminal a] (w ++ []) :=
      ⟨.node h f .nil, Nat.max_le.2 ⟨Nat.succ_le_succ hf, Nat.zero_le _⟩⟩
    rwa [List.append_nil] at ht

theorem not_derivesWithin_zero : ¬ g.DerivesWithin 0 [.nonterminal a] w := by
  rintro ⟨t, ht⟩
  cases t with
  | node h children rest =>
    rw [Forest.height, Nat.max_le] at ht
    omega

theorem Rewrites.append (h : g.Rewrites x y) (before after : List Symbol) :
    g.Rewrites (before ++ x ++ after) (before ++ y ++ after) := by
  cases h with
  | expand left right h =>
    simpa only [List.append_assoc, List.cons_append] using
      Rewrites.expand (before ++ left) (right ++ after) h

theorem Derives.append (h : g.Derives x y) (before after : List Symbol) :
    g.Derives (before ++ x ++ after) (before ++ y ++ after) :=
  ReflTransGen.lift (fun z => before ++ z ++ after)
    (fun _ _ hs => Rewrites.append hs before after) _ _ h

theorem Forest.derives (f : Forest g form w) : g.Derives form (word w) := by
  induction f with
  | nil => exact .refl
  | terminal c rest ih =>
    simpa only [word, List.map_cons, List.append_nil, List.singleton_append] using
      ih.append [.terminal c] []
  | @node a body form u v h children rest ihc ihr =>
    have hroot : g.Derives (.nonterminal a :: form) (body ++ form) :=
      .single (.expand [] form h)
    have hbody : g.Derives (body ++ form) (word u ++ form) := ihc.append [] form
    have hrest : g.Derives (word u ++ form) (word (u ++ v)) := by
      simpa only [word, List.map_append, List.append_nil] using ihr.append (word u) []
    exact (hroot.trans hbody).trans hrest

theorem Forest.ofWord (w : List Char) : Nonempty (Forest g (word w) w) := by
  induction w with
  | nil => exact ⟨.nil⟩
  | cons c w ih => exact ih.map (.terminal c)

theorem Forest.join (f : Forest g x u) (h : Nonempty (Forest g y v)) :
    Nonempty (Forest g (x ++ y) (u ++ v)) := by
  induction f with
  | nil => exact h
  | terminal c rest ih => exact ih.map (.terminal c)
  | node hp children rest _ ih =>
    rw [List.append_assoc]
    exact ih.map (.node hp children)

theorem Forest.split (f : Forest g form w) (h : form = x ++ y) :
    ∃ u v, w = u ++ v ∧ Nonempty (Forest g x u) ∧ Nonempty (Forest g y v) := by
  induction f generalizing x with
  | nil =>
    obtain ⟨rfl, rfl⟩ := List.append_eq_nil_iff.1 h.symm
    exact ⟨[], [], rfl, ⟨.nil⟩, ⟨.nil⟩⟩
  | @terminal c form w rest ih =>
    cases x with
    | nil =>
      subst h
      exact ⟨[], c :: w, rfl, ⟨.nil⟩, ⟨.terminal c rest⟩⟩
    | cons s x =>
      obtain ⟨rfl, hx⟩ := List.cons.inj h
      obtain ⟨u, v, rfl, hu, hv⟩ := ih hx
      exact ⟨c :: u, v, rfl, hu.map (.terminal c), hv⟩
  | @node a body form u v hp children rest _ ih =>
    cases x with
    | nil =>
      subst h
      exact ⟨[], u ++ v, rfl, ⟨.nil⟩, ⟨.node hp children rest⟩⟩
    | cons s x =>
      obtain ⟨rfl, hx⟩ := List.cons.inj h
      obtain ⟨v, z, rfl, hv, hz⟩ := ih hx
      exact ⟨u ++ v, z, (List.append_assoc u v z).symm, hv.map (.node hp children), hz⟩

theorem Rewrites.forest (h : g.Rewrites x y) (f : Forest g y w) : Nonempty (Forest g x w) := by
  cases h with
  | @expand before after a body h =>
    obtain ⟨u, z, rfl, ⟨fu⟩, ⟨fz⟩⟩ := f.split (List.append_assoc before body after)
    obtain ⟨v, z, rfl, ⟨fv⟩, ⟨fz⟩⟩ := fz.split rfl
    exact fu.join ⟨.node h fv fz⟩

theorem derives_word_iff : g.Derives form (word w) ↔ ∃ k, g.DerivesWithin k form w := by
  constructor
  · intro h
    suffices hf : Nonempty (Forest g form w) by
      obtain ⟨f⟩ := hf
      exact ⟨f.height, f, Nat.le_refl _⟩
    induction h using ReflTransGen.head_induction_on with
    | refl => exact Forest.ofWord w
    | head hs _ ih =>
      obtain ⟨f⟩ := ih
      exact hs.forest f
  · rintro ⟨_, f, _⟩
    exact f.derives

end Acceptors.Grammar
