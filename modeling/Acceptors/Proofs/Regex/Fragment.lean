import Acceptors.Proofs.Nfa.Definition
import Acceptors.Proofs.Regex.Language
import Acceptors.Proofs.Regex.Region
import Acceptors.Regex.Basic

/-! The automaton of an expression recognizes the language of the expression. Each fragment adds a
region to the automaton built so far, and the edges of that region are all that it adds. -/

namespace Acceptors.Regex

open scoped Computability

def Adds (base b : Builder) (entry : Nat) (exits : Set Nat) (language : Language Char) : Prop :=
  ∃ links, (∀ s label t, (s, ⟨label, t⟩) ∈ b.edges ↔ links s label t ∨
    (s, ⟨label, t⟩) ∈ base.edges) ∧
    Region base.size b.size links entry exits language

variable {base b b' : Builder} {s t entry second x y : Nat} {exits : Set Nat} {K L : Language Char}
  {label : Option Char} {w : List Char} {e : Expr}

theorem Builder.mem_connect_iff {source target : Nat} {l : Option Char} :
    (s, ⟨label, t⟩) ∈ (b.connect source l target).edges ↔
      (s = source ∧ label = l ∧ t = target) ∨ (s, ⟨label, t⟩) ∈ b.edges := by
  rw [connect, List.mem_cons, Prod.mk.injEq, Edge.mk.injEq]

theorem Builder.size_join {sources : List Nat} {target : Nat} :
    (b.join sources target).size = b.size := by
  induction sources generalizing b with
  | nil => rfl
  | cons source sources ih => exact ih

theorem Builder.mem_join_iff {sources : List Nat} {target : Nat} :
    (s, ⟨label, t⟩) ∈ (b.join sources target).edges ↔
      (s ∈ sources ∧ label = none ∧ t = target) ∨ (s, ⟨label, t⟩) ∈ b.edges := by
  induction sources generalizing b with
  | nil => simp [join]
  | cons source sources ih =>
    rw [join, List.foldl_cons, ← join, ih, mem_connect_iff, List.mem_cons]
    tauto

namespace Adds

theorem start (b : Builder) : Adds b b.addState b.size ∅ 0 :=
  ⟨_, fun _ _ _ => by rw [false_or, Builder.addState], region_start b.size⟩

theorem single (b : Builder) (label : Option Char) :
    Adds b (Fragment.single b label).1 (Fragment.single b label).2.entry
      {(Fragment.single b label).2.exit} {label.toList} :=
  ⟨_, fun _ _ _ => Builder.mem_connect_iff, region_single b.size label⟩

theorem chain (hl : Adds base b entry {x} K) (hr : Adds b b' second {y} L) :
    Adds base (b'.connect x none second) entry {y} (K * L) := by
  obtain ⟨left, hleft, hl⟩ := hl
  obtain ⟨right, hright, hr⟩ := hr
  refine ⟨_, fun s label t => ?_, hl.chain hr⟩
  rw [Builder.mem_connect_iff, hright, hleft, attach, link]
  tauto

theorem branch (hl : Adds base b entry exits K) (hr : Adds b b' second {y} L) :
    Adds base (b'.connect entry none second) entry (insert y exits) (K + L) := by
  obtain ⟨left, hleft, hl⟩ := hl
  obtain ⟨right, hright, hr⟩ := hr
  refine ⟨_, fun s label t => ?_, hl.branch hr⟩
  rw [Builder.mem_connect_iff, hright, hleft, attach, link]
  tauto

theorem join {sources : List Nat} (h : Adds base b entry {x | x ∈ sources} L) :
    Adds base (b.addState.join sources b.size) entry {b.size} L := by
  obtain ⟨links, hlinks, hr⟩ := h
  have hsize : (b.addState.join sources b.size).size = b.size + 1 := Builder.size_join
  refine ⟨_, fun s label t => ?_, hsize ▸ hr.join⟩
  rw [Builder.mem_join_iff, Builder.addState, hlinks, Set.mem_ofPred_eq]
  tauto

theorem star (h : Adds base.addState b second {x} L) :
    Adds base ((((b.addState.connect base.size none second).connect x none second).connect x none
      b.size).connect base.size none b.size) base.size {b.size} L∗ := by
  obtain ⟨links, hlinks, hr⟩ := h
  refine ⟨_, fun s label t => ?_, hr.star⟩
  simp only [Builder.mem_connect_iff, Builder.addState, hlinks, loop, link]
  grind

end Adds

mutual

theorem adds_build : ∀ (b : Builder) (e : Expr),
    Adds b (Fragment.build b e).1 (Fragment.build b e).2.entry
    {(Fragment.build b e).2.exit} e.language
  | b, .empty => .single b none
  | b, .literal c => .single b (some c)
  | b, .reference _ target => adds_build b target
  | b, .concat [] => .single b none
  | b, .concat (e :: items) => adds_buildAfter items (adds_build b e)
  | b, .union branches => by
    have h := adds_buildBranches branches (.start b)
    rw [Set.union_empty, zero_add] at h
    exact h.join
  | b, .star body => (adds_build b.addState body).star

theorem adds_buildAfter : ∀ {base b : Builder} {entry x : Nat} {K : Language Char}
    (items : List Expr),
    Adds base b entry {x} K → Adds base (Fragment.buildAfter b x items).1 entry
      {(Fragment.buildAfter b x items).2} (K * Expr.productOf items)
  | _, _, _, _, _, [], h => by
    rw [Fragment.buildAfter, Expr.productOf, mul_one]
    exact h
  | _, b, _, _, _, e :: items, h => by
    rw [Fragment.buildAfter, Expr.productOf, ← mul_assoc]
    exact adds_buildAfter items (h.chain (adds_build b e))

theorem adds_buildBranches : ∀ {base b : Builder} {entry : Nat} {exits : Set Nat}
    {K : Language Char} (branches : List Expr), Adds base b entry exits K →
      Adds base (Fragment.buildBranches b entry branches).1 entry
        ({x | x ∈ (Fragment.buildBranches b entry branches).2} ∪ exits) (K + Expr.sumOf branches)
  | _, _, _, _, _, [], h => by
    have hnone : {x : Nat | x ∈ ([] : List Nat)} = ∅ := by simp
    rw [Fragment.buildBranches, Expr.sumOf, add_zero, hnone, Set.empty_union]
    exact h
  | _, b, entry, exits, _, e :: branches, h => by
    have hrest := adds_buildBranches branches (h.branch (adds_build b e))
    rw [add_assoc, Set.union_insert, ← Set.insert_union] at hrest
    rw [Fragment.buildBranches, Expr.sumOf]
    have hcons : ∀ (x : Nat) (xs : List Nat), {y | y ∈ x :: xs} = insert x {y | y ∈ xs} :=
      fun x xs => Set.ext fun y => List.mem_cons
    rw [hcons]
    exact hrest

end

theorem exists_region_toNfa (e : Expr) : ∃ links exit,
    Region 0 e.toNfa.states.size links e.toNfa.start {exit} e.language ∧
      (∀ s label t, e.toNfa.Moves s label t ↔ links s label t) ∧
      ∀ s, e.toNfa.accepting.getD s false = true ↔ s = exit := by
  obtain ⟨links, hlinks, hr⟩ := adds_build .empty e
  have hsize : e.toNfa.states.size = (Fragment.build .empty e).1.size := Array.size_ofFn
  refine ⟨links, (Fragment.build .empty e).2.exit, hsize ▸ hr, fun s label t => ?_, fun s => ?_⟩
  · rw [Nfa.Moves, Nfa.edges, Expr.toNfa, Nfa.mem_rowsOf_iff, hlinks]
    constructor
    · rintro ⟨_, h | h⟩
      · exact h
      · exact absurd h List.not_mem_nil
    · intro h
      exact ⟨(hr.source_bounds s label t h).2, .inl h⟩
  · have hexit := (hr.exit_bounds _ rfl).2
    rw [Expr.toNfa, Array.getD_eq_getD_getElem?, Array.getElem?_ofFn]
    split
    · rw [Option.getD_some, beq_iff_eq]
    · rw [Option.getD_none]
      constructor
      · intro h
        cases h
      · rintro rfl
        omega

namespace Expr

theorem wellFormed_toNfa (e : Expr) : e.toNfa.WellFormed := by
  obtain ⟨links, exit, hr, hmoves, _⟩ := exists_region_toNfa e
  exact ⟨hr.entry_bounds.2, fun s label t h =>
    (hr.target_bounds s label t ((hmoves s label t).1 h)).2⟩

theorem recognizes_toNfa_iff (e : Expr) : e.toNfa.recognizes w = true ↔ w ∈ e.language := by
  obtain ⟨links, exit, hr, hmoves, haccepting⟩ := exists_region_toNfa e
  have hlinks : e.toNfa.Moves = links := funext fun s => funext fun label => funext fun t =>
    propext (hmoves s label t)
  rw [Nfa.recognizes_iff e.wellFormed_toNfa, hr.mem_iff, hlinks]
  constructor
  · rintro ⟨s, hp, hs⟩
    obtain rfl := (haccepting s).1 hs
    exact hp
  · intro hp
    exact ⟨exit, hp, (haccepting exit).2 rfl⟩

end Expr

theorem accepts_eq (r : Regex) (w : List Char) : r.accepts w = r.nfa.recognizes w :=
  r.nfa.acceptsFrom_eq r.nfa.startSet w

/-- A compiled expression accepts the words of its language, whatever characters they are made of,
and its traces say the same. -/
theorem accepts_ofExpr_iff_mem_language (bindings : List (String × Expr)) (e : Expr)
    (w : List Char) :
    ((ofExpr bindings e).accepts w = true ↔ w ∈ e.language) ∧
      ((ofExpr bindings e).trace w).accepted = (ofExpr bindings e).accepts w ∧
      ((∃ c ∈ w, c ∉ e.symbols) → (ofExpr bindings e).accepts w = false) := by
  have haccepts : (ofExpr bindings e).accepts w = true ↔ w ∈ e.language := by
    rw [accepts_eq]
    exact e.recognizes_toNfa_iff
  refine ⟨haccepts, (accepts_eq (ofExpr bindings e) w).symm, fun ⟨c, hc, hsymbols⟩ => ?_⟩
  rw [Bool.eq_false_iff]
  exact fun h => hsymbols (Expr.mem_symbols_of_mem_language (haccepts.1 h) hc)

theorem accepts_ofExpr_star_foreign :
    'b' ∉ (Expr.star (.literal 'a')).symbols ∧
      (ofExpr [] (.star (.literal 'a'))).accepts ['a', 'b'] = false := by
  have hb : 'b' ∉ (Expr.star (.literal 'a')).symbols := by decide
  exact ⟨hb, (accepts_ofExpr_iff_mem_language [] (.star (.literal 'a')) ['a', 'b']).2.2
    ⟨'b', by decide, hb⟩⟩

end Acceptors.Regex
