import Mathlib.Data.List.FinRange
import Mathlib.Tactic.Common
import Std.Data.String.ToNat
import Acceptors.Proofs.Alphabet
import Acceptors.Proofs.Regex.Fragment
import Acceptors.Proofs.StateTable

/-! What the compilation of an expression adds to an automaton under construction. A fragment can be
built in the midst of any compilation: it touches nothing that was there before, no edge leads to
its entry and none from its exit, so it can be glued to others by empty moves. The automaton of the
whole expression is one such fragment. -/

namespace Acceptors

namespace Alphabet

variable {symbols : List Char}

theorem ofList_sublist (symbols : List Char) : (ofList symbols).symbols.Sublist symbols := by
  suffices h : ∀ a : Alphabet, ∃ rest, (symbols.foldl insert a).symbols = a.symbols ++ rest ∧
      rest.Sublist symbols by
    obtain ⟨rest, hrest, hsublist⟩ := h empty
    rw [ofList, hrest]
    exact hsublist
  induction symbols with
  | nil => exact fun a => ⟨[], (List.append_nil _).symm, .refl _⟩
  | cons c symbols ih =>
    intro a
    obtain ⟨rest, hrest, hsublist⟩ := ih (a.insert c)
    by_cases hc : c ∈ a.symbols
    · refine ⟨rest, ?_, hsublist.cons c⟩
      rw [List.foldl_cons, hrest, insert, dif_pos hc]
    · refine ⟨c :: rest, ?_, hsublist.cons_cons c⟩
      rw [List.foldl_cons, hrest, symbols_insert_of_not_mem hc, List.append_assoc]
      rfl

theorem ofList_pairwise_lt (h : symbols.Pairwise (· ≤ ·)) :
    (ofList symbols).symbols.Pairwise (· < ·) :=
  (h.sublist (ofList_sublist symbols)).imp₂ (fun _ _ => Std.lt_of_le_of_ne) (ofList symbols).nodup

end Alphabet

namespace Regex

variable {base b : Builder} {f : Fragment} {s t entry exit : Nat} {exits : Set Nat}
    {L : Language Char} {label : Option Char} {sources : List Nat} {e root : Expr} {c : Char}

namespace Builder

inductive Made : Builder → Prop
  | empty : Made .empty
  | addState {b : Builder} (h : Made b) : Made b.addState
  | connect {b : Builder} {s t : Nat} (h : Made b) (hs : s < b.size) (label : Option Char)
      (ht : t < b.size) :
    Made (b.connect s label t)

theorem Made.edge_lt (h : b.Made) (hedge : (s, ⟨label, t⟩) ∈ b.edges) :
    s < b.size ∧ t < b.size := by
  induction h with
  | empty => cases hedge
  | addState _ ih =>
    obtain ⟨hs, ht⟩ := ih hedge
    exact ⟨Nat.lt_succ_of_lt hs, Nat.lt_succ_of_lt ht⟩
  | connect _ hs l ht ih =>
    rcases mem_connect_iff.1 hedge with ⟨rfl, -, rfl⟩ | hedge
    · exact ⟨hs, ht⟩
    · exact ih hedge

theorem Made.join (h : b.Made) (hs : ∀ s ∈ sources, s < b.size) (ht : t < b.size) :
    (b.join sources t).Made := by
  induction sources generalizing b with
  | nil => exact h
  | cons s sources ih =>
    obtain ⟨hs, hsources⟩ := List.forall_mem_cons.1 hs
    exact ih (h.connect hs none ht) hsources ht

def Reads (b : Builder) (c : Char) : Prop := ∃ s t, (s, ⟨some c, t⟩) ∈ b.edges

theorem reads_connect_iff : (b.connect s label t).Reads c ↔ label = some c ∨ b.Reads c := by
  simp only [Reads, mem_connect_iff, exists_or]
  refine or_congr_left ⟨fun h => ?_, fun h => ⟨s, t, rfl, h.symm, rfl⟩⟩
  obtain ⟨_, _, -, hlabel, -⟩ := h
  exact hlabel.symm

theorem reads_connect_none_iff : (b.connect s none t).Reads c ↔ b.Reads c := by
  rw [reads_connect_iff, or_iff_right (Option.some_ne_none c).symm]

theorem reads_join_iff : (b.join sources t).Reads c ↔ b.Reads c := by
  induction sources generalizing b with
  | nil => rfl
  | cons s sources ih => exact ih.trans reads_connect_none_iff

theorem reads_addState_iff : b.addState.Reads c ↔ b.Reads c := Iff.rfl

theorem mem_alphabet_iff : c ∈ b.alphabet ↔ b.Reads c := by
  rw [alphabet, Alphabet.mem_ofList_iff, List.mem_mergeSort, List.mem_filterMap]
  constructor
  · intro h
    obtain ⟨⟨s, ⟨label, t⟩⟩, hedge, rfl⟩ := h
    exact ⟨s, t, hedge⟩
  · intro h
    obtain ⟨s, t, hedge⟩ := h
    exact ⟨_, hedge, rfl⟩

theorem alphabet_pairwise_lt (b : Builder) : b.alphabet.symbols.Pairwise (· < ·) := by
  have htrans : ∀ c d e : Char, decide (c ≤ d) = true → decide (d ≤ e) = true →
      decide (c ≤ e) = true :=
    fun c d e hcd hde =>
      decide_eq_true (Char.le_trans (of_decide_eq_true hcd) (of_decide_eq_true hde))
  have htotal : ∀ c d : Char, (decide (c ≤ d) || decide (d ≤ c)) = true := fun c d => by
    rw [Bool.or_eq_true, decide_eq_true_iff, decide_eq_true_iff]
    exact Char.le_total c d
  exact Alphabet.ofList_pairwise_lt ((List.pairwise_mergeSort htrans htotal _).imp
    of_decide_eq_true)

end Builder

/-! Fragments. -/

theorem Adds.entry_bounds (h : Adds base b entry exits L) : base.size ≤ entry ∧ entry < b.size := by
  obtain ⟨links, -, hr⟩ := h
  exact hr.entry_bounds

theorem Adds.exit_bounds (h : Adds base b entry exits L) (hexit : exit ∈ exits) :
    base.size ≤ exit ∧ exit < b.size := by
  obtain ⟨links, -, hr⟩ := h
  exact hr.exit_bounds exit hexit

namespace Fragment

theorem size_lt_build (b : Builder) (e : Expr) : b.size < (build b e).1.size := by
  obtain ⟨hle, hlt⟩ := (adds_build b e).entry_bounds
  exact Nat.lt_of_le_of_lt hle hlt

theorem entry_lt_build (b : Builder) (e : Expr) : (build b e).2.entry < (build b e).1.size :=
  (adds_build b e).entry_bounds.2

theorem exit_lt_build (b : Builder) (e : Expr) : (build b e).2.exit < (build b e).1.size :=
  ((adds_build b e).exit_bounds rfl).2

theorem made_single (h : b.Made) (label : Option Char) : (single b label).1.Made :=
  h.addState.addState.connect (Nat.lt_succ_of_lt (Nat.lt_succ_self _)) label (Nat.lt_succ_self _)

mutual

theorem made_build : ∀ {b : Builder} (e : Expr), b.Made → (build b e).1.Made
  | _, .empty, h => made_single h none
  | _, .literal c, h => made_single h (some c)
  | _, .reference _ target, h => made_build target h
  | _, .concat [], h => made_single h none
  | b, .concat (e :: items), h => made_buildAfter items (made_build e h) (exit_lt_build b e)
  | b, .union branches, h => by
    have hadds := adds_buildBranches branches (.start b)
    refine (made_buildBranches branches h.addState (Nat.lt_succ_self _)).addState.join (fun s hs =>
      ?_)
      (Nat.lt_succ_self _)
    exact Nat.lt_succ_of_lt (hadds.exit_bounds (.inl hs)).2
  | b, .star body, h => by
    have hentry := Nat.lt_succ_of_lt (entry_lt_build b.addState body)
    have hexit := Nat.lt_succ_of_lt (exit_lt_build b.addState body)
    have hfirst := Nat.lt_succ_of_lt (Nat.lt_of_succ_lt (size_lt_build b.addState body))
    have hlast := Nat.lt_succ_self (build b.addState body).1.size
    have hbuilt := (made_build body h.addState).addState
    exact (((hbuilt.connect hfirst none hentry).connect hexit none hentry).connect hexit none
      hlast).connect hfirst none
      hlast

theorem made_buildAfter : ∀ {b : Builder} {exit : Nat} (items : List Expr), b.Made → exit < b.size →
    (buildAfter b exit items).1.Made
  | _, _, [], h, _ => h
  | b, _, e :: items, h, hexit =>
    made_buildAfter items
      ((made_build e h).connect (Nat.lt_trans hexit (size_lt_build b e)) none (entry_lt_build b e))
      (exit_lt_build b e)

theorem made_buildBranches : ∀ {b : Builder} {entry : Nat} (branches : List Expr), b.Made →
    entry < b.size →
    (buildBranches b entry branches).1.Made
  | _, _, [], h, _ => h
  | b, _, e :: branches, h, hentry => by
    have hlt := Nat.lt_trans hentry (size_lt_build b e)
    exact made_buildBranches branches ((made_build e h).connect hlt none (entry_lt_build b e)) hlt

end

theorem reads_single_iff : (single b label).1.Reads c ↔ label = some c ∨ b.Reads c :=
  Builder.reads_connect_iff

mutual

theorem reads_build_iff : ∀ {b : Builder} (e : Expr), (build b e).1.Reads c ↔
    c ∈ e.literals ∨ b.Reads c
  | _, .empty => by
    rw [build, Expr.literals, reads_single_iff, or_iff_right (Option.some_ne_none c).symm,
      or_iff_right List.not_mem_nil]
  | _, .literal d => by
    rw [build, Expr.literals, reads_single_iff, Option.some_inj, List.mem_singleton, eq_comm]
  | _, .reference _ target => by
    rw [build, Expr.literals, reads_build_iff target]
  | _, .concat [] => by
    rw [build, Expr.literals, Expr.literalsOf, reads_single_iff,
      or_iff_right (Option.some_ne_none c).symm, or_iff_right List.not_mem_nil]
  | _, .concat (e :: items) => by
    rw [build, Expr.literals, Expr.literalsOf, List.mem_append, reads_buildAfter_iff items,
      reads_build_iff e, or_left_comm, or_assoc]
  | _, .union branches => by
    rw [build, Expr.literals, Builder.reads_join_iff, Builder.reads_addState_iff,
      reads_buildBranches_iff branches, Builder.reads_addState_iff]
  | _, .star body => by
    simp only [build, Expr.literals, Builder.reads_connect_none_iff, Builder.reads_addState_iff,
      reads_build_iff body]

theorem reads_buildAfter_iff : ∀ {b : Builder} {exit : Nat} (items : List Expr),
    (buildAfter b exit items).1.Reads c ↔ c ∈ Expr.literalsOf items ∨ b.Reads c
  | _, _, [] => by
    rw [buildAfter, Expr.literalsOf, or_iff_right List.not_mem_nil]
  | _, _, e :: items => by
    rw [buildAfter, Expr.literalsOf, List.mem_append, reads_buildAfter_iff items,
      Builder.reads_connect_none_iff, reads_build_iff e, or_left_comm, or_assoc]

theorem reads_buildBranches_iff : ∀ {b : Builder} {entry : Nat} (branches : List Expr),
    (buildBranches b entry branches).1.Reads c ↔ c ∈ Expr.literalsOf branches ∨ b.Reads c
  | _, _, [] => by
    rw [buildBranches, Expr.literalsOf, or_iff_right List.not_mem_nil]
  | _, _, e :: branches => by
    rw [buildBranches, Expr.literalsOf, List.mem_append, reads_buildBranches_iff branches,
      Builder.reads_connect_none_iff, reads_build_iff e, or_left_comm, or_assoc]

end

/-- The points of a compilation at which a fragment is begun, each with the expression that it is
for. -/
inductive Begun (root : Expr) : Builder → Expr → Prop
  | root : Begun root .empty root
  | target {b : Builder} {name : String} {e : Expr} (h : Begun root b (.reference name e)) :
      Begun root b e
  | first {b : Builder} {e : Expr} {items : List Expr} (h : Begun root b (.concat (e :: items))) :
      Begun root b e
  | next {b : Builder} {first e : Expr} {before after : List Expr}
      (h : Begun root b (.concat (first :: (before ++ e :: after)))) :
      Begun root (buildAfter (build b first).1 (build b first).2.exit before).1 e
  | branch {b : Builder} {e : Expr} {before after : List Expr}
      (h : Begun root b (.union (before ++ e :: after))) :
      Begun root (buildBranches b.addState b.size before).1 e
  | body {b : Builder} {e : Expr} (h : Begun root b (.star e)) : Begun root b.addState e

theorem Begun.made (h : Begun root b e) : b.Made := by
  induction h with
  | root => exact .empty
  | target _ ih => exact ih
  | first _ ih => exact ih
  | @next b first _ before _ _ ih =>
    exact made_buildAfter before (made_build first ih) (exit_lt_build b first)
  | @branch b _ before _ _ ih => exact made_buildBranches before ih.addState (Nat.lt_succ_self _)
  | body _ ih => exact ih.addState

/-- A fragment among the states that are new in `b`: what was there before is left as it was, and no
edge leads to the entry or from the exit. -/
structure Extends (base b : Builder) (f : Fragment) : Prop where
  made : b.Made
  size_lt : base.size < b.size
  kept : ∀ edge ∈ base.edges, edge ∈ b.edges
  added : ∀ s label t, (s, ⟨label, t⟩) ∈ b.edges → (s, ⟨label, t⟩) ∈ base.edges ∨
    (base.size ≤ s ∧ s < b.size) ∧ base.size ≤ t ∧ t < b.size
  entry_new : base.size ≤ f.entry ∧ f.entry < b.size
  exit_new : base.size ≤ f.exit ∧ f.exit < b.size
  entry_ne_exit : f.entry ≠ f.exit
  not_into_entry : ∀ s label, (s, ⟨label, f.entry⟩) ∉ b.edges
  not_from_exit : ∀ label t, (f.exit, ⟨label, t⟩) ∉ b.edges

theorem extends_build (h : b.Made) (e : Expr) : Extends b (build b e).1 (build b e).2 := by
  obtain ⟨links, hlinks, hr⟩ := adds_build b e
  have hentry := hr.entry_bounds
  have hexit := hr.exit_bounds _ rfl
  refine ⟨made_build e h, size_lt_build b e,
    fun ⟨s, label, t⟩ hedge => (hlinks s label t).2 (.inr hedge),
    fun s label t hedge => ?_, hentry, hexit, hr.entry_not_exit,
    fun s label hedge => ?_, fun label t hedge => ?_⟩
  · rcases (hlinks s label t).1 hedge with hlink | hold
    · exact .inr ⟨hr.source_bounds _ _ _ hlink, hr.target_bounds _ _ _ hlink⟩
    · exact .inl hold
  · rcases (hlinks _ _ _).1 hedge with hlink | hold
    · exact hr.not_into_entry _ _ _ hlink rfl
    · exact absurd (h.edge_lt hold).2 (Nat.not_lt.2 hentry.1)
  · rcases (hlinks _ _ _).1 hedge with hlink | hold
    · exact hr.not_from_exit _ _ _ hlink rfl
    · exact absurd (h.edge_lt hold).1 (Nat.not_lt.2 hexit.1)

end Fragment

/-! The whole automaton. -/

theorem stateName_injective : stateName.Injective := by
  intro i j h
  rw [stateName, stateName, String.append_right_inj] at h
  exact Nat.repr_inj.1 h

namespace Expr

theorem names_toNfa (e : Expr) :
    e.toNfa.states.names.toList = (List.range e.toNfa.states.size).map stateName := by
  have hsize : e.toNfa.states.size = (Fragment.build .empty e).1.size := Array.size_ofFn
  rw [hsize, toNfa, Array.toList_ofFn, List.ofFn_eq_map, ← List.map_coe_finRange_eq_range,
    List.map_map]
  rfl

theorem states_toNfa (e : Expr) :
    e.toNfa.states = ((List.range e.toNfa.states.size).map stateName).foldl
    StateTable.push .empty := by
  have hdistinct : e.toNfa.states.Distinct := by
    rw [StateTable.Distinct, names_toNfa]
    exact List.nodup_range.map stateName_injective
  rw [← names_toNfa, hdistinct.foldl_push]

theorem name_toNfa (hs : s < e.toNfa.states.size) : e.toNfa.states.name s = stateName s := by
  rw [StateTable.name, Array.getD_eq_getD_getElem?, ← Array.getElem?_toList, names_toNfa,
    List.getElem?_map, List.getElem?_range hs]
  rfl

theorem exists_acceptStates_toNfa (e : Expr) : ∃ exit, e.toNfa.acceptStates = [stateName exit] ∧
    ∀ s, e.toNfa.accepting.getD s false = true ↔ s = exit := by
  obtain ⟨links, exit, hr, -, haccepting⟩ := exists_region_toNfa e
  have hexit := (hr.exit_bounds exit rfl).2
  refine ⟨exit, ?_, haccepting⟩
  have hperm : (e.toNfa.stateIds.filter fun s => e.toNfa.accepting.getD s false).Perm [exit] := by
    refine (List.perm_ext_iff_of_nodup (List.nodup_range.filter _) (List.nodup_singleton _)).2
      fun s => ?_
    rw [List.mem_filter, haccepting, List.mem_singleton, List.mem_range]
    exact and_iff_right_of_imp fun hs => hs ▸ hexit
  rw [Nfa.acceptStates, List.perm_singleton.1 hperm, List.map_singleton, name_toNfa hexit]

theorem mem_alphabet_toNfa_iff (e : Expr) : c ∈ e.toNfa.alphabet ↔ c ∈ e.symbols := by
  have hempty : ¬Builder.empty.Reads c := fun ⟨_, _, hedge⟩ => List.not_mem_nil hedge
  have hreads : (Fragment.build .empty e).1.Reads c ↔ c ∈ e.literals :=
    (Fragment.reads_build_iff e).trans (or_iff_left hempty)
  rw [symbols, List.mem_eraseDups, ← hreads, ← Builder.mem_alphabet_iff]
  rfl

/-- A fragment that is begun at any point of a compilation, or wherever else states and edges
between them were added, is a fragment of new states that leaves the others alone. The automaton of
the whole expression has the states `q0`, `q1` and so on in the order of their making, none of them
with a prime, one accepting state, and the symbols of the expression in ascending order. -/
theorem toNfa_of_fragments (root : Expr) :
    (∀ b e, Fragment.Begun root b e → b.Made) ∧
    (∀ b : Builder, b.Made → ∀ e,
      Fragment.Extends b (Fragment.build b e).1 (Fragment.build b e).2) ∧
    (root.toNfa.states.names.toList = (List.range root.toNfa.states.size).map stateName ∧
      root.toNfa.states = ((List.range root.toNfa.states.size).map stateName).foldl
      StateTable.push .empty) ∧
    (∃ exit, root.toNfa.acceptStates = [stateName exit] ∧
      ∀ s, root.toNfa.accepting.getD s false = true ↔ s = exit) ∧
    root.toNfa.alphabet.symbols.Pairwise (· < ·) ∧ ∀ c, c ∈ root.toNfa.alphabet ↔
    c ∈ root.symbols := by
  refine ⟨fun b e h => h.made, fun b h e => Fragment.extends_build h e,
    ⟨root.names_toNfa, root.states_toNfa⟩,
    root.exists_acceptStates_toNfa, ?_, fun c => root.mem_alphabet_toNfa_iff⟩
  exact Builder.alphabet_pairwise_lt _

theorem toNfa_of_fragments_nested :
    let inner : Expr := .star (.literal 'a')
    let branches : Expr := .union [.literal 'b', .concat []]
    let root : Expr := .concat [branches, .star inner, .union []]
    ∃ b, Fragment.Begun root b inner ∧ b.Made ∧ b.size = 7 ∧
      Fragment.Extends b (Fragment.build b inner).1 ⟨7, 10⟩ ∧
      root.toNfa.states.size = 14 ∧ root.toNfa.acceptStates = ["q13"] ∧ root.symbols = ['b', 'a'] ∧
      'a' ∈ root.toNfa.alphabet ∧ 'c' ∉ root.toNfa.alphabet := by
  intro inner branches root
  obtain ⟨hmade, hextends, -, ⟨exit, haccept, haccepting⟩, -, halphabet⟩ := toNfa_of_fragments root
  have hroot : Fragment.Begun root .empty
      (.concat (branches :: ([] ++ .star inner :: [.union []]))) := .root
  have hbegun := hroot.next.body
  have hexit : 13 = exit := (haccepting 13).1 (by decide +kernel)
  refine ⟨_, hbegun, hmade _ _ hbegun, rfl, hextends _ (hmade _ _ hbegun) inner, rfl,
    ?_, by decide +kernel,
    (halphabet 'a').2 (by decide +kernel), mt (halphabet 'c').1 (by decide +kernel)⟩
  rw [haccept, ← hexit]
  decide +kernel

end Expr

end Regex

end Acceptors
