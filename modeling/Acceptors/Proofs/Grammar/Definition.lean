import Mathlib.Tactic.Common
import Acceptors.Grammar.Definition
import Acceptors.Proofs.Longest
import Acceptors.Proofs.Outcome
import Acceptors.Proofs.Places

/-! Grammars that definitions describe: nonterminals have distinct names, and productions only speak
of nonterminals of the grammar. -/

namespace Acceptors.Grammar

structure WellFormed (g : Grammar) : Prop where
  nodup : g.nonterminals.toList.Nodup
  head_lt : ∀ p ∈ g.productions, p.head < g.nonterminals.size
  index_lt : ∀ p ∈ g.productions, ∀ b, .nonterminal b ∈ p.body → b < g.nonterminals.size

theorem WellFormed.name_inj {g : Grammar} (h : g.WellFormed)
    {a b : Nat} (ha : a < g.nonterminals.size) (hb : b < g.nonterminals.size) :
    g.name a = g.name b ↔ a = b := array_getD_inj h.nodup ha hb ""

theorem WellFormed.withLimits {g : Grammar} (h : g.WellFormed) (treeDepth chartCells : Nat) :
    (g.withLimits treeDepth chartCells).WellFormed := ⟨h.nodup, h.head_lt, h.index_lt⟩

namespace Definition

theorem nodup_of_checkNames {seen names : List String} (h : checkNames seen names = .ok ()) :
    names.Nodup ∧ ∀ name ∈ names, name ∉ seen := by
  induction names generalizing seen with
  | nil => simp
  | cons name names ih =>
    rw [checkNames] at h
    split at h
    · cases h
    · split at h
      · cases h
      · rename_i hs
        obtain ⟨hd, hn⟩ := ih h
        constructor
        · exact List.nodup_cons.2 ⟨fun hm => hn name hm List.mem_cons_self, hd⟩
        · intro m hm
          rcases List.mem_cons.1 hm with rfl | hm
          · exact hs
          · exact fun hseen => hn m hm (List.mem_cons_of_mem name hseen)

theorem ne_empty_of_checkNames {seen names : List String} (h : checkNames seen names = .ok ()) :
    ∀ name ∈ names, name ≠ "" := by
  induction names generalizing seen with
  | nil => exact List.forall_mem_nil _
  | cons name names ih =>
    rw [checkNames] at h
    split at h
    · cases h
    · rename_i hname
      split at h
      · cases h
      · exact List.forall_mem_cons.2 ⟨fun hempty => hname (String.isEmpty_iff.2 hempty), ih h⟩

theorem index_lt_of_mem_scan {names : List (List Char)} {skip : Nat} {text : List Char} {b : Nat}
    (h : .nonterminal b ∈ scan names skip text) : b < names.length := by
  induction text generalizing skip with
  | nil => simp [scan] at h
  | cons c rest ih =>
    cases skip with
    | succ skip => exact ih h
    | zero =>
      rw [scan] at h
      split at h
      · rename_i name hname
        rcases List.mem_cons.1 h with h | h
        · cases h
          exact List.idxOf_lt_length_iff.2 (Text.longestName?_eq_some_iff.1 hname).mem
        · exact ih h
      · rcases List.mem_cons.1 h with h | h
        · cases h
        · exact ih h

theorem index_lt_of_mem_bodyOf {names : List (List Char)} {text : String} {b : Nat}
    (h : .nonterminal b ∈ bodyOf names text) : b < names.length := by
  rw [bodyOf] at h
  split at h
  · cases h
  · exact index_lt_of_mem_scan h

theorem mem_productionsOf {names : List (List Char)} {head : Nat}
    {rules : List (String × List String)} {productions : List Production}
    (h : productionsOf names head rules = .ok productions) {p : Production}
    (hp : p ∈ productions) :
    p.head < head + rules.length ∧ ∃ text, p.body = bodyOf names text := by
  induction rules generalizing head productions with
  | nil =>
    cases h
    cases hp
  | cons rule rest ih =>
    obtain ⟨name, bodies⟩ := rule
    rw [productionsOf] at h
    split at h
    · cases h
    · obtain ⟨further, hr, h⟩ := bind_eq_ok_iff.1 h
      cases h
      rcases List.mem_append.1 hp with hp | hp
      · obtain ⟨text, _, rfl⟩ := List.mem_map.1 hp
        refine ⟨?_, text, rfl⟩
        simp only [List.length_cons]
        omega
      · obtain ⟨hh, hb⟩ := ih hr hp
        simp only [List.length_cons]
        exact ⟨by omega, hb⟩

theorem build_eq_ok {d : Definition} {g : Grammar} (h : d.build = .ok g) :
    checkNames [] d.names = .ok () ∧
      ∃ productions, productionsOf (d.names.map String.toList) 0 d.rules = .ok productions ∧
        g = ⟨d.names.toArray, productions, defaultTreeDepth, defaultChartCells⟩ := by
  rw [build] at h
  split at h
  · cases h
  · obtain ⟨_, hc, h⟩ := bind_eq_ok_iff.1 h
    obtain ⟨productions, hp, h⟩ := bind_eq_ok_iff.1 h
    cases h
    exact ⟨hc, productions, hp, rfl⟩

theorem size_pos_of_build {d : Definition} {g : Grammar} (h : d.build = .ok g) :
    0 < g.nonterminals.size := by
  have hrules : d.rules ≠ [] := by
    intro hnil
    rw [build, hnil] at h
    cases h
  obtain ⟨_, _, _, rfl⟩ := build_eq_ok h
  simpa [names, List.length_pos_iff] using hrules

theorem wellFormed_of_build {d : Definition} {g : Grammar} (h : d.build = .ok g) :
    g.WellFormed := by
  obtain ⟨hc, productions, hp, rfl⟩ := build_eq_ok h
  refine ⟨(nodup_of_checkNames hc).1, fun p hm => ?_, fun p hm b hb => ?_⟩
  · simpa [names] using (mem_productionsOf hp hm).1
  · obtain ⟨_, text, ht⟩ := mem_productionsOf hp hm
    rw [ht] at hb
    simpa using index_lt_of_mem_bodyOf hb

theorem name_ne_empty_of_build {d : Definition} {g : Grammar} (h : d.build = .ok g) {a : Nat}
    (ha : a < g.nonterminals.size) : g.name a ≠ "" := by
  obtain ⟨hc, _, _, rfl⟩ := build_eq_ok h
  rw [name, Array.getD_eq_getD_getElem?, Array.getElem?_eq_getElem ha]
  exact ne_empty_of_checkNames hc _ (Array.mem_toList_iff.2 (Array.getElem_mem ha))

end Definition

end Acceptors.Grammar
