import Acceptors.Nfa.Definition
import Acceptors.Proofs.Nfa.Path
import Acceptors.Proofs.Outcome
import Acceptors.Proofs.Places
import Acceptors.Proofs.StateTable

/-! Nondeterministic automata that definitions describe. Their rows hold the edges that they were
made from, whatever the order of these, and all edges stay among the declared states. -/

namespace Acceptors

namespace Edge

variable {a b c : Edge} {row : List Edge}

theorem mem_insert_iff {e f : Edge} :
    e ∈ insert f row ↔ e = f ∨ e ∈ row := by
  induction row with
  | nil => simp [insert]
  | cons g row ih =>
    rw [insert]
    split
    · rename_i h
      subst h
      simp
    · split
      · simp
      · simp only [List.mem_cons, ih]
        tauto

theorem labelRank_inj {a b : Option Char} : labelRank a = labelRank b ↔ a = b := by
  refine ⟨fun h => ?_, fun h => by rw [h]⟩
  cases a with
  | none =>
    cases b with
    | none => rfl
    | some c => exact absurd h (Nat.succ_ne_zero _).symm
  | some c =>
    cases b with
    | none => exact absurd h (Nat.succ_ne_zero _)
    | some d => rw [Char.toNat_inj.1 (Nat.succ.inj h)]

theorem before_iff : before a b = true ↔
    labelRank a.label < labelRank b.label ∨
      (labelRank a.label = labelRank b.label ∧ a.target < b.target) := by
  simp [before]

theorem before_trichotomy (a b : Edge) : before a b = true ∨ a = b ∨ before b a = true := by
  rw [before_iff, before_iff, Edge.mk.injEq, ← labelRank_inj]
  omega

theorem before_irrefl : ¬before a a = true := by
  rw [before_iff]
  omega

theorem before_asymm (h : before a b = true) : ¬before b a = true := by
  rw [before_iff] at h ⊢
  omega

theorem before_trans (hab : before a b = true) (hbc : before b c = true) : before a c = true := by
  rw [before_iff] at hab hbc ⊢
  omega

theorem insert_cons_self (a : Edge) (row : List Edge) : insert a (a :: row) = a :: row := if_pos rfl

theorem insert_cons_of_before (h : before a c = true) : insert a (c :: row) = a :: c :: row := by
  have hne : a ≠ c := fun heq => before_irrefl (heq ▸ h)
  rw [insert, if_neg hne, if_pos h]

theorem insert_cons_of_after (h : before c a = true) : insert a (c :: row) = c :: insert a row := by
  have hne : a ≠ c := fun heq => before_irrefl (heq ▸ h)
  rw [insert, if_neg hne, if_neg (before_asymm h)]

theorem insert_comm_of_before (h : before a b = true) (row : List Edge) :
    insert a (insert b row) = insert b (insert a row) := by
  induction row with
  | nil =>
    have hlast : insert b [a] = [a, b] := insert_cons_of_after h
    exact (insert_cons_of_before h).trans hlast.symm
  | cons c row ih =>
    rcases before_trichotomy b c with hbc | rfl | hcb
    · rw [insert_cons_of_before hbc, insert_cons_of_before h,
        insert_cons_of_before (before_trans h hbc), insert_cons_of_after h,
        insert_cons_of_before hbc]
    · rw [insert_cons_self, insert_cons_of_before h, insert_cons_of_after h, insert_cons_self]
    · rw [insert_cons_of_after hcb]
      rcases before_trichotomy a c with hac | rfl | hca
      · rw [insert_cons_of_before hac, insert_cons_of_before hac, insert_cons_of_after h,
          insert_cons_of_after hcb]
      · rw [insert_cons_self, insert_cons_self, insert_cons_of_after h]
      · rw [insert_cons_of_after hca, insert_cons_of_after hca, insert_cons_of_after hcb, ih]

theorem insert_comm (a b : Edge) (row : List Edge) :
    insert a (insert b row) = insert b (insert a row) := by
  rcases before_trichotomy a b with h | rfl | h
  · exact insert_comm_of_before h row
  · rfl
  · exact (insert_comm_of_before h row).symm

end Edge

namespace Nfa

variable {states s : Nat} {e : Edge}

theorem mem_getD_modify_iff {rows : Array (List Edge)} {t : Nat} {f : Edge} :
    e ∈ (rows.modify t (Edge.insert f)).getD s [] ↔
      (s < rows.size ∧ s = t ∧ e = f) ∨ e ∈ rows.getD s [] := by
  rw [Array.getD_eq_getD_getElem?, Array.getElem?_modify, Array.getD_eq_getD_getElem?]
  by_cases hs : s < rows.size
  · by_cases ht : t = s
    · subst ht
      simp [hs, Edge.mem_insert_iff]
    · simp [hs, ht, Ne.symm ht]
  · simp [hs]

theorem mem_rowsOf_iff {edges : List (Nat × Edge)} :
    e ∈ (rowsOf states edges).getD s [] ↔ s < states ∧ (s, e) ∈ edges := by
  suffices h : ∀ rows : Array (List Edge), rows.size = states →
      (e ∈ (edges.foldl (fun rows e => rows.modify e.1 (Edge.insert e.2)) rows).getD s [] ↔
        e ∈ rows.getD s [] ∨ (s < states ∧ (s, e) ∈ edges)) by
    rw [rowsOf, h _ Array.size_replicate, getD_replicate_self]
    simp
  intro rows hrows
  induction edges generalizing rows with
  | nil => simp
  | cons f edges ih =>
    rw [List.foldl_cons, ih _ (by rw [Array.size_modify, hrows]), mem_getD_modify_iff, hrows,
      List.mem_cons, Prod.ext_iff]
    tauto

theorem rowsOf_perm {states : Nat} {edges edges' : List (Nat × Edge)} (h : edges.Perm edges') :
    rowsOf states edges = rowsOf states edges' := by
  refine h.foldl_eq' (fun e _ f _ rows => ?_) _
  apply Array.ext_getElem?
  intro s
  simp only [Array.getElem?_modify]
  by_cases he : e.1 = s
  · by_cases hf : f.1 = s
    · simp only [he, hf, if_true, Option.map_map]
      congr 1
      funext row
      exact Edge.insert_comm f.2 e.2 row
    · simp only [he, hf, if_true, if_false]
  · simp only [he, if_false]

namespace Definition

theorem target_lt_of_edgesOf {table : StateTable} {alphabet : Alphabet}
    {entry : String × Option Char × List String} {edges : List (Nat × Edge)}
    (h : edgesOf table alphabet entry = .ok edges) {f : Nat × Edge} (hf : f ∈ edges) :
    f.2.target < table.size := by
  obtain ⟨state, label, targets⟩ := entry
  rw [edgesOf, bind_eq_ok_iff] at h
  obtain ⟨s, _, h⟩ := h
  obtain ⟨_, _, h⟩ := bind_eq_ok_iff.1 h
  obtain ⟨target, _, h⟩ := exists_of_mem_mapM h hf
  obtain ⟨t, ht, h⟩ := bind_eq_ok_iff.1 h
  cases h
  exact StateTable.lt_size_of_resolve ht

structure Builds (d : Definition) (n : Nfa) : Prop where
  states : Declaration.states d.states = .ok n.states
  alphabet : Declaration.alphabet d.inputAlphabet "input_alphabet" = .ok n.alphabet
  start : n.states.id? d.startState = some n.start
  accepting : Declaration.marked n.states d.acceptStates "accept_states" = .ok n.accepting
  rows : ∃ edges, d.delta.mapM (edgesOf n.states n.alphabet) = .ok edges ∧
    n.rows = rowsOf n.states.size edges.flatten

theorem build_eq_ok_iff {d : Definition} {n : Nfa} : d.build = .ok n ↔ d.Builds n := by
  constructor
  · intro h
    obtain ⟨states, hstates, h⟩ := bind_eq_ok_iff.1 h
    obtain ⟨alphabet, halphabet, h⟩ := bind_eq_ok_iff.1 h
    obtain ⟨start, hstart, h⟩ := bind_eq_ok_iff.1 h
    obtain ⟨accepting, haccepting, h⟩ := bind_eq_ok_iff.1 h
    obtain ⟨edges, hedges, h⟩ := bind_eq_ok_iff.1 h
    cases h
    exact ⟨hstates, halphabet, StateTable.resolve_eq_ok_iff.1 hstart, haccepting,
      edges, hedges, rfl⟩
  · intro h
    obtain ⟨edges, hedges, hrows⟩ := h.rows
    refine bind_eq_ok_iff.2 ⟨_, h.states, bind_eq_ok_iff.2 ⟨_, h.alphabet, ?_⟩⟩
    refine bind_eq_ok_iff.2 ⟨_, StateTable.resolve_eq_ok_iff.2 h.start,
      bind_eq_ok_iff.2 ⟨_, h.accepting, ?_⟩⟩
    refine bind_eq_ok_iff.2 ⟨_, hedges, ?_⟩
    rw [← hrows]
    rfl

theorem Builds.distinct {d : Definition} {n : Nfa} (h : d.Builds n) : n.states.Distinct :=
  (StateTable.states_eq_ok h.states).2

theorem wellFormed_of_build {d : Definition} {n : Nfa} (h : d.build = .ok n) : n.WellFormed := by
  have h := build_eq_ok_iff.1 h
  obtain ⟨found, hfound, hrows⟩ := h.rows
  refine ⟨StateTable.lt_size_of_id? h.distinct h.start, fun s label t hm => ?_⟩
  rw [Moves, edges, hrows, mem_rowsOf_iff] at hm
  obtain ⟨edges, hedges, hm⟩ := List.mem_flatten.1 hm.2
  obtain ⟨entry, _, hentry⟩ := exists_of_mem_mapM hfound hedges
  exact target_lt_of_edgesOf hentry hm

theorem build_perm {d : Definition} {delta : List (String × Option Char × List String)} {n : Nfa}
    (hperm : d.delta.Perm delta) (h : d.build = .ok n) :
    Definition.build { d with delta := delta } = .ok n := by
  have h := build_eq_ok_iff.1 h
  obtain ⟨edges, hedges, hrows⟩ := h.rows
  obtain ⟨edges', hedges', hedges_perm⟩ := mapM_perm hperm hedges
  rw [rowsOf_perm hedges_perm.flatten] at hrows
  exact build_eq_ok_iff.2 ⟨h.states, h.alphabet, h.start, h.accepting, edges', hedges', hrows⟩

end Definition

end Nfa

end Acceptors
