import Mathlib.Tactic.Common
import Acceptors.Dfa.Equivalence
import Acceptors.Proofs.Dfa.Constructed

/-! Equivalent automata. The pairs that the search reaches are those that words over both alphabets
lead to, and a word with any other symbol leads both automata to the dead state. -/

namespace Acceptors.Dfa

variable {a b d : Dfa} {o : Option Nat} {p : Option Nat × Option Nat} {n : Nat} {c : Char}
  {v w : List Char}

def pairAfter (a b : Dfa) (w : List Char) : Option Nat × Option Nat :=
  (a.run (some a.start) w, b.run (some b.start) w)

def nextPairs (a b : Dfa) (n : Nat) : List Nat :=
  let p := ofPairCode (b.states.size + 1) n
  ((a.alphabet.union b.alphabet).symbols.map fun c => (a.column? c, b.column? c)).map fun (i, j) =>
    pairCode (b.states.size + 1) (a.stepIn i p.1, b.stepIn j p.2)

def agrees (a b : Dfa) (n : Nat) : Bool :=
  let p := ofPairCode (b.states.size + 1) n
  a.isAccepting p.1 == b.isAccepting p.2

theorem isEquivalent_eq (a b : Dfa) :
    a.isEquivalent b = Search.all ((a.states.size + 1) * (b.states.size + 1)) (nextPairs a b)
      [pairCode (b.states.size + 1) (pairAfter a b [])] (agrees a b) := rfl

theorem WellFormed.stateCode_run_lt (h : d.WellFormed) (w : List Char) :
    stateCode (d.run (some d.start) w) < d.states.size + 1 := by
  cases hw : d.run (some d.start) w with
  | none => exact Nat.succ_pos _
  | some s => exact Nat.succ_lt_succ (lt_of_mem_reachable ((mem_reachable_iff h).2 ⟨w, hw⟩))

theorem stateCode_pairAfter_lt (hb : b.WellFormed) (a : Dfa) (w : List Char) :
    stateCode (pairAfter a b w).2 < b.states.size + 1 := hb.stateCode_run_lt w

theorem pairCode_lt {rows width : Nat} (h₁ : stateCode p.1 < rows) (h₂ : stateCode p.2 < width) :
    pairCode width p < rows * width := by
  calc pairCode width p < stateCode p.1 * width + width := Nat.add_lt_add_left h₂ _
    _ = (stateCode p.1 + 1) * width := (Nat.succ_mul _ _).symm
    _ ≤ rows * width := Nat.mul_le_mul_right width h₁

theorem mem_nextPairs_iff (hp : stateCode p.2 < b.states.size + 1) :
    n ∈ nextPairs a b (pairCode (b.states.size + 1) p) ↔
      ∃ c ∈ a.alphabet.union b.alphabet,
        pairCode (b.states.size + 1) (a.step p.1 c, b.step p.2 c) = n := by
  rw [nextPairs, ofPairCode_pairCode hp, List.map_map, List.mem_map]
  simp only [Function.comp_apply, stepIn_column?]
  rfl

theorem pairAfter_concat (a b : Dfa) (w : List Char) (c : Char) :
    pairAfter a b (w ++ [c]) = (a.step (pairAfter a b w).1 c, b.step (pairAfter a b w).2 c) := by
  rw [pairAfter, run_append, run_append]
  rfl

theorem reaches_pair_iff (ha : a.WellFormed) (hb : b.WellFormed) :
    Search.Reaches ((a.states.size + 1) * (b.states.size + 1)) (nextPairs a b)
        [pairCode (b.states.size + 1) (pairAfter a b [])] n ↔
      ∃ w, (∀ c ∈ w, c ∈ a.alphabet.union b.alphabet) ∧
        pairCode (b.states.size + 1) (pairAfter a b w) = n := by
  have hlt (w : List Char) : pairCode (b.states.size + 1) (pairAfter a b w) <
      (a.states.size + 1) * (b.states.size + 1) :=
    pairCode_lt (ha.stateCode_run_lt w) (stateCode_pairAfter_lt hb a w)
  constructor
  · rintro ⟨u, hu, -, hpath⟩
    obtain rfl := List.mem_singleton.1 hu
    induction hpath with
    | refl => exact ⟨[], fun c hc => absurd hc List.not_mem_nil, rfl⟩
    | tail _ he ih =>
      obtain ⟨w, hw, rfl⟩ := ih
      obtain ⟨c, hc, rfl⟩ := (mem_nextPairs_iff (stateCode_pairAfter_lt hb a w)).1 he.1
      refine ⟨w ++ [c], List.forall_mem_append.2 ⟨hw, List.forall_mem_singleton.2 hc⟩, ?_⟩
      rw [pairAfter_concat]
  · rintro ⟨w, hw, rfl⟩
    induction w using List.reverseRecOn with
    | nil => exact .start (List.mem_singleton.2 rfl) (hlt [])
    | append_singleton w c ih =>
      obtain ⟨hw, hc⟩ := List.forall_mem_append.1 hw
      have hc := hc c (List.mem_singleton.2 rfl)
      have hnext := (mem_nextPairs_iff (stateCode_pairAfter_lt hb a w)).2 ⟨c, hc, rfl⟩
      rw [← pairAfter_concat] at hnext
      exact (ih hw).tail hnext (hlt (w ++ [c]))

theorem agrees_pairAfter_iff (hb : b.WellFormed) :
    agrees a b (pairCode (b.states.size + 1) (pairAfter a b w)) = true ↔
      (w ∈ a.future (some a.start) ↔ w ∈ b.future (some b.start)) := by
  rw [agrees, ofPairCode_pairCode (stateCode_pairAfter_lt hb a w)]
  exact beq_iff_eq.trans Bool.eq_iff_iff

theorem isEquivalent_iff_of_wellFormed (ha : a.WellFormed) (hb : b.WellFormed) :
    a.isEquivalent b = true ↔ a.language = b.language := by
  rw [isEquivalent_eq, Search.all_eq_true_iff, language_eq_future, language_eq_future]
  constructor
  · intro h
    ext w
    by_cases hw : ∀ c ∈ w, c ∈ a.alphabet.union b.alphabet
    · exact (agrees_pairAfter_iff hb).1 (h _ ((reaches_pair_iff ha hb).2 ⟨w, hw, rfl⟩))
    · refine iff_of_false (fun hfuture => hw fun c hc => ?_) fun hfuture => hw fun c hc => ?_
      · exact Alphabet.mem_union_iff.2 (.inl (mem_alphabet_of_mem_future hfuture c hc))
      · exact Alphabet.mem_union_iff.2 (.inr (mem_alphabet_of_mem_future hfuture c hc))
  · intro h n hn
    obtain ⟨w, -, rfl⟩ := (reaches_pair_iff ha hb).1 hn
    exact (agrees_pairAfter_iff hb).2 (by rw [h])

end Acceptors.Dfa
