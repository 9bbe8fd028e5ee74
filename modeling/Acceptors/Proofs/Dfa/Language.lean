import Mathlib.Computability.MyhillNerode
import Acceptors.Dfa.Basic
import Acceptors.Proofs.Alphabet
import Acceptors.Proofs.Outcome
import Acceptors.Proofs.Places
import Acceptors.Proofs.Search

/-! The language of a deterministic automaton and the languages of its states. What is accepted from
the state after a word is the left quotient of what is accepted before it, and the reachable states
are those that words lead to. -/

namespace Acceptors.Dfa

variable {d : Dfa} {s t i : Nat} {o : Option Nat} {c : Char} {v w : List Char}

/-- What the start and the entries of every automaton satisfy that was made from a definition or
from another automaton. -/
structure WellFormed (d : Dfa) : Prop where
  start_lt : d.start < d.states.size
  target_lt : ∀ s i t, d.table.get? s i = some t → t < d.states.size

/-- The accepted words. Words with a foreign symbol are not among them. -/
def language (d : Dfa) : Language Char := {w | d.accepts w = .ok true}

/-- The words accepted from a state or from the dead state. -/
def future (d : Dfa) (o : Option Nat) : Language Char := {w | d.isAccepting (d.run o w) = true}

theorem column?_eq_some_iff : d.column? c = some i ↔ d.alphabet.symbols[i]? = some c :=
  list_idxOf?_eq_some_iff d.alphabet.nodup

theorem next?_eq_some_iff :
    d.next? s c = some t ↔ ∃ i, d.column? c = some i ∧ d.table.get? s i = some t := by
  rw [next?]
  cases d.column? c with
  | none => simp
  | some i => simp

theorem mem_alphabet_of_next? (h : d.next? s c = some t) : c ∈ d.alphabet := by
  obtain ⟨i, hi, _⟩ := next?_eq_some_iff.1 h
  exact List.mem_of_getElem? (column?_eq_some_iff.1 hi)

theorem WellFormed.next?_lt (h : d.WellFormed) (ht : d.next? s c = some t) : t < d.states.size := by
  obtain ⟨i, _, hi⟩ := next?_eq_some_iff.1 ht
  exact h.target_lt s i t hi

theorem run_cons (d : Dfa) (o : Option Nat) (c : Char) (w : List Char) :
    d.run o (c :: w) = d.run (d.step o c) w := rfl

theorem run_append (d : Dfa) (o : Option Nat) (v w : List Char) :
    d.run o (v ++ w) = d.run (d.run o v) w := List.foldl_append

theorem step_some (d : Dfa) (s : Nat) (c : Char) : d.step (some s) c = d.next? s c := rfl

theorem run_none (d : Dfa) (w : List Char) : d.run none w = none := by
  induction w with
  | nil => rfl
  | cons c w ih => exact ih

theorem foldlM_next? (d : Dfa) (s : Nat) (w : List Char) :
    w.foldlM d.next? s = d.run (some s) w := by
  induction w generalizing s with
  | nil => rfl
  | cons c w ih =>
    rw [List.foldlM_cons, run_cons, step_some]
    cases d.next? s c with
    | none => exact (d.run_none w).symm
    | some t => exact ih t

/-- Stopping at the first missing transition loses nothing. -/
theorem accepts_eq_map (d : Dfa) (w : List Char) :
    d.accepts w = (d.alphabet.tokenize w).map d.recognizes := by
  simp only [accepts, foldlM_next?]
  rfl

theorem mem_future_iff : w ∈ d.future o ↔ d.isAccepting (d.run o w) = true := Iff.rfl

theorem nil_mem_future_iff : [] ∈ d.future o ↔ d.isAccepting o = true := Iff.rfl

theorem cons_mem_future_iff : c :: w ∈ d.future o ↔ w ∈ d.future (d.step o c) := Iff.rfl

theorem future_run (d : Dfa) (o : Option Nat) (w : List Char) :
    d.future (d.run o w) = (d.future o).leftQuotient w := by
  ext v
  rw [Language.mem_leftQuotient, mem_future_iff, mem_future_iff, run_append]

theorem future_step (d : Dfa) (o : Option Nat) (c : Char) :
    d.future (d.step o c) = (d.future o).leftQuotient [c] := d.future_run o [c]

theorem future_none (d : Dfa) : d.future none = 0 := by
  ext w
  rw [mem_future_iff, run_none]
  exact iff_of_false Bool.noConfusion (Language.notMem_zero w)

theorem exists_of_future_ne_zero (h : d.future o ≠ 0) : ∃ s, o = some s := by
  cases o with
  | none => exact absurd d.future_none h
  | some s => exact ⟨s, rfl⟩

theorem mem_alphabet_of_mem_future (hw : w ∈ d.future o) : ∀ c ∈ w, c ∈ d.alphabet := by
  induction w generalizing o with
  | nil => exact fun c hc => absurd hc List.not_mem_nil
  | cons c w ih =>
    rw [cons_mem_future_iff] at hw
    refine List.forall_mem_cons.2 ⟨?_, ih hw⟩
    cases o with
    | none =>
      rw [step, Option.bind_none, future_none] at hw
      exact absurd hw (Language.notMem_zero w)
    | some s =>
      rw [step_some] at hw
      cases ht : d.next? s c with
      | none =>
        rw [ht, future_none] at hw
        exact absurd hw (Language.notMem_zero w)
      | some t => exact mem_alphabet_of_next? ht

theorem language_eq_future (d : Dfa) : d.language = d.future (some d.start) := by
  ext w
  have hmap : d.accepts w = .ok true ↔ ∃ v, d.alphabet.tokenize w = .ok v ∧
      d.recognizes v = true := by
    rw [accepts_eq_map]
    exact map_eq_ok_iff
  rw [mem_future_iff]
  constructor
  · intro h
    obtain ⟨v, hv, hrec⟩ := hmap.1 h
    obtain ⟨rfl, _⟩ := Alphabet.tokenize_eq_ok_iff.1 hv
    exact hrec
  · intro h
    exact hmap.2 ⟨w, Alphabet.tokenize_eq_ok_iff.2 ⟨rfl, mem_alphabet_of_mem_future h⟩, h⟩

theorem mem_successors_iff : t ∈ d.successors s ↔ ∃ c, d.next? s c = some t := by
  rw [successors, List.mem_filterMap]
  constructor
  · rintro ⟨i, hi, ht⟩
    have hlt : i < d.alphabet.symbols.length := List.mem_range.1 hi
    have hc : d.column? d.alphabet.symbols[i] = some i :=
      column?_eq_some_iff.2 (List.getElem?_eq_getElem hlt)
    exact ⟨_, next?_eq_some_iff.2 ⟨i, hc, ht⟩⟩
  · rintro ⟨c, ht⟩
    obtain ⟨i, hi, ht⟩ := next?_eq_some_iff.1 ht
    obtain ⟨hlt, _⟩ := List.getElem?_eq_some_iff.1 (column?_eq_some_iff.1 hi)
    exact ⟨i, List.mem_range.2 hlt, ht⟩

theorem start_mem_reachable (h : d.WellFormed) : d.start ∈ d.reachable :=
  Search.mem_reachable_iff.2 (.start (List.mem_singleton.2 rfl) h.start_lt)

theorem lt_of_mem_reachable (hs : s ∈ d.reachable) : s < d.states.size :=
  (Search.mem_reachable_iff.1 hs).lt_bound

theorem nodup_reachable (d : Dfa) : d.reachable.Nodup :=
  (Search.reachable_sorted _ _ _).imp Nat.ne_of_lt

theorem mem_reachable_of_next? (h : d.WellFormed) (hs : s ∈ d.reachable)
    (ht : d.next? s c = some t) :
    t ∈ d.reachable :=
  Search.mem_reachable_iff.2
    ((Search.mem_reachable_iff.1 hs).tail (mem_successors_iff.2 ⟨c, ht⟩) (h.next?_lt ht))

theorem mem_reachable_of_run (h : d.WellFormed) (hs : s ∈ d.reachable)
    (ht : d.run (some s) w = some t) : t ∈ d.reachable := by
  induction w generalizing s with
  | nil =>
    cases ht
    exact hs
  | cons c w ih =>
    rw [run_cons, step_some] at ht
    cases hc : d.next? s c with
    | none =>
      rw [hc, run_none] at ht
      cases ht
    | some u =>
      rw [hc] at ht
      exact ih (mem_reachable_of_next? h hs hc) ht

theorem mem_reachable_iff (h : d.WellFormed) :
    s ∈ d.reachable ↔ ∃ w, d.run (some d.start) w = some s := by
  constructor
  · intro hs
    obtain ⟨u, hu, _, hp⟩ := Search.mem_reachable_iff.1 hs
    obtain rfl := List.mem_singleton.1 hu
    clear hs
    induction hp with
    | refl => exact ⟨[], rfl⟩
    | tail _ he ih =>
      obtain ⟨w, hw⟩ := ih
      obtain ⟨c, hc⟩ := mem_successors_iff.1 he.1
      exact ⟨w ++ [c], by rw [run_append, hw]; exact hc⟩
  · rintro ⟨w, hw⟩
    exact mem_reachable_of_run h (start_mem_reachable h) hw

end Acceptors.Dfa
