import Mathlib.Data.ENat.Lattice
import Mathlib.Logic.Function.Iterate
import Mathlib.Tactic.Common
import Acceptors.Proofs.Turing.Tape
import Acceptors.Turing.Definition

/-! Computations on a tape without ends. A machine writes and moves in every step; where no rule
fits, it goes to the rejecting state and touches nothing else. -/

namespace Acceptors.Turing

/-- A moment of a computation, with the symbols of all cells. -/
structure Moment where
  state : String
  cells : Int → Char
  head : Int

namespace Definition

def action? (d : Definition) (state : String) (c : Char) : Option Action :=
  (d.delta.find? fun entry => entry.1 == state && entry.2.1 == c).map fun entry => entry.2.2

def first (d : Definition) (word : List Char) : Moment :=
  ⟨d.startState, Tape.holding word blankSymbol, 0⟩

def next (d : Definition) (c : Moment) : Moment :=
  match d.action? c.state (c.cells c.head) with
  | some a => ⟨a.nextState, Function.update c.cells c.head a.write, c.head + a.direction.offset⟩
  | none => { c with state := d.rejectState }

/-- The moment after some steps, the halting states being no obstacle. -/
def moment (d : Definition) (word : List Char) (k : Nat) : Moment := d.next^[k] (d.first word)

def Halted (d : Definition) (c : Moment) : Prop := c.state = d.acceptState ∨ c.state = d.rejectState

instance (d : Definition) (c : Moment) : Decidable (d.Halted c) :=
  inferInstanceAs (Decidable (c.state = d.acceptState ∨ c.state = d.rejectState))

noncomputable def haltingTime (d : Definition) (word : List Char) : ℕ∞ :=
  ⨅ k : {k : Nat // d.Halted (d.moment word k)}, (k : ℕ∞)

variable {d : Definition} {word : List Char} {n : Nat}

theorem next_of_action {c : Moment} {a : Action} (h : d.action? c.state (c.cells c.head) = some a) :
    d.next c = ⟨a.nextState, Function.update c.cells c.head a.write,
      c.head + a.direction.offset⟩ := by
  rw [next, h]

theorem next_of_no_action {c : Moment} (h : d.action? c.state (c.cells c.head) = none) :
    d.next c = ⟨d.rejectState, c.cells, c.head⟩ := by
  rw [next, h]

theorem moment_succ (d : Definition) (word : List Char) (n : Nat) :
    d.moment word (n + 1) = d.next (d.moment word n) :=
  Function.iterate_succ_apply' d.next n (d.first word)

theorem haltingTime_eq (h : d.Halted (d.moment word n))
    (hbefore : ∀ k < n, ¬d.Halted (d.moment word k)) : d.haltingTime word = n := by
  apply le_antisymm
  · exact iInf_le (fun k : {k : Nat // d.Halted (d.moment word k)} => (k : ℕ∞)) ⟨n, h⟩
  · refine le_iInf fun ⟨k, hk⟩ => Nat.cast_le.2 ?_
    exact Nat.le_of_not_lt fun hlt => hbefore k hlt hk

theorem lt_haltingTime (h : ∀ k ≤ n, ¬d.Halted (d.moment word k)) :
    (n : ℕ∞) < d.haltingTime word := by
  have hlt : (n : ℕ∞) < (n + 1 : Nat) := Nat.cast_lt.2 (Nat.lt_succ_self n)
  refine lt_of_lt_of_le hlt (le_iInf fun ⟨k, hk⟩ => Nat.cast_le.2 ?_)
  exact Nat.lt_of_not_le fun hle => h k hle hk

end Definition

end Acceptors.Turing
