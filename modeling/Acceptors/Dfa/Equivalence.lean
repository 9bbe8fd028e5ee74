import Acceptors.Dfa.Basic

/-! Language equivalence of two automata. A pair of states, each possibly dead, is coded as one
number, and the automata are equivalent when every pair that some word leads to agrees on
acceptance. -/

namespace Acceptors.Dfa

/-- Dead is zero, and state `s` is `s + 1`. -/
def stateCode : Option Nat → Nat
  | none => 0
  | some s => s + 1

def ofStateCode : Nat → Option Nat
  | 0 => none
  | s + 1 => some s

@[simp] theorem ofStateCode_stateCode (s : Option Nat) : ofStateCode (stateCode s) = s := by
  cases s <;> rfl

def pairCode (width : Nat) (p : Option Nat × Option Nat) : Nat :=
  stateCode p.1 * width + stateCode p.2

def ofPairCode (width n : Nat) : Option Nat × Option Nat :=
  (ofStateCode (n / width), ofStateCode (n % width))

theorem ofPairCode_pairCode {width : Nat} {p : Option Nat × Option Nat}
    (h : stateCode p.2 < width) : ofPairCode width (pairCode width p) = p := by
  have hw : 0 < width := Nat.lt_of_le_of_lt (Nat.zero_le _) h
  have hd : pairCode width p / width = stateCode p.1 := by
    rw [pairCode, Nat.mul_comm, Nat.mul_add_div hw, Nat.div_eq_of_lt h, Nat.add_zero]
  have hm : pairCode width p % width = stateCode p.2 := by
    rw [pairCode, Nat.mul_comm, Nat.mul_add_mod, Nat.mod_eq_of_lt h]
  simp [ofPairCode, hd, hm]

def stepIn (d : Dfa) (column : Option Nat) (state : Option Nat) : Option Nat :=
  match state, column with
  | some s, some i => d.table.get? s i
  | _, _ => none

theorem stepIn_column? (d : Dfa) (c : Char) (state : Option Nat) :
    d.stepIn (d.column? c) state = d.step state c := by
  cases state with
  | none => rfl
  | some s => cases h : d.column? c <;> simp [stepIn, step, next?, h]

def isEquivalent (a b : Dfa) : Bool :=
  let width := b.states.size + 1
  let columns := (a.alphabet.union b.alphabet).symbols.map fun c => (a.column? c, b.column? c)
  let next (n : Nat) : List Nat :=
    let p := ofPairCode width n
    columns.map fun (i, j) => pairCode width (a.stepIn i p.1, b.stepIn j p.2)
  Search.all ((a.states.size + 1) * width) next [pairCode width (some a.start, some b.start)]
    fun n =>
      let p := ofPairCode width n
      a.isAccepting p.1 == b.isAccepting p.2

end Acceptors.Dfa
