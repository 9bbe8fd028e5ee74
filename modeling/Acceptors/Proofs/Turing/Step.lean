import Mathlib.Tactic.Common
import Acceptors.Proofs.Turing.Definition
import Acceptors.Turing.Basic

/-! Single steps. What the machine computes for a configuration is the change to the next moment of
the computation, and this change can be applied. -/

namespace Acceptors

open Acceptors.Turing (Definition Moment)

/-- What a configuration shows, however much of its tape is stored. -/
def Configuration.moment (c : Configuration) : Moment := ⟨c.state, c.tape.read, c.head⟩

def Turing.Moment.change (a b : Moment) : Diff :=
  { prevState := a.state
    nextState := b.state
    prevHead := a.head
    nextHead := b.head
    prevSymbol := a.cells a.head
    nextSymbol := b.cells a.head }

variable {d : Definition} {m : TuringMachine} {c : Configuration} {a b : Moment} {s : Nat}
  {state : String}

namespace Turing.Definition

theorem cells_next (d : Definition) (a : Moment) :
    (d.next a).cells = Function.update a.cells a.head ((d.next a).cells a.head) := by
  cases h : d.action? a.state (a.cells a.head) with
  | some action =>
    rw [next_of_action h]
    simp only [Function.update_self]
  | none =>
    rw [next_of_no_action h]
    exact (Function.update_eq_self a.head a.cells).symm

end Turing.Definition

theorem Configuration.apply_change (c : Configuration) (b : Moment)
    (hcells : b.cells = Function.update c.tape.read c.head (b.cells c.head)) :
    ∃ c', c.apply (c.moment.change b) = .ok c' ∧ c'.moment = b := by
  refine ⟨⟨b.state, (c.tape.write c.head (b.cells c.head)).extendTo b.head, b.head⟩, ?_, ?_⟩
  · have hcheck : c.check .apply c.state c.head c.head c.symbol = .ok () := by
      rw [check, if_pos ⟨rfl, rfl⟩]
      exact if_pos rfl
    exact bind_eq_ok_iff.2 ⟨(), hcheck, rfl⟩
  · rw [moment, Tape.read_extendTo, Tape.read_write, ← hcells]

namespace TuringMachine.Implements

theorem state_eq_iff (h : m.Implements d) {name : String} {id : Nat}
    (hid : m.states.id? name = some id) (hs : m.states.id? state = some s) :
    s = id ↔ state = name := by
  constructor
  · rintro rfl
    exact StateTable.eq_of_id? h.distinct hs hid
  · rintro rfl
    exact Option.some.inj (hs.symm.trans hid)

theorem halts_iff (h : m.Implements d) (hs : m.states.id? a.state = some s) :
    m.halts s = true ↔ d.Halted a := by
  rw [halts, Bool.or_eq_true, beq_iff_eq, beq_iff_eq, h.state_eq_iff h.accept hs,
    h.state_eq_iff h.reject hs, Definition.Halted]

theorem next_eq (h : m.Implements d) (hs : m.states.id? a.state = some s) :
    let r := m.ruleOrReject s (a.cells a.head)
    d.next a = ⟨m.states.name r.next, Function.update a.cells a.head r.write,
      a.head + r.direction.offset⟩ := by
  have haction := h.rule_action a.state s (a.cells a.head) hs
  cases hr : m.rule? s (a.cells a.head) with
  | some r =>
    rw [hr, Option.map_some] at haction
    rw [Definition.next_of_action haction.symm]
    simp only [ruleOrReject, hr, Option.getD_some, action]
  | none =>
    rw [hr, Option.map_none] at haction
    rw [Definition.next_of_no_action haction.symm]
    simp only [ruleOrReject, hr, Option.getD_none, StateTable.name_of_id? h.distinct h.reject,
      Function.update_eq_self, Direction.offset, Int.add_zero]

theorem nextDiff_eq (h : m.Implements d) (hs : m.states.id? c.state = some s)
    (hrun : ¬d.Halted c.moment) :
    m.nextDiff c = .ok (some (c.moment.change (d.next c.moment))) := by
  have hhalts : ¬m.halts s = true := mt (h.halts_iff (a := c.moment) hs).1 hrun
  rw [h.next_eq (a := c.moment) hs, nextDiff, hs]
  simp only [if_neg hhalts, Moment.change, Configuration.moment, Function.update_self,
    Configuration.symbol]

theorem declared_next (h : m.Implements d) (hs : m.states.id? a.state = some s) :
    ∃ s', m.states.id? (d.next a).state = some s' := by
  rw [h.next_eq hs, ruleOrReject]
  refine ⟨_, h.distinct.id?_name ?_⟩
  cases hr : m.rule? s (a.cells a.head) with
  | some r => exact h.next_lt _ _ r hr
  | none => exact StateTable.lt_size_of_id? h.distinct h.reject

theorem status_eq_accepted (h : m.Implements d) (hstate : c.state = d.acceptState) :
    m.status c = .accepted := by
  rw [status, hstate, h.accept]
  exact if_pos rfl

theorem status_eq_rejected (h : m.Implements d) (hstate : c.state = d.rejectState) :
    m.status c = .rejected := by
  rw [status, hstate, h.reject]
  simp only [if_neg (Ne.symm h.accept_ne_reject), if_true]

theorem status_eq_running (h : m.Implements d) (hrun : ¬d.Halted c.moment) :
    m.status c = .running := by
  rw [status]
  split
  · rename_i s hs
    have hhalts := mt (h.halts_iff (a := c.moment) hs).1 hrun
    rw [halts, Bool.or_eq_true, beq_iff_eq, beq_iff_eq, not_or] at hhalts
    rw [if_neg hhalts.1, if_neg hhalts.2]
  · rfl

end TuringMachine.Implements

end Acceptors
