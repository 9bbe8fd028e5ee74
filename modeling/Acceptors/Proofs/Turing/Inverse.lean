import Acceptors.Proofs.Outcome
import Acceptors.Proofs.Turing.Trimmed
import Acceptors.Turing.Diff

/-! Steps and steps back undo each other. The check in front of a change asks for just what the
change back puts in place again, so this holds of any diff and any configuration, also where no
machine made them. -/

namespace Acceptors

namespace Tape

theorem blank_write (t : Tape) (p : Int) (c : Char) : (t.write p c).blank = t.blank := by
  cases p <;> rfl

theorem blank_extendTo (t : Tape) (p : Int) : (t.extendTo p).blank = t.blank := by
  cases p <;> rfl

end Tape

namespace Configuration

variable {c c' : Configuration} {d : Diff} {use : Replay} {state : String} {head cell : Int}
  {symbol : Char} {v : Violation}

theorem beq_iff : (c == c') = true ↔
    c.state = c'.state ∧ (c.tape == c'.tape) = true ∧ c.head = c'.head := by
  change (c.state == c'.state && c.tape == c'.tape && c.head == c'.head) = true ↔ _
  rw [Bool.and_eq_true, Bool.and_eq_true, and_assoc, beq_iff_eq (a := c.state),
    beq_iff_eq (a := c.head)]

theorem check_eq_ok_iff : c.check use state head cell symbol = .ok () ↔
    c.state = state ∧ c.head = head ∧ c.tape.read cell = symbol := by
  rw [check, ← and_assoc]
  by_cases hplace : c.state = state ∧ c.head = head
  · by_cases hsymbol : c.tape.read cell = symbol
    · simp [hplace, hsymbol]
    · simp [hplace, hsymbol]
  · simp [hplace]

theorem apply_eq_ok_iff : c.apply d = .ok c' ↔
    (c.state = d.prevState ∧ c.head = d.prevHead ∧ c.tape.read d.prevHead = d.prevSymbol) ∧
      c' = ⟨d.nextState, (c.tape.write d.prevHead d.nextSymbol).extendTo d.nextHead,
        d.nextHead⟩ := by
  rw [apply, bind_eq_ok_iff]
  constructor
  · rintro ⟨⟨⟩, hcheck, hnext⟩
    exact ⟨check_eq_ok_iff.1 hcheck, (Except.ok.inj hnext).symm⟩
  · rintro ⟨hcheck, rfl⟩
    exact ⟨(), check_eq_ok_iff.2 hcheck, rfl⟩

theorem reverse_eq_ok_iff : c.reverse d = .ok c' ↔
    (c.state = d.nextState ∧ c.head = d.nextHead ∧ c.tape.read d.prevHead = d.nextSymbol) ∧
      c' = ⟨d.prevState, c.tape.write d.prevHead d.prevSymbol, d.prevHead⟩ := by
  rw [reverse, bind_eq_ok_iff]
  constructor
  · rintro ⟨⟨⟩, hcheck, hnext⟩
    exact ⟨check_eq_ok_iff.1 hcheck, (Except.ok.inj hnext).symm⟩
  · rintro ⟨hcheck, rfl⟩
    exact ⟨(), check_eq_ok_iff.2 hcheck, rfl⟩

theorem exists_reverse_of_apply (h : c.apply d = .ok c') :
    ∃ restored, c'.reverse d = .ok restored ∧ (restored == c) = true := by
  obtain ⟨⟨hstate, hhead, hsymbol⟩, rfl⟩ := apply_eq_ok_iff.1 h
  refine ⟨_, reverse_eq_ok_iff.2 ⟨⟨rfl, rfl, ?_⟩, rfl⟩,
    beq_iff.2 ⟨hstate.symm, Tape.beq_iff.2 ⟨?_, ?_⟩, hhead.symm⟩⟩
  · rw [Tape.read_extendTo, Tape.read_write, Function.update_self]
  · rw [Tape.blank_write, Tape.blank_extendTo, Tape.blank_write]
  · intro p
    rw [Tape.read_write, Tape.read_extendTo, Tape.read_write, Function.update_idem, ← hsymbol,
      Function.update_eq_self]

theorem exists_apply_of_reverse (h : c.reverse d = .ok c') :
    ∃ restored, c'.apply d = .ok restored ∧ (restored == c) = true := by
  obtain ⟨⟨hstate, hhead, hsymbol⟩, rfl⟩ := reverse_eq_ok_iff.1 h
  refine ⟨_, apply_eq_ok_iff.2 ⟨⟨rfl, rfl, ?_⟩, rfl⟩,
    beq_iff.2 ⟨hstate.symm, Tape.beq_iff.2 ⟨?_, ?_⟩, hhead.symm⟩⟩
  · rw [Tape.read_write, Function.update_self]
  · rw [Tape.blank_extendTo, Tape.blank_write, Tape.blank_write]
  · intro p
    rw [Tape.read_extendTo, Tape.read_write, Tape.read_write, Function.update_idem, ← hsymbol,
      Function.update_eq_self]

end Configuration

end Acceptors
