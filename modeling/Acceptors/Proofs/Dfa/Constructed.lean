import Acceptors.Proofs.Dfa.Definition
import Acceptors.Proofs.Dfa.Minimize
import Acceptors.Proofs.Nfa.Determinize
import Acceptors.Proofs.Regex.Fragment

/-! Where automata come from. Definitions, expressions, the subset construction and minimization are
the only ways to make one, and all of them are well-formed. -/

namespace Acceptors

inductive Nfa.Constructed : Nfa → Prop
  | definition {definition : Nfa.Definition} {n : Nfa}
      (h : definition.build = .ok n) : Constructed n
  | expression (e : Regex.Expr) : Constructed e.toNfa

theorem Nfa.Constructed.wellFormed {n : Nfa} (h : n.Constructed) : n.WellFormed := by
  cases h with
  | definition h => exact Nfa.Definition.wellFormed_of_build h
  | expression e => exact e.wellFormed_toNfa

namespace Dfa

inductive Constructed : Dfa → Prop
  | definition {definition : Definition} {total : Bool} {d : Dfa}
      (h : definition.build total = .ok d) :
    Constructed d
  | subsets {n : Nfa} (h : n.Constructed) : Constructed n.toDfa
  | minimal {d : Dfa} (h : Constructed d) : Constructed d.minimize

theorem Constructed.wellFormed {d : Dfa} (h : d.Constructed) : d.WellFormed := by
  induction h with
  | definition h => exact Definition.wellFormed_of_build h
  | subsets h => exact Nfa.wellFormed_toDfa h.wellFormed
  | minimal _ ih => exact wellFormed_minimize ih

/-- Minimization changes no answer, and no refusal of a word either. -/
theorem accepts_minimize {d : Dfa} (h : d.Constructed) (w : List Char) :
    d.minimize.accepts w = d.accepts w := by
  rw [accepts_eq_map, accepts_eq_map, minimize_alphabet, funext (recognizes_minimize h.wellFormed)]

theorem accepts_minimize_partial :
    let definition : Definition :=
      ⟨["p", "q", "r"], ['a'], "p", ["q"], [("p", 'a', "q"), ("r", 'a', "q")]⟩
    ∃ d, definition.build false = .ok d ∧ d.minimize.accepts ['a', 'b'] = d.accepts ['a', 'b'] ∧
      d.accepts ['a', 'b'] = .error (.unknownSymbol 'b' 1) := by
  intro definition
  let d : Dfa := ⟨⟨#["p", "q", "r"]⟩, ⟨['a'], by decide⟩, 0, #[false, true, false],
    ⟨#[#[some 1], #[none], #[some 1]]⟩⟩
  have hd : definition.build false = .ok d := by decide +kernel
  exact ⟨d, hd, accepts_minimize (.definition hd) ['a', 'b'], rfl⟩

end Dfa

end Acceptors
