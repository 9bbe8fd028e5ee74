import Acceptors.Regex.Fragment

/-! Compiled regular expressions. The automaton is part of the value; `ofExpr` is the way to make
one. -/

namespace Acceptors

structure Regex where
  bindings : List (String × Regex.Expr)
  expr : Regex.Expr
  nfa : Nfa
deriving DecidableEq, Repr

namespace Regex

def ofExpr (bindings : List (String × Expr)) (expr : Expr) : Regex := ⟨bindings, expr, expr.toNfa⟩

/-- Whether the whole word matches. A symbol that is not in the pattern makes it fail. -/
def accepts (r : Regex) (word : List Char) : Bool := r.nfa.acceptsFrom r.nfa.startSet word

def trace (r : Regex) (word : List Char) : Nfa.Trace := r.nfa.traceOf word

end Regex

end Acceptors
