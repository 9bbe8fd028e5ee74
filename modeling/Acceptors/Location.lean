/-! Places in a source text. Lines and columns count from one; only a line feed begins a new line,
so a carriage return is one more column. -/

namespace Acceptors

structure Location where
  line : Nat
  column : Nat
deriving DecidableEq, Repr

namespace Location

def start : Location := ⟨1, 1⟩

def next (l : Location) (c : Char) : Location :=
  if c = '\n' then ⟨l.line + 1, 1⟩ else ⟨l.line, l.column + 1⟩

def after (l : Location) (text : List Char) : Location := text.foldl next l

@[simp] theorem after_nil (l : Location) : l.after [] = l := rfl

@[simp] theorem after_cons (l : Location) (c : Char) (text : List Char) :
    l.after (c :: text) = (l.next c).after text := rfl

theorem after_append (l : Location) (s t : List Char) : l.after (s ++ t) = (l.after s).after t :=
  List.foldl_append

end Location

end Acceptors
