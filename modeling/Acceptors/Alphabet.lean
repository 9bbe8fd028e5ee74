import Acceptors.Failure

/-! Ordered sets of one-character symbols. -/

namespace Acceptors

structure Alphabet where
  symbols : List Char
  nodup : symbols.Nodup
deriving DecidableEq, Repr

namespace Alphabet

instance : Membership Char Alphabet := ⟨fun a c => c ∈ a.symbols⟩

instance (a : Alphabet) (c : Char) : Decidable (c ∈ a) :=
  inferInstanceAs (Decidable (c ∈ a.symbols))

def empty : Alphabet := ⟨[], .nil⟩

def size (a : Alphabet) : Nat := a.symbols.length

def isEmpty (a : Alphabet) : Bool := a.symbols.isEmpty

def insert (a : Alphabet) (c : Char) : Alphabet :=
  if h : c ∈ a.symbols then a
  else ⟨a.symbols ++ [c], by
    rw [List.nodup_append]
    refine ⟨a.nodup, by simp, ?_⟩
    intro x hx y hy
    simp only [List.mem_singleton] at hy
    subst hy
    exact fun e => h (e ▸ hx)⟩

def ofList (symbols : List Char) : Alphabet := symbols.foldl insert empty

def firstRepeat? (symbols : List Char) : Option Char :=
  go [] symbols
where
  go (seen : List Char) : List Char → Option Char
    | [] => none
    | c :: rest => if c ∈ seen then some c else go (c :: seen) rest

theorem firstRepeat?_go_eq_none {seen symbols : List Char}
    (h : firstRepeat?.go seen symbols = none) :
    symbols.Nodup ∧ ∀ c ∈ symbols, c ∉ seen := by
  induction symbols generalizing seen with
  | nil => simp
  | cons c rest ih =>
    simp only [firstRepeat?.go] at h
    split at h
    · cases h
    · rename_i hc
      obtain ⟨hnd, hrest⟩ := ih h
      constructor
      · exact List.nodup_cons.2 ⟨fun hm => hrest c hm (List.mem_cons_self), hnd⟩
      · intro x hx
        rcases List.mem_cons.1 hx with rfl | hx
        · exact hc
        · exact fun hs => hrest x hx (List.mem_cons_of_mem _ hs)

def ofDistinct (symbols : List Char) : Except Char Alphabet :=
  match h : firstRepeat? symbols with
  | some c => .error c
  | none => .ok ⟨symbols, (firstRepeat?_go_eq_none h).1⟩

def union (a b : Alphabet) : Alphabet := ofList (a.symbols ++ b.symbols)

def tokenize (a : Alphabet) (word : List Char) : Except DomainError (List Char) :=
  go 0 word
where
  go (position : Nat) : List Char → Except DomainError (List Char)
    | [] => .ok word
    | c :: rest => if c ∈ a then go (position + 1) rest else .error (.unknownSymbol c position)

end Alphabet

end Acceptors
