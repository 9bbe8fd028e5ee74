import Acceptors.Alphabet
import Acceptors.Declaration
import Acceptors.Proofs.Outcome
import Acceptors.Proofs.Places

/-! Words over an alphabet. Such words are taken as they are, and no others are. -/

namespace Acceptors.Alphabet

variable {a : Alphabet} {c : Char} {v w : List Char}

theorem tokenize_go_eq_ok_iff {position : Nat} {rest : List Char} :
    tokenize.go a w position rest = .ok v ↔ v = w ∧ ∀ c ∈ rest, c ∈ a := by
  induction rest generalizing position with
  | nil =>
    rw [tokenize.go, Except.ok.injEq, eq_comm]
    exact (and_iff_left fun c hc => absurd hc List.not_mem_nil).symm
  | cons c rest ih =>
    rw [tokenize.go, List.forall_mem_cons]
    split
    · rename_i hc
      rw [ih, and_iff_right hc]
    · rename_i hc
      constructor
      · intro h
        cases h
      · intro h
        exact absurd h.2.1 hc

theorem tokenize_eq_ok_iff : a.tokenize w = .ok v ↔ v = w ∧ ∀ c ∈ w, c ∈ a :=
  tokenize_go_eq_ok_iff

theorem tokenize_go_foreign {position : Nat} {rest : List Char} (hv : ∀ x ∈ v, x ∈ a) (hc : c ∉ a) :
    tokenize.go a w position (v ++ c :: rest) =
    .error (.unknownSymbol c (position + v.length)) := by
  induction v generalizing position with
  | nil => exact if_neg hc
  | cons x v ih =>
    have hx := List.forall_mem_cons.1 hv
    rw [List.cons_append, tokenize.go, if_pos hx.1, ih hx.2, List.length_cons]
    congr 2
    omega

theorem tokenize_foreign (hv : ∀ x ∈ v, x ∈ a) (hc : c ∉ a) (w : List Char) :
    a.tokenize (v ++ c :: w) = .error (.unknownSymbol c v.length) := by
  rw [tokenize, tokenize_go_foreign hv hc, Nat.zero_add]

theorem symbols_of_ofDistinct {symbols : List Char} (h : ofDistinct symbols = .ok a) :
    a.symbols = symbols := by
  unfold ofDistinct at h
  split at h
  · cases h
  · cases h
    rfl

theorem symbols_of_alphabet {symbols : List Char} {field : String}
    (h : Declaration.alphabet symbols field = .ok a) : a.symbols = symbols :=
  symbols_of_ofDistinct (mapError_eq_ok_iff.1 h)

theorem lt_size_of_idxOf? {i : Nat} (h : a.symbols.idxOf? c = some i) : i < a.size :=
  (List.getElem?_eq_some_iff.1 ((list_idxOf?_eq_some_iff a.nodup).1 h)).1

theorem mem_insert_iff {x : Char} : x ∈ a.insert c ↔ x ∈ a ∨ x = c := by
  rw [insert]
  split
  · rename_i hc
    exact ⟨Or.inl, fun h => h.elim id fun hx => hx ▸ hc⟩
  · exact List.mem_append.trans (or_congr Iff.rfl List.mem_singleton)

theorem symbols_insert_of_not_mem (h : c ∉ a) : (a.insert c).symbols = a.symbols ++ [c] := by
  rw [insert]
  exact congrArg symbols (dif_neg h)

theorem mem_ofList_iff {symbols : List Char} : c ∈ ofList symbols ↔ c ∈ symbols := by
  suffices h : ∀ a : Alphabet, c ∈ symbols.foldl insert a ↔ c ∈ a ∨ c ∈ symbols from
    (h empty).trans (or_iff_right List.not_mem_nil)
  induction symbols with
  | nil => exact fun a => (or_iff_left List.not_mem_nil).symm
  | cons x symbols ih =>
    intro a
    rw [List.foldl_cons, ih, mem_insert_iff, List.mem_cons, or_assoc]

theorem mem_union_iff {b : Alphabet} : c ∈ a.union b ↔ c ∈ a ∨ c ∈ b :=
  mem_ofList_iff.trans List.mem_append

end Acceptors.Alphabet
