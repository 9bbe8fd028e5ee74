import Mathlib.Tactic.Common
import Acceptors.Proofs.Document.Arrangement

/-! The blocks that are open between two lines. The next line may begin a block below the line
before it. Otherwise it goes into the innermost open block of its own indent and kind, and the
blocks inside that one are closed. -/

namespace Acceptors.Block

structure Open where
  indent : Nat
  isList : Bool

def Open.takes (b : Open) (l : Line) : Bool := l.indent == b.indent && l.isItem == b.isList

def Open.ofLine (l : Line) : Open := ⟨l.indent, l.isItem⟩

def leads (l next : Line) : Bool :=
  match l.content with
  | .entry f => f.value.isNone && belongsToKey l.indent next
  | .item => l.indent < next.indent
  | .itemValue _ => false
  | .itemEntry f => f.value.isNone && belongsToKey (innerIndent f) next

def openedBy (l : Line) : List Open :=
  match l.content with
  | .itemEntry f => [⟨innerIndent f, false⟩]
  | _ => []

/-- The open blocks, innermost first, and the last line, below which one more may begin. -/
structure Openings where
  blocks : List Open
  last : Option Line

/-- The open blocks after the next line, which begins a block or closes all blocks inside the one
that takes it. -/
def Openings.accept? (s : Openings) (l : Line) : Option Openings :=
  let blocks := if s.last.any (leads · l) then Open.ofLine l :: s.blocks
    else s.blocks.dropWhile (!·.takes l)
  if blocks.isEmpty then none else some ⟨openedBy l ++ blocks, some l⟩

def stray? : Openings → List Line → Option Line
  | _, [] => none
  | s, l :: ls =>
    match s.accept? l with
    | none => some l
    | some s => stray? s ls

def strayLine? : List Line → Option Line
  | [] => none
  | l :: ls => stray? ⟨[.ofLine l], none⟩ (l :: ls)

variable {i : Nat} {l l' : Line} {ls : List Line} {b : Open} {outer : List Open}

theorem takes_ofLine (l : Line) : (Open.ofLine l).takes l = true := by
  rw [Open.takes, Open.ofLine, beq_self_eq_true, beq_self_eq_true]
  rfl

theorem stray?_take (h : b.takes l = true) (ls : List Line) :
    stray? ⟨b :: outer, none⟩ (l :: ls) = stray? ⟨openedBy l ++ b :: outer, some l⟩ ls := by
  have hdrop : (b :: outer).dropWhile (!·.takes l) = b :: outer := by
    rw [List.dropWhile_cons_of_neg (by simp [h])]
  rw [stray?, Openings.accept?]
  simp only [Option.any_none, Bool.false_eq_true, if_false, hdrop, List.isEmpty_cons]

theorem stray?_close (h : b.takes l = false) (ls : List Line) :
    stray? ⟨b :: outer, none⟩ (l :: ls) = stray? ⟨outer, none⟩ (l :: ls) := by
  have hdrop : (b :: outer).dropWhile (!·.takes l) = outer.dropWhile (!·.takes l) :=
    List.dropWhile_cons_of_pos (by simp [h])
  rw [stray?, stray?, Openings.accept?, Openings.accept?]
  simp only [Option.any_none, Bool.false_eq_true, if_false, hdrop]

theorem stray?_begin (h : leads l l' = true) (ls : List Line) :
    stray? ⟨outer, some l⟩ (l' :: ls) = stray? ⟨.ofLine l' :: outer, none⟩ (l' :: ls) := by
  rw [stray?_take (takes_ofLine l'), stray?, Openings.accept?]
  simp only [Option.any_some, h, if_true, List.isEmpty_cons, Bool.false_eq_true, if_false]

theorem stray?_pass (h : ∀ l' ∈ ls.head?, leads l l' = false) :
    stray? ⟨outer, some l⟩ ls = stray? ⟨outer, none⟩ ls := by
  cases ls with
  | nil => rfl
  | cons l' ls =>
    rw [stray?, stray?, Openings.accept?, Openings.accept?]
    simp only [Option.any_some, h l' rfl, Option.any_none]

theorem stray?_nil_blocks (ls : List Line) : stray? ⟨[], none⟩ ls = ls.head? := by
  cases ls with
  | nil => rfl
  | cons l ls => rfl

theorem takes_entries_iff : (⟨i, false⟩ : Open).takes l = true ↔
    l.indent = i ∧ ∃ f, l.content = .entry f := by
  rw [Open.takes, Bool.and_eq_true, beq_iff_eq, beq_iff_eq, Line.isItem]
  refine and_congr_right' ?_
  cases l.content <;> simp

theorem takes_items_iff : (⟨i, true⟩ : Open).takes l = true ↔
    l.indent = i ∧ ∀ f, l.content ≠ .entry f := by
  rw [Open.takes, Bool.and_eq_true, beq_iff_eq, beq_iff_eq, Line.isItem]
  refine and_congr_right' ?_
  cases l.content <;> simp

end Acceptors.Block
