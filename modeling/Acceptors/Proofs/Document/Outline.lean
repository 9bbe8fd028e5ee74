import Mathlib.Tactic.Common
import Acceptors.Proofs.Document.Fuel
import Acceptors.Proofs.Document.Keys
import Acceptors.Proofs.Document.Lines

/-! The block level of a document. An outline tells the entries and items that have lines of their
own from those inside the values on a line. Read from the top, they are those of the lines in their
order. -/

namespace Acceptors

mutual

/-- A tree down to the values that stand on lines. -/
inductive Outline
  | nothing (location : Location)
  | inline (n : Node)
  | list (location : Location) (items : List Outline)
  | mapping (location : Location) (entries : List OutlineEntry)

inductive OutlineEntry
  | mk (key : String) (location : Location) (value : Outline)

end

inductive Row
  | entry (f : Field)
  | item (value : Option Node)

def Line.rows (l : Line) : List Row :=
  match l.content with
  | .entry f => [.entry f]
  | .item => [.item none]
  | .itemValue n => [.item (some n)]
  | .itemEntry f => [.item none, .entry f]

namespace Outline

def inline? : Outline → Option Node
  | inline n => some n
  | _ => none

mutual

def node : Outline → Node
  | nothing l => .null l
  | inline n => n
  | list l items => .list l (nodesOf items)
  | mapping l entries => .mapping l (entriesOf entries)

def nodesOf : List Outline → List Node
  | [] => []
  | o :: os => o.node :: nodesOf os

def entriesOf : List OutlineEntry → List Entry
  | [] => []
  | .mk key l o :: es => .mk key l o.node :: entriesOf es

end

mutual

def rows : Outline → List Row
  | nothing _ => []
  | inline _ => []
  | list _ items => itemRows items
  | mapping _ entries => entryRows entries

def itemRows : List Outline → List Row
  | [] => []
  | o :: os => .item o.inline? :: (o.rows ++ itemRows os)

def entryRows : List OutlineEntry → List Row
  | [] => []
  | .mk key l o :: es => .entry ⟨key, l, o.inline?⟩ :: (o.rows ++ entryRows es)

end

end Outline

open Outline (nodesOf entriesOf itemRows entryRows)

def Piece.Outlined (rows : List Row) : Piece → Prop
  | value f n => ∃ o : Outline, o.node = n ∧ o.inline? = f.value ∧ o.rows = rows
  | entries es => ∃ os, entriesOf os = es ∧ entryRows os = rows
  | item n => ∃ o : Outline, o.node = n ∧ .item o.inline? :: o.rows = rows
  | items ns => ∃ os, nodesOf os = ns ∧ itemRows os = rows
  | block n => ∃ o : Outline, o.node = n ∧ o.inline? = none ∧ o.rows = rows

namespace Block

variable {i : Nat} {p : Piece} {ls : List Line} {n : Node}

theorem Arranged.outlined (h : Arranged i p ls) : p.Outlined (ls.flatMap Line.rows) := by
  induction h with
  | beside h => exact ⟨.inline _, rfl, h.symm, rfl⟩
  | missing h => exact ⟨.nothing _, rfl, h.symm, rfl⟩
  | valueBelow h _ _ ih =>
    obtain ⟨o, ho, hinline, hrows⟩ := ih
    exact ⟨o, ho, hinline.trans h.symm, hrows⟩
  | noEntries => exact ⟨[], rfl, rfl⟩
  | @entry i l f n es ls ls' hi h _ _ ihvalue ihrest =>
    obtain ⟨o, rfl, hinline, hrows⟩ := ihvalue
    obtain ⟨os, rfl, hrows'⟩ := ihrest
    refine ⟨.mk f.key f.location o :: os, rfl, ?_⟩
    rw [entryRows, hinline, hrows, hrows', List.flatMap_cons, List.flatMap_append, Line.rows, h]
    rfl
  | noContent hi h =>
    refine ⟨.nothing _, rfl, ?_⟩
    rw [List.flatMap_singleton, Line.rows, h]
    rfl
  | itemBelow hi h _ _ ih =>
    obtain ⟨o, ho, hinline, hrows⟩ := ih
    refine ⟨o, ho, ?_⟩
    rw [List.flatMap_cons, Line.rows, h, ← hrows, hinline]
    rfl
  | itemValue hi h =>
    refine ⟨.inline _, rfl, ?_⟩
    rw [List.flatMap_singleton, Line.rows, h]
    rfl
  | @itemEntry i l f n es ls ls' hi h _ _ _ ihvalue ihrest =>
    obtain ⟨o, rfl, hinline, hrows⟩ := ihvalue
    obtain ⟨os, rfl, hrows'⟩ := ihrest
    refine ⟨.mapping f.location (.mk f.key f.location o :: os), rfl, ?_⟩
    rw [Outline.rows, entryRows, hinline, hrows, hrows', List.flatMap_cons,
      List.flatMap_append, Line.rows, h]
    rfl
  | noItems => exact ⟨[], rfl, rfl⟩
  | items _ _ ihitem ihrest =>
    obtain ⟨o, rfl, hrows⟩ := ihitem
    obtain ⟨os, rfl, hrows'⟩ := ihrest
    refine ⟨o :: os, rfl, ?_⟩
    rw [itemRows, List.flatMap_append, ← hrows, ← hrows', List.cons_append]
  | list _ ih =>
    obtain ⟨os, rfl, hrows⟩ := ih
    exact ⟨.list _ os, rfl, rfl, hrows⟩
  | mapping _ _ ih =>
    obtain ⟨os, rfl, hrows⟩ := ih
    exact ⟨.mapping _ os, rfl, rfl, hrows⟩

theorem Holds.exists_outline (h : Holds ls n) : ∃ o :
    Outline, o.node = n ∧ o.rows = ls.flatMap Line.rows := by
  cases h with
  | nothing => exact ⟨.nothing .start, rfl, rfl⟩
  | block h =>
    obtain ⟨o, ho, -, hrows⟩ := h.outlined
    exact ⟨o, ho, hrows⟩

end Block

namespace Node

/-- The entries and items of a document that stand on lines are those of the lines of its text, in
their order, and lines that make up no document have a key twice in a mapping or a line for which
there is no open block. Reading them comes to an end by itself, whatever the fuel. -/
theorem ofText_keeps_lines :
    (∀ text n, ofText text = .ok n → ∃ found,
      Syntax.Tiled (text.toList.length + 1) (.ofText text.toList) found ∧
      Block.Holds found.reduceOption n ∧
      ∃ o : Outline, o.node = n ∧ o.rows = found.reduceOption.flatMap Line.rows) ∧
    (∀ ls, (∃ n, Block.ofLines ls = .ok n ∧ Block.Holds ls n ∧ Block.strayLine? ls = none) ∨
      (∃ e, Block.ofLines ls = .error e ∧ Block.Repeats ls e) ∨
      ∃ l, Block.ofLines ls = .error (Block.misplaced l) ∧ Block.strayLine? ls = some l) ∧
    ∀ l ls fuel, 3 * (ls.length + 1) + 2 ≤ fuel →
      Block.block fuel l.indent (l :: ls) =
      Block.block (3 * (ls.length + 1) + 2) l.indent (l :: ls) := by
  refine ⟨fun text n h => ?_, Block.ofLines_cases, fun l ls fuel hfuel => ?_⟩
  · obtain ⟨-, ls, hlines, -, hblock⟩ := ofText_eq_ok_iff_exists_lines.1 h
    obtain ⟨found, htiled, rfl⟩ := Syntax.tiled_of_lines hlines
    have hholds := Block.holds_of_ofLines hblock
    exact ⟨found, htiled, hholds, hholds.exists_outline⟩
  · have hk : 2 * (l :: ls).length + 2 ≤ 3 * (ls.length + 1) + 2 := by
      rw [List.length_cons]
      omega
    exact Block.block_eq_of_le hk hfuel

def steppedText : String := "a:\n- b: 1\n  c: [2] # two\n\n-\n  - 3\nd: 4"

def stepped : Node :=
  .mapping ⟨1, 1⟩ [
    .mk "a" ⟨1, 1⟩ (.list ⟨2, 1⟩ [
      .mapping ⟨2, 3⟩ [
        .mk "b" ⟨2, 3⟩ (.scalar ⟨2, 6⟩ "1"),
        .mk "c" ⟨3, 3⟩ (.list ⟨3, 6⟩ [.scalar ⟨3, 7⟩ "2"])],
      .list ⟨6, 3⟩ [.scalar ⟨6, 5⟩ "3"]]),
    .mk "d" ⟨7, 1⟩ (.scalar ⟨7, 4⟩ "4")]

theorem steppedText_keeps_lines : ofText steppedText = .ok stepped ∧
    (∃ found, Syntax.Tiled (steppedText.toList.length + 1) (.ofText steppedText.toList) found ∧
      Block.Holds found.reduceOption stepped ∧
      ∃ o : Outline, o.node = stepped ∧ o.rows = found.reduceOption.flatMap Line.rows) ∧
    Block.block 6 0 [⟨0, .start, .item⟩] = Block.block 5 0 [⟨0, .start, .item⟩] := by
  have hread : ofText steppedText = .ok stepped := by decide +kernel
  exact ⟨hread, ofText_keeps_lines.1 _ _ hread,
    ofText_keeps_lines.2.2 ⟨0, .start, .item⟩ [] 6 (by decide)⟩

end Node

end Acceptors
