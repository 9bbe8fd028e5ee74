import Mathlib.Data.List.ReduceOption
import Mathlib.Tactic.Common
import Acceptors.Document.Syntax
import Acceptors.Proofs.Document.Scan

/-! The lines of a text. They follow each other with a line end between two of them and cover the
text, so those that hold an entry or an item come in the order of the text. -/

namespace Acceptors.Syntax

open Scan (Finds Repeated)

variable {limit : Nat} {c c' : Cursor} {found : List (Option Line)} {o : Option Line}
    {ls : List Line} {text : List Char}

/-- From the cursor to the end of the text there are lines, each of which holds an entry, an item or
neither. -/
inductive Tiled (limit : Nat) : Cursor → List (Option Line) → Prop
  | last {c c' : Cursor} {o : Option Line} (h : Finds (line limit) c o c') (hend : c'.rest = []) :
      Tiled limit c [o]
  | cons {c c' c'' : Cursor} {o : Option Line} {found : List (Option Line)}
      (h : Finds (line limit) c o c') (hend : Finds Scan.newline c' () c'')
      (hrest : Tiled limit c'' found) : Tiled limit c (o :: found)

theorem Tiled.of_repeated {c'' : Cursor} (h : Repeated (do Scan.newline; line limit) c' found c'')
    (hend : c''.rest = []) (hfirst : Finds (line limit) c o c') : Tiled limit c (o :: found) := by
  induction h generalizing c o with
  | nil c' => exact .last hfirst hend
  | cons hline _ ih =>
    obtain ⟨_, c₁, hnewline, hline⟩ := hline.of_bind
    exact .cons hfirst hnewline (ih hend hline)

theorem tiled_of_lines (h : lines text = .ok ls) :
    ∃ found, Tiled (text.length + 1) (.ofText text) found ∧ ls = found.reduceOption := by
  rw [lines] at h
  split at h
  · rename_i a read c heq
    cases h
    have hdocument : Finds (document (text.length + 1)) (.ofText text) ls c := ⟨_, a, heq⟩
    obtain ⟨o, c₁, hfirst, hdocument⟩ := hdocument.of_named.of_bind
    obtain ⟨others, c₂, hothers, hdocument⟩ := hdocument.of_bind
    obtain ⟨_, c₃, hend, hdocument⟩ := hdocument.of_bind
    obtain ⟨rfl, -⟩ := hdocument.of_pure
    obtain ⟨_, rfl, hrepeated⟩ := hothers.of_manyAfter
    exact ⟨_, .of_repeated hrepeated hend.of_endOfText hfirst, rfl⟩
  · cases h

end Acceptors.Syntax
