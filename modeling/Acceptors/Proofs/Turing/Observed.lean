import Mathlib.Tactic.Common
import Acceptors.Proofs.Turing.Touched

/-! What can be observed of a tape is its blank and the symbol in every cell. Equality of tapes asks
for just that, the contents are read off it, and so neither depends on which cells have been
stored. -/

namespace Acceptors.Tape

variable {a b t : Tape} {text text' : String}

def row (t : Tape) (first : Int) (count : Nat) : List Char := (List.range count).map fun i :
    Nat => t.read (first + i)

def Spells (t : Tape) (text : String) : Prop :=
  ((∀ p, t.read p = t.blank) ∧ text = "") ∨
    ∃ first last, t.read first ≠ t.blank ∧ t.read last ≠ t.blank ∧
      (∀ p, t.read p ≠ t.blank → first ≤ p ∧ p ≤ last) ∧
      text = String.ofList (t.row first (last + 1 - first).toNat)

theorem trimmed_eq_row (t : Tape) : t.trimmed = t.row t.firstSymbol t.trimmed.length := by
  rw [row]
  refine List.ext_getElem (by rw [List.length_map, List.length_range]) fun n hn _ => ?_
  rw [List.getElem_map, List.getElem_range, read_firstSymbol_add, List.getD_eq_getElem _ _ hn]

theorem spells_contents (t : Tape) : t.Spells t.contents := by
  by_cases h : t.trimmed = []
  · refine .inl ⟨trimmed_eq_nil_iff.1 h, ?_⟩
    rw [contents, h]
  · have hpos : 0 < t.trimmed.length := List.length_pos_iff.2 h
    refine .inr ⟨_, _, read_firstSymbol_ne h, read_lastSymbol_ne h, fun p hp => ?_, ?_⟩
    · obtain ⟨hfirst, hlast⟩ := bounds_of_read_ne hp
      omega
    · have hcount : (t.firstSymbol + (t.trimmed.length - 1 : Nat) + 1 - t.firstSymbol).toNat =
          t.trimmed.length := by
        omega
      rw [hcount, ← trimmed_eq_row, contents]

theorem Spells.unique (ha : a.Spells text) (hb : b.Spells text') (hblank : a.blank = b.blank)
    (hread : ∀ p, a.read p = b.read p) : text = text' := by
  have hcells : a.read = b.read := funext hread
  rw [Spells, hblank, hcells] at ha
  rcases ha with ⟨hnone, rfl⟩ | ⟨first, last, hfirst, hlast, hbetween, rfl⟩
  · rcases hb with ⟨-, rfl⟩ | ⟨first, _, hfirst, -⟩
    · rfl
    · exact absurd (hnone first) hfirst
  · rcases hb with ⟨hnone, -⟩ | ⟨first', last', hfirst', hlast', hbetween', rfl⟩
    · exact absurd (hnone first) hfirst
    · have h := hbetween first' hfirst'
      have h' := hbetween' first hfirst
      have hl := hbetween last' hlast'
      have hl' := hbetween' last hlast
      have hsame : first = first' ∧ last = last' := by omega
      rw [hsame.1, hsame.2, row, row, hcells]

theorem contents_eq_of_beq (h : (a == b) = true) : a.contents = b.contents := by
  obtain ⟨hblank, hread⟩ := beq_iff.1 h
  exact a.spells_contents.unique b.spells_contents hblank hread

theorem blank_touch (t : Tape) (touch : Touch) : (t.touch touch).blank = t.blank := by
  cases touch with
  | write p c => exact blank_write t p c
  | extend p => exact blank_extendTo t p

theorem beq_touch_of_beq (h : (a == b) = true) (touch : Touch) :
    (a.touch touch == b.touch touch) = true := by
  obtain ⟨hblank, hread⟩ := beq_iff.1 h
  refine beq_iff.2 ⟨?_, fun p => ?_⟩
  · rw [blank_touch, blank_touch, hblank]
  · rw [read_touch, read_touch, hread]

/-- Tapes that were written to and extended in any way are equal exactly when they have one blank
and hold the same symbols everywhere. The contents are the symbols from the first to the last that
is not blank. Equal tapes have equal contents, and whatever is done to both of them leaves them
equal. -/
theorem touched_beq_iff_read_eq (word word' : List Char) (blank blank' : Char)
    (touches touches' : List Touch) :
    let a := touches.foldl touch (ofInput word blank)
    let b := touches'.foldl touch (ofInput word' blank')
    ((a == b) = true ↔ a.blank = b.blank ∧ ∀ p, a.read p = b.read p) ∧
    a.Spells a.contents ∧
    ((a == b) = true → a.contents = b.contents ∧
      ∀ touch : Touch, (a.touch touch == b.touch touch) = true) := by
  intro a b
  exact ⟨beq_iff, a.spells_contents, fun h => ⟨contents_eq_of_beq h, beq_touch_of_beq h⟩⟩

theorem touched_beq_iff_read_eq_padded :
    let a := [Touch.extend (-5), .extend 9].foldl touch (ofInput ['_', 'a', '_', 'b', '_'] '_')
    let b := [Touch.write 3 'b', .write 1 'x', .write 1 'a'].foldl touch (ofInput [] '_')
    (a == b) = true ∧ a.cells ≠ b.cells ∧ a.contents = "a_b" ∧ b.contents = "a_b" ∧
      (a.write (-2) 'c' == b.write (-2) 'c') = true := by
  intro a b
  have heq : (a == b) = true := by decide
  obtain ⟨-, -, hsame⟩ := touched_beq_iff_read_eq ['_', 'a', '_', 'b', '_'] [] '_' '_'
    [.extend (-5), .extend 9] [.write 3 'b', .write 1 'x', .write 1 'a']
  obtain ⟨hcontents, htouch⟩ := hsame heq
  have ha : a.contents = "a_b" := by decide
  exact ⟨heq, by decide, ha, hcontents ▸ ha, htouch (.write (-2) 'c')⟩

end Acceptors.Tape
