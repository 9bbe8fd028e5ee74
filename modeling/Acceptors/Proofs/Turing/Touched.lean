import Mathlib.Tactic.Common
import Acceptors.Proofs.Turing.Strip

/-! Tapes that are written to and extended in any order. Each cell holds what was last written to
it, or else what it held at first, and the stored range is the first one with the touched cells
taken in. A row of cells with positions of 64 bits does the same as long as the range fits. -/

namespace Acceptors

inductive Touch
  | write (position : Int) (c : Char)
  | extend (position : Int)
deriving DecidableEq, Repr

namespace Touch

def position : Touch → Int
  | write p _ => p
  | extend p => p

def symbolAt? (p : Int) : Touch → Option Char
  | write q c => if p = q then some c else none
  | extend _ => none

def last? (touches : List Touch) (p : Int) : Option Char := touches.reverse.findSome? (symbolAt? p)

theorem last?_cons (touch : Touch) (touches : List Touch) (p : Int) :
    last? (touch :: touches) p = (last? touches p).or (touch.symbolAt? p) := by
  rw [last?, List.reverse_cons, List.findSome?_append, List.findSome?_singleton, last?]

end Touch

namespace Tape

variable {t : Tape} {touches : List Touch}

def touch (t : Tape) : Touch → Tape
  | .write p c => t.write p c
  | .extend p => t.extendTo p

theorem read_touch (t : Tape) (touch : Touch) (p : Int) :
    (t.touch touch).read p = (touch.symbolAt? p).getD (t.read p) := by
  cases touch with
  | write q c =>
    rw [Tape.touch, read_write, Function.update_apply, Touch.symbolAt?]
    split <;> rfl
  | extend q =>
    rw [Tape.touch, read_extendTo]
    rfl

theorem first_touch (t : Tape) (touch : Touch) :
    (t.touch touch).first = min t.first touch.position := by
  cases touch with
  | write q c => exact first_write t q c
  | extend q => exact first_extendTo t q

theorem stop_touch (t : Tape) (touch : Touch) :
    (t.touch touch).stop = max t.stop (touch.position + 1) := by
  cases touch with
  | write q c => exact stop_write t q c
  | extend q => exact stop_extendTo t q

theorem length_le_touch (t : Tape) (touch : Touch) :
    t.cells.length ≤ (t.touch touch).cells.length := by
  have hlength := t.length_cells
  have hlength' := (t.touch touch).length_cells
  rw [first_touch, stop_touch] at hlength'
  omega

theorem read_foldl_touch (touches : List Touch) (t : Tape) (p : Int) :
    (touches.foldl touch t).read p = (Touch.last? touches p).getD (t.read p) := by
  induction touches generalizing t with
  | nil => rfl
  | cons touch touches ih =>
    rw [List.foldl_cons, ih, read_touch, Touch.last?_cons]
    cases Touch.last? touches p <;> rfl

theorem first_foldl_touch (touches : List Touch) (t : Tape) :
    (touches.foldl touch t).first = (touches.map Touch.position).foldl min t.first := by
  induction touches generalizing t with
  | nil => rfl
  | cons touch touches ih => rw [List.foldl_cons, ih, first_touch, List.map_cons, List.foldl_cons]

theorem stop_foldl_touch (touches : List Touch) (t : Tape) :
    (touches.foldl touch t).stop = (touches.map (·.position + 1)).foldl max t.stop := by
  induction touches generalizing t with
  | nil => rfl
  | cons touch touches ih => rw [List.foldl_cons, ih, stop_touch, List.map_cons, List.foldl_cons]

theorem length_le_foldl_touch (touches : List Touch) (t : Tape) :
    t.cells.length ≤ (touches.foldl touch t).cells.length := by
  induction touches generalizing t with
  | nil => exact Nat.le_refl _
  | cons touch touches ih => exact (t.length_le_touch touch).trans (ih _)

end Tape

namespace Strip

variable {t : Tape}

def touch? (s : Strip) : Touch → Option Strip
  | .write p c => s.write? p c
  | .extend p => s.extendTo? p

theorem touch?_strip {touch : Touch} (h : ((t.touch touch).cells.length : Int) < 2 ^ 63) :
    t.strip.touch? touch = some (t.touch touch).strip := by
  cases touch with
  | write p c => exact write?_strip h
  | extend p => exact extendTo?_strip h

theorem foldlM_touch?_strip {touches : List Touch}
    (h : ((touches.foldl Tape.touch t).cells.length : Int) < 2 ^ 63) :
    touches.foldlM touch? t.strip = some (touches.foldl Tape.touch t).strip := by
  induction touches generalizing t with
  | nil => rfl
  | cons touch touches ih =>
    have hle := Tape.length_le_foldl_touch touches (t.touch touch)
    rw [List.foldl_cons] at h
    rw [List.foldlM_cons, touch?_strip (by omega), Option.bind_eq_bind, Option.bind_some, ih h,
      List.foldl_cons]

end Strip

namespace Tape

/-- Whatever cells of a tape were touched and in whatever order, a cell holds the symbol last
written to it, or else that of the word or the blank. Exactly the cells of the word, the touched
ones and those between them and cell 0 are stored. If their number fits a word, one row of cells
holds the same. -/
theorem touched_holds_last_written (word : List Char) (blank : Char) (touches : List Touch) :
    let t := touches.foldl touch (ofInput word blank)
    (∀ p, t.read p = (Touch.last? touches p).getD (holding word blank p)) ∧
    (∀ p, (t.extendTo p).read = t.read) ∧
    t.first = (touches.map Touch.position).foldl min 0 ∧
    t.stop = (touches.map (·.position + 1)).foldl max (word.length : Int) ∧
    (t.stop - t.first < 2 ^ 63 → ∃ s, touches.foldlM Strip.touch? ⟨word, 0, blank⟩ = some s ∧
      s.origin = t.first ∧ s.stop = t.stop ∧
      ∀ p, -2 ^ 63 ≤ p - t.first → p - t.first < 2 ^ 63 → s.read? p = some (t.read p)) := by
  intro t
  refine ⟨fun p => ?_, t.read_extendTo, first_foldl_touch touches _, stop_foldl_touch touches _,
    fun hsize => ?_⟩
  · rw [read_foldl_touch, read_ofInput]
  · have hlength : (t.cells.length : Int) < 2 ^ 63 := t.length_cells ▸ hsize
    have hstop : t.strip.stop = t.stop := by
      have hwidth := t.length_cells
      change t.first + t.cells.length = t.stop
      omega
    exact ⟨t.strip, Strip.foldlM_touch?_strip hlength, rfl, hstop, fun p => Strip.read?_strip⟩

theorem touched_holds_last_written_left_of_word :
    let touches : List Touch := [.extend (-3), .write (-2) 'x', .write 1 'y', .write (-2) 'z']
    let t := touches.foldl touch (ofInput [] '_')
    t.read (-2) = 'z' ∧ t.read 0 = '_' ∧ t.first = -3 ∧ t.stop = 2 ∧
    ∃ s, touches.foldlM Strip.touch? ⟨[], 0, '_'⟩ = some s ∧ s.origin = -3 ∧ s.stop = 2 ∧
      s.read? (-2) = some 'z' := by
  intro touches t
  obtain ⟨hread, -, hfirst, hstop, hstrip⟩ := touched_holds_last_written [] '_' touches
  have hfirst : t.first = -3 := hfirst.trans (by decide)
  have hstop : t.stop = 2 := hstop.trans (by decide)
  obtain ⟨s, hs, horigin, hend, hcells⟩ := hstrip (by rw [hfirst, hstop]; decide)
  refine ⟨(hread (-2)).trans (by decide), (hread 0).trans (by decide), hfirst, hstop, s, hs,
    horigin.trans hfirst,
    hend.trans hstop, ?_⟩
  rw [hcells (-2) (by rw [hfirst]; decide) (by rw [hfirst]; decide)]
  exact congrArg some ((hread (-2)).trans (by decide))

end Tape

end Acceptors
