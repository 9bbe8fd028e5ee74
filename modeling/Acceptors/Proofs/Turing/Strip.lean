import Mathlib.Algebra.Group.Int.Defs
import Mathlib.Algebra.Group.Nat.Defs
import Mathlib.Tactic.Common
import Acceptors.Proofs.Turing.Inverse

/-! Tapes as one row of cells, with positions in words of 64 bits. Every sum of positions is checked
here, and an operation has no result where one of its sums does not fit. Where they all fit, a row
of cells does what the tape does. -/

namespace Acceptors

def FitsWord (x : Int) : Prop := (Int64.ofInt x).toInt = x

instance (x : Int) : Decidable (FitsWord x) :=
  inferInstanceAs (Decidable ((Int64.ofInt x).toInt = x))

theorem fitsWord_of_bounds {x : Int} (hlow : -2 ^ 63 ≤ x) (hhigh : x < 2 ^ 63) : FitsWord x :=
  Int64.toInt_ofInt_of_le hlow hhigh

namespace Configuration

variable {c c' : Configuration} {d : Diff}

theorem first_of_apply (h : c.apply d = .ok c') :
    c'.tape.first = min (min c.tape.first d.prevHead) d.nextHead := by
  obtain ⟨-, rfl⟩ := apply_eq_ok_iff.1 h
  rw [Tape.first_extendTo, Tape.first_write]

theorem stop_of_apply (h : c.apply d = .ok c') :
    c'.tape.stop = max (max c.tape.stop (d.prevHead + 1)) (d.nextHead + 1) := by
  obtain ⟨-, rfl⟩ := apply_eq_ok_iff.1 h
  rw [Tape.stop_extendTo, Tape.stop_write]

theorem first_of_reverse (h : c.reverse d = .ok c') :
    c'.tape.first = min c.tape.first d.prevHead := by
  obtain ⟨-, rfl⟩ := reverse_eq_ok_iff.1 h
  exact Tape.first_write _ _ _

theorem stop_of_reverse (h : c.reverse d = .ok c') :
    c'.tape.stop = max c.tape.stop (d.prevHead + 1) := by
  obtain ⟨-, rfl⟩ := reverse_eq_ok_iff.1 h
  exact Tape.stop_write _ _ _

theorem length_le_of_apply (h : c.apply d = .ok c') :
    c.tape.cells.length ≤ c'.tape.cells.length := by
  have hlength := c.tape.length_cells
  have hlength' := c'.tape.length_cells
  rw [first_of_apply h, stop_of_apply h] at hlength'
  omega

end Configuration

structure Strip where
  cells : List Char
  origin : Int
  blank : Char
deriving DecidableEq, Repr

def Tape.strip (t : Tape) : Strip := ⟨t.cells, t.first, t.blank⟩

namespace Strip

variable {s : Strip} {p : Int}

def stop (s : Strip) : Int := s.origin + s.cells.length

/-- The place of a cell in the row, negative if it lies in front of it. -/
def offset? (s : Strip) (p : Int) : Option Int :=
  if FitsWord (p - s.origin) then some (p - s.origin) else none

def read? (s : Strip) (p : Int) : Option Char :=
  (s.offset? p).map fun i => if 0 ≤ i then s.cells.getD i.toNat s.blank else s.blank

def growLeft? (s : Strip) (p : Int) : Option Strip :=
  if p < s.origin then
    if FitsWord (s.origin - 1) then
      growLeft? { s with cells := s.blank :: s.cells, origin := s.origin - 1 } p
    else none
  else some s
termination_by (s.origin - p).toNat

def growRight? (s : Strip) (p : Int) : Option Strip :=
  if FitsWord s.cells.length ∧ FitsWord s.stop then
    if s.stop ≤ p then growRight? { s with cells := s.cells ++ [s.blank] } p
    else some s
  else none
termination_by (p + 1 - s.stop).toNat
decreasing_by
  simp only [stop, List.length_append, List.length_singleton] at *
  omega

def extendTo? (s : Strip) (p : Int) : Option Strip := do (← s.growLeft? p).growRight? p

def write? (s : Strip) (p : Int) (c : Char) : Option Strip := do
  let s ← s.extendTo? p
  let i ← s.offset? p
  return if 0 ≤ i then { s with cells := s.cells.set i.toNat c } else s

def step? (s : Strip) (d : Diff) : Option Strip := do
  let found ← s.read? d.prevHead
  guard (FitsWord d.nextHead ∧ found = d.prevSymbol)
  let s ← s.write? d.prevHead d.nextSymbol
  s.extendTo? d.nextHead

theorem growLeft?_cases (s : Strip) (p : Int) :
    s.growLeft? p = some
        ⟨List.replicate (s.origin - p).toNat s.blank ++ s.cells, min s.origin p, s.blank⟩ ∨
      s.growLeft? p = none ∧ (p < -2 ^ 63 ∨ 2 ^ 63 ≤ s.origin) := by
  fun_induction growLeft? s p with
  | case1 s hlt hfits ih =>
    have hnumber : (s.origin - p).toNat = (s.origin - 1 - p).toNat + 1 := by omega
    have horigin : min (s.origin - 1) p = min s.origin p := by omega
    refine ih.imp (fun hgrown => ?_) (fun ⟨hnone, hout⟩ => ⟨hnone, by dsimp only at hout; omega⟩)
    rw [hgrown, hnumber, horigin, List.replicate_succ', List.append_assoc]
    rfl
  | case2 s hlt hfits =>
    refine .inr ⟨rfl, ?_⟩
    by_contra hin
    exact hfits (fitsWord_of_bounds (by omega) (by omega))
  | case3 s hle =>
    have hnumber : (s.origin - p).toNat = 0 := by omega
    rw [hnumber, Int.min_eq_left (Int.not_lt.1 hle)]
    exact .inl rfl

theorem growRight?_cases (s : Strip) (p : Int) :
    s.growRight? p = some
        ⟨s.cells ++ List.replicate (p + 1 - s.stop).toNat s.blank, s.origin, s.blank⟩ ∨
      s.growRight? p = none ∧ (s.stop < -2 ^ 63 ∨ 2 ^ 63 ≤ s.stop ∨ 2 ^ 63 ≤ p + 1 ∨
        2 ^ 63 ≤ (s.cells.length : Int) ∨ 2 ^ 63 ≤ p + 1 - s.origin) := by
  -- the row grows to `p + 1` at most, so what does not fit on the way does not fit at the end
  fun_induction growRight? s p with
  | case1 s hfits hle ih =>
    have hlonger : (s.cells ++ [s.blank]).length = s.cells.length + 1 := List.length_append
    have hnext : ({ s with cells := s.cells ++ [s.blank] } : Strip).stop = s.stop + 1 := by
      simp only [stop, hlonger]
      omega
    have hnumber : (p + 1 - s.stop).toNat = (p + 1 - (s.stop + 1)).toNat + 1 := by omega
    have hwidth : s.stop = s.origin + s.cells.length := rfl
    rw [hnext, hlonger] at ih
    refine ih.imp (fun hgrown => ?_) (fun ⟨hnone, hout⟩ => ⟨hnone, by dsimp only at hout; omega⟩)
    rw [hgrown, hnumber, List.replicate_succ, List.append_assoc]
    rfl
  | case2 s hfits hlt =>
    have hnumber : (p + 1 - s.stop).toNat = 0 := by omega
    rw [hnumber, List.replicate_zero, List.append_nil]
    exact .inl rfl
  | case3 s hfits =>
    refine .inr ⟨rfl, ?_⟩
    by_contra hin
    exact hfits ⟨fitsWord_of_bounds (by omega) (by omega),
      fitsWord_of_bounds (by omega) (by omega)⟩

theorem offset?_strip {t : Tape} (hlow : -2 ^ 63 ≤ p - t.first) (hhigh : p - t.first < 2 ^ 63) :
    t.strip.offset? p = some (p - t.first) := if_pos (fitsWord_of_bounds hlow hhigh)

theorem read?_strip {t : Tape} (hlow : -2 ^ 63 ≤ p - t.first) (hhigh : p - t.first < 2 ^ 63) :
    t.strip.read? p = some (t.read p) := by
  rw [read?, offset?_strip hlow hhigh, Tape.read_eq_holding_cells, Tape.holding_eq]
  rfl

theorem eq_of_read?_strip {t : Tape} {c : Char} (h : t.strip.read? p = some c) : t.read p = c := by
  obtain ⟨i, hi, rfl⟩ := Option.map_eq_some_iff.1 h
  obtain ⟨-, ⟨⟩⟩ := Option.ite_none_right_eq_some.1 hi
  rw [Tape.read_eq_holding_cells, Tape.holding_eq]
  rfl

/-- A row can be extended just like the tape, unless that has too many cells for a word. -/
theorem extendTo?_cases (t : Tape) (p : Int) :
    t.strip.extendTo? p = some (t.extendTo p).strip ∨
      t.strip.extendTo? p = none ∧ 2 ^ 63 ≤ ((t.extendTo p).cells.length : Int) := by
  have hfirst := t.first_nonpos
  have hstop := t.stop_nonneg
  have hlength := t.length_cells
  have hlength' := (t.extendTo p).length_cells
  rw [Tape.first_extendTo, Tape.stop_extendTo] at hlength'
  have horigin : t.strip.origin = t.first := rfl
  rw [extendTo?]
  rcases growLeft?_cases t.strip p with hleft | ⟨hleft, hout⟩
  · have hwidth : (List.replicate (t.first - p).toNat t.blank ++ t.cells).length =
        (t.first - p).toNat + t.cells.length := by
      rw [List.length_append, List.length_replicate]
    have hgrown : (⟨List.replicate (t.first - p).toNat t.blank ++ t.cells, min t.first p,
        t.blank⟩ : Strip).stop = t.stop := by
      simp only [stop, hwidth]
      omega
    rw [hleft, Option.bind_eq_bind, Option.bind_some]
    refine (growRight?_cases _ p).imp (fun hright => ?_) (fun ⟨hnone, hout⟩ => ⟨hnone, ?_⟩)
    · rw [hright, Tape.strip, Tape.strip, hgrown, Tape.cells_extendTo, Tape.first_extendTo,
        Tape.blank_extendTo]
    · dsimp only [Tape.strip] at hout
      rw [hgrown, hwidth] at hout
      omega
  · rw [hleft]
    exact .inr ⟨rfl, by omega⟩

theorem write?_cases (t : Tape) (p : Int) (c : Char) :
    t.strip.write? p c = some (t.write p c).strip ∨
      t.strip.write? p c = none ∧ 2 ^ 63 ≤ ((t.write p c).cells.length : Int) := by
  have hfirst := t.first_nonpos
  have hstop := t.stop_nonneg
  have hlength := (t.write p c).length_cells
  rw [Tape.first_write, Tape.stop_write] at hlength
  rw [write?]
  rcases extendTo?_cases t p with hextend | ⟨hnone, hlong⟩
  · have horigin : (t.extendTo p).strip.origin = min t.first p := t.first_extendTo p
    rw [hextend, Option.bind_eq_bind, Option.bind_some, offset?]
    by_cases hfits : FitsWord (p - (t.extendTo p).strip.origin)
    · have hinside : 0 ≤ p - (t.extendTo p).strip.origin := by omega
      rw [if_pos hfits, Option.bind_eq_bind, Option.bind_some, if_pos hinside]
      refine .inl (congrArg some ?_)
      rw [Tape.strip, Tape.strip, Tape.cells_write, Tape.first_write, Tape.first_extendTo,
        Tape.blank_write, Tape.blank_extendTo]
    · rw [if_neg hfits]
      refine .inr ⟨rfl, ?_⟩
      by_contra hin
      exact hfits (fitsWord_of_bounds (by omega) (by omega))
  · rw [hnone]
    rw [Tape.length_cells, Tape.first_extendTo, Tape.stop_extendTo] at hlong
    exact .inr ⟨rfl, by omega⟩

theorem extendTo?_strip {t : Tape} (h : ((t.extendTo p).cells.length : Int) < 2 ^ 63) :
    t.strip.extendTo? p = some (t.extendTo p).strip :=
  (extendTo?_cases t p).resolve_right fun ⟨_, hlong⟩ => Int.not_le.2 h hlong

theorem write?_strip {t : Tape} {c : Char} (h : ((t.write p c).cells.length : Int) < 2 ^ 63) :
    t.strip.write? p c = some (t.write p c).strip :=
  (write?_cases t p c).resolve_right fun ⟨_, hlong⟩ => Int.not_le.2 h hlong

theorem step?_strip {c c' : Configuration} {d : Diff} (h : c.apply d = .ok c')
    (hlength : (c'.tape.cells.length : Int) < 2 ^ 63) :
    c.tape.strip.step? d = some c'.tape.strip := by
  have hfirst := c.tape.first_nonpos
  have hstop := c.tape.stop_nonneg
  have hsize := hlength
  rw [Tape.length_cells, Configuration.first_of_apply h, Configuration.stop_of_apply h] at hsize
  obtain ⟨⟨-, -, hsymbol⟩, rfl⟩ := Configuration.apply_eq_ok_iff.1 h
  have hwritten : ((c.tape.write d.prevHead d.nextSymbol).cells.length : Int) < 2 ^ 63 := by
    rw [Tape.length_cells, Tape.first_write, Tape.stop_write]
    omega
  have hnext : FitsWord d.nextHead := fitsWord_of_bounds (by omega) (by omega)
  rw [step?, read?_strip (by omega) (by omega), hsymbol]
  simp only [Option.bind_eq_bind, Option.bind_some, guard, hnext, true_and, if_true]
  rw [write?_strip hwritten]
  exact extendTo?_strip hlength

/-- Rows never get shorter, so the last one decides whether all positions on the way fit words. -/
theorem foldlM_step?_strip {c c' : Configuration} {diffs : List Diff}
    (h : diffs.foldlM Configuration.apply c = .ok c')
    (hlength : (c'.tape.cells.length : Int) < 2 ^ 63) :
    diffs.foldlM step? c.tape.strip = some c'.tape.strip := by
  revert hlength
  refine foldlM_prefix_induction (P := fun done (reached : Configuration) =>
    (reached.tape.cells.length : Int) < 2 ^ 63 →
    done.foldlM step? c.tape.strip = some reached.tape.strip) ?_ ?_ h
  · intro done before d after ih happly hafter
    have hle := Configuration.length_le_of_apply happly
    rw [List.foldlM_append, ih (by omega), Option.bind_eq_bind, Option.bind_some, List.foldlM_cons,
      step?_strip happly hafter]
    rfl
  · intro _
    rfl

end Strip

end Acceptors
