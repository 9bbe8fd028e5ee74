import Mathlib.Algebra.Group.Int.Defs
import Mathlib.Algebra.Group.Nat.Defs
import Mathlib.Tactic.Common
import Acceptors.Proofs.Turing.Strip

/-! Configurations as a program holds them: one row of cells in a store with room for so many,
positions in words of 64 bits, and steps that change one part after another. A step has no result
where the store is too small for the cells up to the new head. Where it has one, it is that of the
step on the configuration. -/

namespace Acceptors

/-- A program that changes a value in place. What it has changed stays so where it fails, and it may
have no result at all. -/
abbrev InPlace (σ : Type) := ExceptT Violation (StateT σ Option)

namespace InPlace

variable {σ α β : Type}

def on (x : InPlace σ α) (s : σ) : Option (Except Violation α × σ) := (ExceptT.run x).run s

def andThen (left : Option (Except Violation α × σ))
    (next : α → σ → Option (Except Violation β × σ)) : Option (Except Violation β × σ) :=
  match left with
  | some (.ok a, s) => next a s
  | some (.error v, s) => some (.error v, s)
  | none => none

@[simp]
theorem andThen_ok (a : α) (s : σ) (next : α → σ → Option (Except Violation β × σ)) :
    andThen (some (.ok a, s)) next = next a s := rfl

@[simp]
theorem andThen_error (v : Violation) (s : σ)
    (next : α → σ → Option (Except Violation β × σ)) :
    andThen (some (.error v, s)) next = some (.error v, s) := rfl

@[simp]
theorem andThen_none (next : α → σ → Option (Except Violation β × σ)) :
    andThen none next = none := rfl

theorem on_bind (x : InPlace σ α) (f : α → InPlace σ β) (s : σ) :
    (x >>= f).on s = andThen (x.on s) fun a => (f a).on := by
  change (x.on s).bind _ = _
  cases x.on s with
  | none => rfl
  | some left =>
    obtain ⟨outcome, s'⟩ := left
    cases outcome <;> rfl

theorem andThen_pure (left : Option (Except Violation α × σ)) :
    (andThen left fun a s => some (.ok a, s)) = left := by
  cases left with
  | none => rfl
  | some left =>
    obtain ⟨outcome, s⟩ := left
    cases outcome <;> rfl

@[simp]
theorem on_pure (a : α) (s : σ) : (pure a : InPlace σ α).on s = some (.ok a, s) := rfl

@[simp]
theorem on_throw (v : Violation) (s : σ) :
    (throw v : InPlace σ α).on s = some (.error v, s) := rfl

@[simp]
theorem on_get (s : σ) : (get : InPlace σ σ).on s = some (.ok s, s) := rfl

@[simp]
theorem on_liftM (x : Option α) (s : σ) :
    (liftM x : InPlace σ α).on s = x.map fun a => (.ok a, s) := by
  cases x <;> rfl

end InPlace

structure Held where
  state : String
  strip : Strip
  head : Int
deriving DecidableEq, Repr

def Configuration.held (c : Configuration) : Held := ⟨c.state, c.tape.strip, c.head⟩

def Strip.within? (room : Nat) (s : Strip) : Option Strip :=
  if s.cells.length ≤ room then some s else none

namespace Held

def check (use : Replay) (state : String) (head cell : Int) (symbol : Char) :
    InPlace Held Unit := do
  let h ← get
  if h.state = state ∧ h.head = head then
    let found ← h.strip.read? cell
    if found = symbol then return () else throw (.wrongSymbol use symbol cell found)
  else throw (.wrongPlace use state head h.state h.head)

def onStrip (room : Nat) (change : Strip → Option Strip) : InPlace Held Unit := do
  let h ← get
  let strip ← change h.strip
  let strip ← strip.within? room
  set { h with strip }

def apply (room : Nat) (d : Diff) : InPlace Held Unit := do
  check .apply d.prevState d.prevHead d.prevHead d.prevSymbol
  onStrip room (·.write? d.prevHead d.nextSymbol)
  onStrip room (·.extendTo? d.nextHead)
  modify fun h => { h with head := d.nextHead }
  modify fun h => { h with state := d.nextState }

def reverse (room : Nat) (d : Diff) : InPlace Held Unit := do
  check .reverse d.nextState d.nextHead d.prevHead d.nextSymbol
  onStrip room (·.write? d.prevHead d.prevSymbol)
  modify fun h => { h with head := d.prevHead }
  modify fun h => { h with state := d.prevState }

variable {room : Nat} {c c' : Configuration} {d : Diff} {h : Held} {v : Violation}

theorem on_check_cases (c : Configuration) (use : Replay) (state : String) (head cell : Int)
    (symbol : Char) :
    (check use state head cell symbol).on c.held =
        some (c.check use state head cell symbol, c.held) ∨
      (check use state head cell symbol).on c.held = none ∧ ¬FitsWord (cell - c.tape.first) := by
  rw [check, Configuration.check]
  simp only [InPlace.on_bind, InPlace.on_get, InPlace.andThen_ok]
  by_cases hplace : c.state = state ∧ c.head = head
  · rw [if_pos hplace, if_pos (show c.held.state = state ∧ c.held.head = head from hplace)]
    simp only [InPlace.on_bind, InPlace.on_liftM]
    cases hread : c.held.strip.read? cell with
    | none =>
      refine .inr ⟨rfl, fun hfits => ?_⟩
      have hoffset : c.held.strip.offset? cell = some (cell - c.tape.first) := if_pos hfits
      rw [Strip.read?, hoffset] at hread
      cases hread
    | some found =>
      rw [Strip.eq_of_read?_strip hread]
      refine .inl ?_
      by_cases hsymbol : found = symbol
      · simp [hsymbol]
      · simp [hsymbol]
  · rw [if_neg hplace, if_neg (show ¬(c.held.state = state ∧ c.held.head = head) from hplace)]
    exact .inl rfl

theorem on_onStrip (hroom : room < 2 ^ 63) (c : Configuration) (change : Strip → Option Strip)
    {t : Tape} (h : change c.tape.strip = some t.strip ∨
      change c.tape.strip = none ∧ 2 ^ 63 ≤ (t.cells.length : Int)) :
    (onStrip room change).on c.held =
      if t.cells.length ≤ room then some (.ok (), { c with tape := t }.held) else none := by
  simp only [onStrip, InPlace.on_bind, InPlace.on_get, InPlace.andThen_ok, InPlace.on_liftM]
  have hstrip : c.held.strip = c.tape.strip := rfl
  rcases h with hsome | ⟨hnone, hlong⟩
  · have hcells : t.strip.cells.length = t.cells.length := rfl
    simp only [hstrip, hsome, Option.map_some, InPlace.andThen_ok, InPlace.on_bind,
      InPlace.on_liftM, Strip.within?, hcells]
    by_cases hfits : t.cells.length ≤ room
    · simp only [if_pos hfits]
      rfl
    · simp only [if_neg hfits]
      rfl
  · rw [hstrip, hnone, if_neg (by omega)]
    rfl

theorem on_onStrip_bind (hroom : room < 2 ^ 63) (c : Configuration)
    (change : Strip → Option Strip) {t : Tape} (h : change c.tape.strip = some t.strip ∨
      change c.tape.strip = none ∧ 2 ^ 63 ≤ (t.cells.length : Int))
    (next : Unit → InPlace Held Unit) :
    (onStrip room change >>= next).on c.held =
      if t.cells.length ≤ room then (next ()).on { c with tape := t }.held else none := by
  rw [InPlace.on_bind, on_onStrip hroom c change h]
  by_cases hfits : t.cells.length ≤ room
  · rw [if_pos hfits, if_pos hfits, InPlace.andThen_ok]
  · rw [if_neg hfits, if_neg hfits, InPlace.andThen_none]

/-- What is left of a step that leads to `next` or fails. -/
def outcome (room : Nat) (c : Configuration) :
    Except Violation Configuration → Option (Except Violation Unit × Held)
  | .ok next => if next.tape.cells.length ≤ room then some (.ok (), next.held) else none
  | .error v => some (.error v, c.held)

theorem on_apply_cases (hroom : room < 2 ^ 63) (c : Configuration) (d : Diff) :
    (apply room d).on c.held = outcome room c (c.apply d) ∨
      (apply room d).on c.held = none ∧ ¬FitsWord (d.prevHead - c.tape.first) := by
  rw [apply, InPlace.on_bind, Configuration.apply]
  rcases on_check_cases c .apply d.prevState d.prevHead d.prevHead d.prevSymbol with
    hcheck | ⟨hnone, hfar⟩
  · refine .inl ?_
    rw [hcheck]
    cases c.check .apply d.prevState d.prevHead d.prevHead d.prevSymbol with
    | error v => rfl
    | ok =>
      let written : Configuration := { c with tape := c.tape.write d.prevHead d.nextSymbol }
      have hlonger : written.tape.cells.length ≤
          (written.tape.extendTo d.nextHead).cells.length := by
        rw [Tape.cells_extendTo, List.length_append, List.length_append]
        omega
      change _ = if (written.tape.extendTo d.nextHead).cells.length ≤ room then _ else _
      rw [InPlace.andThen_ok, on_onStrip_bind hroom c _ (Strip.write?_cases c.tape _ _)]
      change (if written.tape.cells.length ≤ room then InPlace.on _ written.held else none) = _
      rw [on_onStrip_bind hroom written _ (Strip.extendTo?_cases written.tape d.nextHead)]
      by_cases hlast : (written.tape.extendTo d.nextHead).cells.length ≤ room
      · rw [if_pos (hlonger.trans hlast), if_pos hlast, if_pos hlast]
        rfl
      · rw [if_neg hlast, if_neg hlast, ite_self]
  · exact .inr ⟨by rw [hnone, InPlace.andThen_none], hfar⟩

theorem on_reverse_cases (hroom : room < 2 ^ 63) (c : Configuration) (d : Diff) :
    (reverse room d).on c.held = outcome room c (c.reverse d) ∨
      (reverse room d).on c.held = none ∧ ¬FitsWord (d.prevHead - c.tape.first) := by
  rw [reverse, InPlace.on_bind, Configuration.reverse]
  rcases on_check_cases c .reverse d.nextState d.nextHead d.prevHead d.nextSymbol with
    hcheck | ⟨hnone, hfar⟩
  · refine .inl ?_
    rw [hcheck]
    cases c.check .reverse d.nextState d.nextHead d.prevHead d.nextSymbol with
    | error v => rfl
    | ok =>
      rw [InPlace.andThen_ok, on_onStrip_bind hroom c _ (Strip.write?_cases c.tape _ _)]
      rfl
  · exact .inr ⟨by rw [hnone, InPlace.andThen_none], hfar⟩

theorem outcome_eq_ok_iff {r : Except Violation Configuration} :
    outcome room c r = some (.ok (), h) ↔
      ∃ c', r = .ok c' ∧ c'.tape.cells.length ≤ room ∧ c'.held = h := by
  cases r with
  | error v =>
    refine iff_of_false (fun hleft => ?_) (fun ⟨_, hok, _⟩ => ?_)
    · cases hleft
    · cases hok
  | ok next =>
    rw [outcome, Option.ite_none_right_eq_some]
    constructor
    · rintro ⟨hfits, ⟨⟩⟩
      exact ⟨next, rfl, hfits, rfl⟩
    · rintro ⟨c', ⟨⟩, hfits, rfl⟩
      exact ⟨hfits, rfl⟩

theorem outcome_eq_error_iff {r : Except Violation Configuration} :
    outcome room c r = some (.error v, h) ↔ r = .error v ∧ c.held = h := by
  cases r with
  | error w =>
    rw [outcome]
    constructor
    · rintro ⟨⟩
      exact ⟨rfl, rfl⟩
    · rintro ⟨⟨⟩, rfl⟩
      rfl
  | ok next =>
    rw [outcome, Option.ite_none_right_eq_some]
    refine iff_of_false (fun ⟨_, hleft⟩ => ?_) (fun ⟨hok, _⟩ => ?_)
    · cases hleft
    · cases hok

theorem fitsWord_of_stored (hroom : room < 2 ^ 63) {t : Tape} (hfits : t.cells.length ≤ room)
    {p q : Int} (hp : t.first ≤ p) (hp' : p < t.stop) (hq : t.first ≤ q) (hq' : q ≤ t.stop) :
    FitsWord (p - q) := by
  have hlength := t.length_cells
  exact fitsWord_of_bounds (by omega) (by omega)

section Cases

variable {x : Option (Except Violation Unit × Held)} {r : Except Violation Configuration}

theorem eq_ok_iff_of_cases {far : Prop} (hx : x = outcome room c r ∨ x = none ∧ far)
    (hnear : ∀ c', r = .ok c' → c'.tape.cells.length ≤ room → ¬far) :
    x = some (.ok (), h) ↔ ∃ c', r = .ok c' ∧ c'.tape.cells.length ≤ room ∧ c'.held = h := by
  rw [← outcome_eq_ok_iff (c := c)]
  rcases hx with rfl | ⟨rfl, hfar⟩
  · exact Iff.rfl
  · refine iff_of_false (fun hleft => ?_) (fun hleft => ?_)
    · cases hleft
    · obtain ⟨c', hr, hfits, -⟩ := outcome_eq_ok_iff.1 hleft
      exact hnear c' hr hfits hfar

theorem eq_error_of_cases {far : Prop} (hx : x = outcome room c r ∨ x = none ∧ far)
    (herror : x = some (.error v, h)) : r = .error v ∧ c.held = h := by
  rcases hx with rfl | ⟨rfl, -⟩
  · exact outcome_eq_error_iff.1 herror
  · cases herror

end Cases

theorem on_apply_eq_ok_iff (hroom : room < 2 ^ 63) :
    (apply room d).on c.held = some (.ok (), h) ↔
      ∃ c', c.apply d = .ok c' ∧ c'.tape.cells.length ≤ room ∧ c'.held = h := by
  refine eq_ok_iff_of_cases (on_apply_cases hroom c d) fun c' happly hfits hfar => hfar ?_
  have hfirst := Configuration.first_of_apply happly
  have hstop := Configuration.stop_of_apply happly
  have hnonpos := c.tape.first_nonpos
  have hnonneg := c.tape.stop_nonneg
  exact fitsWord_of_stored hroom hfits (by omega) (by omega) (by omega) (by omega)

theorem on_reverse_eq_ok_iff (hroom : room < 2 ^ 63) :
    (reverse room d).on c.held = some (.ok (), h) ↔
      ∃ c', c.reverse d = .ok c' ∧ c'.tape.cells.length ≤ room ∧ c'.held = h := by
  refine eq_ok_iff_of_cases (on_reverse_cases hroom c d) fun c' hreverse hfits hfar => hfar ?_
  have hfirst := Configuration.first_of_reverse hreverse
  have hstop := Configuration.stop_of_reverse hreverse
  have hnonpos := c.tape.first_nonpos
  have hnonneg := c.tape.stop_nonneg
  exact fitsWord_of_stored hroom hfits (by omega) (by omega) (by omega) (by omega)

theorem on_apply_of_ok (hroom : room < 2 ^ 63) (happly : c.apply d = .ok c') :
    (apply room d).on c.held =
      if c'.tape.cells.length ≤ room then some (.ok (), c'.held) else none := by
  by_cases hfits : c'.tape.cells.length ≤ room
  · rw [if_pos hfits]
    exact (on_apply_eq_ok_iff hroom).2 ⟨c', happly, hfits, rfl⟩
  · rw [if_neg hfits]
    rcases on_apply_cases hroom c d with heq | ⟨hnone, -⟩
    · rw [heq, happly, outcome, if_neg hfits]
    · exact hnone

theorem on_apply_of_error (hroom : room < 2 ^ 63) (hnear : FitsWord (d.prevHead - c.tape.first))
    (happly : c.apply d = .error v) : (apply room d).on c.held = some (.error v, c.held) := by
  rcases on_apply_cases hroom c d with heq | ⟨-, hfar⟩
  · rw [heq, happly, outcome]
  · exact absurd hnear hfar

theorem on_reverse_of_error (hroom : room < 2 ^ 63) (hnear : FitsWord (d.prevHead - c.tape.first))
    (hreverse : c.reverse d = .error v) :
    (reverse room d).on c.held = some (.error v, c.held) := by
  rcases on_reverse_cases hroom c d with heq | ⟨-, hfar⟩
  · rw [heq, hreverse, outcome]
  · exact absurd hnear hfar

end Held

namespace Configuration

/-- A step that was taken can be taken back. One that was taken back can be taken again just where
there is room for the cells up to the head that it leads to, and has no result elsewhere. Both lead
to a configuration equal to the first. Either changes the state, the head and one symbol, and one
that fails changes nothing at all. -/
theorem steps_undo_each_other {room : Nat} (hroom : room < 2 ^ 63) (c : Configuration) (d : Diff) :
    (∀ h, (Held.apply room d).on c.held = some (.ok (), h) → ∃ c' restored : Configuration,
      c.apply d = .ok c' ∧ c'.held = h ∧ c'.reverse d = .ok restored ∧
      (Held.reverse room d).on h = some (.ok (), restored.held) ∧ (restored == c) = true ∧
      c'.state = d.nextState ∧ c'.head = d.nextHead ∧ c'.tape.blank = c.tape.blank ∧
      c'.tape.read = Function.update c.tape.read d.prevHead d.nextSymbol) ∧
    (∀ h, (Held.reverse room d).on c.held = some (.ok (), h) → ∃ c' restored : Configuration,
      c.reverse d = .ok c' ∧ c'.held = h ∧ c'.apply d = .ok restored ∧ (restored == c) = true ∧
      (Held.apply room d).on h =
        (if max c'.tape.stop (d.nextHead + 1) - min c'.tape.first d.nextHead ≤ room
          then some (.ok (), restored.held) else none) ∧
      c'.state = d.prevState ∧ c'.head = d.prevHead ∧ c'.tape.blank = c.tape.blank ∧
      c'.tape.read = Function.update c.tape.read d.prevHead d.prevSymbol) ∧
    (∀ v h, (Held.apply room d).on c.held = some (.error v, h) →
      c.apply d = .error v ∧ c.held = h) ∧
    (∀ v h, (Held.reverse room d).on c.held = some (.error v, h) →
      c.reverse d = .error v ∧ c.held = h) ∧
    (FitsWord (d.prevHead - c.tape.first) →
      (∀ v, c.apply d = .error v → (Held.apply room d).on c.held = some (.error v, c.held)) ∧
      ∀ v, c.reverse d = .error v → (Held.reverse room d).on c.held = some (.error v, c.held)) := by
  refine ⟨fun h happly => ?_, fun h hreverse => ?_, fun v h => ?_, fun v h => ?_, fun hnear => ?_⟩
  · obtain ⟨c', hc', hfits, rfl⟩ := (Held.on_apply_eq_ok_iff hroom).1 happly
    obtain ⟨restored, hrestored, hequal⟩ := exists_reverse_of_apply hc'
    have hlength : restored.tape.cells.length ≤ room := by
      -- the cell that is written to is stored already
      have hcells := c'.tape.length_cells
      have hcells' := restored.tape.length_cells
      rw [first_of_reverse hrestored, stop_of_reverse hrestored] at hcells'
      have hfirst := first_of_apply hc'
      have hstop := stop_of_apply hc'
      omega
    refine ⟨c', restored, hc', rfl, hrestored,
      (Held.on_reverse_eq_ok_iff hroom).2 ⟨restored, hrestored, hlength, rfl⟩, hequal, ?_⟩
    obtain ⟨-, rfl⟩ := apply_eq_ok_iff.1 hc'
    refine ⟨rfl, rfl, ?_, ?_⟩
    · rw [Tape.blank_extendTo, Tape.blank_write]
    · rw [Tape.read_extendTo, Tape.read_write]
  · obtain ⟨c', hc', hfits, rfl⟩ := (Held.on_reverse_eq_ok_iff hroom).1 hreverse
    obtain ⟨restored, hrestored, hequal⟩ := exists_apply_of_reverse hc'
    have hlength : (restored.tape.cells.length : Int) =
        max c'.tape.stop (d.nextHead + 1) - min c'.tape.first d.nextHead := by
      have hfirst := first_of_reverse hc'
      have hstop := stop_of_reverse hc'
      rw [Tape.length_cells, first_of_apply hrestored, stop_of_apply hrestored]
      omega
    refine ⟨c', restored, hc', rfl, hrestored, hequal, ?_, ?_⟩
    · rw [Held.on_apply_of_ok hroom hrestored, ← hlength]
      simp only [Int.ofNat_le]
    · obtain ⟨-, rfl⟩ := reverse_eq_ok_iff.1 hc'
      exact ⟨rfl, rfl, Tape.blank_write _ _ _, Tape.read_write _ _ _⟩
  · exact Held.eq_error_of_cases (Held.on_apply_cases hroom c d)
  · exact Held.eq_error_of_cases (Held.on_reverse_cases hroom c d)
  · exact ⟨fun v => Held.on_apply_of_error hroom hnear,
      fun v => Held.on_reverse_of_error hroom hnear⟩

/-- A step to a cell left of the word, which stays stored after the step back, and the same step
once more from where it has led. -/
theorem steps_undo_each_other_left_of_word :
    let start : Configuration := ⟨"q0", .ofInput ['a', 'b'] '_', 0⟩
    let step : Diff := ⟨"q0", "q1", 0, -1, 'a', 'x'⟩
    ∃ next restored : Configuration,
      (Held.apply 5 step).on start.held = some (.ok (), next.held) ∧
      (Held.reverse 5 step).on next.held = some (.ok (), restored.held) ∧
      (restored == start) = true ∧ restored.tape.cells = ['_', 'a', 'b'] ∧
      (Held.apply 5 step).on next.held =
        some (.error (.wrongPlace .apply "q0" 0 "q1" (-1)), next.held) := by
  intro start step
  have hroom : 5 < 2 ^ 63 := by decide
  have hnext : start.apply step = .ok ⟨"q1", ⟨#['x', 'b'], #['_'], '_'⟩, -1⟩ := rfl
  have happly := (Held.on_apply_eq_ok_iff hroom).2 ⟨_, hnext, by decide, rfl⟩
  obtain ⟨next, restored, hc', hheld, hrestored, hreverse, hequal, -⟩ :=
    (steps_undo_each_other hroom start step).1 _ happly
  cases hnext.symm.trans hc'
  refine ⟨_, restored, happly, hreverse, hequal, ?_, ?_⟩
  · obtain ⟨-, rfl⟩ := reverse_eq_ok_iff.1 hrestored
    rfl
  · exact ((steps_undo_each_other hroom _ step).2.2.2.2 (by decide)).1 _ rfl

/-- A head at the last of all positions can be taken back from there, but no store has room for the
cells up to it, so the step that leads there has no result. -/
theorem steps_undo_each_other_far_head :
    let c : Configuration := ⟨"q1", .ofInput ['a'] '_', 2 ^ 63 - 1⟩
    let d : Diff := ⟨"q0", "q1", 0, 2 ^ 63 - 1, 'x', 'a'⟩
    ∃ c' : Configuration, (Held.reverse (2 ^ 63 - 1) d).on c.held = some (.ok (), c'.held) ∧
      (Held.apply (2 ^ 63 - 1) d).on c'.held = none := by
  intro c d
  have hroom : 2 ^ 63 - 1 < 2 ^ 63 := by decide
  have hreverse : c.reverse d = .ok ⟨"q0", .ofInput ['x'] '_', 0⟩ := rfl
  obtain ⟨far, hfar, -⟩ := exists_apply_of_reverse hreverse
  refine ⟨_, (Held.on_reverse_eq_ok_iff hroom).2 ⟨_, hreverse, by decide, rfl⟩, ?_⟩
  rw [Held.on_apply_of_ok hroom hfar, if_neg]
  have hcells := far.tape.length_cells
  have hfirst := far.tape.first_nonpos
  have hstop := stop_of_apply hfar
  dsimp only [d] at hstop
  omega

end Configuration

end Acceptors
