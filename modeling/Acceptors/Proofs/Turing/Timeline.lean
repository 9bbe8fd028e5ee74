import Mathlib.Tactic.Common
import Acceptors.Proofs.Turing.Execution

/-! Cursors over the log of a run. Wherever the moves of a cursor have taken it, the configuration
it holds shows the moment of the computation at its position, so the diff on either side of it can
be used. -/

namespace Acceptors

open Acceptors.Turing (Definition Moment)

variable {d : Definition} {m : TuringMachine} {word : List Char} {limit : Nat} {e last : Execution}
  {l : Log} {t : Timeline} {n : Nat}

namespace Execution

inductive Advanced (m : TuringMachine) (word : List Char) (limit : Nat) : Execution → Prop
  | start {e : Execution} (h : start m word limit = .ok e) : Advanced m word limit e
  | step {e next : Execution} (he : Advanced m word limit e) (h : e.step = .ok next) :
    Advanced m word limit next
  | runFor {e next : Execution} (n : Nat) (he : Advanced m word limit e)
    (h : runFor n e = .ok next) : Advanced m word limit next

theorem Follows.of_step (h : e.Follows d word) (hstep : e.step = .ok last) :
    last.Follows d word ∧ SameRun e last := by
  obtain ⟨next, hnext, hfollows, hsame, -⟩ := h.step
  cases hstep.symm.trans hnext
  exact ⟨hfollows, hsame⟩

theorem Follows.of_runFor (h : e.Follows d word) (hrun : Execution.runFor n e = .ok last) :
    last.Follows d word ∧ SameRun e last := by
  induction n generalizing e with
  | zero =>
    cases hrun
    exact ⟨h, rfl, rfl, rfl⟩
  | succ n ih =>
    obtain ⟨next, hstep, hfollows, hsame, -⟩ := h.step
    simp only [Execution.runFor, hstep] at hrun
    split at hrun
    · cases hrun
      exact ⟨hfollows, hsame⟩
    · obtain ⟨hlast, hsame'⟩ := ih hfollows hrun
      exact ⟨hlast, hsame.trans hsame'⟩

theorem eq_fresh_of_start (h : start m word limit = .ok e) : e = fresh m word limit := by
  obtain ⟨c, hc, rfl⟩ := map_eq_ok_iff.1 h
  obtain ⟨symbols, hsymbols, rfl⟩ := map_eq_ok_iff.1 hc
  obtain ⟨rfl, -⟩ := Alphabet.tokenize_eq_ok_iff.1 hsymbols
  rfl

theorem Advanced.follows (himp : m.Implements d) (h : e.Advanced m word limit) :
    e.Follows d word ∧ SameRun (fresh m word limit) e := by
  induction h with
  | start h =>
    cases eq_fresh_of_start h
    exact ⟨follows_fresh himp word limit, rfl, rfl, rfl⟩
  | step _ h ih =>
    obtain ⟨hnext, hsame⟩ := ih.1.of_step h
    exact ⟨hnext, ih.2.trans hsame⟩
  | runFor n _ h ih =>
    obtain ⟨hnext, hsame⟩ := ih.1.of_runFor h
    exact ⟨hnext, ih.2.trans hsame⟩

end Execution

namespace Log

/-- The logs of a run: of one that was cancelled at some moment, and of one that came to its end. -/
inductive Records (m : TuringMachine) (word : List Char) (limit : Nat) : Log → Prop
  | cancelled {e : Execution} (he : e.Advanced m word limit) : Records m word limit e.log
  | finished {e : Execution} {l : Log} (he : e.Advanced m word limit) (h : e.finish = .ok l) :
    Records m word limit l
  | run {l : Log} (h : m.run word limit = .ok l) : Records m word limit l

/-- A log holds the changes of a computation one after another, and the moments at both ends. -/
structure Follows (l : Log) (d : Definition) (word : List Char) : Prop where
  initial : l.initial.moment = d.moment word 0
  diffs : l.diffs.toList = d.changes word l.steps
  final : l.final.moment = d.moment word l.steps

theorem follows_of_advanced (himp : m.Implements d) (h : e.Advanced m word limit) :
    e.log.Follows d word := by
  obtain ⟨hfollows, -, hinitial, -⟩ := h.follows himp
  refine ⟨?_, hfollows.diffs, hfollows.current⟩
  rw [Execution.log, hinitial]
  exact (Execution.follows_fresh himp word limit).current

theorem Records.follows (himp : m.Implements d) (h : l.Records m word limit) :
    l.Follows d word := by
  have hfinish : ∀ e : Execution, e.Advanced m word limit → e.finish = .ok l →
      l.Follows d word := by
    intro e he h
    obtain ⟨last, hlast, rfl⟩ := map_eq_ok_iff.1 h
    exact follows_of_advanced himp (.runFor _ he hlast)
  cases h with
  | cancelled he => exact follows_of_advanced himp he
  | finished he h => exact hfinish _ he h
  | run h =>
    obtain ⟨e, hstart, hend⟩ := bind_eq_ok_iff.1 h
    exact hfinish e (.start (mapError_eq_ok_iff.1 hstart)) (mapError_eq_ok_iff.1 hend)

theorem Follows.diff_eq (h : l.Follows d word) (hn : n < l.steps) :
    l.diffs[n]? = some ((d.moment word n).change (d.moment word (n + 1))) := by
  rw [← Array.getElem?_toList, h.diffs, Definition.changes, List.getElem?_map,
    List.getElem?_range hn]
  rfl

end Log

theorem Configuration.reverse_change (c : Configuration) (a : Moment)
    (hcells : c.tape.read = Function.update a.cells a.head (c.tape.read a.head)) :
    ∃ c', c.reverse (a.change c.moment) = .ok c' ∧ c'.moment = a := by
  refine ⟨⟨a.state, c.tape.write a.head (a.cells a.head), a.head⟩, ?_, ?_⟩
  · have hcheck : c.check .reverse c.state c.head a.head (c.tape.read a.head) = .ok () := by
      rw [check, if_pos ⟨rfl, rfl⟩]
      exact if_pos rfl
    exact bind_eq_ok_iff.2 ⟨(), hcheck, rfl⟩
  · rw [moment, Tape.read_write, hcells, Function.update_idem, Function.update_eq_self]

namespace Timeline

inductive Move
  | forward
  | backward
  | seek (step : Nat)
  | toStart
  | toEnd
deriving DecidableEq, Repr

def Move.target (steps position : Nat) : Move → Nat
  | .forward => min (position + 1) steps
  | .backward => position - 1
  | .seek step => min step steps
  | .toStart => 0
  | .toEnd => steps

def move? (t : Timeline) : Move → Except Violation (Option Timeline)
  | .forward => t.forward?
  | .backward => t.backward?
  | .seek step =>
    match t.seek step with
    | (moved, none) => .ok (some moved)
    | (_, some v) => .error v
  | .toStart => .ok (some t.toStart)
  | .toEnd => .ok (some t.toEnd)

/-- The cursor after a move, which is where it was if it could not go on. -/
def after (t : Timeline) (x : Move) : Except Violation Timeline := (t.move? x).map (·.getD t)

/-- A cursor holds the moment at its position, whatever part of the tape is stored. -/
structure Shows (t : Timeline) (l : Log) (d : Definition) (word : List Char) : Prop where
  log : t.log = l
  position_le : t.position ≤ l.steps
  current : t.current.moment = d.moment word t.position

theorem shows_ofLog (hl : l.Follows d word) : (ofLog l).Shows l d word :=
  ⟨rfl, Nat.zero_le _, hl.initial⟩

theorem Shows.forward_end (h : t.Shows l d word) (hp : t.position = l.steps) :
    t.forward? = .ok none := by
  rw [forward?, h.log, Array.getElem?_eq_none (Nat.le_of_eq hp.symm)]

theorem Shows.forward_step (hl : l.Follows d word) (h : t.Shows l d word)
    (hp : t.position < l.steps) :
    ∃ t', t.forward? = .ok (some t') ∧ t'.Shows l d word ∧ t'.position = t.position + 1 := by
  obtain ⟨c, happly, hc⟩ :=
    t.current.apply_change (d.next t.current.moment) (d.cells_next t.current.moment)
  rw [h.current, ← Definition.moment_succ] at happly hc
  refine ⟨⟨t.log, c, t.position + 1⟩, ?_, ⟨h.log, hp, hc⟩, rfl⟩
  rw [forward?, h.log, hl.diff_eq hp]
  simp only [happly]
  rfl

theorem Shows.backward_start (hp : t.position = 0) : t.backward? = .ok none := by
  rw [backward?, hp]

theorem Shows.backward_step (hl : l.Follows d word) (h : t.Shows l d word)
    (hp : t.position = n + 1) :
    ∃ t', t.backward? = .ok (some t') ∧ t'.Shows l d word ∧ t'.position = n := by
  have hn : n < l.steps := Nat.lt_of_lt_of_le (by omega) h.position_le
  have hcurrent : t.current.moment = d.moment word (n + 1) := hp ▸ h.current
  have hcells := d.cells_next (d.moment word n)
  rw [← Definition.moment_succ, ← hcurrent] at hcells
  obtain ⟨c, hreverse, hc⟩ := t.current.reverse_change (d.moment word n) hcells
  rw [hcurrent] at hreverse
  refine ⟨⟨t.log, c, n⟩, ?_, ⟨h.log, hn.le, hc⟩, rfl⟩
  rw [backward?, hp]
  simp only [h.log, hl.diff_eq hn, hreverse]
  rfl

theorem repeatMove_invariant {move : Timeline → Except Violation (Option Timeline)}
    {P : Nat → Timeline → Prop}
    (hstep : ∀ i < n, ∀ t, P i t → ∃ next, move t = .ok (some next) ∧ P (i + 1) next) (h : P 0 t) :
    ∃ reached, repeatMove move n t = (reached, none) ∧ P n reached := by
  induction n generalizing t P with
  | zero => exact ⟨t, rfl, h⟩
  | succ n ih =>
    obtain ⟨next, hnext, hmoved⟩ := hstep 0 (Nat.succ_pos n) t h
    obtain ⟨reached, hreached, hend⟩ :=
      ih (P := fun i => P (i + 1)) (fun i hi => hstep (i + 1) (Nat.succ_lt_succ hi)) hmoved
    refine ⟨reached, ?_, hend⟩
    rw [repeatMove, hnext]
    exact hreached

theorem Shows.repeat_forward (hl : l.Follows d word) (h : t.Shows l d word)
    (hn : t.position + n ≤ l.steps) :
    ∃ t', repeatMove forward? n t = (t', none) ∧ t'.Shows l d word ∧
    t'.position = t.position + n := by
  refine repeatMove_invariant (P := fun i t' => t'.Shows l d word ∧
    t'.position = t.position + i) ?_ ⟨h, rfl⟩
  rintro i hi t' ⟨hshows, hposition⟩
  obtain ⟨next, hnext, hshows', hposition'⟩ := hshows.forward_step hl (by omega)
  exact ⟨next, hnext, hshows', by omega⟩

theorem Shows.repeat_backward (hl : l.Follows d word) (h : t.Shows l d word) (hn : n ≤ t.position) :
    ∃ t', repeatMove backward? n t = (t', none) ∧ t'.Shows l d word ∧
    t'.position = t.position - n := by
  refine repeatMove_invariant (P := fun i t' => t'.Shows l d word ∧
    t'.position = t.position - i) ?_ ⟨h, rfl⟩
  rintro i hi t' ⟨hshows, hposition⟩
  obtain ⟨next, hnext, hshows', hposition'⟩ :=
    hshows.backward_step (n := t.position - i - 1) hl (by omega)
  exact ⟨next, hnext, hshows', by omega⟩

theorem Shows.seek (hl : l.Follows d word) (h : t.Shows l d word) (step : Nat) :
    ∃ t', t.seek step = (t', none) ∧ t'.Shows l d word ∧ t'.position = min step l.steps := by
  have hle : min step l.steps ≤ l.steps := Nat.min_le_right _ _
  rw [Timeline.seek, h.log]
  by_cases hposition : t.position ≤ min step l.steps
  · simp only [if_pos hposition]
    obtain ⟨t', ht', hshows, hp⟩ :=
      h.repeat_forward (n := min step l.steps - t.position) hl (by omega)
    exact ⟨t', ht', hshows, by omega⟩
  · simp only [if_neg hposition]
    obtain ⟨t', ht', hshows, hp⟩ :=
      h.repeat_backward (n := t.position - min step l.steps) hl (by omega)
    exact ⟨t', ht', hshows, by omega⟩

theorem Shows.after (hl : l.Follows d word) (h : t.Shows l d word) (x : Move) :
    ∃ t', t.after x = .ok t' ∧ t'.Shows l d word ∧ t'.position = x.target l.steps t.position := by
  have hle := h.position_le
  cases x with
  | forward =>
    rcases Nat.lt_or_eq_of_le hle with hp | hp
    · obtain ⟨t', ht', hshows, hposition⟩ := h.forward_step hl hp
      refine ⟨t', ?_, hshows, by rw [hposition, Move.target, Nat.min_eq_left hp]⟩
      rw [Timeline.after, move?, ht']
      rfl
    · -- At the end there is no diff to apply, and the cursor stays.
      refine ⟨t, ?_, h, by rw [Move.target, hp, Nat.min_eq_right (Nat.le_succ _)]⟩
      rw [Timeline.after, move?, h.forward_end hp]
      rfl
  | backward =>
    cases hp : t.position with
    | zero =>
      refine ⟨t, ?_, h, hp⟩
      rw [Timeline.after, move?, Shows.backward_start hp]
      rfl
    | succ p =>
      obtain ⟨t', ht', hshows, hposition⟩ := h.backward_step hl hp
      refine ⟨t', ?_, hshows, hposition⟩
      rw [Timeline.after, move?, ht']
      rfl
  | seek step =>
    obtain ⟨t', ht', hshows, hposition⟩ := h.seek hl step
    refine ⟨t', ?_, hshows, hposition⟩
    rw [Timeline.after, move?, ht']
    rfl
  | toStart =>
    obtain rfl := h.log
    exact ⟨t.toStart, rfl, shows_ofLog hl, rfl⟩
  | toEnd =>
    obtain rfl := h.log
    exact ⟨t.toEnd, rfl, ⟨rfl, Nat.le_refl _, hl.final⟩, rfl⟩

theorem Shows.moves (hl : l.Follows d word) (h : t.Shows l d word) (moves : List Move) :
    ∃ t', moves.foldlM Timeline.after t = .ok t' ∧ t'.Shows l d word ∧
      t'.position = moves.foldl (Move.target l.steps) t.position := by
  induction moves generalizing t with
  | nil => exact ⟨t, rfl, h, rfl⟩
  | cons x moves ih =>
    obtain ⟨next, hnext, hshows, hposition⟩ := h.after hl x
    obtain ⟨t', ht', hshows', hposition'⟩ := ih hshows
    refine ⟨t', ?_, hshows', ?_⟩
    · rw [List.foldlM_cons]
      exact bind_eq_ok_iff.2 ⟨next, hnext, ht'⟩
    · rw [hposition', hposition, List.foldl_cons]

theorem Shows.forward_eq_none_iff (hl : l.Follows d word) (h : t.Shows l d word) :
    t.forward? = .ok none ↔ t.position = l.steps := by
  refine ⟨fun hnone => ?_, h.forward_end⟩
  by_contra hp
  obtain ⟨t', ht', -⟩ := h.forward_step hl (Nat.lt_of_le_of_ne h.position_le hp)
  cases hnone.symm.trans ht'

theorem Shows.backward_eq_none_iff (hl : l.Follows d word) (h : t.Shows l d word) :
    t.backward? = .ok none ↔ t.position = 0 := by
  refine ⟨fun hnone => ?_, Shows.backward_start⟩
  cases hp : t.position with
  | zero => rfl
  | succ p =>
    obtain ⟨t', ht', -⟩ := h.backward_step hl hp
    cases hnone.symm.trans ht'

theorem configurationAt_spec (hl : l.Follows d word) (step : Nat) :
    ∃ c, l.configurationAt step = .ok c ∧ c.moment = d.moment word (min step l.steps) := by
  obtain ⟨t, ht, hshows, hposition⟩ := (shows_ofLog hl).seek hl step
  refine ⟨t.current, ?_, hposition ▸ hshows.current⟩
  rw [Log.configurationAt, ht]

/-- No sequence of moves fails, and each of them leaves the cursor where it was sent, with the
moment of the computation that is at this place. -/
theorem moves_show_computation (hd : d.build = .ok m) (hl : l.Records m word limit) :
    (∀ moves : List Move, ∃ t, moves.foldlM after (ofLog l) = .ok t ∧
      t.position = moves.foldl (Move.target l.steps) 0 ∧
      t.current.moment = d.moment word t.position ∧
      (t.forward? = .ok none ↔ t.position = l.steps) ∧
      (t.backward? = .ok none ↔ t.position = 0)) ∧
    ∀ step, ∃ c, l.configurationAt step = .ok c ∧ c.moment = d.moment word (min step l.steps) := by
  have hfollows := hl.follows (Definition.implements_of_build hd)
  refine ⟨fun moves => ?_, configurationAt_spec hfollows⟩
  obtain ⟨t, ht, hshows, hposition⟩ := (shows_ofLog hfollows).moves hfollows moves
  exact ⟨t, ht, hposition, hshows.current, hshows.forward_eq_none_iff hfollows,
    hshows.backward_eq_none_iff hfollows⟩

/-- Jumps, steps and ends in turn. A step back from the end keeps cells stored that are not stored
on the way from the start. -/
theorem moves_show_computation_jumps :
    let d : Definition := ⟨["q", "p", "yes", "no"], ['a'], ['b'], "q", "yes", "no",
      [("q", 'a', ⟨"p", 'b', .left⟩), ("p", blankSymbol, ⟨"yes", 'a', .left⟩)]⟩
    let moves : List Move := [.toEnd, .forward, .backward, .seek 7, .seek 0, .backward, .forward]
    ∃ m l, d.build = .ok m ∧ l.Records m ['a'] 2 ∧
      (∃ t, moves.foldlM after (ofLog l) = .ok t ∧ t.position = 1 ∧
        t.current.moment = d.moment ['a'] t.position) ∧
      ∃ c, l.configurationAt 9 = .ok c ∧ c.moment = d.moment ['a'] 2 := by
  intro d moves
  let m : TuringMachine := ⟨⟨#["q", "p", "yes", "no"]⟩, ⟨['a'], by decide⟩,
    ⟨['a', 'b', blankSymbol], by decide⟩, 0, 2, 3,
    ⟨#[#[some ⟨1, 'b', .left⟩, none, none], #[none, none, some ⟨2, 'a', .left⟩],
      #[none, none, none], #[none, none, none]]⟩⟩
  let l : Log :=
    ⟨⟨"q", ⟨#['a'], #[], blankSymbol⟩, 0⟩, ⟨"yes", ⟨#['b'], #['a', blankSymbol], blankSymbol⟩, -2⟩,
    #[⟨"q", "p", 0, -1, 'a', 'b'⟩, ⟨"p", "yes", -1, -2, blankSymbol, 'a'⟩], .accepted⟩
  have hd : d.build = .ok m := by decide +kernel
  have hrun : m.run ['a'] 2 = .ok l := by cbv
  have hl : l.Records m ['a'] 2 := .run hrun
  obtain ⟨hmoves, hat⟩ := moves_show_computation hd hl
  obtain ⟨t, ht, hposition, hcurrent, -⟩ := hmoves moves
  exact ⟨m, l, hd, hl, ⟨t, ht, hposition, hcurrent⟩, hat 9⟩

end Timeline

end Acceptors
