import Mathlib.Order.SuccPred.Archimedean
import Mathlib.Tactic.Common
import Acceptors.Proofs.Turing.Held
import Acceptors.Proofs.Turing.Timeline

/-! Cursors over any log, also one whose diffs do not fit together. Such a log can be replayed up to
the first diff that cannot be applied in the room there is. A cursor never comes past this place,
and wherever a move leaves it, also one that fails, it holds the configuration of the replay at its
position. -/

namespace Acceptors

variable {room : Nat} {l : Log} {t t' : Timeline} {c c' e last : Configuration} {d : Diff}
  {v : Violation} {h : Held} {K k n : Nat} {low high : Int}

instance : EquivBEq Tape where
  rfl := Tape.beq_iff.2 ⟨rfl, fun _ => rfl⟩
  symm h := by
    obtain ⟨hblank, hread⟩ := Tape.beq_iff.1 h
    exact Tape.beq_iff.2 ⟨hblank.symm, fun p => (hread p).symm⟩
  trans h h' := by
    obtain ⟨hblank, hread⟩ := Tape.beq_iff.1 h
    obtain ⟨hblank', hread'⟩ := Tape.beq_iff.1 h'
    exact Tape.beq_iff.2 ⟨hblank.trans hblank', fun p => (hread p).trans (hread' p)⟩

namespace Configuration

instance : EquivBEq Configuration where
  rfl := beq_iff.2 ⟨rfl, BEq.rfl, rfl⟩
  symm h := by
    obtain ⟨hstate, htape, hhead⟩ := beq_iff.1 h
    exact beq_iff.2 ⟨hstate.symm, BEq.symm htape, hhead.symm⟩
  trans h h' := by
    obtain ⟨hstate, htape, hhead⟩ := beq_iff.1 h
    obtain ⟨hstate', htape', hhead'⟩ := beq_iff.1 h'
    exact beq_iff.2 ⟨hstate.trans hstate', BEq.trans htape htape', hhead.trans hhead'⟩

theorem exists_apply_of_beq (h : (c == c') = true) (happly : c'.apply d = .ok e) :
    ∃ e', c.apply d = .ok e' ∧ (e' == e) = true := by
  obtain ⟨hstate, htape, hhead⟩ := beq_iff.1 h
  obtain ⟨hblank, hread⟩ := Tape.beq_iff.1 htape
  obtain ⟨⟨hs, hh, hr⟩, rfl⟩ := apply_eq_ok_iff.1 happly
  refine ⟨_, apply_eq_ok_iff.2 ⟨⟨hstate.trans hs, hhead.trans hh, (hread _).trans hr⟩, rfl⟩,
    beq_iff.2 ⟨rfl, Tape.beq_iff.2 ⟨?_, fun p => ?_⟩, rfl⟩⟩
  · simp only [Tape.blank_extendTo, Tape.blank_write, hblank]
  · simp only [Tape.read_extendTo, Tape.read_write, funext hread]

theorem exists_reverse_of_beq (h : (c == c') = true) (hreverse : c'.reverse d = .ok e) :
    ∃ e', c.reverse d = .ok e' ∧ (e' == e) = true := by
  obtain ⟨hstate, htape, hhead⟩ := beq_iff.1 h
  obtain ⟨hblank, hread⟩ := Tape.beq_iff.1 htape
  obtain ⟨⟨hs, hh, hr⟩, rfl⟩ := reverse_eq_ok_iff.1 hreverse
  refine ⟨_, reverse_eq_ok_iff.2 ⟨⟨hstate.trans hs, hhead.trans hh, (hread _).trans hr⟩, rfl⟩,
    beq_iff.2 ⟨rfl, Tape.beq_iff.2 ⟨?_, fun p => ?_⟩, rfl⟩⟩
  · simp only [Tape.blank_write, hblank]
  · simp only [Tape.read_write, funext hread]

structure StoredIn (c c' : Configuration) : Prop where
  first_le : c'.tape.first ≤ c.tape.first
  stop_le : c.tape.stop ≤ c'.tape.stop

theorem StoredIn.refl (c : Configuration) : c.StoredIn c := ⟨le_rfl, le_rfl⟩

theorem StoredIn.trans (h : c.StoredIn c') (h' : c'.StoredIn e) : c.StoredIn e :=
  ⟨h'.first_le.trans h.first_le, h.stop_le.trans h'.stop_le⟩

theorem StoredIn.length_le (h : c.StoredIn c') : c.tape.cells.length ≤ c'.tape.cells.length := by
  have hlength := c.tape.length_cells
  have hlength' := c'.tape.length_cells
  have hfirst := h.first_le
  have hstop := h.stop_le
  omega

theorem storedIn_of_apply (h : c.apply d = .ok c') : c.StoredIn c' := by
  have hfirst := first_of_apply h
  have hstop := stop_of_apply h
  exact ⟨by omega, by omega⟩

theorem StoredIn.apply (h : c.StoredIn c') (he : c.apply d = .ok e) {e' : Configuration}
    (he' : c'.apply d = .ok e') : e.StoredIn e' := by
  have hfirst := h.first_le
  have hstop := h.stop_le
  constructor
  · rw [first_of_apply he, first_of_apply he']
    omega
  · rw [stop_of_apply he, stop_of_apply he']
    omega

/-- A step stores no cells outside those of a configuration that holds the cells before it and those
that the step comes to. -/
theorem StoredIn.apply_of_apply (h : c.StoredIn last) (he : c.apply d = .ok e) {e' : Configuration}
    (he' : c'.apply d = .ok e') (hlast : e'.StoredIn last) : e.StoredIn last := by
  have hfirst := h.first_le
  have hstop := h.stop_le
  have hfirst' := hlast.first_le
  have hstop' := hlast.stop_le
  rw [first_of_apply he'] at hfirst'
  rw [stop_of_apply he'] at hstop'
  constructor
  · rw [first_of_apply he]
    omega
  · rw [stop_of_apply he]
    omega

theorem storedIn_of_reverse (hreverse : c.reverse d = .ok e) {before after : Configuration}
    (happly : before.apply d = .ok after) (hstored : after.StoredIn c) :
    c.StoredIn e ∧ e.StoredIn c := by
  have hfirst := hstored.first_le
  have hstop := hstored.stop_le
  rw [first_of_apply happly] at hfirst
  rw [stop_of_apply happly] at hstop
  have hfirst' := first_of_reverse hreverse
  have hstop' := stop_of_reverse hreverse
  exact ⟨⟨by omega, by omega⟩, by omega, by omega⟩

theorem storedIn_of_foldlM {diffs : List Diff} (h : diffs.foldlM apply c = .ok c') :
    c.StoredIn c' :=
  foldlM_induction (fun _ _ _ hprev happly => hprev.trans (storedIn_of_apply happly)) (.refl c) h

end Configuration

namespace Held

def next? (room : Nat) (h : Held) (d : Diff) : Option Held :=
  match (apply room d).on h with
  | some (.ok (), next) => some next
  | _ => none

theorem next?_eq_some_iff (hroom : room < 2 ^ 63) :
    next? room c.held d = some h ↔
      ∃ c', c.apply d = .ok c' ∧ c'.tape.cells.length ≤ room ∧ c'.held = h := by
  rw [← on_apply_eq_ok_iff hroom, next?]
  split
  · next next hnext => rw [hnext, Option.some_inj, Option.some_inj, Prod.mk_inj, and_iff_right rfl]
  · next hother => exact iff_of_false (Option.some_ne_none h ∘ Eq.symm) (hother h)

end Held

namespace Log

/-- The configuration after the first diffs of a log, if they can be applied one after another. -/
def replay (l : Log) (k : Nat) : Except Violation Configuration :=
  (l.diffs.toList.take k).foldlM Configuration.apply l.initial

theorem replay_succ (h : l.diffs[k]? = some d) :
    l.replay (k + 1) = l.replay k >>= fun c => c.apply d := by
  rw [← Array.getElem?_toList] at h
  rw [replay, List.take_add_one, h, List.foldlM_append, replay]
  refine bind_congr fun c => ?_
  exact List.foldlM_cons.trans (bind_pure _)

theorem exists_replay_of_le (hc : l.replay n = .ok c) (hk : k ≤ n) :
    ∃ c', l.replay k = .ok c' ∧ c'.StoredIn c := by
  obtain ⟨more, rfl⟩ := Nat.exists_eq_add_of_le hk
  rw [replay, List.take_add, List.foldlM_append, bind_eq_ok_iff] at hc
  obtain ⟨c', hc', hmore⟩ := hc
  exact ⟨c', hc', Configuration.storedIn_of_foldlM hmore⟩

/-- The replay comes to this configuration after so many diffs, and then to the end of the log or
to a diff that cannot be applied in the room there is. -/
structure ReplaysTo (l : Log) (room K : Nat) (last : Configuration) : Prop where
  le_steps : K ≤ l.steps
  replay_eq : l.replay K = .ok last
  length_le : last.tape.cells.length ≤ room
  stops : ∀ d c, l.diffs[K]? = some d → last.apply d = .ok c → room < c.tape.cells.length

structure Spans (l : Log) (low high : Int) : Prop where
  low_le_first : low ≤ l.initial.tape.first
  stop_le_high : l.initial.tape.stop ≤ high
  heads : ∀ d ∈ l.diffs,
    (low ≤ d.prevHead ∧ d.prevHead < high) ∧ low ≤ d.nextHead ∧ d.nextHead < high

end Log

/-- A cursor as a program holds it. -/
structure Playback where
  log : Log
  current : Held
  position : Nat

def Timeline.held (t : Timeline) : Playback := ⟨t.log, t.current.held, t.position⟩

namespace Playback

open Timeline (Move)

def ofLog (l : Log) : Playback := ⟨l, l.initial.held, 0⟩

def onCurrent (change : InPlace Held Unit) : InPlace Playback Unit := fun t =>
  (change.on t.current).map fun (outcome, h) => (outcome, { t with current := h })

def forward (room : Nat) : InPlace Playback Bool := do
  let t ← get
  match t.log.diffs[t.position]? with
  | none => return false
  | some d =>
    onCurrent (Held.apply room d)
    modify fun t => { t with position := t.position + 1 }
    return true

def backward (room : Nat) : InPlace Playback Bool := do
  let t ← get
  match t.position with
  | 0 => return false
  | p + 1 =>
    let d ← t.log.diffs[p]?
    onCurrent (Held.reverse room d)
    modify fun t => { t with position := p }
    return true

def times (move : InPlace Playback Bool) : Nat → InPlace Playback Unit
  | 0 => return ()
  | n + 1 => do
    let _ ← move
    times move n

def seek (room step : Nat) : InPlace Playback Unit := do
  let t ← get
  let target := min step t.log.steps
  times (forward room) (target - t.position)
  times (backward room) (t.position - target)

def move (room : Nat) : Move → InPlace Playback Unit
  | .forward => do let _ ← forward room
  | .backward => do let _ ← backward room
  | .seek step => seek room step
  | .toStart => modify fun t => ofLog t.log
  | .toEnd => modify fun t => ⟨t.log, t.log.final.held, t.log.steps⟩

def leave? (room : Nat) (t : Playback) (x : Move) : Option Playback :=
  ((move room x).on t).map Prod.snd

theorem on_onCurrent_bind (change : InPlace Held Unit) (next : Unit → InPlace Playback Bool)
    (t : Playback) :
    (onCurrent change >>= next).on t =
      match change.on t.current with
      | some (.ok (), h) => (next ()).on { t with current := h }
      | some (.error v, h) => some (.error v, { t with current := h })
      | none => none := by
  have hon : (onCurrent change).on t =
      (change.on t.current).map fun (outcome, h) => (outcome, { t with current := h }) := rfl
  rw [InPlace.on_bind, hon]
  cases change.on t.current with
  | none => rfl
  | some left =>
    obtain ⟨outcome, h⟩ := left
    cases outcome <;> rfl

theorem on_forward {t : Playback} (hd : t.log.diffs[t.position]? = some d) :
    (forward room).on t =
      match (Held.apply room d).on t.current with
      | some (.ok (), h) => some (.ok true, ⟨t.log, h, t.position + 1⟩)
      | some (.error v, h) => some (.error v, { t with current := h })
      | none => none := by
  rw [forward, InPlace.on_bind, InPlace.on_get, InPlace.andThen_ok, hd]
  exact on_onCurrent_bind (Held.apply room d) _ t

theorem on_forward_end {t : Playback} (hd : t.log.diffs[t.position]? = none) :
    (forward room).on t = some (.ok false, t) := by
  simp only [forward, InPlace.on_bind, InPlace.on_get, InPlace.andThen_ok, hd]
  rfl

theorem on_backward_start {t : Playback} (hp : t.position = 0) :
    (backward room).on t = some (.ok false, t) := by
  simp only [backward, InPlace.on_bind, InPlace.on_get, InPlace.andThen_ok, hp]
  rfl

theorem on_backward {t : Playback} (hp : t.position = n + 1) (hd : t.log.diffs[n]? = some d) :
    (backward room).on t =
      match (Held.reverse room d).on t.current with
      | some (.ok (), h) => some (.ok true, ⟨t.log, h, n⟩)
      | some (.error v, h) => some (.error v, { t with current := h })
      | none => none := by
  rw [backward, InPlace.on_bind, InPlace.on_get, InPlace.andThen_ok, hp]
  dsimp only
  rw [InPlace.on_bind, hd, InPlace.on_liftM, Option.map_some, InPlace.andThen_ok,
    on_onCurrent_bind, hp]
  rfl

theorem on_times_succ (x : InPlace Playback Bool) (n : Nat) (t : Playback) :
    (times x (n + 1)).on t = InPlace.andThen (x.on t) fun _ => (times x n).on :=
  InPlace.on_bind x (fun _ => times x n) t

theorem on_discard (x : InPlace Playback Bool) (t : Playback) :
    ((do let _ ← x : InPlace Playback Unit).on t).map Prod.snd = (x.on t).map Prod.snd := by
  rw [InPlace.on_bind]
  cases x.on t with
  | none => rfl
  | some left =>
    obtain ⟨outcome, t'⟩ := left
    cases outcome <;> rfl

theorem on_seek_of_le {t : Playback} {step : Nat} (hle : t.position ≤ min step t.log.steps) :
    (seek room step).on t =
      (times (forward room) (min step t.log.steps - t.position)).on t := by
  simp only [seek, InPlace.on_bind, InPlace.on_get, InPlace.andThen_ok,
    Nat.sub_eq_zero_of_le hle]
  exact InPlace.andThen_pure _

theorem on_seek_of_ge {t : Playback} {step : Nat} (hle : min step t.log.steps ≤ t.position) :
    (seek room step).on t =
      (times (backward room) (t.position - min step t.log.steps)).on t := by
  simp only [seek, InPlace.on_bind, InPlace.on_get, InPlace.andThen_ok,
    Nat.sub_eq_zero_of_le hle]
  rfl

end Playback

namespace Timeline

def leave (t : Timeline) : Move → Timeline
  | .forward =>
    match t.forward? with
    | .ok (some t') => t'
    | _ => t
  | .backward =>
    match t.backward? with
    | .ok (some t') => t'
    | _ => t
  | .seek step => (t.seek step).1
  | .toStart => t.toStart
  | .toEnd => t.toEnd

/-- A cursor has not come past the place the replay goes to. It holds the configuration of the
replay at its position, and no cells that the replay does not come to. -/
structure OnReplay (t : Timeline) (l : Log) (K : Nat) (last : Configuration) : Prop where
  log : t.log = l
  position_le : t.position ≤ K
  current : ∃ c, l.replay t.position = .ok c ∧ (t.current == c) = true ∧ c.StoredIn t.current
  stored : t.current.StoredIn last

theorem onReplay_ofLog (hK : l.ReplaysTo room K last) : (ofLog l).OnReplay l K last := by
  obtain ⟨c, hc, hinside⟩ := l.exists_replay_of_le hK.replay_eq (Nat.zero_le K)
  cases hc
  exact ⟨rfl, Nat.zero_le K, ⟨l.initial, rfl, BEq.rfl, .refl _⟩, hinside⟩

theorem OnReplay.forward_step (hroom : room < 2 ^ 63) (hK : l.ReplaysTo room K last)
    (h : t.OnReplay l K last) (hp : t.position < K) :
    ∃ t', t.forward? = .ok (some t') ∧ (Playback.forward room).on t.held =
    some (.ok true, t'.held) ∧
      t'.OnReplay l K last ∧ t'.position = t.position + 1 := by
  have hlt : t.position < l.diffs.size := Nat.lt_of_lt_of_le hp hK.le_steps
  have hd : t.log.diffs[t.position]? = some l.diffs[t.position] := by
    rw [h.log, Array.getElem?_eq_getElem hlt]
  obtain ⟨next, hnext, hinside⟩ := l.exists_replay_of_le hK.replay_eq hp
  obtain ⟨c, hc, hcurrent, hstored⟩ := h.current
  have hstep := hnext
  rw [Log.replay_succ (Array.getElem?_eq_getElem hlt), bind_of_eq_ok hc] at hstep
  obtain ⟨next', hnext', hsame⟩ := Configuration.exists_apply_of_beq hcurrent hstep
  have hstored' : next.StoredIn next' := hstored.apply hstep hnext'
  have hinside' : next'.StoredIn last := h.stored.apply_of_apply hnext' hstep hinside
  have hfits := hinside'.length_le.trans hK.length_le
  refine ⟨⟨t.log, next', t.position + 1⟩, ?_, ?_,
    ⟨h.log, hp, ⟨next, hnext, hsame, hstored'⟩, hinside'⟩, rfl⟩
  · rw [forward?, hd]
    simp only [hnext']
    rfl
  · have happly := (Held.on_apply_eq_ok_iff hroom).2 ⟨next', hnext', hfits, rfl⟩
    rw [Playback.on_forward hd]
    simp only [held, happly]

theorem OnReplay.forward_stops (hroom : room < 2 ^ 63) (hK : l.ReplaysTo room K last)
    (h : t.OnReplay l K last) (hp : t.position = K) (hend : K < l.steps) :
    (Playback.forward room).on t.held = none ∨
      ∃ v, t.forward? = .error v ∧ (Playback.forward room).on t.held = some (.error v, t.held) := by
  subst hp
  have hd : t.log.diffs[t.position]? = some l.diffs[t.position] := by
    rw [h.log, Array.getElem?_eq_getElem hend]
  obtain ⟨c, hc, hcurrent, hstored⟩ := h.current
  cases hc.symm.trans hK.replay_eq
  rw [Playback.on_forward hd]
  cases happly : t.current.apply l.diffs[t.position] with
  | ok next =>
    -- the step of the replay fails for want of room, and here at least as many cells are stored
    obtain ⟨next', hnext', -⟩ := Configuration.exists_apply_of_beq (BEq.symm hcurrent) happly
    have hlong := hK.stops _ next' (Array.getElem?_eq_getElem hend) hnext'
    have hlength := (hstored.apply hnext' happly).length_le
    have hnone : (Held.apply room l.diffs[t.position]).on t.current.held = none := by
      rw [Held.on_apply_of_ok hroom happly, if_neg (by omega)]
    refine .inl ?_
    simp only [held, hnone]
  | error v =>
    rcases Held.on_apply_cases hroom t.current l.diffs[t.position] with heq | ⟨hnone, -⟩
    · rw [happly, Held.outcome] at heq
      refine .inr ⟨v, ?_, ?_⟩
      · rw [forward?, hd]
        simp only [happly]
        rfl
      · simp only [held, heq]
    · refine .inl ?_
      simp only [held, hnone]

theorem OnReplay.forward_end (room : Nat) (h : t.OnReplay l K last) (hp : t.position = l.steps) :
    t.forward? = .ok none ∧ (Playback.forward room).on t.held = some (.ok false, t.held) := by
  have hd : t.log.diffs[t.position]? = none := by
    rw [h.log, Array.getElem?_eq_none (Nat.le_of_eq hp.symm)]
  exact ⟨by rw [forward?, hd], Playback.on_forward_end hd⟩

theorem OnReplay.backward_step (hroom : room < 2 ^ 63) (hK : l.ReplaysTo room K last)
    (h : t.OnReplay l K last) (hp : t.position = n + 1) :
    ∃ t', t.backward? = .ok (some t') ∧
      (Playback.backward room).on t.held = some (.ok true, t'.held) ∧
      t'.OnReplay l K last ∧ t'.position = n := by
  have hle : n + 1 ≤ K := hp ▸ h.position_le
  have hlt : n < l.diffs.size := Nat.lt_of_lt_of_le hle hK.le_steps
  have hd : t.log.diffs[n]? = some l.diffs[n] := by rw [h.log, Array.getElem?_eq_getElem hlt]
  obtain ⟨c, hc, hcurrent, hstored⟩ := h.current
  rw [hp, Log.replay_succ (Array.getElem?_eq_getElem hlt), bind_eq_ok_iff] at hc
  obtain ⟨before, hbefore, happly⟩ := hc
  obtain ⟨restored, hrestored, hsame⟩ := Configuration.exists_reverse_of_apply happly
  obtain ⟨c', hc', hsame'⟩ := Configuration.exists_reverse_of_beq hcurrent hrestored
  obtain ⟨hinside, hinside'⟩ := Configuration.storedIn_of_reverse hc' happly hstored
  have hbefore' := ((Configuration.storedIn_of_apply happly).trans hstored).trans hinside
  have hlast := hinside'.trans h.stored
  refine ⟨⟨t.log, c', n⟩, ?_, ?_, ⟨h.log, Nat.le_of_succ_le hle,
    ⟨before, hbefore, BEq.trans hsame' hsame, hbefore'⟩, hlast⟩, rfl⟩
  · rw [backward?, hp]
    simp only [hd, hc']
    rfl
  · have hreverse := (Held.on_reverse_eq_ok_iff hroom).2
      ⟨c', hc', hlast.length_le.trans hK.length_le, rfl⟩
    rw [Playback.on_backward (show t.held.position = n + 1 from hp) hd]
    simp only [held, hreverse]

theorem times_invariant {move : Timeline → Except Violation (Option Timeline)}
    {x : InPlace Playback Bool} {P : Nat → Timeline → Prop}
    (hstep : ∀ i < n, ∀ t, P i t → ∃ next,
      move t = .ok (some next) ∧ x.on t.held = some (.ok true, next.held) ∧ P (i + 1) next)
    (h : P 0 t) :
    ∃ reached, repeatMove move n t = (reached, none) ∧
      (Playback.times x n).on t.held = some (.ok (), reached.held) ∧ P n reached := by
  induction n generalizing t P with
  | zero => exact ⟨t, rfl, rfl, h⟩
  | succ n ih =>
    obtain ⟨next, hnext, hx, hmoved⟩ := hstep 0 (Nat.succ_pos n) t h
    obtain ⟨reached, hreached, hon, hend⟩ :=
      ih (P := fun i => P (i + 1)) (fun i hi => hstep (i + 1) (Nat.succ_lt_succ hi)) hmoved
    refine ⟨reached, ?_, ?_, hend⟩
    · rw [repeatMove, hnext]
      exact hreached
    · rw [Playback.on_times_succ, hx]
      exact hon

theorem OnReplay.repeat_forward (hroom : room < 2 ^ 63) (hK : l.ReplaysTo room K last)
    (h : t.OnReplay l K last) (hn : t.position + n ≤ K) :
    ∃ t', repeatMove forward? n t = (t', none) ∧
      (Playback.times (Playback.forward room) n).on t.held = some (.ok (), t'.held) ∧
      t'.OnReplay l K last ∧ t'.position = t.position + n := by
  refine times_invariant
    (P := fun i t' => t'.OnReplay l K last ∧ t'.position = t.position + i) ?_ ⟨h, rfl⟩
  rintro i hi t' ⟨hon, hposition⟩
  obtain ⟨next, hnext, hx, hon', hposition'⟩ := hon.forward_step hroom hK (by omega)
  exact ⟨next, hnext, hx, hon', by omega⟩

theorem OnReplay.repeat_backward (hroom : room < 2 ^ 63) (hK : l.ReplaysTo room K last)
    (h : t.OnReplay l K last) (hn : n ≤ t.position) :
    ∃ t', repeatMove backward? n t = (t', none) ∧
      (Playback.times (Playback.backward room) n).on t.held = some (.ok (), t'.held) ∧
      t'.OnReplay l K last ∧ t'.position = t.position - n := by
  refine times_invariant
    (P := fun i t' => t'.OnReplay l K last ∧ t'.position = t.position - i) ?_ ⟨h, rfl⟩
  rintro i hi t' ⟨hon, hposition⟩
  obtain ⟨next, hnext, hx, hon', hposition'⟩ :=
    hon.backward_step (n := t.position - i - 1) hroom hK (by omega)
  exact ⟨next, hnext, hx, hon', by omega⟩

theorem OnReplay.repeat_forward_stops (hroom : room < 2 ^ 63) (hK : l.ReplaysTo room K last)
    (h : t.OnReplay l K last) (hn : K < t.position + n) (hend : t.position + n ≤ l.steps) :
    ∃ t', t'.OnReplay l K last ∧ t'.position = K ∧
      ((Playback.forward room).on t'.held = none ∧
          (Playback.times (Playback.forward room) n).on t.held = none ∨
        ∃ v, repeatMove forward? n t = (t', some v) ∧
          (Playback.times (Playback.forward room) n).on t.held = some (.error v, t'.held)) := by
  have hposition := h.position_le
  induction n generalizing t with
  | zero => omega
  | succ n ih =>
    rw [repeatMove, Playback.on_times_succ]
    rcases Nat.lt_or_eq_of_le hposition with hp | hp
    · obtain ⟨next, hnext, hx, hon, hposition'⟩ := h.forward_step hroom hK hp
      rw [hnext, hx]
      exact ih hon (by omega) (by omega) hon.position_le
    · refine ⟨t, h, hp, ?_⟩
      rcases h.forward_stops hroom hK hp (by omega) with hnone | ⟨v, hv, hx⟩
      · exact .inl ⟨hnone, by rw [hnone, InPlace.andThen_none]⟩
      · exact .inr ⟨v, by rw [hv], by rw [hx, InPlace.andThen_error]⟩

theorem OnReplay.seek (hroom : room < 2 ^ 63) (hK : l.ReplaysTo room K last)
    (h : t.OnReplay l K last) {step : Nat} (hstep : min step l.steps ≤ K) :
    ∃ t', t.seek step = (t', none) ∧ (Playback.seek room step).on t.held = some (.ok (), t'.held) ∧
      t'.OnReplay l K last ∧ t'.position = min step l.steps := by
  have hlog : t.held.log = l := h.log
  have hheld : t.held.position = t.position := rfl
  rw [Timeline.seek, h.log]
  by_cases hle : t.position ≤ min step l.steps
  · rw [Playback.on_seek_of_le (by rw [hlog]; exact hle), hlog, hheld]
    simp only [if_pos hle]
    obtain ⟨t', ht', hx, hon, hp⟩ :=
      h.repeat_forward (n := min step l.steps - t.position) hroom hK (by omega)
    exact ⟨t', ht', hx, hon, by omega⟩
  · have hge : min step l.steps ≤ t.position := Nat.le_of_not_le hle
    rw [Playback.on_seek_of_ge (by rw [hlog]; exact hge), hlog, hheld]
    simp only [if_neg hle]
    obtain ⟨t', ht', hx, hon, hp⟩ :=
      h.repeat_backward (n := t.position - min step l.steps) hroom hK (by omega)
    exact ⟨t', ht', hx, hon, by omega⟩

theorem OnReplay.seek_stops (hroom : room < 2 ^ 63) (hK : l.ReplaysTo room K last)
    (h : t.OnReplay l K last) {step : Nat} (hstep : K < min step l.steps) :
    ∃ t', t'.OnReplay l K last ∧ t'.position = K ∧
      ((Playback.forward room).on t'.held = none ∧ (Playback.seek room step).on t.held = none ∨
        ∃ v, t.seek step = (t', some v) ∧
          (Playback.seek room step).on t.held = some (.error v, t'.held)) := by
  have hlog : t.held.log = l := h.log
  have hheld : t.held.position = t.position := rfl
  have hle : t.position ≤ min step l.steps := h.position_le.trans hstep.le
  rw [Timeline.seek, h.log, Playback.on_seek_of_le (by rw [hlog]; exact hle), hlog, hheld]
  simp only [if_pos hle]
  exact h.repeat_forward_stops hroom hK (by omega) (by omega)

theorem OnReplay.leave (hroom : room < 2 ^ 63) (hK : l.ReplaysTo room K last)
    (h : t.OnReplay l K last) {x : Move} (hx : x ≠ .toEnd) {left : Playback}
    (hleft : Playback.leave? room t.held x = some left) :
    left = (t.leave x).held ∧ (t.leave x).OnReplay l K last := by
  cases x with
  | forward =>
    rw [Playback.leave?, Playback.move, Playback.on_discard] at hleft
    rw [Timeline.leave]
    rcases Nat.lt_or_eq_of_le h.position_le with hp | hp
    · obtain ⟨t', ht', hon, h', -⟩ := h.forward_step hroom hK hp
      rw [hon] at hleft
      cases hleft
      simp only [ht']
      exact ⟨trivial, h'⟩
    · rcases Nat.lt_or_eq_of_le hK.le_steps with hend | hend
      · rcases h.forward_stops hroom hK hp hend with hnone | ⟨v, hv, hon⟩
        · rw [hnone] at hleft
          cases hleft
        · rw [hon] at hleft
          cases hleft
          simp only [hv]
          exact ⟨trivial, h⟩
      · obtain ⟨hnone, hon⟩ := h.forward_end room (hp.trans hend)
        rw [hon] at hleft
        cases hleft
        simp only [hnone]
        exact ⟨trivial, h⟩
  | backward =>
    rw [Playback.leave?, Playback.move, Playback.on_discard] at hleft
    rw [Timeline.leave]
    cases hp : t.position with
    | zero =>
      rw [Playback.on_backward_start hp] at hleft
      cases hleft
      simp only [Shows.backward_start hp]
      exact ⟨trivial, h⟩
    | succ p =>
      obtain ⟨t', ht', hon, h', -⟩ := h.backward_step hroom hK hp
      rw [hon] at hleft
      cases hleft
      simp only [ht']
      exact ⟨trivial, h'⟩
  | seek step =>
    rw [Playback.leave?, Playback.move] at hleft
    rw [Timeline.leave]
    rcases Nat.lt_or_ge K (min step l.steps) with hstep | hstep
    · obtain ⟨t', h', -, ⟨-, hnone⟩ | ⟨v, ht', hon⟩⟩ := h.seek_stops hroom hK hstep
      · rw [hnone] at hleft
        cases hleft
      · rw [hon] at hleft
        cases hleft
        rw [ht']
        exact ⟨rfl, h'⟩
    · obtain ⟨t', ht', hon, h', -⟩ := h.seek hroom hK hstep
      rw [hon] at hleft
      cases hleft
      rw [ht']
      exact ⟨rfl, h'⟩
  | toStart =>
    cases hleft
    obtain rfl := h.log
    exact ⟨rfl, onReplay_ofLog hK⟩
  | toEnd => exact absurd rfl hx

theorem OnReplay.moves (hroom : room < 2 ^ 63) (hK : l.ReplaysTo room K last)
    (h : t.OnReplay l K last) {moves : List Move} (hmoves : .toEnd ∉ moves) {left : Playback}
    (hleft : moves.foldlM (Playback.leave? room) t.held = some left) :
    left = (moves.foldl Timeline.leave t).held ∧
      (moves.foldl Timeline.leave t).OnReplay l K last := by
  induction moves generalizing t with
  | nil =>
    cases hleft
    exact ⟨rfl, h⟩
  | cons x moves ih =>
    obtain ⟨hx, hrest⟩ := not_or.1 (mt List.mem_cons.2 hmoves)
    rw [List.foldlM_cons, Option.bind_eq_bind, Option.bind_eq_some_iff] at hleft
    obtain ⟨next, hnext, hleft⟩ := hleft
    obtain ⟨rfl, h'⟩ := h.leave hroom hK (Ne.symm hx) hnext
    exact ih h' hrest hleft

end Timeline

end Acceptors
