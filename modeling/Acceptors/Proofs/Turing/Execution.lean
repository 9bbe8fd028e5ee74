import Mathlib.Tactic.Common
import Acceptors.Proofs.Turing.Step
import Acceptors.Turing.Execution

/-! Runs of a machine and its computations. A run in progress has recorded the changes of the
computation so far and has not come past a halting state, so it ends where the computation halts or
at the step limit, whichever comes first. -/

namespace Acceptors

open Acceptors.Turing (Definition Moment)

def Turing.Definition.changes (d : Definition) (word : List Char) (steps : Nat) : List Diff :=
  (List.range steps).map fun k => (d.moment word k).change (d.moment word (k + 1))

theorem Turing.Definition.changes_succ (d : Definition) (word : List Char) (steps : Nat) :
    d.changes word (steps + 1) =
      d.changes word steps ++ [(d.moment word steps).change (d.moment word (steps + 1))] := by
  rw [changes, List.range_succ, List.map_append]
  rfl

theorem Turing.Definition.changes_prefix (d : Definition) (word : List Char)
    {n k : Nat} (h : n ≤ k) :
    d.changes word n <+: d.changes word k := by
  obtain ⟨further, rfl⟩ := Nat.exists_eq_add_of_le h
  rw [changes, changes, List.range_add, List.map_append]
  exact List.prefix_append _ _

/-- A log tells a computation up to its end or up to the limit, whichever comes first. -/
structure Log.Tells (l : Log) (d : Definition) (word : List Char) (limit : Nat) : Prop where
  initial : l.initial.moment = d.first word
  steps : (l.steps : ℕ∞) = min (limit : ℕ∞) (d.haltingTime word)
  diffs : l.diffs.toList = d.changes word l.steps
  final : l.final.moment = d.moment word l.steps
  halted : d.haltingTime word ≤ limit →
    (l.final.state = d.acceptState ∧ l.outcome = .accepted) ∨
      (l.final.state = d.rejectState ∧ l.outcome = .rejected)
  cutOff : (limit : ℕ∞) < d.haltingTime word → l.outcome = .stepLimitExceeded

theorem Log.Tells.outcome_ne_running {l : Log} {d : Definition} {word : List Char} {limit : Nat}
    (h : l.Tells d word limit) : l.outcome ≠ .running := by
  intro hrunning
  rcases le_or_gt (d.haltingTime word) limit with hle | hlt
  · rcases h.halted hle with ⟨_, ho⟩ | ⟨_, ho⟩ <;> cases hrunning.symm.trans ho
  · cases hrunning.symm.trans (h.cutOff hlt)

namespace Execution

variable {d : Definition} {m : TuringMachine} {word : List Char} {e e' : Execution} {limit : Nat}

/-- What holds of a run at every point: it follows the computation step by step, and its status is
that of the configuration it has come to, unless it was cut off there. -/
structure Follows (e : Execution) (d : Definition) (word : List Char) : Prop where
  implements : e.machine.Implements d
  declared : ∃ s, e.machine.states.id? e.current.state = some s
  current : e.current.moment = d.moment word e.steps
  diffs : e.diffs.toList = d.changes word e.steps
  replay : e.diffs.toList.foldlM Configuration.apply e.initial = .ok e.current
  running : ∀ k < e.steps, ¬d.Halted (d.moment word k)
  steps_le : e.steps ≤ e.maxSteps
  status : e.status = e.machine.status e.current ∨
    (e.status = .stepLimitExceeded ∧ e.steps = e.maxSteps ∧ ¬d.Halted e.current.moment)

def SameRun (e e' : Execution) : Prop :=
  e'.machine = e.machine ∧ e'.initial = e.initial ∧ e'.maxSteps = e.maxSteps

theorem SameRun.trans {e'' : Execution} (h : SameRun e e') (h' : SameRun e' e'') : SameRun e e'' :=
  ⟨h'.1.trans h.1, h'.2.1.trans h.2.1, h'.2.2.trans h.2.2⟩

theorem Follows.status_eq (h : e.Follows d word) (hhalted : d.Halted e.current.moment) :
    e.status = e.machine.status e.current := by
  rcases h.status with hs | ⟨_, _, hnot⟩
  · exact hs
  · exact absurd hhalted hnot

theorem Follows.not_halted (h : e.Follows d word) (hrunning : e.status = .running) :
    ¬d.Halted e.current.moment := by
  intro hhalted
  have hs := h.status_eq hhalted
  rw [hrunning] at hs
  rcases hhalted with haccept | hreject
  · cases hs.trans (h.implements.status_eq_accepted haccept)
  · cases hs.trans (h.implements.status_eq_rejected hreject)

theorem Follows.step (h : e.Follows d word) : ∃ next, e.step = .ok next ∧ next.Follows d word ∧
    SameRun e next ∧ (next.status = .running → next.steps = e.steps + 1) := by
  rw [Execution.step]
  by_cases hrunning : e.status = .running
  · have hnot := h.not_halted hrunning
    rw [if_neg (not_not_intro hrunning)]
    by_cases hlimit : e.maxSteps ≤ e.steps
    · rw [if_pos hlimit]
      refine ⟨_, rfl, ?_, ⟨rfl, rfl, rfl⟩, fun hs => by cases hs⟩
      exact { h with status := .inr ⟨rfl, Nat.le_antisymm h.steps_le hlimit, hnot⟩ }
    · obtain ⟨s, hs⟩ := h.declared
      obtain ⟨c, happly, hc⟩ :=
        e.current.apply_change (d.next e.current.moment) (d.cells_next e.current.moment)
      rw [if_neg hlimit, h.implements.nextDiff_eq hs hnot]
      simp only [happly]
      have hsteps : (e.diffs.push (e.current.moment.change (d.next e.current.moment))).size =
          e.steps + 1 := Array.size_push _
      refine ⟨_, rfl, ?_, ⟨rfl, rfl, rfl⟩, fun _ => hsteps⟩
      have hstate : c.state = (d.next e.current.moment).state := congrArg Moment.state hc
      refine ⟨h.implements, ?_, ?_, ?_, ?_, ?_, ?_, .inl rfl⟩
      · rw [hstate]
        exact h.implements.declared_next (a := e.current.moment) hs
      · rw [steps, hsteps, Definition.moment_succ, ← h.current]
        exact hc
      · rw [steps, hsteps, Definition.changes_succ, Definition.moment_succ, ← h.current, ← h.diffs,
          Array.toList_push]
      · rw [Array.toList_push, List.foldlM_append]
        exact bind_eq_ok_iff.2 ⟨_, h.replay, bind_eq_ok_iff.2 ⟨c, happly, rfl⟩⟩
      · intro k hk
        rw [steps, hsteps] at hk
        rcases Nat.lt_succ_iff_lt_or_eq.1 hk with hk | rfl
        · exact h.running k hk
        · exact h.current ▸ hnot
      · rw [steps, hsteps]
        exact Nat.lt_of_not_le hlimit
  · rw [if_pos hrunning]
    exact ⟨e, rfl, h, ⟨rfl, rfl, rfl⟩, fun hs => absurd hs hrunning⟩

theorem Follows.runFor (n : Nat) (h : e.Follows d word) (hn : e.maxSteps - e.steps < n) :
    ∃ last, Execution.runFor n e = .ok last ∧ last.Follows d word ∧ SameRun e last ∧
      last.status ≠ .running := by
  induction n generalizing e with
  | zero => exact absurd hn (Nat.not_lt_zero _)
  | succ n ih =>
    obtain ⟨next, hstep, hnext, hsame, hsteps⟩ := h.step
    simp only [Execution.runFor, hstep]
    by_cases hrunning : next.status = .running
    · have hle := hnext.steps_le
      rw [hsteps hrunning, hsame.2.2] at hle
      have hfuel : next.maxSteps - next.steps < n := by
        rw [hsteps hrunning, hsame.2.2]
        omega
      obtain ⟨last, hlast, hfollows, hsame', hend⟩ := ih hnext hfuel
      rw [if_neg (not_not_intro hrunning)]
      exact ⟨last, hlast, hfollows, hsame.trans hsame', hend⟩
    · rw [if_pos hrunning]
      exact ⟨next, rfl, hnext, hsame, hrunning⟩

def fresh (m : TuringMachine) (word : List Char) (limit : Nat) : Execution :=
  let c : Configuration := ⟨m.startState, .ofInput word blankSymbol, 0⟩
  ⟨m, c, c, #[], limit, m.status c⟩

theorem start_eq_ok (hword : ∀ c ∈ word, c ∈ m.inputAlphabet) :
    start m word limit = .ok (fresh m word limit) := by
  rw [start, TuringMachine.initial, Alphabet.tokenize_eq_ok_iff.2 ⟨rfl, hword⟩]
  rfl

theorem follows_fresh (h : m.Implements d) (word : List Char) (limit : Nat) :
    (fresh m word limit).Follows d word where
  implements := h
  declared := ⟨m.start, by
    rw [fresh, TuringMachine.startState, StateTable.name_of_id? h.distinct h.start, h.start]⟩
  current := by
    have hstart : m.startState = d.startState := StateTable.name_of_id? h.distinct h.start
    rw [fresh, Configuration.moment, Tape.read_ofInput, hstart]
    rfl
  diffs := rfl
  replay := rfl
  running := fun k hk => absurd hk (Nat.not_lt_zero k)
  steps_le := Nat.zero_le _
  status := .inl rfl

theorem Follows.ended (h : e.Follows d word) (hend : e.status ≠ .running) :
    (d.haltingTime word = e.steps ∧
      (e.current.state = d.acceptState ∧ e.status = .accepted ∨
        e.current.state = d.rejectState ∧ e.status = .rejected)) ∨
    (e.steps = e.maxSteps ∧ (e.maxSteps : ℕ∞) < d.haltingTime word ∧
      e.status = .stepLimitExceeded) := by
  by_cases hhalted : d.Halted e.current.moment
  · refine .inl ⟨Definition.haltingTime_eq (h.current ▸ hhalted) h.running, ?_⟩
    have hstatus := h.status_eq hhalted
    rcases hhalted with haccept | hreject
    · exact .inl ⟨haccept, hstatus.trans (h.implements.status_eq_accepted haccept)⟩
    · exact .inr ⟨hreject, hstatus.trans (h.implements.status_eq_rejected hreject)⟩
  · rcases h.status with hs | ⟨hs, hsteps, _⟩
    · exact absurd (hs.trans (h.implements.status_eq_running hhalted)) hend
    · refine .inr ⟨hsteps, Definition.lt_haltingTime fun k hk => ?_, hs⟩
      rcases Nat.lt_or_eq_of_le hk with hlt | rfl
      · exact h.running k (hsteps.symm ▸ hlt)
      · rw [← hsteps, ← h.current]
        exact hhalted

theorem Follows.tells (h : e.Follows d word) (hinitial : e.initial.moment = d.first word)
    (hend : e.status ≠ .running) : e.log.Tells d word e.maxSteps := by
  rcases h.ended hend with ⟨htime, houtcome⟩ | ⟨hsteps, hlimit, houtcome⟩
  · have hle : d.haltingTime word ≤ e.maxSteps := htime.symm ▸ Nat.cast_le.2 h.steps_le
    exact
      { initial := hinitial
        steps := (htime.symm.trans (min_eq_right hle).symm)
        diffs := h.diffs
        final := h.current
        halted := fun _ => houtcome
        cutOff := fun hlt => absurd hle (not_le_of_gt hlt) }
  · exact
      { initial := hinitial
        steps := (congrArg Nat.cast hsteps).trans (min_eq_left hlimit.le).symm
        diffs := h.diffs
        final := h.current
        halted := fun hle => absurd hle (not_le_of_gt hlimit)
        cutOff := fun _ => houtcome }

theorem Follows.log_eq (h : e.Follows d word) (h' : e'.Follows d word)
    (hmachine : e'.machine = e.machine) (hinitial : e'.initial = e.initial)
    (hsteps : e'.steps = e.steps) (hhalted : d.Halted e.current.moment) : e'.log = e.log := by
  have hdiffs : e'.diffs = e.diffs := by
    apply Array.ext'
    rw [h'.diffs, h.diffs, hsteps]
  have hcurrent : e'.current = e.current := by
    have hreplay := h'.replay
    rw [hdiffs, hinitial, h.replay] at hreplay
    exact (Except.ok.inj hreplay).symm
  have hstatus : e'.status = e.status := by
    rw [h.status_eq hhalted, h'.status_eq (hcurrent.symm ▸ hhalted), hmachine, hcurrent]
  rw [log, log, hinitial, hcurrent, hdiffs, hstatus]

theorem exists_run (h : m.Implements d) (hword : ∀ c ∈ word, c ∈ d.inputAlphabet) (limit : Nat) :
    ∃ last, m.run word limit = .ok last.log ∧ last.Follows d word ∧
      SameRun (fresh m word limit) last ∧ last.log.Tells d word limit := by
  have hstart : start m word limit = .ok (fresh m word limit) := by
    refine start_eq_ok fun c hc => ?_
    have hc := hword c hc
    rw [← h.input] at hc
    exact hc
  have hfresh := follows_fresh h word limit
  obtain ⟨last, hlast, hfollows, hsame, hend⟩ :=
    hfresh.runFor (limit + 1) (Nat.lt_succ_of_le (Nat.sub_le _ _))
  have hfinish : (fresh m word limit).finish = .ok last.log := by
    rw [finish]
    exact congrArg (Except.map log) hlast
  have hlimit : last.maxSteps = limit := hsame.2.2
  refine ⟨last, ?_, hfollows, hsame, ?_⟩
  · rw [TuringMachine.run, hstart]
    exact congrArg (Except.mapError Failure.violation) hfinish
  · rw [← hlimit]
    exact hfollows.tells (hsame.2.1.symm ▸ hfresh.current) hend

end Execution

namespace TuringMachine

variable {d : Definition} {m : TuringMachine} {word : List Char}

/-- The limit decides where a run is cut off and nothing else: a run that came to a halt is the same
under every higher limit, and a lower limit records the first changes only. -/
theorem run_tells_computation (hd : d.build = .ok m) (hword : ∀ c ∈ word, c ∈ d.inputAlphabet)
    (limit : Nat) :
    ∃ log, m.run word limit = .ok log ∧ log.Tells d word limit ∧ log.outcome ≠ .running ∧
      (log.outcome ≠ .stepLimitExceeded → ∀ more, limit ≤ more → m.run word more = .ok log) ∧
      ∀ fewer, fewer ≤ limit → ∃ shorter, m.run word fewer = .ok shorter ∧
        shorter.diffs.toList <+: log.diffs.toList := by
  have himp := Definition.implements_of_build hd
  obtain ⟨last, hlast, hfollows, hsame, htells⟩ := Execution.exists_run himp hword limit
  refine ⟨last.log, hlast, htells, htells.outcome_ne_running, ?_, ?_⟩
  · intro hhalted more hmore
    obtain ⟨last', hlast', hfollows', hsame', htells'⟩ := Execution.exists_run himp hword more
    rw [hlast']
    have htime : d.haltingTime word ≤ limit :=
      le_of_not_gt fun hlt => hhalted (htells.cutOff hlt)
    have hsteps : last'.steps = last.steps := by
      have h := htells.steps
      have h' := htells'.steps
      rw [min_eq_right htime] at h
      rw [min_eq_right (htime.trans (Nat.cast_le.2 hmore)), ← h] at h'
      exact Nat.cast_injective h'
    refine congrArg Except.ok
      (hfollows.log_eq hfollows' (hsame'.1.trans hsame.1.symm)
        (hsame'.2.1.trans hsame.2.1.symm) hsteps ?_)
    rcases htells.halted htime with ⟨haccept, _⟩ | ⟨hreject, _⟩
    · exact .inl haccept
    · exact .inr hreject
  · intro fewer hfewer
    obtain ⟨last', hlast', -, -, htells'⟩ := Execution.exists_run himp hword fewer
    refine ⟨last'.log, hlast', ?_⟩
    have hsteps : last'.steps ≤ last.steps := by
      have hle : (last'.log.steps : ℕ∞) ≤ last.log.steps := by
        rw [htells'.steps, htells.steps]
        exact min_le_min_right _ (Nat.cast_le.2 hfewer)
      exact Nat.cast_le.1 hle
    rw [htells'.diffs, htells.diffs]
    exact d.changes_prefix word hsteps

theorem run_tells_computation_left_of_word :
    let d : Definition := ⟨["q", "p", "yes", "no"], ['a'], ['b'], "q", "yes", "no",
      [("q", 'a', ⟨"p", 'b', .left⟩), ("p", blankSymbol, ⟨"yes", 'a', .left⟩)]⟩
    ∃ m log, d.build = .ok m ∧ m.run ['a'] 2 = .ok log ∧ log.Tells d ['a'] 2 ∧
      log.outcome = .accepted ∧ log.final.moment = d.moment ['a'] 2 ∧ m.run ['a'] 9 = .ok log := by
  intro d
  let m : TuringMachine := ⟨⟨#["q", "p", "yes", "no"]⟩, ⟨['a'], by decide⟩,
    ⟨['a', 'b', blankSymbol], by decide⟩, 0, 2, 3,
    ⟨#[#[some ⟨1, 'b', .left⟩, none, none], #[none, none, some ⟨2, 'a', .left⟩],
      #[none, none, none], #[none, none, none]]⟩⟩
  have hd : d.build = .ok m := by decide +kernel
  have hword : ∀ c ∈ ['a'], c ∈ d.inputAlphabet := fun _ hc => hc
  have hrunning : ∀ k < 2, ¬d.Halted (d.moment ['a'] k) := by
    intro k hk
    rcases Nat.lt_succ_iff_lt_or_eq.1 hk with hk | rfl
    · obtain rfl := Nat.lt_one_iff.1 hk
      decide +kernel
    · decide +kernel
  have htime : d.haltingTime ['a'] = (2 : Nat) :=
    Definition.haltingTime_eq (by decide +kernel) hrunning
  obtain ⟨log, hlog, htells, -, hmore, -⟩ := run_tells_computation hd hword 2
  have hsteps : log.steps = 2 := by
    have h := htells.steps
    rw [htime, min_self] at h
    exact Nat.cast_injective h
  have hfinal := htells.final
  rw [hsteps] at hfinal
  have haccept : log.outcome = .accepted := by
    rcases htells.halted htime.le with ⟨_, ho⟩ | ⟨hstate, _⟩
    · exact ho
    · have hyes : log.final.state = "yes" := congrArg Moment.state hfinal
      exact absurd (hyes.symm.trans hstate) (by decide)
  refine ⟨m, log, hd, hlog, htells, haccept, hfinal, hmore ?_ 9 (by decide)⟩
  rw [haccept]
  decide

end TuringMachine

end Acceptors
