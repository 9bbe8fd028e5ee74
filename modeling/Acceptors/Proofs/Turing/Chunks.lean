import Mathlib.Tactic.Common
import Acceptors.Proofs.Turing.Timeline

/-! Runs advanced in chunks. A chunk of steps is one step after another, and a run that has ended
stays as it is, so every way to slice a run finishes with the same log. -/

namespace Acceptors

open Acceptors.Turing (Definition)

variable {d : Definition} {m : TuringMachine} {word : List Char} {limit : Nat}

theorem TuringMachine.status_ne_running_of_nextDiff {m : TuringMachine} {c : Configuration}
    (h : m.nextDiff c = .ok none) : m.status c ≠ .running := by
  rw [nextDiff] at h
  split at h
  · cases h
  · rename_i state hid
    split at h
    · rename_i hhalts
      rw [halts, Bool.or_eq_true, beq_iff_eq, beq_iff_eq] at hhalts
      simp only [status, hid]
      by_cases haccept : state = m.accept
      · rw [if_pos haccept]
        decide
      · rw [if_neg haccept, if_pos (hhalts.resolve_left haccept)]
        decide
    · cases h

namespace Execution

variable {e next last : Execution} {k n : Nat}

theorem step_of_ended (h : e.status ≠ .running) : e.step = .ok e := if_pos h

theorem runFor_of_ended (h : e.status ≠ .running) (n : Nat) : runFor n e = .ok e := by
  cases n with
  | zero => rfl
  | succ n =>
    simp only [runFor, step_of_ended h]
    exact if_pos h

theorem runFor_succ (n : Nat) (e : Execution) : runFor (n + 1) e = e.step >>= runFor n := by
  rw [runFor]
  cases e.step with
  | error v => rfl
  | ok next =>
    change (if next.status ≠ .running then .ok next else runFor n next) = runFor n next
    by_cases hended : next.status ≠ .running
    · rw [if_pos hended, runFor_of_ended hended]
    · rw [if_neg hended]

theorem runFor_one (e : Execution) : runFor 1 e = e.step := by
  rw [runFor_succ]
  cases e.step <;> rfl

theorem runFor_add (a b : Nat) (e : Execution) : runFor (a + b) e = runFor a e >>= runFor b := by
  induction a generalizing e with
  | zero =>
    rw [Nat.zero_add]
    rfl
  | succ a ih =>
    rw [Nat.succ_add, runFor_succ, runFor_succ]
    cases e.step with
    | error v => rfl
    | ok next => exact ih next

/-- What one step can do: nothing after the end, the cut at the limit, the end of a halted run, or
the recording of one more change. -/
theorem step_cases (h : e.step = .ok next) :
    (e.status ≠ .running ∧ next = e) ∨
    (e.status = .running ∧ next.status ≠ .running ∧ next.diffs = e.diffs) ∨
    (e.steps < e.maxSteps ∧ next.maxSteps = e.maxSteps ∧ ∃ change,
      next.diffs = e.diffs.push change) := by
  rw [step] at h
  by_cases hrunning : e.status = .running
  · rw [if_neg (not_not_intro hrunning)] at h
    by_cases hlimit : e.maxSteps ≤ e.steps
    · rw [if_pos hlimit] at h
      cases h
      exact .inr (.inl ⟨hrunning, Status.noConfusion, rfl⟩)
    · rw [if_neg hlimit] at h
      split at h
      · cases h
      · rename_i hhalted
        cases h
        exact .inr (.inl ⟨hrunning, TuringMachine.status_ne_running_of_nextDiff hhalted, rfl⟩)
      · split at h
        · cases h
        · cases h
          exact .inr (.inr ⟨Nat.lt_of_not_le hlimit, rfl, _, rfl⟩)
  · rw [if_pos hrunning] at h
    cases h
    exact .inl ⟨hrunning, rfl⟩

theorem isPrefix_of_step (h : e.step = .ok next) : e.diffs.toList <+: next.diffs.toList := by
  rcases step_cases h with ⟨-, hsame⟩ | ⟨-, -, hdiffs⟩ | ⟨-, -, change, hdiffs⟩
  · rw [hsame]
  · rw [hdiffs]
  · rw [hdiffs, Array.toList_push]
    exact List.prefix_append _ _

theorem isPrefix_of_runFor (h : runFor n e = .ok last) : e.diffs.toList <+: last.diffs.toList := by
  induction n generalizing e with
  | zero =>
    cases h
    exact List.prefix_refl _
  | succ n ih =>
    rw [runFor_succ] at h
    obtain ⟨next, hstep, hrest⟩ := bind_eq_ok_iff.1 h
    exact (isPrefix_of_step hstep).trans (ih hrest)

theorem runFor_ended (hn : e.maxSteps - e.steps < n) (h : runFor n e = .ok last) :
    last.status ≠ .running := by
  induction n generalizing e with
  | zero => exact absurd hn (Nat.not_lt_zero _)
  | succ n ih =>
    rw [runFor_succ] at h
    obtain ⟨next, hstep, hrest⟩ := bind_eq_ok_iff.1 h
    rcases step_cases hstep with ⟨hended, hsame⟩ | ⟨-, hended, -⟩ | ⟨hlt, hlimit, change, hdiffs⟩
    · rw [hsame, runFor_of_ended hended] at hrest
      exact Except.ok.inj hrest ▸ hended
    · rw [runFor_of_ended hended] at hrest
      exact Except.ok.inj hrest ▸ hended
    · have hsteps : next.steps = e.steps + 1 := by rw [steps, hdiffs, Array.size_push, steps]
      apply ih _ hrest
      rw [hlimit, hsteps]
      omega

theorem finish_eq (hn : e.maxSteps - e.steps < n) : e.finish = (runFor n e).map log := by
  obtain ⟨more, hmore⟩ := Nat.exists_eq_add_of_le (Nat.succ_le_of_lt hn)
  rw [finish, hmore, Nat.succ_eq_add_one, runFor_add _ more]
  cases hrun : runFor (e.maxSteps - e.steps + 1) e with
  | error v => rfl
  | ok last =>
    have hended := runFor_ended (Nat.lt_succ_self _) hrun
    change Except.map log (.ok last) = Except.map log (runFor more last)
    rw [runFor_of_ended hended]

theorem runFor_finish (k : Nat) (e : Execution) : runFor k e >>= finish = e.finish := by
  cases hrun : runFor k e with
  | error v =>
    rw [finish_eq (e := e) (n := k + (e.maxSteps - e.steps + 1)) (by omega), runFor_add, hrun]
    rfl
  | ok next =>
    have hfuel : ∀ more, next.maxSteps - next.steps < more → e.maxSteps - e.steps < more →
        next.finish = e.finish := by
      intro more hnext he
      rw [finish_eq hnext, finish_eq (e := e) (n := k + more) (by omega), runFor_add, hrun]
      rfl
    exact hfuel (next.maxSteps - next.steps + (e.maxSteps - e.steps) + 1) (by omega) (by omega)

inductive Call
  | step
  | runFor (n : Nat)
deriving DecidableEq, Repr

def call (e : Execution) : Call → Except Violation Execution
  | .step => e.step
  | .runFor n => runFor n e

theorem exists_call_eq_runFor (x : Call) : ∃ k, ∀ e : Execution, e.call x = runFor k e := by
  cases x with
  | step => exact ⟨1, fun e => (runFor_one e).symm⟩
  | runFor n => exact ⟨n, fun _ => rfl⟩

theorem exists_calls_eq_runFor (calls : List Call) :
    ∃ k, ∀ e : Execution, calls.foldlM call e = runFor k e := by
  induction calls with
  | nil => exact ⟨0, fun _ => rfl⟩
  | cons x calls ih =>
    obtain ⟨a, ha⟩ := exists_call_eq_runFor x
    obtain ⟨b, hb⟩ := ih
    refine ⟨a + b, fun e => ?_⟩
    rw [List.foldlM_cons, ha, runFor_add]
    exact congrArg (runFor a e >>= ·) (funext hb)

theorem Follows.exists_runFor (h : e.Follows d word) (n : Nat) :
    ∃ last, Execution.runFor n e = .ok last ∧ last.Follows d word := by
  induction n generalizing e with
  | zero => exact ⟨e, rfl, h⟩
  | succ n ih =>
    obtain ⟨next, hstep, hnext, -, -⟩ := h.step
    obtain ⟨last, hlast, hfollows⟩ := ih hnext
    refine ⟨last, ?_, hfollows⟩
    rw [runFor_succ, hstep]
    exact hlast

theorem run_of_finish {l : Log} (hstart : start m word limit = .ok e) (hfinish : e.finish = .ok l) :
    m.run word limit = .ok l := by
  rw [TuringMachine.run, hstart]
  exact congrArg (Except.mapError Failure.violation) hfinish

/-- However a run is sliced, it comes to the same log, and on the way there it has recorded the
first changes of that log. After its end nothing changes any more. -/
theorem chunks_finish_as_run (hd : d.build = .ok m) (hstart : start m word limit = .ok e) :
    ∃ l, m.run word limit = .ok l ∧ ∀ calls : List Call, ∃ e', calls.foldlM call e = .ok e' ∧
      e'.finish = .ok l ∧ e'.log.diffs.toList <+: l.diffs.toList ∧
      (∀ a b, ∃ middle last, runFor a e' = .ok middle ∧ runFor b middle = .ok last ∧
        runFor (a + b) e' = .ok last) ∧
      (e'.status ≠ .running → e'.log = l ∧ ∀ more : List Call, more.foldlM call e' = .ok e') := by
  have hfollows : e.Follows d word := by
    rw [eq_fresh_of_start hstart]
    exact follows_fresh (Definition.implements_of_build hd) word limit
  obtain ⟨last, hlast, -⟩ := hfollows.exists_runFor (e.maxSteps - e.steps + 1)
  have hfinish : e.finish = .ok last.log := by rw [finish, hlast]; rfl
  refine ⟨last.log, run_of_finish hstart hfinish, fun calls => ?_⟩
  obtain ⟨k, hk⟩ := exists_calls_eq_runFor calls
  obtain ⟨e', he', hfollows'⟩ := hfollows.exists_runFor k
  have hfinish' : e'.finish = .ok last.log := by
    have hsame := runFor_finish k e
    rw [he', hfinish] at hsame
    exact hsame
  refine ⟨e', (hk e).trans he', hfinish', ?_, fun a b => ?_, fun hended => ⟨?_, fun more => ?_⟩⟩
  · obtain ⟨last', hlast', hlog⟩ := map_eq_ok_iff.1 hfinish'
    rw [← hlog]
    exact isPrefix_of_runFor hlast'
  · obtain ⟨middle, hmiddle, hfollows''⟩ := hfollows'.exists_runFor a
    obtain ⟨last', hlast', -⟩ := hfollows''.exists_runFor b
    refine ⟨middle, last', hmiddle, hlast', ?_⟩
    rw [runFor_add, hmiddle]
    exact hlast'
  · rw [finish, runFor_of_ended hended] at hfinish'
    exact Except.ok.inj hfinish'
  · obtain ⟨j, hj⟩ := exists_calls_eq_runFor more
    rw [hj, runFor_of_ended hended]

theorem chunks_finish_as_run_cutOff :
    let d : Definition := ⟨["q", "yes", "no"], ['a'], [], "q", "yes", "no",
      [("q", 'a', ⟨"q", blankSymbol, .left⟩), ("q", blankSymbol, ⟨"q", 'a', .right⟩)]⟩
    ∃ m e l, d.build = .ok m ∧ start m ['a'] 2 = .ok e ∧ m.run ['a'] 2 = .ok l ∧
      l.outcome = .stepLimitExceeded ∧
      (∃ e', [Call.runFor 1, .step].foldlM call e = .ok e' ∧ e'.status = .running ∧
        e'.finish = .ok l) ∧
      ∃ e', [Call.step, .runFor 2].foldlM call e = .ok e' ∧ e'.log = l ∧
        [Call.runFor 7, .step].foldlM call e' = .ok e' := by
  intro d
  let m : TuringMachine :=
    ⟨⟨#["q", "yes", "no"]⟩, ⟨['a'], by decide⟩, ⟨['a', blankSymbol], by decide⟩,
    0, 1, 2, ⟨#[#[some ⟨0, blankSymbol, .left⟩, some ⟨0, 'a', .right⟩], #[none, none],
      #[none, none]]⟩⟩
  have hd : d.build = .ok m := by decide +kernel
  have hstart : start m ['a'] 2 = .ok (fresh m ['a'] 2) := rfl
  obtain ⟨l, hrun, hcalls⟩ := chunks_finish_as_run hd hstart
  obtain ⟨running, heq, hfinish, -⟩ := hcalls [.runFor 1, .step]
  obtain ⟨ended, heq', -, -, -, hended⟩ := hcalls [.step, .runFor 2]
  have hstatus : ([Call.runFor 1, .step].foldlM call (fresh m ['a'] 2)).map (·.status) =
      .ok .running := by
    cbv
  have hstatus' : ([Call.step, .runFor 2].foldlM call (fresh m ['a'] 2)).map (·.status) =
      .ok .stepLimitExceeded := by
    cbv
  rw [heq] at hstatus
  rw [heq'] at hstatus'
  have hcut : ended.status = .stepLimitExceeded := Except.ok.inj hstatus'
  obtain ⟨hlog, hmore⟩ := hended (hcut ▸ Status.noConfusion)
  refine ⟨m, _, l, hd, hstart, hrun, ?_, ⟨running, heq, Except.ok.inj hstatus, hfinish⟩,
    ended, heq', hlog, hmore [.runFor 7, .step]⟩
  rw [← hlog]
  exact hcut

end Execution

end Acceptors
