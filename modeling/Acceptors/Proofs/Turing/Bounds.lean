import Mathlib.Data.List.Chain
import Mathlib.Tactic.Common
import Acceptors.Proofs.Turing.Strip
import Acceptors.Proofs.Turing.Timeline

/-! Where a run can have come after so many steps. Its changes start where the ones before them lead
to and move the head by one cell at most. So neither the head nor the stored part of the tape gets
further than the number of steps allows, and positions of 64 bits are enough for every run that is
not absurdly long. -/

namespace Acceptors

open Acceptors.Turing (Definition Moment)

variable {d : Definition} {m : TuringMachine} {word : List Char} {limit n k : Nat} {e : Execution}
  {c c' start : Configuration} {change : Diff} {diffs : List Diff} {a : Alphabet} {x : Char}

theorem Direction.natAbs_offset_le (direction : Direction) : direction.offset.natAbs ≤ 1 := by
  cases direction <;> decide

namespace Tape

theorem read_mem_cells (t : Tape) (p : Int) : t.read p ∈ t.cells ∨ t.read p = t.blank := by
  rw [read_eq_holding_cells, holding_eq]
  split
  · rcases Nat.lt_or_ge (p - t.first).toNat t.cells.length with hlt | hge
    · rw [List.getD_eq_getElem _ _ hlt]
      exact .inl (List.getElem_mem hlt)
    · exact .inr (List.getD_eq_default _ _ hge)
  · exact .inr rfl

end Tape

namespace Diff

def Continues (before change : Diff) : Prop :=
  change.prevState = before.nextState ∧ change.prevHead = before.nextHead

/-- The head moves to a cell next to the one it was on, if it moves at all, and the symbol written
is in the alphabet, if it is not the one that was there. -/
structure IsStepOver (change : Diff) (a : Alphabet) : Prop where
  moves : (change.nextHead - change.prevHead).natAbs ≤ 1
  writes : change.nextSymbol ∈ a ∨ change.nextSymbol = change.prevSymbol

end Diff

structure Configuration.Path (start : Configuration) (diffs : List Diff)
    (c : Configuration) : Prop where
  chain : diffs.IsChain Diff.Continues
  first : ∀ change ∈ diffs.head?, change.prevState = start.state ∧ change.prevHead = start.head
  last : ∀ change ∈ diffs.getLast?, change.nextState = c.state ∧ change.nextHead = c.head
  empty : diffs = [] → c = start

/-- How far a run on a word of `n` symbols can have come after `k` steps. -/
structure Configuration.Within (c : Configuration) (a : Alphabet) (n k : Nat) : Prop where
  head : c.head.natAbs ≤ k
  first : -(k : Int) ≤ c.tape.first
  stop : c.tape.stop ≤ max (n : Int) (k + 1)
  stored : 1 ≤ k → c.tape.first ≤ c.head ∧ c.head < c.tape.stop
  symbols : ∀ x ∈ c.tape.cells, x ∈ a
  blank : c.tape.blank ∈ a

namespace Configuration

theorem Path.apply (h : start.Path diffs c) (happly : c.apply change = .ok c') :
    start.Path (diffs ++ [change]) c' := by
  obtain ⟨⟨hstate, hhead, -⟩, rfl⟩ := apply_eq_ok_iff.1 happly
  refine ⟨?_, ?_, ?_, fun hnil =>
    absurd hnil (List.append_ne_nil_of_right_ne_nil _ (List.cons_ne_nil _ _))⟩
  · refine List.isChain_append.2 ⟨h.chain, List.isChain_singleton _, fun last hlast next hnext =>
      ?_⟩
    cases hnext
    obtain ⟨hlaststate, hlasthead⟩ := h.last last hlast
    exact ⟨hstate.symm.trans hlaststate.symm, hhead.symm.trans hlasthead.symm⟩
  · cases diffs with
    | nil =>
      intro first hfirst
      cases hfirst
      obtain rfl := h.empty rfl
      exact ⟨hstate.symm, hhead.symm⟩
    | cons first diffs => exact h.first
  · intro last hlast
    rw [List.getLast?_concat] at hlast
    cases hlast
    exact ⟨rfl, rfl⟩

theorem path_of_foldlM (h : diffs.foldlM Configuration.apply start = .ok c) :
    start.Path diffs c := by
  refine foldlM_prefix_induction (P := start.Path) (fun _ _ _ _ hpath => hpath.apply) ?_ h
  exact ⟨List.isChain_nil, nofun, nofun, fun _ => rfl⟩

theorem Within.apply (h : c.Within a n k) (hchange : change.IsStepOver a)
    (happly : c.apply change = .ok c') :
    c'.Within a n (k + 1) := by
  have hfirst := first_of_apply happly
  have hstop := stop_of_apply happly
  obtain ⟨⟨-, hhead, hsymbol⟩, rfl⟩ := apply_eq_ok_iff.1 happly
  dsimp only at hfirst hstop
  have hmoves := hchange.moves
  have hbefore := h.head
  have hlow := h.first
  have hhigh := h.stop
  rw [hhead] at hbefore
  -- a symbol that is kept is one that was read, so it is in a cell or is the blank
  have hwritten : change.nextSymbol ∈ a := by
    refine hchange.writes.elim id fun hkept => ?_
    rw [hkept, ← hsymbol]
    rcases c.tape.read_mem_cells change.prevHead with hread | hread
    · exact h.symbols _ hread
    · exact hread ▸ h.blank
  refine ⟨?_, ?_, ?_, fun _ => ?_, fun x hx => ?_, ?_⟩
  · dsimp only
    omega
  · dsimp only
    omega
  · dsimp only
    omega
  · dsimp only
    omega
  · rcases Tape.mem_cells_extendTo hx with hx | rfl
    · rcases Tape.mem_cells_write hx with hx | rfl | rfl
      · exact h.symbols x hx
      · exact h.blank
      · exact hwritten
    · rw [Tape.blank_write]
      exact h.blank
  · rw [Tape.blank_extendTo, Tape.blank_write]
    exact h.blank

theorem Within.of_foldlM (hstart : start.Within a n 0)
    (hdiffs : ∀ change ∈ diffs, change.IsStepOver a)
    (h : diffs.foldlM Configuration.apply start = .ok c) : c.Within a n diffs.length := by
  revert hdiffs
  refine foldlM_prefix_induction (P := fun done reached =>
    (∀ change ∈ done, change.IsStepOver a) → reached.Within a n done.length) ?_ (fun _ => hstart) h
  intro done before change after ih happly hdone
  obtain ⟨hdone, hchange⟩ := List.forall_mem_append.1 hdone
  rw [List.length_append]
  exact (ih hdone).apply (hchange change List.mem_cons_self) happly

theorem within_ofInput (hword : ∀ x ∈ word, x ∈ a) (hblank : blankSymbol ∈ a) (state : String) :
    (⟨state, .ofInput word blankSymbol, 0⟩ : Configuration).Within a word.length 0 where
  head := Nat.le_refl _
  first := Int.le_refl _
  stop := Int.le_max_left _ _
  stored h := absurd h (Nat.not_succ_le_zero 0)
  symbols := hword
  blank := hblank

theorem Within.fitsWord (h : c.Within a n k) (hn : n < 2 ^ 62) (hk : k < 2 ^ 62) {p : Int}
    (hlow : min c.tape.first (c.head - 1) ≤ p)
    (hhigh : p ≤ max c.tape.stop (c.head + 1)) : FitsWord p := by
  have hhead := h.head
  have hfirst := h.first
  have hstop := h.stop
  exact fitsWord_of_bounds (by omega) (by omega)

theorem Within.length_lt (h : c.Within a n k) (hn : n < 2 ^ 62) (hk : k < 2 ^ 62) :
    (c.tape.cells.length : Int) < 2 ^ 63 := by
  have hfirst := h.first
  have hstop := h.stop
  rw [Tape.length_cells]
  omega

end Configuration

namespace Turing.Definition

theorem change_isStepOver (hwrites : ∀ entry ∈ d.delta, entry.2.2.write ∈ a) (before : Moment) :
    (before.change (d.next before)).IsStepOver a := by
  cases haction : d.action? before.state (before.cells before.head) with
  | some action =>
    rw [next_of_action haction]
    refine ⟨?_, .inl ?_⟩
    · rw [Moment.change, add_sub_cancel_left]
      exact action.direction.natAbs_offset_le
    · obtain ⟨entry, hentry, rfl⟩ := Option.map_eq_some_iff.1 haction
      simp only [Moment.change, Function.update_self]
      exact hwrites entry (List.mem_of_find?_eq_some hentry)
  | none =>
    rw [next_of_no_action haction]
    refine ⟨?_, .inr rfl⟩
    rw [Moment.change, Int.sub_self]
    exact Nat.zero_le 1

theorem mem_changes (h : change ∈ d.changes word n) :
    ∃ j < n, change = (d.moment word j).change (d.next (d.moment word j)) := by
  obtain ⟨j, hj, rfl⟩ := List.mem_map.1 h
  exact ⟨j, List.mem_range.1 hj, by rw [moment_succ]⟩

end Turing.Definition

namespace Execution

theorem Advanced.word_mem (h : e.Advanced m word limit) : ∀ x ∈ word, x ∈ m.inputAlphabet := by
  induction h with
  | start h =>
    obtain ⟨c, hc, -⟩ := map_eq_ok_iff.1 h
    obtain ⟨symbols, hsymbols, -⟩ := map_eq_ok_iff.1 hc
    exact (Alphabet.tokenize_eq_ok_iff.1 hsymbols).2
  | step _ _ ih => exact ih
  | runFor _ _ _ ih => exact ih

/-- The symbols may be kept in any alphabet that holds what can come onto the tape. -/
theorem Advanced.within_of_writes (himp : m.Implements d) (hinput : ∀ x ∈ m.inputAlphabet, x ∈ a)
    (hblank : blankSymbol ∈ a) (hwrites : ∀ entry ∈ d.delta, entry.2.2.write ∈ a)
    (h : e.Advanced m word limit) :
    e.current.Within a word.length e.steps := by
  obtain ⟨hfollows, -, hinitial, -⟩ := h.follows himp
  have hlength : e.diffs.toList.length = e.steps := Array.length_toList
  rw [← hlength]
  refine Configuration.Within.of_foldlM ?_ ?_ hfollows.replay
  · rw [hinitial]
    exact Configuration.within_ofInput (fun x hx => hinput x (h.word_mem x hx)) hblank _
  · intro change hchange
    rw [hfollows.diffs] at hchange
    obtain ⟨j, -, rfl⟩ := Definition.mem_changes hchange
    exact Definition.change_isStepOver hwrites _

theorem Advanced.within (hd : d.build = .ok m) (h : e.Advanced m word limit) :
    e.current.Within m.tapeAlphabet word.length e.steps := by
  have himp := Definition.implements_of_build hd
  obtain ⟨-, htape, hwrites⟩ := Definition.symbols_of_build hd
  refine h.within_of_writes himp (fun x hx => (htape x).2 (.inl ?_))
    ((htape _).2 (.inr (.inr rfl))) hwrites
  rw [← himp.input]
  exact hx

/-- Wherever a run has come, its state is declared, its tape holds symbols of the tape alphabet and
stores no more cells than the steps account for, and the head is among them. Its changes form one
path from the start to the present place, none of them from a halting state. So a row of cells whose
positions are words of 64 bits serves every run of less than a quarter of their range. -/
theorem points_within_bounds (hd : d.build = .ok m) (he : e.Advanced m word limit) :
    e.current.state ∈ d.states ∧ (∀ x ∈ e.current.tape.cells, x ∈ m.tapeAlphabet) ∧
    e.current.head.natAbs ≤ e.steps ∧
    -(e.steps : Int) ≤ e.current.tape.first ∧
    e.current.tape.stop ≤ max (word.length : Int) (e.steps + 1) ∧
    (1 ≤ e.steps → e.current.tape.first ≤ e.current.head ∧ e.current.head < e.current.tape.stop) ∧
    e.initial.Path e.diffs.toList e.current ∧
    (∀ change ∈ e.diffs.toList, (change.nextHead - change.prevHead).natAbs ≤ 1 ∧
      change.prevState ≠ m.acceptState ∧ change.prevState ≠ m.rejectState) ∧
    (word.length < 2 ^ 62 → e.steps < 2 ^ 62 →
      (∀ p, min e.current.tape.first (e.current.head - 1) ≤ p →
        p ≤ max e.current.tape.stop (e.current.head + 1) → FitsWord p) ∧
      e.diffs.toList.foldlM Strip.step? ⟨word, 0, blankSymbol⟩ =
        some e.current.tape.strip) := by
  have himp := Definition.implements_of_build hd
  obtain ⟨hstates, -, hwrites⟩ := Definition.symbols_of_build hd
  obtain ⟨hfollows, hmachine, hinitial, -⟩ := he.follows himp
  have hmachine : e.machine = m := hmachine
  have hwithin := he.within hd
  have haccept : m.acceptState = d.acceptState := StateTable.name_of_id? himp.distinct himp.accept
  have hreject : m.rejectState = d.rejectState := StateTable.name_of_id? himp.distinct himp.reject
  refine ⟨?_, hwithin.symbols, hwithin.head, hwithin.first, hwithin.stop, hwithin.stored,
    Configuration.path_of_foldlM hfollows.replay, ?_, ?_⟩
  · obtain ⟨s, hs⟩ := hfollows.declared
    rw [hmachine, himp.distinct.id?_eq_some_iff] at hs
    exact hstates ▸ Array.mem_toList_iff.2 (Array.mem_of_getElem? hs)
  · intro change hchange
    rw [hfollows.diffs] at hchange
    obtain ⟨j, hj, rfl⟩ := Definition.mem_changes hchange
    have hrunning := not_or.1 (hfollows.running j hj)
    rw [haccept, hreject]
    exact ⟨(Definition.change_isStepOver hwrites _).moves, hrunning⟩
  · intro hn hk
    refine ⟨fun p => hwithin.fitsWord hn hk, ?_⟩
    have hstrip := Strip.foldlM_step?_strip hfollows.replay (hwithin.length_lt hn hk)
    rwa [hinitial] at hstrip

theorem points_within_bounds_left_of_word :
    let d : Definition := ⟨["q", "p", "yes", "no"], ['a'], ['b'], "q", "yes", "no",
      [("q", 'a', ⟨"p", 'b', .left⟩), ("p", blankSymbol, ⟨"yes", 'a', .left⟩)]⟩
    ∃ (m : TuringMachine) (e : Execution), d.build = .ok m ∧ e.Advanced m ['a'] 9 ∧ e.steps = 2 ∧
      e.current.tape.first = -2 ∧ e.current.head.natAbs ≤ 2 ∧ -2 ≤ e.current.tape.first ∧
      e.current.tape.first ≤ e.current.head ∧
      e.diffs.toList.foldlM Strip.step? ⟨['a'], 0, blankSymbol⟩ =
        some ⟨[blankSymbol, 'a', 'b'], -2, blankSymbol⟩ := by
  intro d
  let m : TuringMachine := ⟨⟨#["q", "p", "yes", "no"]⟩, ⟨['a'], by decide⟩,
    ⟨['a', 'b', blankSymbol], by decide⟩, 0, 2, 3,
    ⟨#[#[some ⟨1, 'b', .left⟩, none, none], #[none, none, some ⟨2, 'a', .left⟩],
      #[none, none, none], #[none, none, none]]⟩⟩
  have hd : d.build = .ok m := by decide +kernel
  have hword : ∀ c ∈ ['a'], c ∈ m.inputAlphabet := List.forall_mem_singleton.2 List.mem_cons_self
  have hrun : runFor 2 (fresh m ['a'] 9) = .ok ⟨m, ⟨"q", ⟨#['a'], #[], blankSymbol⟩, 0⟩,
    ⟨"yes", ⟨#['b'], #['a', blankSymbol], blankSymbol⟩, -2⟩,
    #[⟨"q", "p", 0, -1, 'a', 'b'⟩, ⟨"p", "yes", -1, -2, blankSymbol, 'a'⟩], 9, .accepted⟩ := by cbv
  have he := Advanced.runFor 2 (.start (start_eq_ok hword)) hrun
  obtain ⟨-, -, hhead, hfirst, -, hstored, -, -, hwords⟩ := points_within_bounds hd he
  exact ⟨m, _, hd, he, rfl, rfl, hhead, hfirst, (hstored (by decide)).1,
    (hwords (by decide +kernel) (by decide +kernel)).2⟩

end Execution

end Acceptors
