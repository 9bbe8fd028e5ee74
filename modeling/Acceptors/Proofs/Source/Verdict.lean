import Mathlib.Tactic.Common
import Acceptors.Proofs.Declaration
import Acceptors.Proofs.Dfa.Definition
import Acceptors.Proofs.Nfa.Definition
import Acceptors.Proofs.Source.Document
import Acceptors.Proofs.Turing.Definition

/-! What becomes of a definition. It is built if all that it names is declared, and else it fails
against a key at its head or at one of its transitions, whichever kind of automaton it defines. -/

namespace Acceptors

open Declaration (Move)
open Declaration.Move (Undeclared Repeated)

variable {t : StateTable} {a : Alphabet} {e : ParseError}

namespace Dfa.Definition

variable {d : Definition} {table : TransitionTable Nat} {transition : String × Char × String}

def move (transition : String × Char × String) : Move :=
  ⟨transition.1, some transition.2.1, [transition.2.1], [transition.2.2]⟩

theorem checks (ht : t.Distinct) : Move.Checks move t a (enter t a) (Encodes t a) where
  toEnters := enters ht
  declared h :=
    { state := StateTable.mem_names_iff.2 ⟨_, h.state⟩
      symbols := List.forall_mem_singleton.2
        (List.mem_of_getElem? ((list_idxOf?_eq_some_iff a.nodup).1 h.symbol))
      targets := List.forall_mem_singleton.2 (StateTable.mem_names_iff.2 ⟨_, h.target⟩) }
  state h := h.state
  label h := ((list_idxOf?_eq_some_iff a.nodup).1 h.symbol).symm
  error {table d e} h := by
    obtain ⟨state, c, target⟩ := d
    rcases bind_eq_error_iff.1 h with h | ⟨s, hs, h⟩
    · exact .inl (Move.undeclared_of_state h)
    rw [Move.faultPath_of_mem (StateTable.mem_names_of_resolve hs)]
    split at h
    · rename_i i hi
      rcases bind_eq_error_iff.1 h with h | ⟨s', hs', h⟩
      · exact .inl (Move.undeclared_of_target List.mem_cons_self h)
      · split at h
        · rename_i hold
          cases h
          exact .inr ⟨.inField _ _, s, i, s',
            ⟨StateTable.resolve_eq_ok_iff.1 hs, hi, StateTable.resolve_eq_ok_iff.1 hs'⟩, hold⟩
        · cases h
    · rename_i hi
      cases h
      refine .inl ⟨fun hm => ?_, .inField _ _⟩
      have hc := hm.symbols c List.mem_cons_self
      exact hi _ ((list_idxOf?_eq_some_iff a.nodup).2 (List.getElem?_idxOf hc))

theorem build_eq_bind (total : Bool) : d.build total =
    Declaration.finite d.states d.inputAlphabet d.startState d.acceptStates >>= fun head =>
      d.delta.foldlM (enter head.1 head.2.1) (.empty head.1.size head.2.1.size) >>= fun table =>
        if total then checkTotal ⟨head.1, head.2.1, head.2.2.1, head.2.2.2, table⟩
        else .ok ⟨head.1, head.2.1, head.2.2.1, head.2.2.2, table⟩ := by
  simp only [build, Declaration.finite, bind_assoc, pure_bind]
  rfl

theorem checkTotal_eq_error {a : Dfa} (h : checkTotal a = .error e) :
    ∃ state c, e = .inField (Declaration.stateField state) (.missingTransition c) := by
  rw [checkTotal] at h
  split at h
  · cases h
  · cases h
    exact ⟨_, _, rfl⟩

end Dfa.Definition

namespace Nfa.Definition

variable {d : Definition} {entry : String × Option Char × List String} {found : List (Nat × Edge)}

def move (entry : String × Option Char × List String) : Move :=
  ⟨entry.1, entry.2.1, entry.2.1.toList, entry.2.2⟩

theorem checkLabel_eq_ok_iff {field : String} {label : Option Char} :
    checkLabel a field label = .ok () ↔ ∀ c ∈ label.toList, c ∈ a := by
  cases label with
  | none => exact iff_of_true rfl (List.forall_mem_nil _)
  | some c =>
    rw [checkLabel, Option.toList_some, List.forall_mem_singleton]
    split
    · rename_i hc
      exact iff_of_true rfl hc
    · rename_i hc
      exact iff_of_false (fun h => nomatch h) hc

theorem declared_of_edgesOf (h : edgesOf t a entry = .ok found) : (move entry).Declared t a := by
  obtain ⟨state, label, targets⟩ := entry
  obtain ⟨s, hs, h⟩ := bind_eq_ok_iff.1 h
  obtain ⟨_, hlabel, h⟩ := bind_eq_ok_iff.1 h
  refine ⟨StateTable.mem_names_of_resolve hs, checkLabel_eq_ok_iff.1 hlabel, fun name hname => ?_⟩
  obtain ⟨_, -, htarget⟩ := exists_of_mapM_of_mem h hname
  obtain ⟨_, htarget, -⟩ := bind_eq_ok_iff.1 htarget
  exact StateTable.mem_names_of_resolve htarget

theorem edgesOf_eq_error (h : edgesOf t a entry = .error e) :
    ¬(move entry).Declared t a ∧ e.IsAt ((move entry).faultPath t) := by
  obtain ⟨state, label, targets⟩ := entry
  rcases bind_eq_error_iff.1 h with h | ⟨s, hs, h⟩
  · exact Move.undeclared_of_state h
  rw [Move.faultPath_of_mem (StateTable.mem_names_of_resolve hs)]
  rcases bind_eq_error_iff.1 h with h | ⟨_, -, h⟩
  · refine ⟨fun hm => ?_, ?_⟩
    · cases h.symm.trans (checkLabel_eq_ok_iff.2 hm.symbols)
    · cases label with
      | none => cases h
      | some c =>
        rw [checkLabel] at h
        split at h
        · cases h
        · cases h
          exact .inField _ _
  · obtain ⟨before, name, after, -, rfl, -, hname⟩ := exists_of_mapM_eq_error h
    rcases bind_eq_error_iff.1 hname with hname | ⟨_, _, hname⟩
    · exact Move.undeclared_of_target (List.mem_append_right _ List.mem_cons_self) hname
    · cases hname

theorem declared_of_mapM {delta : List (String × Option Char × List String)}
    {edges : List (List (Nat × Edge))} (h : delta.mapM (edgesOf t a) = .ok edges) :
    ∀ m ∈ delta.map move, m.Declared t a := by
  refine List.forall_mem_map.2 fun entry hentry => ?_
  obtain ⟨_, -, hfound⟩ := exists_of_mapM_of_mem h hentry
  exact declared_of_edgesOf hfound

theorem undeclared_of_mapM {delta : List (String × Option Char × List String)}
    (h : delta.mapM (edgesOf t a) = .error e) : Undeclared t a (delta.map move) e := by
  obtain ⟨before, entry, after, _, rfl, hbefore, hlast⟩ := exists_of_mapM_eq_error h
  obtain ⟨hm, he⟩ := edgesOf_eq_error hlast
  exact ⟨_, _, _, by rw [List.map_append, List.map_cons], declared_of_mapM hbefore, hm, he⟩

theorem build_eq_bind : d.build =
    Declaration.finite d.states d.inputAlphabet d.startState d.acceptStates >>= fun head =>
      d.delta.mapM (edgesOf head.1 head.2.1) >>= fun edges =>
        .ok ⟨head.1, head.2.1, head.2.2.1, head.2.2.2, rowsOf head.1.size edges.flatten⟩ := by
  simp only [build, Declaration.finite, bind_assoc, pure_bind]
  rfl

end Nfa.Definition

namespace Turing.Definition

variable {d : Definition} {rules : TransitionTable Rule} {entry : String × Char × Action}
    {symbols : List Char} {field : String}

def move (entry : String × Char × Action) : Move :=
  ⟨entry.1, some entry.2.1, [entry.2.1, entry.2.2.write], [entry.2.2.nextState]⟩

theorem checkSymbols_eq_error (h : checkSymbols a field symbols = .error e) :
    (∃ c ∈ symbols, c ∉ a) ∧ e.IsAt field := by
  induction symbols with
  | nil => cases h
  | cons c symbols ih =>
    rw [checkSymbols] at h
    split at h
    · obtain ⟨⟨x, hx, hxa⟩, he⟩ := ih h
      exact ⟨⟨x, List.mem_cons_of_mem c hx, hxa⟩, he⟩
    · rename_i hc
      cases h
      exact ⟨⟨c, List.mem_cons_self, hc⟩, .inField _ _⟩

theorem checks (ht : t.Distinct) : Move.Checks move t a (enter t a)
    (fun entry s i r => Encodes t a entry s i r ∧ r.write ∈ a) where
  toEnters := enters ht
  declared h :=
    { state := StateTable.mem_names_iff.2 ⟨_, h.1.state⟩
      symbols := List.forall_mem_cons.2 ⟨List.mem_of_getElem?
        ((list_idxOf?_eq_some_iff a.nodup).1 h.1.symbol),
        List.forall_mem_singleton.2 (h.1.write ▸ h.2)⟩
      targets := List.forall_mem_singleton.2 (StateTable.mem_names_iff.2 ⟨_, h.1.next⟩) }
  state h := h.1.state
  label h := ((list_idxOf?_eq_some_iff a.nodup).1 h.1.symbol).symm
  error {rules entry e} h := by
    obtain ⟨state, read, action⟩ := entry
    rcases bind_eq_error_iff.1 h with h | ⟨s, hs, h⟩
    · exact .inl (Move.undeclared_of_state h)
    rw [Move.faultPath_of_mem (StateTable.mem_names_of_resolve hs)]
    rcases bind_eq_error_iff.1 h with h | ⟨_, hsymbols, h⟩
    · obtain ⟨⟨c, hc, hca⟩, he⟩ := checkSymbols_eq_error h
      exact .inl ⟨fun hm => hca (hm.symbols c hc), he⟩
    rcases bind_eq_error_iff.1 h with h | ⟨next, hnext, h⟩
    · exact .inl (Move.undeclared_of_target List.mem_cons_self h)
    dsimp only at h
    split at h
    · rename_i hold
      cases h
      obtain ⟨hread, hwrite⟩ := List.forall_mem_cons.1 (checkSymbols_eq_ok_iff.1 hsymbols)
      exact .inr ⟨.inField _ _, s, a.symbols.idxOf read, ⟨next, action.write, action.direction⟩,
        ⟨⟨StateTable.resolve_eq_ok_iff.1 hs,
          (list_idxOf?_eq_some_iff a.nodup).2 (List.getElem?_idxOf hread),
          StateTable.resolve_eq_ok_iff.1 hnext, rfl, rfl⟩, hwrite _ List.mem_cons_self⟩, hold⟩
    · cases h

def head (d : Definition) :
    Except ParseError (StateTable × Alphabet × Alphabet × Nat × Nat × Nat) := do
  let states ← Declaration.states d.states
  let inputAlphabet ← Declaration.alphabet d.inputAlphabet "input_alphabet"
  if blankSymbol ∈ inputAlphabet then .error (.inField "input_alphabet" .blankInput)
  else
    let tapeAlphabet ← tapeAlphabet d.inputAlphabet d.tapeAlphabetExtra
    let start ← states.resolve d.startState "start_state"
    let accept ← states.resolve d.acceptState "accept_state"
    let reject ← states.resolve d.rejectState "reject_state"
    if accept = reject then .error (.inField "reject_state" .sameHaltingStates)
    else return (states, inputAlphabet, tapeAlphabet, start, accept, reject)

theorem build_eq_bind : d.build = d.head >>= fun (states, input, tape, start, accept, reject) =>
    d.delta.foldlM (enter states tape) (.empty states.size tape.size) >>= fun rules =>
      .ok ⟨states, input, tape, start, accept, reject, rules⟩ := by
  simp only [build, head, bind_assoc]
  refine congrArg _ (funext fun states => congrArg _ (funext fun input => ?_))
  split
  · rfl
  · simp only [bind_assoc]
    refine congrArg _ (funext fun tape => congrArg _ (funext fun start =>
      congrArg _ (funext fun accept =>
      congrArg _ (funext fun reject => ?_))))
    split <;> rfl

variable {input tape : Alphabet} {start accept reject : Nat}

theorem head_eq_ok (h : d.head = .ok (t, input, tape, start, accept, reject)) :
    t.names.toList = d.states ∧ t.Distinct ∧
    (∀ c, c ∈ tape ↔ c ∈ d.inputAlphabet ∨ c ∈ d.tapeAlphabetExtra ∨ c = blankSymbol) ∧
    ∀ name ∈ [d.startState, d.acceptState, d.rejectState], name ∈ d.states := by
  obtain ⟨_, ht, h⟩ := bind_eq_ok_iff.1 h
  obtain ⟨_, _, h⟩ := bind_eq_ok_iff.1 h
  split at h
  · cases h
  obtain ⟨_, htape, h⟩ := bind_eq_ok_iff.1 h
  obtain ⟨_, hstart, h⟩ := bind_eq_ok_iff.1 h
  obtain ⟨_, haccept, h⟩ := bind_eq_ok_iff.1 h
  obtain ⟨_, hreject, h⟩ := bind_eq_ok_iff.1 h
  split at h
  · cases h
  cases h
  obtain ⟨hnames, hdistinct⟩ := StateTable.states_eq_ok ht
  rw [← hnames]
  exact ⟨rfl, hdistinct, fun c => mem_tapeAlphabet_iff htape,
    List.forall_mem_cons.2 ⟨StateTable.mem_names_of_resolve hstart,
      List.forall_mem_cons.2 ⟨StateTable.mem_names_of_resolve haccept,
        List.forall_mem_singleton.2 (StateTable.mem_names_of_resolve hreject)⟩⟩⟩

def headKeys (d : Definition) : List String :=
  ["states", "input_alphabet", "start_state", "accept_state", "reject_state"] ++
    if d.tapeAlphabetExtra = [] then [] else ["tape_alphabet_extra"]

theorem isAt_of_tapeAlphabet {extra : List Char} (hinput : d.inputAlphabet.Nodup)
    (h : tapeAlphabet d.inputAlphabet extra = .error e) :
    extra ≠ [] ∧ e.IsAt "tape_alphabet_extra" := by
  rcases bind_eq_error_iff.1 h with h | ⟨_, _, h⟩
  · obtain ⟨hrepeat, he⟩ := Alphabet.isAt_of_alphabet h
    refine ⟨fun hextra => hrepeat ?_, he⟩
    rw [hextra, List.append_nil]
    exact hinput.filter _
  · cases h

theorem isAt_of_head (h : d.head = .error e) : ∃ key ∈ d.headKeys, e.IsAt key := by
  rcases bind_eq_error_iff.1 h with h | ⟨_, -, h⟩
  · exact ⟨_, by simp [headKeys], Declaration.isAt_of_states h⟩
  rcases bind_eq_error_iff.1 h with h | ⟨input, hinput, h⟩
  · exact ⟨_, by simp [headKeys], (Alphabet.isAt_of_alphabet h).2⟩
  split at h
  · cases h
    exact ⟨_, by simp [headKeys], .inField _ _⟩
  rcases bind_eq_error_iff.1 h with h | ⟨_, -, h⟩
  · obtain ⟨hextra, he⟩ :=
      isAt_of_tapeAlphabet (Alphabet.symbols_of_alphabet hinput ▸ input.nodup) h
    exact ⟨_, by simp [headKeys, hextra], he⟩
  rcases bind_eq_error_iff.1 h with h | ⟨_, -, h⟩
  · obtain ⟨-, rfl⟩ := StateTable.resolve_eq_error_iff.1 h
    exact ⟨_, by simp [headKeys], .inField _ _⟩
  rcases bind_eq_error_iff.1 h with h | ⟨_, -, h⟩
  · obtain ⟨-, rfl⟩ := StateTable.resolve_eq_error_iff.1 h
    exact ⟨_, by simp [headKeys], .inField _ _⟩
  rcases bind_eq_error_iff.1 h with h | ⟨_, -, h⟩
  · obtain ⟨-, rfl⟩ := StateTable.resolve_eq_error_iff.1 h
    exact ⟨_, by simp [headKeys], .inField _ _⟩
  split at h
  · cases h
    exact ⟨_, by simp [headKeys], .inField _ _⟩
  · cases h

end Turing.Definition

namespace Description

variable {d : Description} {s : Settings}

def moves : Description → List Move
  | dfa d => d.delta.map Dfa.Definition.move
  | nfa d => d.delta.map Nfa.Definition.move
  | cfg _ => []
  | tm d => d.delta.map Turing.Definition.move

def withoutMoves : Description → Description
  | dfa d => dfa { d with delta := [] }
  | nfa d => nfa { d with delta := [] }
  | cfg d => cfg d
  | tm d => tm { d with delta := [] }

def states : Description → List String
  | dfa d => d.states
  | nfa d => d.states
  | cfg _ => []
  | tm d => d.states

def symbols : Description → List Char
  | dfa d => d.inputAlphabet
  | nfa d => d.inputAlphabet
  | cfg _ => []
  | tm d => d.inputAlphabet ++ d.tapeAlphabetExtra ++ [blankSymbol]

def named : Description → List String
  | dfa d => d.startState :: d.acceptStates
  | nfa d => d.startState :: d.acceptStates
  | cfg _ => []
  | tm d => [d.startState, d.acceptState, d.rejectState]

def headKeys : Description → List String
  | dfa d => Declaration.finiteKeys d.acceptStates
  | nfa d => Declaration.finiteKeys d.acceptStates
  | cfg _ => []
  | tm d => d.headKeys

structure Tables (d : Description) (t : StateTable) (a : Alphabet) : Prop where
  states : t.names.toList = d.states
  symbols : ∀ c, c ∈ a ↔ c ∈ d.symbols
  named : ∀ name ∈ d.named, name ∈ d.states

inductive Verdict (d : Description) (s : Settings) : Except ParseError Automaton → Prop
  /-- The head is at fault, whatever the transitions are. -/
  | head {e : ParseError} {key : String} (hkey : key ∈ d.headKeys) (he : e.IsAt key)
    (hrest : ∀ s x, d.withoutMoves.build s ≠ .ok x) : Verdict d s (.error e)
  | undeclared {e : ParseError} {t : StateTable} {a : Alphabet} (hd : d.Tables t a)
      (he : Undeclared t a d.moves e) :
    Verdict d s (.error e)
  | repeated {e : ParseError} (hd : d.formalism ≠ .nfa) (he : Repeated d.moves e) :
      Verdict d s (.error e)
  | notTotal {t : StateTable} {a : Alphabet} {state : String} {c : Char} (hdfa : d.formalism = .dfa)
    (hs : s.requireTotalDelta = true) (hd : d.Tables t a) (hm : ∀ m ∈ d.moves, m.Declared t a)
    (hpartial : ∃ x, d.build { s with requireTotalDelta := false } = .ok x) :
    Verdict d s (.error (.inField (Declaration.stateField state) (.missingTransition c)))
  | built {x : Automaton} {t : StateTable} {a : Alphabet} (hd : d.Tables t a)
      (hm : ∀ m ∈ d.moves, m.Declared t a) :
    Verdict d s (.ok x)

theorem Verdict.of_fails {e : ParseError} (hd : d.formalism ≠ .nfa) (ht : d.Tables t a)
    (he : Undeclared t a d.moves e ∨ Repeated d.moves e) : Verdict d s (.error e) := by
  rcases he with he | he
  · exact .undeclared ht he
  · exact .repeated hd he

theorem verdict_dfa (d : Dfa.Definition) (s : Settings) : (dfa d).Verdict s ((dfa d).build s) := by
  rw [build, Dfa.Definition.build_eq_bind]
  cases hhead : Declaration.finite d.states d.inputAlphabet d.startState d.acceptStates with
  | error e =>
    obtain ⟨key, hkey, he⟩ := Declaration.isAt_of_finite hhead
    refine .head hkey he fun s x h => ?_
    obtain ⟨_, h, -⟩ := map_eq_ok_iff.1 h
    rw [Dfa.Definition.build_eq_bind, hhead] at h
    cases h
  | ok head =>
    obtain ⟨t, a, start, accepting⟩ := head
    obtain ⟨hstates, hdistinct, hsymbols, hnamed⟩ := Declaration.finite_eq_ok hhead
    have hd : (dfa d).Tables t a := ⟨hstates, fun c => by rw [symbols, ← hsymbols]; rfl, hnamed⟩
    have hchecks := Dfa.Definition.checks (a := a) hdistinct
    rw [bind_of_eq_ok rfl]
    dsimp only
    cases htable : d.delta.foldlM (Dfa.Definition.enter t a) (.empty t.size a.size) with
    | error e => exact .of_fails (fun h => by cases h) hd (hchecks.fails_of_foldlM hdistinct htable)
    | ok table =>
      have hm := hchecks.declared_of_foldlM htable
      rw [bind_of_eq_ok rfl]
      split
      · rename_i htotal
        cases htotal' : Dfa.Definition.checkTotal ⟨t, a, start, accepting, table⟩ with
        | error e =>
          obtain ⟨state, c, rfl⟩ := Dfa.Definition.checkTotal_eq_error htotal'
          refine .notTotal rfl htotal hd hm ⟨.dfa ⟨t, a, start, accepting, table⟩, ?_⟩
          rw [build, Dfa.Definition.build_eq_bind, hhead, bind_of_eq_ok rfl]
          dsimp only
          rw [htable]
          rfl
        | ok x => exact .built hd hm
      · exact .built hd hm

theorem verdict_nfa (d : Nfa.Definition) (s : Settings) : (nfa d).Verdict s ((nfa d).build s) := by
  rw [build, Nfa.Definition.build_eq_bind]
  cases hhead : Declaration.finite d.states d.inputAlphabet d.startState d.acceptStates with
  | error e =>
    obtain ⟨key, hkey, he⟩ := Declaration.isAt_of_finite hhead
    refine .head hkey he fun s x h => ?_
    obtain ⟨_, h, -⟩ := map_eq_ok_iff.1 h
    rw [Nfa.Definition.build_eq_bind, hhead] at h
    cases h
  | ok head =>
    obtain ⟨t, a, start, accepting⟩ := head
    obtain ⟨hstates, -, hsymbols, hnamed⟩ := Declaration.finite_eq_ok hhead
    have hd : (nfa d).Tables t a := ⟨hstates, fun c => by rw [symbols, ← hsymbols]; rfl, hnamed⟩
    rw [bind_of_eq_ok rfl]
    dsimp only
    cases hedges : d.delta.mapM (Nfa.Definition.edgesOf t a) with
    | error e => exact .undeclared hd (Nfa.Definition.undeclared_of_mapM hedges)
    | ok edges => exact .built hd (Nfa.Definition.declared_of_mapM hedges)

theorem verdict_tm (d : Turing.Definition) (s : Settings) : (tm d).Verdict s ((tm d).build s) := by
  rw [build, Turing.Definition.build_eq_bind]
  cases hhead : d.head with
  | error e =>
    obtain ⟨key, hkey, he⟩ := Turing.Definition.isAt_of_head hhead
    refine .head hkey he fun s x h => ?_
    obtain ⟨_, h, -⟩ := map_eq_ok_iff.1 h
    rw [Turing.Definition.build_eq_bind] at h
    obtain ⟨_, h, -⟩ := bind_eq_ok_iff.1 h
    cases hhead.symm.trans h
  | ok head =>
    obtain ⟨t, input, tape, start, accept, reject⟩ := head
    obtain ⟨hstates, hdistinct, hsymbols, hnamed⟩ := Turing.Definition.head_eq_ok hhead
    have hd : (tm d).Tables t tape := by
      refine ⟨hstates, fun c => (hsymbols c).trans ?_, hnamed⟩
      rw [symbols, List.mem_append, List.mem_append, List.mem_singleton, or_assoc]
    have hchecks := Turing.Definition.checks (a := tape) hdistinct
    rw [bind_of_eq_ok rfl]
    dsimp only
    cases hrules : d.delta.foldlM (Turing.Definition.enter t tape) (.empty t.size tape.size) with
    | error e => exact .of_fails (fun h => by cases h) hd (hchecks.fails_of_foldlM hdistinct hrules)
    | ok rules => exact .built hd (hchecks.declared_of_foldlM hrules)

theorem exists_build_partial {x : Automaton} (h : d.build s = .ok x) :
    ∃ y, d.build { s with requireTotalDelta := false } = .ok y := by
  cases d with
  | dfa d =>
    obtain ⟨a, ha, -⟩ := map_eq_ok_iff.1 h
    rw [Dfa.Definition.build_eq_bind] at ha
    obtain ⟨head, hhead, ha⟩ := bind_eq_ok_iff.1 ha
    obtain ⟨table, htable, -⟩ := bind_eq_ok_iff.1 ha
    rw [build, Dfa.Definition.build_eq_bind, bind_of_eq_ok hhead, bind_of_eq_ok htable]
    exact ⟨_, rfl⟩
  | _ => exact ⟨x, h⟩

theorem verdict (hd : d.formalism ≠ .cfg) (s : Settings) : d.Verdict s (d.build s) := by
  cases d with
  | dfa d => exact verdict_dfa d s
  | nfa d => exact verdict_nfa d s
  | cfg d => exact absurd rfl hd
  | tm d => exact verdict_tm d s

end Description

end Acceptors
