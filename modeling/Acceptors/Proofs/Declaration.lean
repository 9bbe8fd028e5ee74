import Mathlib.Data.Prod.Basic
import Mathlib.Tactic.Common
import Acceptors.Proofs.Alphabet
import Acceptors.Proofs.Outcome
import Acceptors.Proofs.StateTable
import Acceptors.Proofs.TransitionTable

/-! What a definition names has to be declared. The check of the names and alphabets at its head
says against which key it failed, and the check of its transitions against which of them. -/

namespace Acceptors

def ParseError.IsAt (e : ParseError) (field : String) : Prop :=
  e.field? = some field ∧ e.location? = none

theorem ParseError.IsAt.inField (field : String) (reason : Reason) :
    (ParseError.inField field reason).IsAt field :=
  ⟨rfl, rfl⟩

variable {t : StateTable} {a : Alphabet} {e : ParseError} {name field : String}
    {names : List String} {symbols : List Char}

namespace StateTable

theorem mem_names_iff : name ∈ t.names.toList ↔ ∃ s, t.id? name = some s := by
  rw [← Option.isSome_iff_exists, id?, Array.mem_toList_iff, ← not_iff_not, Bool.not_eq_true,
    Option.isSome_eq_false_iff, Option.isNone_iff_eq_none, Array.idxOf?_eq_none_iff]

theorem not_mem_names_iff : name ∉ t.names.toList ↔ t.id? name = none := by
  rw [mem_names_iff, Option.eq_none_iff_forall_ne_some, not_exists]

theorem mem_names_of_resolve {s : Nat} (h : t.resolve name field = .ok s) : name ∈ t.names.toList :=
  mem_names_iff.2 ⟨s, resolve_eq_ok_iff.1 h⟩

theorem exists_resolve_iff : (∃ s, t.resolve name field = .ok s) ↔ name ∈ t.names.toList :=
  (exists_congr fun _ => resolve_eq_ok_iff).trans mem_names_iff.symm

theorem resolve_eq_error_iff : t.resolve name field = .error e ↔
    name ∉ t.names.toList ∧ e = .inField field (.undeclaredState name) := by
  rw [resolve, not_mem_names_iff]
  cases t.id? name with
  | some s =>
    constructor
    · intro h
      cases h
    · rintro ⟨h, -⟩
      cases h
  | none =>
    constructor
    · intro h
      cases h
      exact ⟨rfl, rfl⟩
    · rintro ⟨-, rfl⟩
      rfl

theorem isAt_of_ofNames_go (h : ofNames.go field t names = .error e) : e.IsAt field := by
  induction names generalizing t with
  | nil => cases h
  | cons name names ih =>
    rw [ofNames.go] at h
    split at h
    · cases h
      exact .inField _ _
    · split at h
      · cases h
        exact .inField _ _
      · exact ih h

theorem exists_ofNames_go_iff (ht : t.Distinct) : (∃ t', ofNames.go field t names = .ok t') ↔
    (∀ name ∈ names, name ≠ "") ∧ (t.names.toList ++ names).Nodup := by
  induction names generalizing t with
  | nil =>
    rw [List.append_nil]
    exact iff_of_true ⟨t, rfl⟩ ⟨List.forall_mem_nil _, ht⟩
  | cons name names ih =>
    rw [ofNames.go, List.forall_mem_cons]
    split
    · rename_i hempty
      exact iff_of_false (not_exists_error_eq_ok _) fun h => h.1.1 (String.isEmpty_iff.1 hempty)
    · rename_i hempty
      rw [String.isEmpty_iff] at hempty
      split
      · rename_i htaken
        refine iff_of_false (not_exists_error_eq_ok _) fun h => ?_
        exact (List.nodup_append.1 h.2).2.2 name
          (Array.mem_toList_iff.2 (Array.contains_iff_mem.1 htaken)) name
          List.mem_cons_self rfl
      · rename_i hfree
        have hname : name ∉ t.names.toList := fun hm =>
          hfree (Array.contains_iff_mem.2 (Array.mem_toList_iff.1 hm))
        rw [push_of_not_mem hname, ih (distinct_push ht hname),
          Array.toList_push, ← List.append_cons, and_iff_right hempty]

end StateTable

namespace Alphabet

theorem firstRepeat?_go_of_nodup {seen : List Char} (h : symbols.Nodup)
    (hseen : ∀ c ∈ symbols, c ∉ seen) :
    firstRepeat?.go seen symbols = none := by
  induction symbols generalizing seen with
  | nil => rfl
  | cons c symbols ih =>
    obtain ⟨hc, h⟩ := List.nodup_cons.1 h
    obtain ⟨hfirst, hseen⟩ := List.forall_mem_cons.1 hseen
    rw [firstRepeat?.go, if_neg hfirst]
    refine ih h fun x hx => ?_
    rw [List.mem_cons, not_or]
    exact ⟨fun hxc => hc (hxc ▸ hx), hseen x hx⟩

theorem not_nodup_of_ofDistinct {c : Char} (h : ofDistinct symbols = .error c) :
    ¬symbols.Nodup := by
  intro hnodup
  have hnone : firstRepeat? symbols = none := firstRepeat?_go_of_nodup hnodup fun x _ =>
    List.not_mem_nil
  unfold ofDistinct at h
  split at h
  · rename_i hsome
    cases hnone.symm.trans hsome
  · cases h

theorem isAt_of_alphabet (h : Declaration.alphabet symbols field = .error e) :
    ¬symbols.Nodup ∧ e.IsAt field := by
  obtain ⟨c, hc, rfl⟩ := mapError_eq_error_iff.1 h
  exact ⟨not_nodup_of_ofDistinct hc, .inField _ _⟩

theorem exists_alphabet_iff : (∃ a, Declaration.alphabet symbols field = .ok a) ↔
    symbols.Nodup := by
  constructor
  · intro h
    obtain ⟨a, ha⟩ := h
    exact symbols_of_alphabet ha ▸ a.nodup
  · intro h
    cases ha : Declaration.alphabet symbols field with
    | error e => exact absurd h (isAt_of_alphabet ha).1
    | ok a => exact ⟨a, rfl⟩

end Alphabet

namespace Declaration

structure Names (names : List String) : Prop where
  ne_nil : names ≠ []
  ne_empty : ∀ name ∈ names, name ≠ ""
  nodup : names.Nodup

theorem exists_states_iff : (∃ t, states names = .ok t) ↔ Names names := by
  rw [states]
  split
  · rename_i hnil
    exact iff_of_false (not_exists_error_eq_ok _) fun h => h.ne_nil (List.isEmpty_iff.1 hnil)
  · rename_i hnil
    rw [List.isEmpty_iff] at hnil
    have hempty : StateTable.empty.Distinct := List.nodup_nil
    rw [StateTable.ofNames, StateTable.exists_ofNames_go_iff hempty]
    exact ⟨fun h => ⟨hnil, h.1, h.2⟩, fun h => ⟨h.ne_empty, h.nodup⟩⟩

theorem isAt_of_states (h : states names = .error e) : e.IsAt "states" := by
  rw [states] at h
  split at h
  · cases h
    exact .inField _ _
  · exact StateTable.isAt_of_ofNames_go h

theorem isAt_of_marked (h : marked t names field = .error e) : names ≠ [] ∧ e.IsAt field := by
  obtain ⟨before, name, after, marks, rfl, -, hname⟩ := exists_of_foldlM_eq_error h
  refine ⟨List.append_ne_nil_of_right_ne_nil _ (List.cons_ne_nil _ _), ?_⟩
  rcases bind_eq_error_iff.1 hname with hname | ⟨_, _, hname⟩
  · obtain ⟨-, rfl⟩ := StateTable.resolve_eq_error_iff.1 hname
    exact .inField _ _
  · cases hname

theorem mem_names_of_marked {marks : Array Bool} (h : marked t names field = .ok marks) :
    ∀ name ∈ names, name ∈ t.names.toList := by
  refine foldlM_prefix_induction (P := fun done _ => ∀ name ∈ done, name ∈ t.names.toList) ?_
    (List.forall_mem_nil _) h
  intro done marks name _ hdone hname
  obtain ⟨s, hs, -⟩ := bind_eq_ok_iff.1 hname
  exact List.forall_mem_append.2 ⟨hdone,
    List.forall_mem_singleton.2 (StateTable.mem_names_of_resolve hs)⟩

theorem exists_marked_iff : (∃ marks, marked t names field = .ok marks) ↔
    ∀ name ∈ names, name ∈ t.names.toList := by
  constructor
  · intro h
    obtain ⟨marks, hmarks⟩ := h
    exact mem_names_of_marked hmarks
  · intro h
    cases hmarks : marked t names field with
    | ok marks => exact ⟨marks, rfl⟩
    | error e =>
      obtain ⟨before, name, after, marks, rfl, -, hname⟩ := exists_of_foldlM_eq_error hmarks
      obtain ⟨s, hs⟩ :=
        StateTable.exists_resolve_iff.2 (h name (List.mem_append_right _ List.mem_cons_self))
      rw [bind_of_eq_ok hs] at hname
      cases hname

def finite (states : List String) (inputAlphabet : List Char) (startState : String)
    (acceptStates : List String) :
    Except ParseError (StateTable × Alphabet × Nat × Array Bool) := do
  let table ← Declaration.states states
  let alphabet ← Declaration.alphabet inputAlphabet "input_alphabet"
  let start ← table.resolve startState "start_state"
  let accepting ← marked table acceptStates "accept_states"
  return (table, alphabet, start, accepting)

variable {states acceptStates : List String} {inputAlphabet : List Char} {startState : String}
    {start : Nat} {accepting : Array Bool}

theorem finite_eq_ok (h : finite states inputAlphabet startState acceptStates =
    .ok (t, a, start, accepting)) :
    t.names.toList = states ∧ t.Distinct ∧ a.symbols = inputAlphabet ∧
      ∀ name ∈ startState :: acceptStates, name ∈ states := by
  obtain ⟨_, ht, h⟩ := bind_eq_ok_iff.1 h
  obtain ⟨_, ha, h⟩ := bind_eq_ok_iff.1 h
  obtain ⟨_, hstart, h⟩ := bind_eq_ok_iff.1 h
  obtain ⟨_, haccepting, h⟩ := bind_eq_ok_iff.1 h
  cases h
  obtain ⟨rfl, hdistinct⟩ := StateTable.states_eq_ok ht
  exact ⟨rfl, hdistinct, Alphabet.symbols_of_alphabet ha,
    List.forall_mem_cons.2 ⟨StateTable.mem_names_of_resolve hstart, mem_names_of_marked haccepting⟩⟩

def finiteKeys (acceptStates : List String) : List String :=
  ["states", "input_alphabet", "start_state"] ++ if acceptStates = [] then [] else ["accept_states"]

theorem isAt_of_finite (h : finite states inputAlphabet startState acceptStates = .error e) :
    ∃ key ∈ finiteKeys acceptStates, e.IsAt key := by
  rcases bind_eq_error_iff.1 h with h | ⟨_, -, h⟩
  · exact ⟨_, by simp [finiteKeys], isAt_of_states h⟩
  rcases bind_eq_error_iff.1 h with h | ⟨_, -, h⟩
  · exact ⟨_, by simp [finiteKeys], (Alphabet.isAt_of_alphabet h).2⟩
  rcases bind_eq_error_iff.1 h with h | ⟨_, -, h⟩
  · obtain ⟨-, rfl⟩ := StateTable.resolve_eq_error_iff.1 h
    exact ⟨_, by simp [finiteKeys], .inField _ _⟩
  rcases bind_eq_error_iff.1 h with h | ⟨_, -, h⟩
  · obtain ⟨hne, hat⟩ := isAt_of_marked h
    exact ⟨_, by simp [finiteKeys, hne], hat⟩
  · cases h

def keys {α : Type} (delta : List (String × Char × α)) : List (String × Char) :=
  delta.map fun entry => (entry.1, entry.2.1)

theorem mem_keys_iff {α : Type} {delta : List (String × Char × α)} {state : String} {c : Char} :
    (state, c) ∈ keys delta ↔ ∃ x, (state, c, x) ∈ delta := by
  simp [keys]

/-- A transition of any kind: the state it starts from, its label, the symbols on it and the states
it leads to. -/
structure Move where
  state : String
  label : Option Char
  symbols : List Char
  targets : List String

namespace Move

def key (m : Move) : String × Option Char := (m.state, m.label)

theorem nodup_map_key_iff {α : Type} {move : String × Char × α → Move}
    {delta : List (String × Char × α)}
    (hmove : ∀ entry, (move entry).key = (entry.1, some entry.2.1)) :
    ((delta.map move).map key).Nodup ↔ (keys delta).Nodup := by
  have hinjective : (Prod.map id some : String × Char → String × Option Char).Injective :=
    Function.Injective.prodMap Function.injective_id fun _ _ => Option.some.inj
  rw [← List.nodup_map_iff hinjective, keys, List.map_map, List.map_map,
    List.map_congr_left (f := key ∘ move) fun entry _ => hmove entry]
  rfl

structure Declared (m : Move) (t : StateTable) (a : Alphabet) : Prop where
  state : m.state ∈ t.names.toList
  symbols : ∀ c ∈ m.symbols, c ∈ a
  targets : ∀ name ∈ m.targets, name ∈ t.names.toList

def path (m : Move) : String := labelField m.state m.label

/-- The key path against which something undeclared is reported: that of the state that the
transition starts from or that of the transition. -/
def faultPath (m : Move) (t : StateTable) : String :=
  if m.state ∈ t.names.toList then m.path else stateField m.state

def Undeclared (t : StateTable) (a : Alphabet) (moves : List Move) (e : ParseError) : Prop :=
  ∃ before m after, moves = before ++ m :: after ∧ (∀ x ∈ before, x.Declared t a) ∧
    ¬m.Declared t a ∧
    e.IsAt (m.faultPath t)

def Repeated (moves : List Move) (e : ParseError) : Prop :=
  ∃ before m after, moves = before ++ m :: after ∧
    (∃ x ∈ before, x.state = m.state ∧ x.label = m.label) ∧
    e.IsAt m.path

variable {m : Move}

theorem faultPath_of_mem (h : m.state ∈ t.names.toList) : m.faultPath t = m.path := if_pos h

theorem undeclared_of_state (h : t.resolve m.state (stateField m.state) = .error e) :
    ¬m.Declared t a ∧ e.IsAt (m.faultPath t) := by
  obtain ⟨hstate, rfl⟩ := StateTable.resolve_eq_error_iff.1 h
  refine ⟨fun hm => hstate hm.state, ?_⟩
  rw [faultPath, if_neg hstate]
  exact .inField _ _

theorem undeclared_of_target (hname : name ∈ m.targets) (h : t.resolve name m.path = .error e) :
    ¬m.Declared t a ∧ e.IsAt m.path := by
  obtain ⟨htarget, rfl⟩ := StateTable.resolve_eq_error_iff.1 h
  exact ⟨fun hm => htarget (hm.targets name hname), .inField _ _⟩

/-- A step that enters transitions into a table, one at a place, if they are declared and their
place is free. -/
structure Checks {α δ : Type} (move : δ → Move) (t : StateTable) (a : Alphabet)
    (f : TransitionTable α → δ → Except ParseError (TransitionTable α))
    (place : δ → Nat → Nat → α → Prop) : Prop
    extends TransitionTable.Enters f place t.size a.size where
  declared {d s i x} : place d s i x → (move d).Declared t a
  state {d s i x} : place d s i x → t.id? (move d).state = some s
  label {d s i x} : place d s i x → (move d).label = a.symbols[i]?
  error {table d e} : f table d = .error e →
    (¬(move d).Declared t a ∧ e.IsAt ((move d).faultPath t)) ∨
    (e.IsAt (move d).path ∧ ∃ s i x, place d s i x ∧ (table.get? s i).isSome)

namespace Checks

variable {α δ : Type} {move : δ → Move}
    {f : TransitionTable α → δ → Except ParseError (TransitionTable α)}
    {place : δ → Nat → Nat → α → Prop} {delta : List δ} {table : TransitionTable α}

theorem declared_of_foldlM (hf : Checks move t a f place)
    (h : delta.foldlM f (.empty t.size a.size) = .ok table) :
    ∀ m ∈ delta.map move, m.Declared t a := by
  refine List.forall_mem_map.2 (foldlM_prefix_induction
    (P := fun done _ => ∀ d ∈ done, (move d).Declared t a) ?_ (List.forall_mem_nil _) h)
  intro done table d entered hdone henter
  obtain ⟨s, i, x, hplace, -⟩ := hf.eq_ok_iff.1 henter
  exact List.forall_mem_append.2 ⟨hdone, List.forall_mem_singleton.2 (hf.declared hplace)⟩

theorem place_inj (hf : Checks move t a f place) {d d' : δ} {s i s' i' : Nat} {x x' : α}
    (h : place d s i x) (h' : place d' s' i' x') (hkey : (move d).key = (move d').key) :
    s = s' ∧ i = i' := by
  obtain ⟨hstate, hlabel⟩ := Prod.mk.inj hkey
  constructor
  · exact Option.some.inj ((hf.state h).symm.trans ((congrArg t.id? hstate).trans (hf.state h')))
  · rw [hf.label h, hf.label h'] at hlabel
    exact (List.getElem?_inj (hf.lt h).2 a.nodup).1 hlabel

theorem nodup_of_foldlM (hf : Checks move t a f place)
    (h : delta.foldlM f (.empty t.size a.size) = .ok table) :
    ((delta.map move).map key).Nodup := by
  -- the table that the part taken so far has been entered into tells which places are free
  refine (foldlM_prefix_induction (P := fun done table =>
    done.foldlM f (.empty t.size a.size) = .ok table ∧
    ((done.map move).map key).Nodup) ?_ ⟨rfl, List.nodup_nil⟩ h).2
  intro done table d entered hdone hstep
  obtain ⟨hdone, hnodup⟩ := hdone
  constructor
  · rw [List.foldlM_append, bind_of_eq_ok hdone, List.foldlM_cons, bind_of_eq_ok hstep]
    rfl
  · rw [List.map_append, List.map_append, List.map_singleton,
      List.map_singleton, ← List.concat_eq_append]
    refine hnodup.concat fun hkey => ?_
    obtain ⟨_, hm, hkey⟩ := List.mem_map.1 hkey
    obtain ⟨earlier, hearlier, rfl⟩ := List.mem_map.1 hm
    obtain ⟨s, i, x, hplace, hnew, -⟩ := hf.eq_ok_iff.1 hstep
    obtain ⟨s', i', x', hplace', hold⟩ := (hf.get?_of_foldlM hdone).2 earlier hearlier
    obtain ⟨rfl, rfl⟩ := hf.place_inj hplace' hplace hkey
    cases hnew.symm.trans hold

theorem fails_of_foldlM (hf : Checks move t a f place) (ht : t.Distinct)
    (h : delta.foldlM f (.empty t.size a.size) = .error e) :
    Undeclared t a (delta.map move) e ∨ Repeated (delta.map move) e := by
  obtain ⟨before, d, after, table, rfl, hbefore, hlast⟩ := exists_of_foldlM_eq_error h
  have hmoves : (before ++ d :: after).map move = before.map move ++ move d :: after.map move := by
    rw [List.map_append, List.map_cons]
  rcases hf.error hlast with ⟨hm, he⟩ | ⟨he, s, i, x, hplace, hold⟩
  · exact .inl ⟨_, _, _, hmoves, hf.declared_of_foldlM hbefore, hm, he⟩
  · obtain ⟨old, hold⟩ := Option.isSome_iff_exists.1 hold
    obtain ⟨earlier, hearlier, hplace'⟩ := hf.exists_of_foldlM hbefore hold
    refine .inr ⟨_, _, _, hmoves, ⟨move earlier, List.mem_map_of_mem hearlier, ?_, ?_⟩, he⟩
    · exact StateTable.eq_of_id? ht (hf.state hplace') (hf.state hplace)
    · exact (hf.label hplace').trans (hf.label hplace).symm

/-- Transitions can be entered when all they name is declared and no two have both state and label
in common. -/
theorem exists_foldlM_iff (hf : Checks move t a f place) (ht : t.Distinct) :
    (∃ table, delta.foldlM f (.empty t.size a.size) = .ok table) ↔
      (∀ m ∈ delta.map move, m.Declared t a) ∧ ((delta.map move).map key).Nodup := by
  constructor
  · intro h
    obtain ⟨table, h⟩ := h
    exact ⟨hf.declared_of_foldlM h, hf.nodup_of_foldlM h⟩
  · intro h
    obtain ⟨hdeclared, hnodup⟩ := h
    cases htable : delta.foldlM f (.empty t.size a.size) with
    | ok table => exact ⟨table, rfl⟩
    | error e =>
      rcases hf.fails_of_foldlM ht htable with hfails | hfails
      · obtain ⟨before, m, after, hsplit, -, hm, -⟩ := hfails
        exact absurd (hdeclared m (hsplit ▸ List.mem_append_right _ List.mem_cons_self)) hm
      · obtain ⟨before, m, after, hsplit, ⟨x, hx, hstate, hlabel⟩, -⟩ := hfails
        rw [hsplit, List.map_append, List.map_cons] at hnodup
        have hkey : x.key = m.key := Prod.ext hstate hlabel
        exact absurd hkey ((List.nodup_append.1 hnodup).2.2 _ (List.mem_map_of_mem hx) _
          List.mem_cons_self)

end Checks

end Move

end Declaration

end Acceptors
