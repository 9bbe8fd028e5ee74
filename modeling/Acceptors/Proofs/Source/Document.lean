import Mathlib.Data.List.Dedup
import Mathlib.Data.List.Nodup
import Mathlib.Tactic.Common
import Acceptors.Automaton
import Acceptors.Proofs.Document.Node

/-! Documents that definitions are written as. The transitions of a definition stand below their
states, in any order, and so do the keys of a document other than a grammar's. -/

namespace Acceptors

namespace Node

def ofEntries (entries : List (String × Node)) : Node :=
  .mapping .start (entries.map fun e => .mk e.1 .start e.2)

def ofTexts (texts : List String) : Node := .list .start (texts.map (.scalar .start))

variable {items : List Node} {entries : List (String × Node)}

theorem keysDistinct_ofTexts (texts : List String) : (ofTexts texts).KeysDistinct :=
  itemKeysDistinct_iff.2 fun n hn => by
    obtain ⟨text, -, rfl⟩ := List.mem_map.1 hn
    trivial

theorem keysDistinct_ofEntries_iff : (ofEntries entries).KeysDistinct ↔
    (entries.map Prod.fst).Nodup ∧ ∀ e ∈ entries, e.2.KeysDistinct := by
  rw [ofEntries, KeysDistinct, List.map_map]
  refine and_congr Iff.rfl ?_
  induction entries with
  | nil => exact ⟨fun _ e he => absurd he List.not_mem_nil, fun _ => trivial⟩
  | cons e entries ih => rw [List.map_cons, EntryKeysDistinct, ih, List.forall_mem_cons]

end Node

abbrev Rows (κ ν : Type) := List (String × List (κ × ν))

namespace Rows

variable {κ ν : Type} {rows : Rows κ ν} {delta : List (String × κ × ν)} {key : κ → String}
  {value : ν → Node}

def moves (rows : Rows κ ν) : List (String × κ × ν) :=
  rows.flatMap fun row => row.2.map fun move => (row.1, move)

/-- Each state has one row, and the moves of all rows are the given ones. -/
structure Groups (rows : Rows κ ν) (delta : List (String × κ × ν)) : Prop where
  nodup : (rows.map Prod.fst).Nodup
  perm : delta.Perm rows.moves

def node (key : κ → String) (value : ν → Node) (rows : Rows κ ν) : Node :=
  .ofEntries (rows.map fun row =>
    (row.1, .ofEntries (row.2.map fun move => (key move.1, value move.2))))

def ofMoves (delta : List (String × κ × ν)) : Rows κ ν :=
  (delta.map Prod.fst).dedup.map fun state => (state, (delta.filter (·.1 = state)).map Prod.snd)

theorem perm_flatMap_filter {states : List String} (hstates : states.Nodup)
    (hdelta : ∀ move ∈ delta, move.1 ∈ states) :
    delta.Perm (states.flatMap fun state => delta.filter (·.1 = state)) := by
  induction states generalizing delta with
  | nil =>
    obtain rfl := List.eq_nil_iff_forall_not_mem.2 fun move hmove =>
      List.not_mem_nil (hdelta move hmove)
    exact .nil
  | cons state states ih =>
    obtain ⟨hstate, hstates⟩ := List.nodup_cons.1 hstates
    -- What does not start from this state is grouped by the induction, for which it stands alone.
    have hothers : ∀ move ∈ delta.filter (fun move => ¬move.1 = state), move.1 ∈ states := by
      intro move hmove
      obtain ⟨hmem, hne⟩ := List.mem_filter.1 hmove
      exact (List.mem_cons.1 (hdelta move hmem)).resolve_left (of_decide_eq_true hne)
    have hsame : states.flatMap (fun s =>
      (delta.filter (fun move => ¬move.1 = state)).filter (·.1 = s)) =
        states.flatMap fun s => delta.filter (·.1 = s) := by
      refine List.flatMap_congr fun s hs => ?_
      rw [List.filter_filter]
      refine List.filter_congr fun move _ => ?_
      by_cases hs' : move.1 = s
      · have hne : ¬move.1 = state := fun h => hstate (h ▸ hs' ▸ hs)
        simp [hs', hs' ▸ hne]
      · simp [hs']
    rw [List.flatMap_cons]
    refine (List.filter_append_perm (fun move => decide (move.1 = state)) delta).symm.trans ?_
    have hrest := ih hstates hothers
    rw [hsame] at hrest
    refine .append_left _ ?_
    simpa using hrest

theorem groups_ofMoves (delta : List (String × κ × ν)) : (ofMoves delta).Groups delta where
  nodup := by
    rw [ofMoves, List.map_map]
    exact (List.map_id _).symm ▸ List.nodup_dedup _
  perm := by
    have hmem : ∀ move ∈ delta, move.1 ∈ (delta.map Prod.fst).dedup := fun move hmove =>
      List.mem_dedup.2 (List.mem_map_of_mem hmove)
    refine (perm_flatMap_filter (List.nodup_dedup _) hmem).trans (.of_eq ?_)
    rw [moves, ofMoves, List.flatMap_map]
    refine List.flatMap_congr fun state _ => ?_
    rw [List.map_map]
    refine (List.map_id _).symm.trans (List.map_congr_left fun move hmove => ?_)
    obtain rfl := of_decide_eq_true (List.mem_filter.1 hmove).2
    rfl

theorem keysDistinct_node (hrows : rows.Groups delta) (hkey : key.Injective)
    (hdelta : (delta.map fun move => (move.1, move.2.1)).Nodup)
    (hvalue : ∀ v, (value v).KeysDistinct) : (rows.node key value).KeysDistinct := by
  have hlabels : (rows.moves.map fun move => (move.1, move.2.1)).Nodup :=
    (hrows.perm.map _).nodup_iff.1 hdelta
  rw [moves, List.map_flatMap, List.nodup_flatMap] at hlabels
  rw [node, Node.keysDistinct_ofEntries_iff, List.map_map]
  refine ⟨hrows.nodup, List.forall_mem_map.2 fun row hrow => ?_⟩
  rw [Node.keysDistinct_ofEntries_iff, List.map_map]
  refine ⟨?_, List.forall_mem_map.2 fun move _ => hvalue move.2⟩
  have hrow := hlabels.1 row hrow
  rw [List.map_map] at hrow
  have hnodup : (row.2.map Prod.fst).Nodup := by
    refine List.Nodup.of_map (fun label => (row.1, label)) ?_
    rwa [List.map_map]
  have hkeys := hnodup.map hkey
  rwa [List.map_map] at hkeys

end Rows

inductive Description
  | dfa (d : Dfa.Definition)
  | nfa (d : Nfa.Definition)
  | cfg (d : Grammar.Definition)
  | tm (d : Turing.Definition)

namespace Description

def formalism : Description → Formalism
  | dfa _ => .dfa
  | nfa _ => .nfa
  | cfg _ => .cfg
  | tm _ => .tm

def build (s : Settings) : Description → Except ParseError Automaton
  | dfa d => (d.build s.requireTotalDelta).map .dfa
  | nfa d => d.build.map .nfa
  | cfg d => (d.build.map fun g => g.withLimits s.maxTreeDepth s.maxChartCells).map .cfg
  | tm d => d.build.map .tm

/-- No two transitions have the same state and label, no move is labelled with the sign for the
empty word, and no two rules of a grammar have the same nonterminal. -/
def Unambiguous : Description → Prop
  | dfa d => (d.delta.map fun move => (move.1, move.2.1)).Nodup
  | nfa d => (d.delta.map fun move => (move.1, move.2.1)).Nodup ∧
    ∀ move ∈ d.delta, move.2.1 ≠ some 'ε'
  | cfg d => d.names.Nodup
  | tm d => (d.delta.map fun move => (move.1, move.2.1)).Nodup

def ofSymbols (symbols : List Char) : Node := .ofTexts (symbols.map Char.toString)

def finiteEntries (states : List String) (inputAlphabet : List Char) (startState : String)
    (acceptStates : List String) (delta : Node) : List (String × Node) :=
  [("states", .ofTexts states), ("input_alphabet", ofSymbols inputAlphabet),
    ("start_state", .scalar .start startState), ("accept_states", .ofTexts acceptStates),
    ("delta", delta)]

def turingEntries (d : Turing.Definition) (delta : Node) : List (String × Node) :=
  [("states", .ofTexts d.states), ("input_alphabet", ofSymbols d.inputAlphabet),
    ("tape_alphabet_extra", ofSymbols d.tapeAlphabetExtra),
    ("start_state", .scalar .start d.startState),
    ("accept_state", .scalar .start d.acceptState), ("reject_state", .scalar .start d.rejectState),
    ("delta", delta)]

def grammarEntries (d : Grammar.Definition) : List (String × Node) :=
  d.rules.map fun rule => (rule.1, .ofTexts rule.2)

/-- The key of a move's label. The empty key stands for no label. -/
def moveKey : Option Char → String
  | none => ""
  | some c => c.toString

def ofAction (a : Turing.Action) : Node :=
  .ofTexts [a.nextState, a.write.toString, a.direction.letter]

inductive Document : Description → Node → Prop
  | dfa {d : Dfa.Definition} {rows : Rows Char String} {entries : List (String × Node)}
    (hrows : rows.Groups d.delta)
    (hentries : (finiteEntries d.states d.inputAlphabet d.startState d.acceptStates
      (rows.node Char.toString (.scalar .start))).Perm entries) :
    Document (.dfa d) (.ofEntries entries)
  | nfa {d : Nfa.Definition} {rows : Rows (Option Char) (List String)}
    {entries : List (String × Node)} (hrows : rows.Groups d.delta)
    (hentries : (finiteEntries d.states d.inputAlphabet d.startState d.acceptStates
      (rows.node moveKey .ofTexts)).Perm entries) :
    Document (.nfa d) (.ofEntries entries)
  | cfg {d : Grammar.Definition} : Document (.cfg d) (.ofEntries (grammarEntries d))
  | tm {d : Turing.Definition} {rows : Rows Char Turing.Action} {entries : List (String × Node)}
    (hrows : rows.Groups d.delta)
    (hentries : (turingEntries d (rows.node Char.toString ofAction)).Perm entries) :
    Document (.tm d) (.ofEntries entries)

variable {d : Description} {n : Node}

theorem exists_document (d : Description) : ∃ n, d.Document n := by
  cases d with
  | dfa d => exact ⟨_, .dfa (Rows.groups_ofMoves d.delta) (.refl _)⟩
  | nfa d => exact ⟨_, .nfa (Rows.groups_ofMoves d.delta) (.refl _)⟩
  | cfg d => exact ⟨_, .cfg⟩
  | tm d => exact ⟨_, .tm (Rows.groups_ofMoves d.delta) (.refl _)⟩

theorem toString_injective : Char.toString.Injective := fun c c' h => by
  simpa using congrArg String.toList h

theorem moveKey_injective : moveKey.Injective := by
  intro k k' h
  cases k with
  | none =>
    cases k' with
    | none => rfl
    | some c => exact absurd (congrArg String.toList h) (by simp [moveKey])
  | some c =>
    cases k' with
    | none => exact absurd (congrArg String.toList h) (by simp [moveKey])
    | some c' => rw [toString_injective h]

theorem keysDistinct_finiteEntries {states : List String} {inputAlphabet : List Char}
    {startState : String} {acceptStates : List String} {delta : Node}
    (hdelta : delta.KeysDistinct) :
    (Node.ofEntries (finiteEntries states inputAlphabet startState acceptStates
      delta)).KeysDistinct := by
  rw [Node.keysDistinct_ofEntries_iff]
  refine ⟨by simp [finiteEntries], ?_⟩
  simp [finiteEntries, ofSymbols, Node.keysDistinct_ofTexts, Node.KeysDistinct, hdelta]

theorem keysDistinct_turingEntries {d : Turing.Definition} {delta : Node}
    (hdelta : delta.KeysDistinct) :
    (Node.ofEntries (turingEntries d delta)).KeysDistinct := by
  rw [Node.keysDistinct_ofEntries_iff]
  refine ⟨by simp [turingEntries], ?_⟩
  simp [turingEntries, ofSymbols, Node.keysDistinct_ofTexts, Node.KeysDistinct, hdelta]

theorem keysDistinct_grammarEntries {d : Grammar.Definition} (hd : d.names.Nodup) :
    (Node.ofEntries (grammarEntries d)).KeysDistinct := by
  rw [Node.keysDistinct_ofEntries_iff, grammarEntries, List.map_map]
  exact ⟨hd, List.forall_mem_map.2 fun rule _ => Node.keysDistinct_ofTexts rule.2⟩

end Description

theorem Node.KeysDistinct.perm {entries entries' : List (String × Node)}
    (h : (ofEntries entries).KeysDistinct) (hperm : entries.Perm entries') :
    (ofEntries entries').KeysDistinct := by
  rw [keysDistinct_ofEntries_iff] at h ⊢
  exact ⟨(hperm.map _).nodup_iff.1 h.1, fun e he => h.2 e (hperm.mem_iff.2 he)⟩

theorem Description.Document.keysDistinct {d : Description} {n : Node} (hn : d.Document n)
    (hd : d.Unambiguous) : n.KeysDistinct := by
  cases hn with
  | dfa hrows hentries =>
    have hscalar : ∀ text, (Node.scalar .start text).KeysDistinct := fun _ => trivial
    have hdelta := Rows.keysDistinct_node hrows toString_injective hd hscalar
    exact (keysDistinct_finiteEntries hdelta).perm hentries
  | nfa hrows hentries =>
    have hdelta := Rows.keysDistinct_node hrows moveKey_injective hd.1 Node.keysDistinct_ofTexts
    exact (keysDistinct_finiteEntries hdelta).perm hentries
  | cfg => exact keysDistinct_grammarEntries hd
  | tm hrows hentries =>
    have haction : ∀ a, (ofAction a).KeysDistinct := fun _ => Node.keysDistinct_ofTexts _
    have hdelta := Rows.keysDistinct_node hrows toString_injective hd haction
    exact (keysDistinct_turingEntries hdelta).perm hentries

end Acceptors
