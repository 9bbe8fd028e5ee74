import Mathlib.Data.List.Nodup
import Acceptors.Proofs.Document.Keys
import Acceptors.Proofs.Source.Contents
import Acceptors.Proofs.Source.Places

/-! The transition at fault. A definition whose head is right is refused for the first transition in
the document that speaks of something undeclared, and this is said of the first key with the key
path of that transition, or of its row. -/

namespace Acceptors

open Declaration (Move stateField)
open Declaration.Move (Undeclared Repeated)
open Source

/-! ### Key paths -/

namespace Source

variable {state state' key key' : String}

def segment (key : String) : String := if key.isEmpty then emptyText else key

theorem toList_stateField (state : String) :
    (stateField state).toList = "delta.".toList ++ state.toList :=
  String.toList_append

theorem toList_entryField (state key : String) :
    (entryField state key).toList = "delta.".toList ++
    (state.toList ++ '.' :: (segment key).toList) := by
  rw [entryField, ← segment, String.toList_append, String.toList_append, toList_stateField,
    List.append_assoc, List.append_assoc]
  rfl

theorem stateField_injective : stateField.Injective := fun state state' h => by
  have hchars := congrArg String.toList h
  rw [toList_stateField, toList_stateField] at hchars
  exact String.toList_inj.1 (List.append_cancel_left hchars)

theorem stateField_ne_entryField (hstate : '.' ∉ state.toList) :
    stateField state ≠ entryField state' key := by
  intro h
  have hchars := congrArg String.toList h
  rw [toList_stateField, toList_entryField] at hchars
  rw [List.append_cancel_left hchars] at hstate
  exact hstate (List.mem_append_right _ List.mem_cons_self)

theorem takeWhile_append_dot {chars rest : List Char} (h : '.' ∉ chars) :
    (chars ++ '.' :: rest).takeWhile (· != '.') = chars := by
  have hchars : ∀ c ∈ chars, (c != '.') = true := fun c hc => bne_iff_ne.2 fun hdot => h (hdot ▸ hc)
  rw [List.takeWhile_append_of_pos hchars, List.takeWhile_cons_of_neg (by decide), List.append_nil]

theorem eq_of_entryField_eq (hstate : '.' ∉ state.toList) (hstate' : '.' ∉ state'.toList)
    (h : entryField state key = entryField state' key') :
    state = state' ∧ segment key = segment key' := by
  have hchars := congrArg String.toList h
  rw [toList_entryField, toList_entryField] at hchars
  have hrest := List.append_cancel_left hchars
  have hstates := congrArg (List.takeWhile (· != '.')) hrest
  rw [takeWhile_append_dot hstate, takeWhile_append_dot hstate'] at hstates
  rw [hstates] at hrest
  exact ⟨String.toList_inj.1 hstates,
    String.toList_inj.1 (List.cons.inj (List.append_cancel_left hrest)).2⟩

theorem eq_or_of_segment_eq (h : segment key = segment key') :
    key = key' ∨ (key = "" ∧ key' = emptyText) ∨ (key = emptyText ∧ key' = "") := by
  rw [segment, segment] at h
  split at h
  · rename_i hkey
    split at h
    · rename_i hkey'
      exact .inl ((String.isEmpty_iff.1 hkey).trans (String.isEmpty_iff.1 hkey').symm)
    · exact .inr (.inl ⟨String.isEmpty_iff.1 hkey, h.symm⟩)
  · split at h
    · rename_i hkey'
      exact .inr (.inr ⟨h, String.isEmpty_iff.1 hkey'⟩)
    · exact .inl h

end Source

namespace Node

variable {n root : Node} {row e : Entry}

/-- The key paths of rows and transitions, with the places of their keys in the order of the
text. -/
def places (root : Node) : Places :=
  root.rows.flatMap fun row => (stateField row.key, row.location) ::
    row.value.entries.map fun e => (entryField row.key e.key, e.location)

/-- What is wrong with a transition: the state of its row is not declared, or else something on it
is not. -/
def fault? (f : Formalism) (root : Node) (cell : Entry × Entry) : Option (String × Location) :=
  if cell.1.key ∉ root.textsUnder ["states"] then some (stateField cell.1.key, cell.1.location)
  else if symbolsOf f cell.2 ⊆ alphabetOf f root ∧
    targetsOf f cell.2 ⊆ root.textsUnder ["states"] then none
  else some (entryField cell.1.key cell.2.key, cell.2.location)

/-- The key path of the first fault, and the place of the key. -/
def culprit? (f : Formalism) (root : Node) : Option (String × Location) :=
  root.cells.findSome? (root.fault? f)

/-- No name of a state has a dot, and no row has both keys for moves of the empty word. -/
structure ClearPaths (root : Node) : Prop where
  dots : ∀ row ∈ root.rows, '.' ∉ row.key.toList
  empty : ∀ row ∈ root.rows, "" ∈ row.value.entries.map Entry.key →
    emptyText ∉ row.value.entries.map Entry.key

structure KeyedRows (root : Node) : Prop where
  nodup_rows : (root.rows.map Entry.key).Nodup
  nodup_entries : ∀ row ∈ root.rows, (row.value.entries.map Entry.key).Nodup

theorem entryKeysDistinct_iff {es : List Entry} :
    EntryKeysDistinct es ↔ ∀ e ∈ es, e.value.KeysDistinct := by
  induction es with
  | nil => exact iff_of_true trivial (List.forall_mem_nil _)
  | cons e es ih =>
    obtain ⟨key, l, value⟩ := e
    rw [EntryKeysDistinct, ih, List.forall_mem_cons]
    rfl

theorem KeysDistinct.nodup_entries (h : n.KeysDistinct) : (n.entries.map Entry.key).Nodup := by
  cases n with
  | mapping _ _ => exact h.1
  | _ => exact List.nodup_nil

theorem KeysDistinct.value (h : n.KeysDistinct) (he : e ∈ n.entries) : e.value.KeysDistinct := by
  cases n with
  | mapping _ _ => exact entryKeysDistinct_iff.1 h.2 e he
  | _ => cases he

theorem mem_places_iff {p : String × Location} : p ∈ root.places ↔ ∃ row ∈ root.rows,
    p = (stateField row.key, row.location) ∨ ∃ e ∈ row.value.entries,
    p = (entryField row.key e.key, e.location) := by
  rw [places, List.mem_flatMap]
  refine exists_congr fun row => and_congr_right fun _ => ?_
  rw [List.mem_cons, List.mem_map]
  exact or_congr_right (exists_congr fun e => and_congr_right fun _ => eq_comm)

theorem mem_cells_iff : (row, e) ∈ root.cells ↔ row ∈ root.rows ∧ e ∈ row.value.entries := by
  rw [cells, List.mem_flatMap]
  constructor
  · rintro ⟨_, hrow, he⟩
    obtain ⟨_, he, heq⟩ := List.mem_map.1 he
    cases heq
    exact ⟨hrow, he⟩
  · rintro ⟨hrow, he⟩
    exact ⟨row, hrow, List.mem_map_of_mem he⟩

theorem ClearPaths.eq_of_mem_places (hclear : root.ClearPaths) (hkeyed : root.KeyedRows)
    {path : String} {l l' : Location} (h : (path, l) ∈ root.places)
    (h' : (path, l') ∈ root.places) : l = l' := by
  obtain ⟨row, hrow, h⟩ := mem_places_iff.1 h
  obtain ⟨row', hrow', h'⟩ := mem_places_iff.1 h'
  have hdots := hclear.dots row hrow
  have hdots' := hclear.dots row' hrow'
  rcases h with h | ⟨e, he, h⟩ <;> rcases h' with h' | ⟨e', he', h'⟩ <;>
    obtain ⟨rfl, rfl⟩ := Prod.mk.inj h <;> obtain ⟨hpath, rfl⟩ := Prod.mk.inj h'
  · rw [List.inj_on_of_nodup_map hkeyed.nodup_rows hrow hrow' (stateField_injective hpath)]
  · exact absurd hpath (stateField_ne_entryField hdots)
  · exact absurd hpath.symm (stateField_ne_entryField hdots')
  · obtain ⟨hkey, hsegment⟩ := eq_of_entryField_eq hdots hdots' hpath
    obtain rfl := List.inj_on_of_nodup_map hkeyed.nodup_rows hrow hrow' hkey
    have hempty := hclear.empty row hrow
    rcases eq_or_of_segment_eq hsegment with hkey | ⟨hkey, hkey'⟩ | ⟨hkey, hkey'⟩
    · rw [List.inj_on_of_nodup_map (hkeyed.nodup_entries row hrow) he he' hkey]
    · exact absurd (hkey' ▸ List.mem_map_of_mem he') (hempty (hkey ▸ List.mem_map_of_mem he))
    · exact absurd (hkey ▸ List.mem_map_of_mem he) (hempty (hkey' ▸ List.mem_map_of_mem he'))

theorem ClearPaths.lookup_places (hclear : root.ClearPaths) (hkeyed : root.KeyedRows)
    {path : String} {l : Location} (h : (path, l) ∈ root.places) :
    root.places.lookup path = some l := by
  obtain ⟨l', hl'⟩ :=
    Option.isSome_iff_exists.1 (List.lookup_isSome_iff.2 ⟨_, h, beq_self_eq_true path⟩)
  obtain ⟨before, after, hplaces, -⟩ := List.lookup_eq_some_iff.1 hl'
  rw [hl', hclear.eq_of_mem_places hkeyed h (hplaces ▸ List.mem_append_right _ List.mem_cons_self)]

theorem KeyedRows.nodup_cells (h : root.KeyedRows) :
    (root.cells.map fun cell => (cell.1.key, cell.2.key)).Nodup := by
  rw [cells, List.map_flatMap, List.nodup_flatMap]
  refine ⟨fun row hrow => ?_, (List.pairwise_map.1 h.nodup_rows).imp fun {row row'} hne => ?_⟩
  · rw [List.map_map]
    refine List.Nodup.of_map Prod.snd ?_
    rw [List.map_map]
    exact h.nodup_entries row hrow
  · intro p hp hp'
    obtain ⟨_, hcell, rfl⟩ := List.mem_map.1 hp
    obtain ⟨_, hcell', hkeys⟩ := List.mem_map.1 hp'
    obtain ⟨e, -, rfl⟩ := List.mem_map.1 hcell
    obtain ⟨e', -, rfl⟩ := List.mem_map.1 hcell'
    exact hne (Prod.mk.inj hkeys).1.symm

theorem prefix_of_mem_places {p : String × Location} (h : p ∈ root.places) :
    "delta.".toList <+: p.1.toList := by
  obtain ⟨row, -, rfl | ⟨e, -, rfl⟩⟩ := mem_places_iff.1 h
  · exact ⟨_, (toList_stateField _).symm⟩
  · exact ⟨_, (toList_entryField _ _).symm⟩

end Node

namespace Source

theorem deltaPlaces_eq (n? : Option Node) :
    deltaPlaces n? = (n?.toList.flatMap Node.entries).flatMap fun row =>
    (stateField row.key, row.location) :: row.value.entries.map fun e =>
      (entryField row.key e.key, e.location) := by
  cases n? with
  | none => rfl
  | some n =>
    rw [Option.toList_some, List.flatMap_singleton]
    cases n with
    | mapping _ rows =>
      refine List.flatMap_congr fun row _ => ?_
      cases row.value <;> rfl
    | _ => rfl

end Source

namespace Description

variable {d : Description} {root : Node} {f : Fields} {t : StateTable} {a : Alphabet}
    {e : ParseError} {cell : Entry × Entry} {m : Move}

theorem ReadFrom.keyedRows (h : d.ReadFrom root f) (hroot : root.KeysDistinct) :
    root.KeyedRows := by
  have hunder := h.exists_of.2
  have hdistinct : ∀ n ∈ root.under ["delta"], n.KeysDistinct := fun n hn => by
    obtain ⟨e, he, rfl⟩ := List.mem_map.1 hn
    exact hroot.value (List.mem_filter.1 he).1
  cases hdelta : f.optional? "delta" with
  | none =>
    rw [hdelta, Option.toList_none] at hunder
    have hrows : root.rows = [] := by rw [Node.rows, hunder, List.flatMap_nil]
    exact ⟨hrows ▸ List.nodup_nil, hrows ▸ List.forall_mem_nil _⟩
  | some n =>
    rw [hdelta, Option.toList_some] at hunder
    have hrows : root.rows = n.entries := by rw [Node.rows, hunder, List.flatMap_singleton]
    have hn := hdistinct n (hunder ▸ List.mem_singleton_self n)
    exact ⟨hrows ▸ hn.nodup_entries, fun row hrow => (hn.value (hrows ▸ hrow)).nodup_entries⟩

theorem Contents.not_repeated (h : d.Contents root) (hkeyed : root.KeyedRows)
    (hd : d.formalism ≠ .nfa) :
    ¬Repeated d.moves e := by
  rintro ⟨before, m, after, hmoves, ⟨x, hx, hstate, hlabel⟩, -⟩
  obtain ⟨cells, cell, rest, hcells, hbefore, hcell⟩ := h.exists_cells hmoves
  obtain ⟨cell', hmem, hcell'⟩ := exists_of_forall₂_of_mem hbefore hx
  have hsame : (cell'.1.key, cell'.2.key) = (cell.1.key, cell.2.key) := by
    refine Prod.ext (hcell'.state.symm.trans (hstate.trans hcell.state)) (Option.some.inj ?_)
    rw [← hcell'.label hd, ← hcell.label hd, hlabel]
  have hnodup := hkeyed.nodup_cells
  rw [hcells, List.map_append, List.map_cons, List.nodup_append] at hnodup
  exact hnodup.2.2 _ (List.mem_map_of_mem hmem) _ List.mem_cons_self hsame

theorem Contents.fault?_of_declared (h : d.Contents root) (ht : d.Tables t a)
    (hcell : Says d.formalism cell m) (hm : m.Declared t a) :
    root.fault? d.formalism cell = none := by
  obtain ⟨hstate, hrest⟩ := (h.declared_iff ht hcell).1 hm
  rw [Node.fault?, if_neg (not_not_intro hstate), if_pos hrest]

theorem Contents.exists_fault? (h : d.Contents root) (ht : d.Tables t a)
    (hcell : Says d.formalism cell m) (hm : ¬m.Declared t a) (hmem : cell ∈ root.cells) :
    ∃ l, root.fault? d.formalism cell = some (m.faultPath t, l) ∧
    (m.faultPath t, l) ∈ root.places := by
  obtain ⟨hrow, hentry⟩ := Node.mem_cells_iff.1 hmem
  have hnames : t.names.toList = root.textsUnder ["states"] := ht.states.trans h.states
  rw [Node.fault?, Move.faultPath, hnames, hcell.state]
  by_cases hstate : cell.1.key ∈ root.textsUnder ["states"]
  · have hrest := fun hrest => hm ((h.declared_iff ht hcell).2 ⟨hstate, hrest⟩)
    rw [if_neg (not_not_intro hstate), if_neg hrest, if_pos hstate, hcell.path]
    exact ⟨_, rfl, Node.mem_places_iff.2 ⟨cell.1, hrow, .inr ⟨cell.2, hentry, rfl⟩⟩⟩
  · rw [if_pos hstate, if_neg hstate]
    exact ⟨_, rfl, Node.mem_places_iff.2 ⟨cell.1, hrow, .inl rfl⟩⟩

theorem Contents.exists_culprit? (h : d.Contents root) (ht : d.Tables t a)
    (he : Undeclared t a d.moves e) :
    ∃ path l, root.culprit? d.formalism = some (path, l) ∧ (path, l) ∈ root.places ∧
    e.IsAt path := by
  obtain ⟨before, m, after, hmoves, hbefore, hm, he⟩ := he
  obtain ⟨cells, cell, rest, hcells, hfirst, hcell⟩ := h.exists_cells hmoves
  have hmem : cell ∈ root.cells := hcells ▸ List.mem_append_right _ List.mem_cons_self
  obtain ⟨l, hfault, hplace⟩ := h.exists_fault? ht hcell hm hmem
  refine ⟨m.faultPath t, l, ?_, hplace, he⟩
  have hnone : ∀ c ∈ cells, root.fault? d.formalism c = none := fun c hc => by
    obtain ⟨x, hmem, hx⟩ := exists_of_forall₂_of_mem hfirst.flip hc
    exact h.fault?_of_declared ht hx (hbefore x hmem)
  rw [Node.culprit?, hcells, List.findSome?_append, List.findSome?_eq_none_iff.2 hnone,
    Option.none_or, List.findSome?_cons, hfault]

theorem ReadFrom.find?_places (h : d.ReadFrom root f) {path : String} {l : Location}
    (hpath : (path, l) ∈ root.places) :
    f.places.find? path = root.places.lookup path := by
  obtain ⟨⟨schema, hschema, hof⟩, hdelta⟩ := h.exists_of
  have hplaces : deltaPlaces (f.optional? "delta") = root.places := by
    rw [deltaPlaces_eq, ← hdelta, Node.places, Node.rows]
  have hkeys : ∀ schema ∈ [Schema.finiteAutomaton, Schema.turingMachine], ∀ key ∈ schema.keys,
    ¬"delta.".toList <+: key.toList := by decide
  have hknown : path ∈ f.places.map Prod.fst := by
    rw [Fields.places, hplaces, List.map_append]
    exact List.mem_append_right _ (List.mem_map_of_mem hpath)
  rw [Places.find?_eq_lookup hknown, Fields.places, hplaces, List.lookup_append]
  -- No path into the transitions is a key of the document itself.
  refine Option.or_eq_right_of_none (List.lookup_eq_none_iff.2 (List.forall_mem_map.2 fun p hp =>
    bne_iff_ne.2 ?_))
  rintro rfl
  rw [hof.entries] at hp
  obtain ⟨e, he, rfl⟩ := List.mem_map.1 hp
  exact hkeys schema hschema _ (hof.known e he) (Node.prefix_of_mem_places hpath)

theorem Contents.culprit?_of_declared (h : d.Contents root) (ht : d.Tables t a)
    (hm : ∀ m ∈ d.moves, m.Declared t a) :
    root.culprit? d.formalism = none := by
  refine List.findSome?_eq_none_iff.2 fun cell hcell => ?_
  obtain ⟨m, hmem, hsays⟩ := h.exists_move hcell
  exact h.fault?_of_declared ht hsays (hm m hmem)

theorem ReadFrom.formalism_ne_cfg (h : d.ReadFrom root f) : d.formalism ≠ .cfg := by
  cases h <;> exact nofun

theorem ReadFrom.build_cases (h : d.ReadFrom root f) (hroot : root.KeysDistinct)
    (hhead : ∃ s x, d.withoutMoves.build s = .ok x) (s : Settings) :
    (∃ e path l, d.build s = .error e ∧ root.culprit? d.formalism = some (path, l) ∧
      (path, l) ∈ root.places ∧
      e.IsAt path) ∨
    (root.culprit? d.formalism = none ∧ ∃ x,
      d.build { s with requireTotalDelta := false } = .ok x) := by
  have hverdict := d.verdict h.formalism_ne_cfg s
  have hcontents := h.contents
  generalize hbuild : d.build s = outcome at hverdict
  cases hverdict with
  | head _ _ hrest =>
    obtain ⟨s, x, hx⟩ := hhead
    exact absurd hx (hrest s x)
  | undeclared ht he =>
    obtain ⟨path, l, hculprit, hplace, he⟩ := hcontents.exists_culprit? ht he
    exact .inl ⟨_, path, l, rfl, hculprit, hplace, he⟩
  | repeated hd he => exact absurd he (hcontents.not_repeated (h.keyedRows hroot) hd)
  | notTotal _ _ ht hm hpartial => exact .inr ⟨hcontents.culprit?_of_declared ht hm, hpartial⟩
  | built ht hm => exact .inr ⟨hcontents.culprit?_of_declared ht hm, exists_build_partial hbuild⟩

end Description

namespace Automaton

variable {d : Description} {root : Node} {f : Fields} {text : String} {s : Settings}

/-- A definition with a good head that cannot be built, even if transitions may be missing, is
refused for its culprit. The error has the key path of the culprit and the place of the first key
with that path, which is the culprit's own where key paths are clear. -/
theorem ofText_eq_error_of_culprit (hroot : Node.ofText text = .ok root) (hd : d.ReadFrom root f)
    (hhead : ∃ s x, d.withoutMoves.build s = .ok x)
    (hfail : ∀ x, d.build { s with requireTotalDelta := false } ≠ .ok x) :
    ∃ e path l, ofText d.formalism text s = .error e ∧ root.culprit? d.formalism = some (path, l) ∧
      e.field? = some path ∧ e.location? = root.places.lookup path ∧
      (root.ClearPaths → e.location? = some l) := by
  have hkeys := Node.keysDistinct_of_ofText hroot
  rcases hd.build_cases hkeys hhead s with ⟨e, path, l, hbuild, hculprit, hplace, he⟩ | ⟨-, x, hx⟩
  · have hfound : f.places.locate e = { e with location? := root.places.lookup path } := by
      rw [Places.locate_of_isAt he, hd.find?_places hplace]
    refine ⟨f.places.locate e, path, l, ?_, hculprit, ?_, ?_, fun hclear => ?_⟩
    · rw [hd.ofText_eq hroot, hbuild]
      rfl
    · rw [hfound]
      exact he.1
    · rw [hfound]
    · rw [hfound, hclear.lookup_places (hd.keyedRows hkeys) hplace]
  · exact absurd hx (hfail x)

def astray (state : String) : Dfa.Definition :=
  { states := ["q", state]
    inputAlphabet := ['a']
    startState := "q"
    acceptStates := []
    delta := [(state, 'a', "q"), ("q", 'a', "z")] }

def astrayText (state : String) : String :=
  "states: [q, " ++ state ++ "]\ninput_alphabet: a\nstart_state: q\ndelta:\n  " ++ state ++
    ": \x7ba: q\x7d\n  q: \x7ba: z\x7d\n"

def astrayTree (state : String) : Node :=
  .mapping ⟨1, 1⟩ [
    .mk "states" ⟨1, 1⟩ (.list ⟨1, 9⟩ [.scalar ⟨1, 10⟩ "q", .scalar ⟨1, 13⟩ state]),
    .mk "input_alphabet" ⟨2, 1⟩ (.scalar ⟨2, 17⟩ "a"),
    .mk "start_state" ⟨3, 1⟩ (.scalar ⟨3, 14⟩ "q"),
    .mk "delta" ⟨4, 1⟩ (.mapping ⟨5, 3⟩ [
      .mk state ⟨5, 3⟩ (.mapping ⟨5, 5 + state.length⟩ [
        .mk "a" ⟨5, 6 + state.length⟩ (.scalar ⟨5, 9 + state.length⟩ "q")]),
      .mk "q" ⟨6, 3⟩ (.mapping ⟨6, 6⟩ [.mk "a" ⟨6, 7⟩ (.scalar ⟨6, 10⟩ "z")])])]

def astrayFields (state : String) : Fields :=
  ⟨astrayTree state, (astrayTree state).entries.map fun e => (e.key, e)⟩

theorem ofText_astray_p : ∃ e, ofText .dfa (astrayText "p") .default = .error e ∧
    e.field? = some "delta.q.a" ∧
    (astrayTree "p").culprit? .dfa = some ("delta.q.a", ⟨6, 7⟩) ∧ e.location? = some ⟨6, 7⟩ := by
  have hroot : Node.ofText (astrayText "p") = .ok (astrayTree "p") := by decide +kernel
  have hd : (Description.dfa (astray "p")).ReadFrom (astrayTree "p") (astrayFields "p") :=
    .dfa rfl (by decide +kernel)
  obtain ⟨x, hx, -⟩ : ∃ x, (Description.dfa (astray "p")).withoutMoves.build .default = .ok x ∧
      true = true :=
    exists_eq_ok_of_any (by decide +kernel)
  have hfail : (Description.dfa (astray "p")).build .default =
      .error (.inField "delta.q.a" (.undeclaredState "z")) := by
    decide +kernel
  have hclear : (astrayTree "p").ClearPaths := ⟨by decide, by decide⟩
  have hculprit : (astrayTree "p").culprit? .dfa = some ("delta.q.a", ⟨6, 7⟩) := by decide
  obtain ⟨e, path, l, he, hfound, hfield, -, hlocation⟩ :=
    ofText_eq_error_of_culprit hroot hd ⟨_, x, hx⟩
    fun _ h => by cases hfail.symm.trans h
  cases hculprit.symm.trans hfound
  exact ⟨e, he, hfield, hculprit, hlocation hclear⟩

/-- A state whose name goes on like the key path of a transition takes the blame for it. -/
theorem exists_ofText_misplaced : ∃ root f d path l e, Node.ofText (astrayText "q.a") = .ok root ∧
    (Description.dfa d).ReadFrom root f ∧
    (∃ s x, (Description.dfa d).withoutMoves.build s = .ok x) ∧
    (∀ x, (Description.dfa d).build .default ≠ .ok x) ∧ root.culprit? .dfa = some (path, l) ∧
      ofText .dfa (astrayText "q.a") .default = .error e ∧ e.location? ≠ some l := by
  obtain ⟨x, hx, -⟩ : ∃ x, (Description.dfa (astray "q.a")).withoutMoves.build .default = .ok x ∧
      true = true :=
    exists_eq_ok_of_any (by decide +kernel)
  have hfail : (Description.dfa (astray "q.a")).build .default =
      .error (.inField "delta.q.a" (.undeclaredState "z")) := by
    decide +kernel
  exact ⟨astrayTree "q.a", astrayFields "q.a", astray "q.a", "delta.q.a", ⟨6, 7⟩,
    ⟨.undeclaredState "z", some "delta.q.a", some ⟨5, 3⟩⟩, by decide +kernel,
    .dfa rfl (by decide +kernel), ⟨_, x, hx⟩,
    (fun _ h => by cases hfail.symm.trans h), by decide, by decide +kernel, by decide⟩

end Automaton

end Acceptors
