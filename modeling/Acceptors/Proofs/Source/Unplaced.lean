import Acceptors.Proofs.Regex.Located
import Acceptors.Proofs.Source.Culprit

/-! Failures without a place. Nearly everything that is wrong with a document is said of a place in
it, since the key path of each error leads there or to what encloses it. There are two kinds of
failure for which it does not: transitions are missing from a document that has no transitions at
all, and a name that is taken is bound to nothing. -/

namespace Acceptors

open Declaration (stateField)
open Source

/-! ### Grammars -/

namespace Grammar

variable {e : ParseError}

def Concerns (names : List String) (e : ParseError) : Prop :=
  e.field? = none ∨ ∃ name ∈ names, e.IsAt name

theorem Concerns.mono {names names' : List String} (h : Concerns names e) (hsub : names ⊆ names') :
    Concerns names' e :=
  h.imp_right fun ⟨name, hname, he⟩ => ⟨name, hsub hname, he⟩

namespace Definition

theorem concerns_of_checkNames {seen names : List String} (h : checkNames seen names = .error e) :
    Concerns names e := by
  induction names generalizing seen with
  | nil => cases h
  | cons name names ih =>
    rw [checkNames] at h
    split at h
    · cases h
      exact .inl rfl
    · split at h
      · cases h
        exact .inr ⟨name, List.mem_cons_self, .inField _ _⟩
      · exact (ih h).mono (List.subset_cons_self name names)

theorem concerns_of_productionsOf {names : List (List Char)} {head : Nat}
    {rules : List (String × List String)} (h : productionsOf names head rules = .error e) :
    Concerns (rules.map Prod.fst) e := by
  induction rules generalizing head with
  | nil => cases h
  | cons rule rules ih =>
    rw [productionsOf] at h
    split at h
    · cases h
      exact .inr ⟨_, List.mem_cons_self, .inField _ _⟩
    · rcases bind_eq_error_iff.1 h with h | ⟨_, -, h⟩
      · exact (ih h).mono (List.subset_cons_self _ _)
      · cases h

theorem concerns_of_build {d : Definition} (h : d.build = .error e) : Concerns d.names e := by
  rw [build] at h
  split at h
  · cases h
    exact .inl rfl
  · rcases bind_eq_error_iff.1 h with h | ⟨_, -, h⟩
    · exact concerns_of_checkNames h
    · rcases bind_eq_error_iff.1 h with h | ⟨_, -, h⟩
      · exact concerns_of_productionsOf h
      · cases h

theorem located_readEntry (entry : Entry) : Located (readEntry entry) :=
  (located_names entry.key entry.value).bind fun _ _ => .ok _

theorem keys_of_mapM_readEntry {entries : List Entry} {rules : List (String × List String)}
    (h : entries.mapM readEntry = .ok rules) : entries.map Entry.key = rules.map Prod.fst := by
  refine List.forall₂_eq_eq_eq.symm ▸ List.forall₂_map_left_iff.2 (List.forall₂_map_right_iff.2 ?_)
  refine (mapM_eq_ok_iff.1 h).imp fun entry rule hrule => ?_
  obtain ⟨_, -, hrule⟩ := bind_eq_ok_iff.1 hrule
  cases hrule
  rfl

end Definition

theorem isSome_locate {root : Node} {entries : List Entry}
    (h : Concerns (entries.map Entry.key) e) :
    (locate root entries e).location?.isSome := by
  rw [locate]
  rcases h with h | ⟨name, hname, he⟩
  · rw [h]
    rfl
  · rw [he.1]
    dsimp only
    rw [Places.locate_of_isAt he]
    refine Places.isSome_find?_iff.2 ?_
    obtain ⟨entry, hentry, rfl⟩ := List.mem_map.1 hname
    exact ⟨_, List.mem_map_of_mem hentry, encloses_iff.2 (.inl rfl)⟩

theorem located_ofText {text : String} (hsize : text.utf8ByteSize ≤ maxSourceBytes)
    (treeDepth chartCells : Nat) :
    Located (ofText text treeDepth chartCells) := by
  refine (Node.located_ofText hsize).bind fun root _ =>
    (root.located_asMapping "document").bind fun entries _ =>
    (Located.mapM fun entry _ => Definition.located_readEntry entry).bind fun rules hrules =>
      (Located.mapError fun e he => ?_).bind fun _ _ => .ok _
  refine isSome_locate ?_
  rw [Definition.keys_of_mapM_readEntry hrules]
  exact Definition.concerns_of_build he

end Grammar

/-! ### Automata given by transitions -/

namespace Source.Fields

variable {f : Fields} {key : String}

theorem mem_keys_iff : key ∈ f.entries.map Prod.fst ↔ (f.optional? key).isSome := by
  rw [optional?, Option.isSome_map, List.lookup_isSome_iff, List.mem_map]
  exact exists_congr fun p => and_congr_right fun _ => eq_comm.trans beq_iff_eq.symm

theorem isSome_of_required {α : Type} {k : Node → Except ParseError α} {x : α}
    (h : f.required key >>= k = .ok x) :
    (f.optional? key).isSome := by
  obtain ⟨n, hn, -⟩ := bind_eq_ok_iff.1 h
  exact Option.isSome_iff_exists.2 ⟨n, required_eq_ok hn⟩

theorem isSome_of_texts (h : f.texts key ≠ []) : (f.optional? key).isSome := by
  refine Option.isSome_iff_ne_none.2 fun hnone => h ?_
  rw [texts, hnone, Option.toList_none, List.flatMap_nil]

theorem isSome_find? (h : (f.optional? key).isSome) : (f.places.find? key).isSome := by
  obtain ⟨p, hp, rfl⟩ := List.mem_map.1 (mem_keys_iff.2 h)
  exact Places.isSome_find?_iff.2
    ⟨_, List.mem_append_left _ (List.mem_map_of_mem hp), encloses_iff.2 (.inl rfl)⟩

/-- Of the keys of documents only that of the transitions is one from which the key paths of rows go
on. -/
theorem eq_delta_of_encloses {schema : Schema}
    (hschema : schema ∈ [Schema.finiteAutomaton, Schema.turingMachine]) {state : String}
    (hkey : key ∈ schema.keys) (h : encloses key.toList (stateField state).toList = true) :
    key = "delta" := by
  have hkeys : ∀ schema ∈ [Schema.finiteAutomaton, Schema.turingMachine], ∀ key ∈ schema.keys,
    key.toList.take 1 <+: ['d'] → key = "delta" := by decide
  refine hkeys schema hschema key hkey ?_
  have hprefix : key.toList <+: (stateField state).toList := by
    rcases encloses_iff.1 h with h | h
    · exact h ▸ List.prefix_refl _
    · exact (List.prefix_append _ _).trans h
  have hfirst : ['d'] <+: (stateField state).toList := by
    rw [toList_stateField]
    exact List.prefix_append _ _
  exact List.prefix_of_prefix_length_le ((List.take_prefix 1 _).trans hprefix) hfirst
    (List.length_take_le 1 _)

end Source.Fields

namespace Description

variable {d : Description} {root : Node} {f : Fields} {s : Settings} {e : ParseError}
    {x : Automaton}

theorem isSome_of_mem_finiteKeys {states acceptStates : List String} {inputAlphabet : List Char}
    {startState key : String} (hstates : f.names "states" = .ok states)
    (hinput : f.symbols "input_alphabet" = .ok inputAlphabet)
    (hstart : f.scalar "start_state" = .ok startState)
    (haccept : f.optionalNames "accept_states" = .ok acceptStates)
    (hkey : key ∈ Declaration.finiteKeys acceptStates) :
    (f.optional? key).isSome := by
  rcases List.mem_append.1 hkey with hkey | hkey
  · simp only [List.mem_cons, List.not_mem_nil, or_false] at hkey
    rcases hkey with rfl | rfl | rfl
    · exact Fields.isSome_of_required hstates
    · exact Fields.isSome_of_required hinput
    · exact Fields.isSome_of_required hstart
  · split at hkey
    · cases hkey
    · rename_i hne
      rw [List.mem_singleton.1 hkey]
      exact Fields.isSome_of_texts (Fields.texts_of_optionalNames haccept ▸ hne)

theorem ReadFrom.isSome_of_mem_headKeys (h : d.ReadFrom root f) {key : String}
    (hkey : key ∈ d.headKeys) :
    (f.optional? key).isSome := by
  cases h with
  | dfa hf hd | nfa hf hd =>
    obtain ⟨_, -, hd⟩ := bind_eq_ok_iff.1 hd
    obtain ⟨_, hstates, hd⟩ := bind_eq_ok_iff.1 hd
    obtain ⟨_, hinput, hd⟩ := bind_eq_ok_iff.1 hd
    obtain ⟨_, hstart, hd⟩ := bind_eq_ok_iff.1 hd
    obtain ⟨_, haccept, hd⟩ := bind_eq_ok_iff.1 hd
    cases hd
    exact isSome_of_mem_finiteKeys hstates hinput hstart haccept hkey
  | tm hf hd =>
    obtain ⟨_, -, hd⟩ := bind_eq_ok_iff.1 hd
    obtain ⟨_, hstates, hd⟩ := bind_eq_ok_iff.1 hd
    obtain ⟨_, hinput, hd⟩ := bind_eq_ok_iff.1 hd
    obtain ⟨_, hextra, hd⟩ := bind_eq_ok_iff.1 hd
    obtain ⟨_, hstart, hd⟩ := bind_eq_ok_iff.1 hd
    obtain ⟨_, haccept, hd⟩ := bind_eq_ok_iff.1 hd
    obtain ⟨_, hreject, hd⟩ := bind_eq_ok_iff.1 hd
    cases hd
    rcases List.mem_append.1 hkey with hkey | hkey
    · simp only [List.mem_cons, List.not_mem_nil, or_false] at hkey
      rcases hkey with rfl | rfl | rfl | rfl | rfl
      · exact Fields.isSome_of_required hstates
      · exact Fields.isSome_of_required hinput
      · exact Fields.isSome_of_required hstart
      · exact Fields.isSome_of_required haccept
      · exact Fields.isSome_of_required hreject
    · split at hkey
      · cases hkey
      · rename_i hne
        rw [List.mem_singleton.1 hkey]
        refine Fields.isSome_of_texts ?_
        rw [Fields.texts_of_optionalSymbols hextra]
        exact fun h => hne (List.map_eq_nil_iff.1 h)

theorem ReadFrom.isSome_find?_stateField_iff (h : d.ReadFrom root f) (state : String) :
    (f.places.find? (stateField state)).isSome ↔ root.under ["delta"] ≠ [] := by
  obtain ⟨⟨schema, hschema, hof⟩, hunder⟩ := h.exists_of
  have hdelta : root.under ["delta"] ≠ [] ↔ (f.optional? "delta").isSome := by
    rw [hunder]
    cases f.optional? "delta" <;> simp
  rw [hdelta, Places.isSome_find?_iff]
  constructor
  · rintro ⟨p, hp, hencloses⟩
    rcases List.mem_append.1 hp with hp | hp
    · obtain ⟨q, hq, rfl⟩ := List.mem_map.1 hp
      have hmem : q.1 ∈ f.entries.map Prod.fst := List.mem_map_of_mem hq
      rw [hof.entries] at hq
      obtain ⟨e, he, rfl⟩ := List.mem_map.1 hq
      rw [← Fields.eq_delta_of_encloses hschema (hof.known e he) hencloses]
      exact Fields.mem_keys_iff.1 hmem
    · refine Option.isSome_iff_ne_none.2 fun hnone => ?_
      rw [hnone] at hp
      cases hp
  · intro hsome
    obtain ⟨p, hp, hkey⟩ := List.mem_map.1 (Fields.mem_keys_iff.2 hsome)
    refine ⟨_, List.mem_append_left _ (List.mem_map_of_mem hp), encloses_iff.2 (.inr ?_)⟩
    rw [hkey, toList_stateField]
    exact List.prefix_append _ _

theorem exists_missingTransition (hbuilt : d.build { s with requireTotalDelta := false } = .ok x)
    (h : d.build s = .error e) : ∃ state c,
      e = .inField (stateField state) (.missingTransition c) := by
  cases d with
  | dfa d =>
    obtain ⟨a, ha, -⟩ := map_eq_ok_iff.1 hbuilt
    rw [Dfa.Definition.build_eq_bind] at ha
    obtain ⟨head, hhead, ha⟩ := bind_eq_ok_iff.1 ha
    obtain ⟨table, htable, -⟩ := bind_eq_ok_iff.1 ha
    have h := map_eq_error_iff.1 h
    rw [Dfa.Definition.build_eq_bind, bind_of_eq_ok hhead, bind_of_eq_ok htable] at h
    split at h
    · exact Dfa.Definition.checkTotal_eq_error h
    · cases h
  | _ => cases hbuilt.symm.trans h

/-- What is wrong with a definition is said of a place, unless a transition is missing where there
are none at all. -/
theorem ReadFrom.isSome_location?_or (h : d.ReadFrom root f) (hroot : root.KeysDistinct)
    (hbuild : d.build s = .error e) : (f.places.locate e).location?.isSome ∨
      d.formalism = .dfa ∧ s.requireTotalDelta = true ∧ root.under ["delta"] = [] ∧
        ∃ x, d.build { s with requireTotalDelta := false } = .ok x := by
  have hverdict := d.verdict h.formalism_ne_cfg s
  rw [hbuild] at hverdict
  cases hverdict with
  | head hkey he _ =>
    rw [Places.locate_of_isAt he]
    exact .inl (Fields.isSome_find? (h.isSome_of_mem_headKeys hkey))
  | undeclared ht he =>
    obtain ⟨path, l, -, hplace, he⟩ := h.contents.exists_culprit? ht he
    rw [Places.locate_of_isAt he, h.find?_places hplace]
    exact .inl (List.lookup_isSome_iff.2 ⟨_, hplace, beq_self_eq_true path⟩)
  | repeated hd he => exact absurd he (h.contents.not_repeated (h.keyedRows hroot) hd)
  | notTotal hdfa hs _ _ hpartial =>
    rw [Places.locate_of_isAt (.inField _ _)]
    -- The state may have no row, but the key of the transitions encloses the paths of all rows.
    by_cases hunder : root.under ["delta"] = []
    · exact .inr ⟨hdfa, hs, hunder, hpartial⟩
    · exact .inl ((h.isSome_find?_stateField_iff _).2 hunder)

end Description

inductive Unplaced (text : String) (s : Settings) : Formalism → Prop
  | noTransitions {root : Node} {a : Automaton} (hroot : Node.ofText text = .ok root)
    (hdelta : root.under ["delta"] = []) (htotal : s.requireTotalDelta = true)
    (hbuilt : Automaton.ofText .dfa text { s with requireTotalDelta := false } = .ok a) :
    Unplaced text s .dfa
  | repeatedName {d : Regex.Definition}
      (hd : Regex.Definition.collect [] none (Regex.SourceLine.ofText text) = .ok d)
      (hrepeats : d.RepeatsWithoutText) : Unplaced text s .regex

namespace Automaton

variable {text : String} {s : Settings} {g : Formalism} {e : ParseError}

theorem location?_eq_none_iff_of_regex (h : Regex.ofText text = .error e)
    (hsize : text.utf8ByteSize ≤ maxSourceBytes) :
    e.location? = none ↔ Unplaced text s .regex := by
  rw [Regex.ofText, bind_of_eq_ok (checkSize_eq_ok_iff.2 hsize)] at h
  rcases bind_eq_error_iff.1 h with h | ⟨d, hd, h⟩
  · refine iff_of_false ((Regex.Definition.located_collect _ _ _).location?_ne_none h)
      fun hunplaced => ?_
    cases hunplaced with
    | repeatedName hd _ => cases h.symm.trans hd
  · rw [Regex.Definition.location?_eq_none_iff_of_collect hd h]
    constructor
    · exact .repeatedName hd
    · intro hunplaced
      cases hunplaced with
      | repeatedName hd' hrepeats => exact Except.ok.inj (hd.symm.trans hd') ▸ hrepeats

theorem unplaced_of_transitions (hcfg : g ≠ .cfg) (hregex : g ≠ .regex)
    (h : ofText g text s = .error e) (hsize : text.utf8ByteSize ≤ maxSourceBytes)
    (he : e.location? = none) : Unplaced text s g := by
  rcases ofText_cases hcfg hregex text s with ⟨e', hroot, he'⟩ | ⟨root, hroot,
    ⟨e', he', hl⟩ | ⟨f, d, hd, rfl⟩⟩
  · cases h.symm.trans he'
    exact absurd he ((Node.located_ofText hsize).location?_ne_none hroot)
  · cases h.symm.trans he'
    exact absurd he (Option.isSome_iff_ne_none.1 hl)
  · rw [hd.ofText_eq hroot] at h
    obtain ⟨e', hbuild, rfl⟩ := mapError_eq_error_iff.1 h
    rcases hd.isSome_location?_or (Node.keysDistinct_of_ofText hroot) hbuild with
      hl | ⟨hdfa, hs, hdelta, x, hx⟩
    · exact absurd he (Option.isSome_iff_ne_none.1 hl)
    · have hbuilt := hd.ofText_eq hroot { s with requireTotalDelta := false }
      rw [hx, hdfa] at hbuilt
      exact hdfa ▸ .noTransitions hroot hdelta hs hbuilt

theorem location?_eq_none_of_transitions (hregex : g ≠ .regex) (h : ofText g text s = .error e)
    (hunplaced : Unplaced text s g) : e.location? = none := by
  cases hunplaced with
  | repeatedName _ _ => exact absurd rfl hregex
  | noTransitions hroot hdelta _ hbuilt =>
    -- What is in the document is read in the same way whether or not transitions may be missing.
    rcases ofText_cases (by decide) hregex text { s with requireTotalDelta := false } with
      ⟨e', hroot', -⟩ | ⟨root', hroot', ⟨e', he', -⟩ | ⟨f, d, hd, hdfa⟩⟩
    · cases hroot.symm.trans hroot'
    · cases hbuilt.symm.trans he'
    · cases hroot.symm.trans hroot'
      rw [← hdfa, hd.ofText_eq hroot] at h hbuilt
      obtain ⟨e', hbuild, rfl⟩ := mapError_eq_error_iff.1 h
      obtain ⟨state, c, rfl⟩ :=
        Description.exists_missingTransition (mapError_eq_ok_iff.1 hbuilt) hbuild
      rw [Places.locate_of_isAt (.inField _ _), ← Option.not_isSome_iff_eq_none]
      exact fun hsome => (hd.isSome_find?_stateField_iff state).1 hsome hdelta

/-- A failure has no place exactly if transitions are missing where there are none at all, or a name
is repeated for nothing. -/
theorem ofText_unplaced_iff (h : ofText g text s = .error e)
    (hsize : text.utf8ByteSize ≤ maxSourceBytes) :
    e.location? = none ↔ Unplaced text s g := by
  cases g with
  | cfg => exact iff_of_false ((Grammar.located_ofText hsize _ _).location?_ne_none
    (map_eq_error_iff.1 h)) nofun
  | regex => exact location?_eq_none_iff_of_regex (map_eq_error_iff.1 h) hsize
  | _ => exact ⟨unplaced_of_transitions (by decide) (by decide) h hsize,
    location?_eq_none_of_transitions (by decide) h⟩

def stillText : String := "states: q\ninput_alphabet: a\nstart_state: q\n"

theorem unplaced_stillText : stillText.utf8ByteSize ≤ maxSourceBytes ∧
    ofText .dfa stillText { Settings.default with requireTotalDelta := true } =
      .error (.inField "delta.q" (.missingTransition 'a')) ∧
      Unplaced stillText { Settings.default with requireTotalDelta := true } .dfa := by
  have hsize : stillText.utf8ByteSize ≤ maxSourceBytes := by decide +kernel
  have herror : ofText .dfa stillText { Settings.default with requireTotalDelta := true } =
      .error (.inField "delta.q" (.missingTransition 'a')) := by decide +kernel
  exact ⟨hsize, herror, (ofText_unplaced_iff herror hsize).1 rfl⟩

def rebindingText : String := "x = a\nx =\nx\n"

theorem exists_ofText_rebindingText_unplaced : rebindingText.utf8ByteSize ≤ maxSourceBytes ∧
    ∃ e, ofText .regex rebindingText .default = .error e ∧ e.location? = none :=
  ⟨by decide +kernel, .inField "x" (.duplicateBinding "x"), by decide +kernel, rfl⟩

end Automaton

end Acceptors
