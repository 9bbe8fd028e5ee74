import Mathlib.Tactic.Common
import Acceptors.Proofs.Outcome
import Acceptors.Proofs.Source.Document
import Acceptors.Source.Fields

/-! Reading the documents of definitions. What is read from a node depends on its content alone, and
what was written is found again. -/

namespace Acceptors

variable {m n : Node} {text : String} {texts : List String} {items : List Node} {cs : List Char}
  {entries : List (String × Node)} {field key : String} {c : Char}

namespace Node

theorem asScalar_of_bare (h : m.bare = (scalar .start text).bare) (field : String) :
    m.asScalar field = .ok text := by
  obtain ⟨l, rfl⟩ := bare_eq_scalar_iff.1 h
  rfl

theorem asList_of_bare (h : m.bare = (list .start items).bare) (field : String) :
    ∃ found, m.asList field = .ok found ∧ found.map bare = items.map bare := by
  rw [bare_list] at h
  obtain ⟨l, found, rfl, hfound⟩ := bare_eq_list_iff.1 h
  exact ⟨found, rfl, hfound⟩

theorem asMapping_of_bare (h : m.bare = (ofEntries entries).bare) (field : String) :
    ∃ found, m.asMapping field = .ok found ∧
      found.map (fun e => (e.key, e.value.bare)) = entries.map fun e => (e.1, e.2.bare) := by
  rw [ofEntries, bare_mapping, List.map_map] at h
  obtain ⟨l, found, rfl, hfound⟩ := bare_eq_mapping_iff.1 h
  refine ⟨found, rfl, ?_⟩
  have hpairs := congrArg (List.map fun e : Entry => (e.key, e.value)) hfound
  rw [List.map_map, List.map_map] at hpairs
  exact hpairs

theorem isNull_of_bare (h : m.bare = (ofEntries entries).bare) : m.isNull = false := by
  rw [ofEntries, bare_mapping] at h
  obtain ⟨l, found, rfl, -⟩ := bare_eq_mapping_iff.1 h
  rfl

end Node

namespace Source

theorem symbolOfText_toString (c : Char) (field : String) :
    symbolOfText c.toString field = .ok c := by
  rw [symbolOfText, Char.toString, String.toList_singleton]

theorem keySymbol_eq_ok {e : Entry} (h : e.key = c.toString) (field : String) :
    keySymbol field e = .ok c := by
  rw [keySymbol, h, symbolOfText_toString]
  rfl

theorem names_of_bare (h : m.bare = (Node.ofTexts texts).bare) (field : String) :
    Source.names field m = .ok texts := by
  obtain ⟨found, hfound, hitems⟩ := Node.asList_of_bare h field
  rw [List.map_map] at hitems
  have hread : found.mapM (fun item => item.asScalar field) = .ok (texts.map id) :=
    mapM_eq_ok_of_map_eq (fun x text _ hx => Node.asScalar_of_bare hx field) hitems
  rw [Source.names, hfound, ← List.map_id texts]
  exact hread

theorem symbol_of_bare (h : m.bare = (Node.scalar .start c.toString).bare) (field : String) :
    symbol field m = .ok c :=
  bind_eq_ok_iff.2 ⟨_, Node.asScalar_of_bare h field,
    mapError_eq_ok_iff.2 (symbolOfText_toString c field)⟩

theorem symbols_of_bare (h : m.bare = (Description.ofSymbols cs).bare) (field : String) :
    Source.symbols field m = .ok cs := by
  obtain ⟨found, hfound, hitems⟩ := Node.asList_of_bare h field
  rw [List.map_map, List.map_map] at hitems
  have hread : found.mapM (symbol field) = .ok (cs.map id) :=
    mapM_eq_ok_of_map_eq (fun x c _ hx => symbol_of_bare hx field) hitems
  rw [Source.symbols, hfound, ← List.map_id cs]
  exact hread

theorem delta_of_bare {κ ν : Type} {rows : Rows κ ν} {keyOf : κ → String} {value : ν → Node}
    {read : String → String → Entry → Except ParseError (String × κ × ν)}
    (hread : ∀ move ∈ rows.moves, ∀ field e, e.key = keyOf move.2.1 →
      e.value.bare = (value move.2.2).bare → read move.1 field e = .ok move)
    (h : m.bare = (rows.node keyOf value).bare) : delta read (some m) = .ok rows.moves := by
  obtain ⟨found, hfound, hrows⟩ := Node.asMapping_of_bare h "delta"
  rw [List.map_map] at hrows
  refine bind_eq_ok_iff.2 ⟨found, hfound, bind_eq_ok_iff.2 ⟨_, ?_, rfl⟩⟩
  refine mapM_eq_ok_of_map_eq (fun state row hrow heq => ?_) hrows
  obtain ⟨hstate, hvalue⟩ := Prod.mk.inj heq
  obtain ⟨moves, hmoves, hpairs⟩ := Node.asMapping_of_bare hvalue (Declaration.stateField state.key)
  rw [List.map_map] at hpairs
  rw [if_neg (by rw [Node.isNull_of_bare hvalue]; exact Bool.false_ne_true)]
  refine bind_eq_ok_iff.2 ⟨moves, hmoves, mapM_eq_ok_of_map_eq (fun e move hmove he => ?_) hpairs⟩
  obtain ⟨hkey, hvalue⟩ := Prod.mk.inj he
  have hmem : (row.1, move) ∈ rows.moves :=
    List.mem_flatMap.2 ⟨row, hrow, List.mem_map_of_mem hmove⟩
  exact hstate ▸ hread (row.1, move) hmem _ e hkey hvalue

namespace Fields

variable {f : Fields} {schema : Schema}

def Holds (f : Fields) (key : String) (n : Node) : Prop :=
  ∃ m, f.optional? key = some m ∧ m.bare = n.bare

theorem collect_eq_ok {found : List (String × Entry)} {es : List Entry}
    (hkeys : ∀ e ∈ es, e.key ∈ schema.keys ∧ schema.aliases.lookup e.key = none)
    (hnodup : (es.map Entry.key).Nodup) (hnew : ∀ e ∈ es, found.lookup e.key = none) :
    collect schema found es = .ok (found.reverse ++ es.map fun e => (e.key, e)) := by
  induction es generalizing found with
  | nil => rw [collect, List.map_nil, List.append_nil]
  | cons e es ih =>
    obtain ⟨⟨hkey, halias⟩, hkeys⟩ := List.forall_mem_cons.1 hkeys
    obtain ⟨hfirst, hnodup⟩ := List.nodup_cons.1 hnodup
    obtain ⟨hfree, hnew⟩ := List.forall_mem_cons.1 hnew
    have hnew' : ∀ e' ∈ es, ((e.key, e) :: found).lookup e'.key = none := by
      intro e' he'
      have hne : e'.key ≠ e.key := fun h => hfirst (h ▸ List.mem_map_of_mem he')
      rw [List.lookup_cons, beq_false_of_ne hne]
      exact hnew e' he'
    have hnone : ¬(found.lookup e.key).isSome = true := by
      rw [hfree]
      exact Bool.false_ne_true
    rw [collect]
    simp only [halias, Option.getD_none]
    rw [if_neg (not_not_intro hkey), if_neg hnone, ih hkeys hnodup hnew', List.reverse_cons,
      List.append_assoc]
    rfl

theorem lookup_of_mem {es : List Entry} {e : Entry} (hnodup : (es.map Entry.key).Nodup)
    (he : e ∈ es) :
    (es.map fun e => (e.key, e)).lookup e.key = some e := by
  obtain ⟨before, after, rfl⟩ := List.append_of_mem he
  refine List.lookup_eq_some_iff.2 ⟨before.map fun e => (e.key, e),
    after.map fun e => (e.key, e), ?_, ?_⟩
  · rw [List.map_append, List.map_cons]
  · intro p hp
    obtain ⟨e', he', rfl⟩ := List.mem_map.1 hp
    rw [List.map_append, List.map_cons, List.nodup_append] at hnodup
    have hne := hnodup.2.2 e'.key (List.mem_map_of_mem he') e.key List.mem_cons_self
    exact bne_iff_ne.2 hne.symm

theorem ofRoot_of_bare (hkeys : ∀ e ∈ entries, e.1 ∈ schema.keys ∧ schema.aliases.lookup e.1 = none)
    (hnodup : (entries.map Prod.fst).Nodup) (h : m.bare = (Node.ofEntries entries).bare) :
    ∃ f, ofRoot schema m = .ok f ∧ ∀ e ∈ entries, f.Holds e.1 e.2 := by
  obtain ⟨es, hes, hpairs⟩ := Node.asMapping_of_bare h "document"
  have hkey : es.map Entry.key = entries.map Prod.fst := by
    have := congrArg (List.map Prod.fst) hpairs
    rwa [List.map_map, List.map_map] at this
  have hkeys' : ∀ e ∈ es, e.key ∈ schema.keys ∧ schema.aliases.lookup e.key = none := by
    intro e he
    obtain ⟨e', he', heq⟩ := List.mem_map.1 (hkey ▸ List.mem_map_of_mem he)
    exact heq ▸ hkeys e' he'
  have hnew : ∀ e ∈ es, ([] : List (String × Entry)).lookup e.key = none := fun _ _ => rfl
  have hcollect := collect_eq_ok hkeys' (hkey ▸ hnodup) hnew
  refine ⟨_, bind_eq_ok_iff.2 ⟨es, hes, bind_eq_ok_iff.2 ⟨_, hcollect, rfl⟩⟩, fun e he => ?_⟩
  have hpair : (e.1, e.2.bare) ∈ es.map fun e => (e.key, e.value.bare) := by
    rw [hpairs]
    exact List.mem_map.2 ⟨e, he, rfl⟩
  obtain ⟨e', he', heq⟩ := List.mem_map.1 hpair
  obtain ⟨hkey', hvalue⟩ := Prod.mk.inj heq
  refine ⟨e'.value, ?_, hvalue⟩
  rw [optional?, ← hkey']
  exact congrArg (Option.map Entry.value) (lookup_of_mem (hkey ▸ hnodup) he')

theorem Holds.required (h : f.Holds key n) : ∃ m, f.required key = .ok m ∧ m.bare = n.bare := by
  obtain ⟨m, hm, hbare⟩ := h
  exact ⟨m, by rw [Fields.required, hm], hbare⟩

theorem Holds.scalar (h : f.Holds key (.scalar .start text)) : f.scalar key = .ok text := by
  obtain ⟨m, hm, hbare⟩ := h.required
  exact bind_eq_ok_iff.2 ⟨m, hm, Node.asScalar_of_bare hbare key⟩

theorem Holds.names (h : f.Holds key (.ofTexts texts)) : f.names key = .ok texts := by
  obtain ⟨m, hm, hbare⟩ := h.required
  exact bind_eq_ok_iff.2 ⟨m, hm, names_of_bare hbare key⟩

theorem Holds.symbols (h : f.Holds key (Description.ofSymbols cs)) : f.symbols key = .ok cs := by
  obtain ⟨m, hm, hbare⟩ := h.required
  exact bind_eq_ok_iff.2 ⟨m, hm, symbols_of_bare hbare key⟩

theorem Holds.optionalNames (h : f.Holds key (.ofTexts texts)) :
    f.optionalNames key = .ok texts := by
  obtain ⟨m, hm, hbare⟩ := h
  rw [Fields.optionalNames, hm]
  exact names_of_bare hbare key

theorem Holds.optionalSymbols (h : f.Holds key (Description.ofSymbols cs)) :
    f.optionalSymbols key = .ok cs := by
  obtain ⟨m, hm, hbare⟩ := h
  rw [Fields.optionalSymbols, hm]
  exact symbols_of_bare hbare key

theorem Holds.delta {κ ν : Type} {rows : Rows κ ν} {keyOf : κ → String} {value : ν → Node}
    {read : String → String → Entry → Except ParseError (String × κ × ν)}
    (hread : ∀ move ∈ rows.moves, ∀ field e, e.key = keyOf move.2.1 →
      e.value.bare = (value move.2.2).bare → read move.1 field e = .ok move)
    (h : f.Holds key (rows.node keyOf value)) : delta read (f.optional? key) = .ok rows.moves := by
  obtain ⟨m, hm, hbare⟩ := h
  rw [hm]
  exact delta_of_bare hread hbare

end Fields

end Source

end Acceptors
