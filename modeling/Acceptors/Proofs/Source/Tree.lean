import Mathlib.Data.List.Forall2
import Mathlib.Data.List.Nodup
import Mathlib.Tactic.Common
import Acceptors.Proofs.Outcome
import Acceptors.Source.Fields

/-! What stands in a tree: texts under the keys of a mapping, and transitions as entries in rows,
one row for each state. What is read from a document is what stands in its tree. -/

namespace Acceptors

namespace Node

def entries : Node → List Entry
  | mapping _ entries => entries
  | _ => []

def items : Node → List Node
  | scalar l text => [scalar l text]
  | list _ items => items
  | _ => []

def text? : Node → Option String
  | scalar _ text => some text
  | _ => none

def texts (n : Node) : List String := n.items.filterMap text?

def under (n : Node) (keys : List String) : List Node :=
  (n.entries.filter (·.key ∈ keys)).map Entry.value

def textsUnder (n : Node) (keys : List String) : List String := (n.under keys).flatMap texts

def rows (root : Node) : List Entry := (root.under ["delta"]).flatMap entries

def cells (root : Node) : List (Entry × Entry) := root.rows.flatMap fun row =>
      row.value.entries.map (row, ·)

variable {n : Node} {text field : String} {found : List Entry}

theorem asScalar_eq_ok_iff : n.asScalar field = .ok text ↔ n.text? = some text := by
  cases n with
  | scalar _ _ => exact ⟨fun h => congrArg some (Except.ok.inj h), fun h =>
    congrArg Except.ok (Option.some.inj h)⟩
  | _ => exact iff_of_false nofun nofun

theorem asList_eq_ok {found : List Node} (h : n.asList field = .ok found) : n.items = found := by
  cases n with
  | mapping _ _ => cases h
  | _ =>
    cases h
    rfl

theorem asMapping_eq_ok (h : n.asMapping field = .ok found) : n.entries = found := by
  cases n with
  | mapping _ _ =>
    cases h
    rfl
  | _ => cases h

theorem entries_of_isNull (h : n.isNull = true) : n.entries = [] := by
  cases n with
  | null _ => rfl
  | _ => cases h

end Node

namespace Source

variable {n : Node} {text field key : String} {found : List String} {cs : List Char}
    {c : Char} {e : Entry}

theorem texts_of_asScalar (h : n.asScalar field = .ok text) : n.texts = [text] := by
  cases n with
  | scalar _ _ =>
    cases h
    rfl
  | _ => cases h

theorem filterMap_text?_of_forall₂ {items : List Node}
    (h : List.Forall₂ (fun n text => n.text? = some text) items found) :
    items.filterMap Node.text? = found := by
  induction h with
  | nil => rfl
  | cons h _ ih => rw [List.filterMap_cons_some h, ih]

theorem texts_of_names (h : names field n = .ok found) : n.texts = found := by
  obtain ⟨items, hitems, h⟩ := bind_eq_ok_iff.1 h
  rw [Node.texts, Node.asList_eq_ok hitems]
  exact filterMap_text?_of_forall₂ ((mapM_eq_ok_iff.1 h).imp fun _ _ h =>
    Node.asScalar_eq_ok_iff.1 h)

theorem toString_of_symbolOfText (h : symbolOfText text field = .ok c) : c.toString = text := by
  rw [symbolOfText] at h
  cases htext : text.toList with
  | nil =>
    rw [htext] at h
    cases h
  | cons c' rest =>
    rw [htext] at h
    cases rest with
    | nil =>
      cases h
      rw [← String.toList_inj, htext, Char.toString, String.toList_singleton]
    | cons _ _ => cases h

theorem toString_of_keySymbol (h : keySymbol field e = .ok c) : c.toString = e.key :=
  toString_of_symbolOfText (mapError_eq_ok_iff.1 h)

theorem text?_of_symbol (h : symbol field n = .ok c) : n.text? = some c.toString := by
  obtain ⟨text, htext, h⟩ := bind_eq_ok_iff.1 h
  rw [toString_of_symbolOfText (mapError_eq_ok_iff.1 h)]
  exact Node.asScalar_eq_ok_iff.1 htext

theorem texts_of_symbols (h : symbols field n = .ok cs) : n.texts = cs.map Char.toString := by
  obtain ⟨items, hitems, h⟩ := bind_eq_ok_iff.1 h
  rw [Node.texts, Node.asList_eq_ok hitems]
  refine filterMap_text?_of_forall₂ (List.forall₂_map_right_iff.2 ?_)
  exact (mapM_eq_ok_iff.1 h).imp fun _ _ h => text?_of_symbol h

def Schema.canonical (schema : Schema) (key : String) : String :=
  (schema.aliases.lookup key).getD key

namespace Fields

variable {f : Fields} {schema : Schema} {root : Node} {keys : List String} {k : String}

def texts (f : Fields) (key : String) : List String := (f.optional? key).toList.flatMap Node.texts

theorem required_eq_ok (h : f.required key = .ok n) : f.optional? key = some n := by
  rw [required] at h
  split at h
  · rename_i hfound
    cases h
    exact hfound
  · cases h

theorem texts_of_optional? (h : f.optional? key = some n) : f.texts key = n.texts := by
  rw [texts, h, Option.toList_some, List.flatMap_singleton]

theorem texts_of_scalar (h : f.scalar key = .ok text) : f.texts key = [text] := by
  obtain ⟨n, hn, h⟩ := bind_eq_ok_iff.1 h
  exact (texts_of_optional? (required_eq_ok hn)).trans (texts_of_asScalar h)

theorem texts_of_names (h : f.names key = .ok found) : f.texts key = found := by
  obtain ⟨n, hn, h⟩ := bind_eq_ok_iff.1 h
  exact (texts_of_optional? (required_eq_ok hn)).trans (Source.texts_of_names h)

theorem texts_of_symbols (h : f.symbols key = .ok cs) : f.texts key = cs.map Char.toString := by
  obtain ⟨n, hn, h⟩ := bind_eq_ok_iff.1 h
  exact (texts_of_optional? (required_eq_ok hn)).trans (Source.texts_of_symbols h)

theorem texts_of_optionalNames (h : f.optionalNames key = .ok found) : f.texts key = found := by
  rw [optionalNames] at h
  split at h
  · rename_i hn
    exact (texts_of_optional? hn).trans (Source.texts_of_names h)
  · rename_i hn
    cases h
    rw [texts, hn, Option.toList_none, List.flatMap_nil]

theorem texts_of_optionalSymbols (h : f.optionalSymbols key = .ok cs) :
    f.texts key = cs.map Char.toString := by
  rw [optionalSymbols] at h
  split at h
  · rename_i hn
    exact (texts_of_optional? hn).trans (Source.texts_of_symbols h)
  · rename_i hn
    cases h
    rw [texts, hn, Option.toList_none, List.flatMap_nil, List.map_nil]

structure Of (schema : Schema) (root : Node) (f : Fields) : Prop where
  entries : f.entries = root.entries.map fun e => (schema.canonical e.key, e)
  nodup : (f.entries.map Prod.fst).Nodup
  known : ∀ e ∈ root.entries, schema.canonical e.key ∈ schema.keys

theorem of_collect {found all : List (String × Entry)} {es : List Entry}
    (h : collect schema found es = .ok all) (hfound : (found.map Prod.fst).Nodup) :
    all = found.reverse ++ es.map (fun e => (schema.canonical e.key, e)) ∧
    (all.map Prod.fst).Nodup ∧
      ∀ e ∈ es, schema.canonical e.key ∈ schema.keys := by
  induction es generalizing found with
  | nil =>
    cases h
    rw [List.map_reverse, List.nodup_reverse, List.map_nil, List.append_nil]
    exact ⟨rfl, hfound, List.forall_mem_nil _⟩
  | cons e es ih =>
    rw [collect] at h
    split at h
    · cases h
    · rename_i hkey
      split at h
      · cases h
      · rename_i hnew
        have hfound' : (((schema.canonical e.key, e) :: found).map Prod.fst).Nodup := by
          refine List.nodup_cons.2 ⟨fun hmem => hnew (List.lookup_isSome_iff.2 ?_), hfound⟩
          obtain ⟨p, hp, hpkey⟩ := List.mem_map.1 hmem
          exact ⟨p, hp, beq_iff_eq.2 hpkey.symm⟩
        obtain ⟨rfl, hnodup, hknown⟩ := ih h hfound'
        refine ⟨?_, hnodup, List.forall_mem_cons.2 ⟨not_not.1 hkey, hknown⟩⟩
        rw [List.reverse_cons, List.append_assoc, List.map_cons]
        rfl

theorem of_ofRoot (h : ofRoot schema root = .ok f) : Of schema root f := by
  obtain ⟨es, hes, h⟩ := bind_eq_ok_iff.1 h
  obtain ⟨all, hall, h⟩ := bind_eq_ok_iff.1 h
  cases h
  obtain ⟨rfl, hnodup, hknown⟩ := of_collect hall List.nodup_nil
  cases Node.asMapping_eq_ok hes
  exact ⟨rfl, hnodup, hknown⟩

theorem filter_eq_lookup {es : List Entry} {keyOf : Entry → String} (h : (es.map keyOf).Nodup) :
    es.filter (keyOf · = key) = ((es.map fun e => (keyOf e, e)).lookup key).toList := by
  induction es with
  | nil => rfl
  | cons e es ih =>
    obtain ⟨he, h⟩ := List.nodup_cons.1 h
    rw [List.map_cons, List.lookup_cons]
    by_cases hkey : keyOf e = key
    · have hnone : es.filter (keyOf · = key) = [] := by
        refine List.filter_eq_nil_iff.2 fun x hx hxkey => he ?_
        exact hkey.trans (of_decide_eq_true hxkey).symm ▸ List.mem_map_of_mem hx
      rw [List.filter_cons, if_pos (decide_eq_true hkey), hnone, beq_iff_eq.2 hkey.symm]
      rfl
    · rw [List.filter_cons, if_neg fun h => hkey (of_decide_eq_true h),
        beq_false_of_ne (Ne.symm hkey), ih h]

namespace Of

theorem under_eq (h : Of schema root f)
    (hkeys : ∀ k, schema.canonical k ∈ schema.keys → (k ∈ keys ↔ schema.canonical k = key)) :
    root.under keys = (f.optional? key).toList := by
  have hnodup : (root.entries.map fun e => schema.canonical e.key).Nodup := by
    have hnodup := h.nodup
    rwa [h.entries, List.map_map] at hnodup
  have hfilter : root.entries.filter (fun e => decide (e.key ∈ keys)) =
      root.entries.filter fun e => decide (schema.canonical e.key = key) :=
    List.filter_congr fun e he => decide_eq_decide.2 (hkeys e.key (h.known e he))
  rw [Node.under, hfilter, filter_eq_lookup hnodup, optional?, h.entries]
  cases (root.entries.map fun e => (schema.canonical e.key, e)).lookup key <;> rfl

theorem textsUnder_eq (h : Of schema root f)
    (hkeys : ∀ k, schema.canonical k ∈ schema.keys → (k ∈ keys ↔ schema.canonical k = key)) :
    root.textsUnder keys = f.texts key := by
  rw [Node.textsUnder, h.under_eq hkeys, texts]

theorem texts_of_not_mem (h : Of schema root f) (hkey : key ∉ schema.keys) : f.texts key = [] := by
  have hnone : f.entries.lookup key = none := by
    refine List.lookup_eq_none_iff.2 fun p hp => bne_iff_ne.2 fun hpkey => hkey ?_
    rw [h.entries] at hp
    obtain ⟨e, he, rfl⟩ := List.mem_map.1 hp
    exact hpkey ▸ h.known e he
  rw [Fields.texts, optional?, hnone]
  rfl

end Of

theorem canonical_finiteAutomaton (k : String) :
    Schema.finiteAutomaton.canonical k = if k = "accept_state" then "accept_states" else k := by
  rw [Schema.canonical, Schema.finiteAutomaton, List.lookup_cons]
  by_cases hk : k = "accept_state"
  · rw [if_pos hk, beq_iff_eq.2 hk]
    rfl
  · rw [if_neg hk, beq_false_of_ne hk]
    rfl

theorem mem_singleton_iff_finiteAutomaton (hkey : key ≠ "accept_state")
    (hkey' : key ≠ "accept_states") :
    k ∈ [key] ↔ Schema.finiteAutomaton.canonical k = key := by
  rw [canonical_finiteAutomaton, List.mem_singleton]
  split
  · rename_i hk
    exact iff_of_false (fun h => hkey (h ▸ hk)) (Ne.symm hkey')
  · exact Iff.rfl

theorem mem_accept_iff_finiteAutomaton :
    k ∈ ["accept_states", "accept_state"] ↔ Schema.finiteAutomaton.canonical k =
    "accept_states" := by
  rw [canonical_finiteAutomaton, List.mem_cons, List.mem_singleton]
  split
  · rename_i hk
    exact iff_of_true (.inr hk) rfl
  · rename_i hk
    exact or_iff_left hk

end Fields

theorem forall₂_of_delta {α : Type} {read : String → String → Entry → Except ParseError α}
    {n? : Option Node} {moves : List α} (h : delta read n? = .ok moves) :
    List.Forall₂ (fun c move => read c.1.key (entryField c.1.key c.2.key) c.2 = .ok move)
      ((n?.toList.flatMap Node.entries).flatMap fun row =>
        row.value.entries.map (row, ·)) moves := by
  cases n? with
  | none =>
    cases h
    exact .nil
  | some n =>
    obtain ⟨states, hstates, h⟩ := bind_eq_ok_iff.1 h
    obtain ⟨rows, hrows, h⟩ := bind_eq_ok_iff.1 h
    cases h
    rw [Option.toList_some, List.flatMap_singleton, Node.asMapping_eq_ok hstates]
    refine List.rel_flatten (List.forall₂_map_left_iff.2
      ((mapM_eq_ok_iff.1 hrows).imp fun row moves h => ?_))
    split at h
    · rename_i hnull
      cases h
      rw [Node.entries_of_isNull hnull]
      exact .nil
    · obtain ⟨entries, hentries, h⟩ := bind_eq_ok_iff.1 h
      rw [Node.asMapping_eq_ok hentries]
      exact List.forall₂_map_left_iff.2 (mapM_eq_ok_iff.1 h)

end Source

end Acceptors
