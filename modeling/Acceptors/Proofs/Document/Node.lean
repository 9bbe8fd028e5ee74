import Mathlib.Tactic.Common
import Acceptors.Document.Syntax

/-! The content of documents, apart from the places in a text. -/

namespace Acceptors

mutual

def Node.relocate (f : Location → Location) : Node → Node
  | .null l => .null (f l)
  | .scalar l text => .scalar (f l) text
  | .list l items => .list (f l) (relocateItems f items)
  | .mapping l entries => .mapping (f l) (relocateEntries f entries)

def relocateItems (f : Location → Location) : List Node → List Node
  | [] => []
  | n :: items => n.relocate f :: relocateItems f items

def relocateEntries (f : Location → Location) : List Entry → List Entry
  | [] => []
  | .mk key l value :: entries => .mk key (f l) (value.relocate f) :: relocateEntries f entries

end

namespace Node

def bare (n : Node) : Node := n.relocate fun _ => .start

mutual

def KeysDistinct : Node → Prop
  | .null _ => True
  | .scalar _ _ => True
  | .list _ items => ItemKeysDistinct items
  | .mapping _ entries => (entries.map Entry.key).Nodup ∧ EntryKeysDistinct entries

def ItemKeysDistinct : List Node → Prop
  | [] => True
  | n :: items => n.KeysDistinct ∧ ItemKeysDistinct items

def EntryKeysDistinct : List Entry → Prop
  | [] => True
  | .mk _ _ value :: entries => value.KeysDistinct ∧ EntryKeysDistinct entries

end

end Node

def Entry.bare (e : Entry) : Entry := .mk e.key .start e.value.bare

def Field.bare (f : Field) : Field := ⟨f.key, .start, f.value.map Node.bare⟩

def Line.Content.bare : Line.Content → Line.Content
  | .entry f => .entry f.bare
  | .item => .item
  | .itemValue n => .itemValue n.bare
  | .itemEntry f => .itemEntry f.bare

def Line.bare (l : Line) : Line := ⟨l.indent, .start, l.content.bare⟩

variable {n : Node} {items : List Node} {entries : List Entry} {text : String}
    {content : Line.Content}

theorem Entry.add_cases (found : List Entry) (x : Entry) :
    (x.key ∈ found.map Entry.key ∧ Entry.add found x = .error (Entry.duplicate x.key x.location)) ∨
      (x.key ∉ found.map Entry.key ∧ Entry.add found x = .ok (x :: found)) := by
  rw [Entry.add]
  split
  · rename_i h
    obtain ⟨other, hother, hkey⟩ := List.any_eq_true.1 h
    exact .inl ⟨List.mem_map.2 ⟨other, hother, eq_of_beq hkey⟩, rfl⟩
  · rename_i h
    refine .inr ⟨fun hmem => h ?_, rfl⟩
    obtain ⟨other, hother, hkey⟩ := List.mem_map.1 hmem
    exact List.any_eq_true.2 ⟨other, hother, beq_iff_eq.2 hkey⟩

theorem relocateItems_eq_map (f : Location → Location) (items : List Node) :
    relocateItems f items = items.map (Node.relocate f) := by
  induction items with
  | nil => rfl
  | cons n items ih => rw [relocateItems, ih, List.map_cons]

theorem map_key_relocateEntries (f : Location → Location) (entries : List Entry) :
    (relocateEntries f entries).map Entry.key = entries.map Entry.key := by
  induction entries with
  | nil => rfl
  | cons e entries ih =>
    obtain ⟨key, l, value⟩ := e
    exact congrArg (key :: ·) ih

namespace Line.Content

theorem bare_eq_entry_iff {f : Field} : content.bare = .entry f ↔
    ∃ g, content = .entry g ∧ g.bare = f := by
  cases content <;> simp [bare]

theorem bare_eq_item_iff : content.bare = .item ↔ content = .item := by
  cases content <;> simp [bare]

theorem bare_eq_itemValue_iff : content.bare = .itemValue n ↔
    ∃ m, content = .itemValue m ∧ m.bare = n := by
  cases content <;> simp [bare]

end Line.Content

namespace Node

theorem itemKeysDistinct_iff : ItemKeysDistinct items ↔ ∀ n ∈ items, n.KeysDistinct := by
  induction items with
  | nil => exact ⟨fun _ n hn => absurd hn List.not_mem_nil, fun _ => trivial⟩
  | cons n items ih => rw [ItemKeysDistinct, ih, List.forall_mem_cons]

mutual

theorem keysDistinct_relocate_iff (f : Location → Location) (n : Node) :
    (n.relocate f).KeysDistinct ↔ n.KeysDistinct := by
  cases n with
  | null _ => exact Iff.rfl
  | scalar _ _ => exact Iff.rfl
  | list _ items => exact itemKeysDistinct_relocate_iff f items
  | mapping _ entries =>
    rw [relocate, KeysDistinct, KeysDistinct, entryKeysDistinct_relocate_iff f entries,
      map_key_relocateEntries f entries]

theorem itemKeysDistinct_relocate_iff (f : Location → Location) (items : List Node) :
    ItemKeysDistinct (relocateItems f items) ↔ ItemKeysDistinct items := by
  cases items with
  | nil => exact Iff.rfl
  | cons n items =>
    exact and_congr (keysDistinct_relocate_iff f n) (itemKeysDistinct_relocate_iff f items)

theorem entryKeysDistinct_relocate_iff (f : Location → Location) (entries : List Entry) :
    EntryKeysDistinct (relocateEntries f entries) ↔ EntryKeysDistinct entries := by
  cases entries with
  | nil => exact Iff.rfl
  | cons e entries =>
    obtain ⟨key, l, value⟩ := e
    exact and_congr (keysDistinct_relocate_iff f value) (entryKeysDistinct_relocate_iff f entries)

end

theorem keysDistinct_bare_iff (n : Node) : n.bare.KeysDistinct ↔ n.KeysDistinct :=
  keysDistinct_relocate_iff _ n

theorem bare_list (l : Location) (items : List Node) :
    (list l items).bare = list .start (items.map bare) :=
  congrArg (list .start) (relocateItems_eq_map _ items)

theorem bare_mapping (l : Location) (entries : List Entry) :
    (mapping l entries).bare = mapping .start (entries.map Entry.bare) := by
  refine congrArg (mapping .start) ?_
  induction entries with
  | nil => rfl
  | cons e entries ih =>
    obtain ⟨key, l, value⟩ := e
    rw [relocateEntries, ih, List.map_cons]
    rfl

theorem bare_eq_scalar_iff : n.bare = scalar .start text ↔ ∃ l, n = scalar l text := by
  constructor
  · intro h
    cases n with
    | scalar l s =>
      cases h
      exact ⟨l, rfl⟩
    | null l => cases h
    | list l items => cases h
    | mapping l entries => cases h
  · rintro ⟨l, rfl⟩
    rfl

theorem bare_eq_list_iff :
    n.bare = list .start items ↔ ∃ l found, n = list l found ∧ found.map bare = items := by
  constructor
  · intro h
    cases n with
    | list l found =>
      rw [bare_list] at h
      cases h
      exact ⟨l, found, rfl, rfl⟩
    | null l => cases h
    | scalar l s => cases h
    | mapping l entries => cases h
  · rintro ⟨l, found, rfl, rfl⟩
    exact bare_list l found

theorem bare_eq_mapping_iff :
    n.bare = mapping .start entries ↔ ∃ l found, n = mapping l found ∧
    found.map Entry.bare = entries := by
  constructor
  · intro h
    cases n with
    | mapping l found =>
      rw [bare_mapping] at h
      cases h
      exact ⟨l, found, rfl, rfl⟩
    | null l => cases h
    | scalar l s => cases h
    | list l items => cases h
  · rintro ⟨l, found, rfl, rfl⟩
    exact bare_mapping l found

end Node

end Acceptors
