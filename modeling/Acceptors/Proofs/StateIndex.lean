import Std.Data.HashMap
import Mathlib.Order.Bounds.Basic
import Acceptors.Proofs.StateTable

/-! Tables of state names that look a name up in a map of their numbers and do not search for it.
Names and numbers are two structures here, which every operation has to keep in step; as long as it
does, such a table is the table of its names. -/

namespace Acceptors

variable {name field : String} {names : List String}

structure StateIndex where
  names : Array String
  numbers : Std.HashMap String Nat

namespace StateIndex

theorem length_filter_longer_lt {keys : List String} (h : name ∈ keys) :
    (keys.filter fun key => (name.push '\'').length ≤ key.length).length <
      (keys.filter fun key => name.length ≤ key.length).length := by
  have hlonger : ∀ key : String, ((name.push '\'').length ≤ key.length ↔
      (name.push '\'').length ≤ key.length ∧ name.length ≤ key.length) := by
    intro key
    rw [String.length_push]
    omega
  have hfilter : (keys.filter fun key => (name.push '\'').length ≤ key.length) =
      (keys.filter fun key => name.length ≤ key.length).filter
        fun key => (name.push '\'').length ≤ key.length := by
    simp only [List.filter_filter, ← Bool.decide_and, ← hlonger]
  rw [hfilter, List.length_filter_lt_length_iff_exists]
  exact ⟨name, by simp [h], by simp⟩

/-- Appends primes until the name has no number yet. The numbered names run out on the way, since
each one that is passed over is shorter than all that are still to come. -/
def fresh (numbers : Std.HashMap String Nat) (name : String) : String :=
  if name ∈ numbers then fresh numbers (name.push '\'') else name
termination_by (numbers.keys.filter fun key => name.length ≤ key.length).length
decreasing_by exact length_filter_longer_lt (Std.HashMap.mem_keys.2 ‹_›)

def empty : StateIndex := ⟨#[], ∅⟩

def push (s : StateIndex) (name : String) : StateIndex × Nat :=
  let fresh := fresh s.numbers name
  (⟨s.names.push fresh, s.numbers.insert fresh s.names.size⟩, s.names.size)

def pushAll (s : StateIndex) (names : List String) : StateIndex :=
  names.foldl (fun s name => (s.push name).1) s

def ofNames (names : List String) (field : String) : Except ParseError StateIndex :=
  go empty names
where
  go (s : StateIndex) : List String → Except ParseError StateIndex
    | [] => .ok s
    | name :: rest =>
      if name.isEmpty then .error (.inField field .emptyState)
      else if name ∈ s.numbers then .error (.inField field (.duplicateState name))
      else go (s.push name).1 rest

theorem fresh_of_mem {numbers : Std.HashMap String Nat} (h : name ∈ numbers) :
    fresh numbers name = fresh numbers (name.push '\'') := by
  rw [fresh, if_pos h]

theorem fresh_of_not_mem {numbers : Std.HashMap String Nat} (h : name ∉ numbers) :
    fresh numbers name = name := by
  rw [fresh, if_neg h]

theorem fresh_eq_primed {numbers : Std.HashMap String Nat} {primes : Nat}
    (h : IsLeast {k | primed name k ∉ numbers} primes) :
    fresh numbers name = primed name primes := by
  induction primes generalizing name with
  | zero => exact fresh_of_not_mem h.1
  | succ primes ih =>
    have hname : name ∈ numbers := by
      by_contra hfree
      exact Nat.not_succ_le_zero primes (@h.2 0 hfree)
    rw [fresh_of_mem hname]
    exact ih ⟨h.1, fun k hk => Nat.le_of_succ_le_succ (@h.2 (k + 1) hk)⟩

/-- The names are those of a table without repeats, each with the number that it has there. -/
structure Indexes (s : StateIndex) (t : StateTable) : Prop where
  names_eq : s.names = t.names
  distinct : t.Distinct
  getElem?_numbers : ∀ name, s.numbers[name]? = t.id? name

namespace Indexes

variable {s : StateIndex} {t : StateTable}

theorem empty : StateIndex.empty.Indexes .empty where
  names_eq := rfl
  distinct := StateTable.distinct_empty
  getElem?_numbers name := by simp [StateIndex.empty, StateTable.empty, StateTable.id?]

theorem mem_numbers_iff (h : s.Indexes t) : name ∈ s.numbers ↔ name ∈ t.names := by
  rw [← Std.HashMap.isSome_getElem?_iff_mem, h.getElem?_numbers, StateTable.id?,
    Array.isSome_idxOf?]

theorem push (h : s.Indexes t) (name : String) :
    (s.push name).1.Indexes (t.push name) ∧ (s.push name).2 = t.size := by
  obtain ⟨primes, -, hleast, hpush⟩ := t.exists_push_eq name
  have hfresh : fresh s.numbers name = primed name primes := by
    apply fresh_eq_primed
    simpa only [h.mem_numbers_iff] using hleast
  refine ⟨⟨?_, StateTable.push_distinct h.distinct name, fun other => ?_⟩,
    congrArg Array.size h.names_eq⟩
  · rw [StateIndex.push, hfresh, h.names_eq, hpush]
  · rw [StateIndex.push, hfresh, hpush, Std.HashMap.getElem?_insert, h.getElem?_numbers, h.names_eq,
      StateTable.id?_mk_push h.distinct hleast.1]
    simp only [beq_iff_eq, StateTable.size]

theorem pushAll (h : s.Indexes t) (names : List String) :
    (s.pushAll names).Indexes (names.foldl StateTable.push t) := by
  induction names generalizing s t with
  | nil => exact h
  | cons name names ih => exact ih (h.push name).1

theorem ofNames_go (h : s.Indexes t) (names : List String) :
    SameResult Eq (fun t s => s.Indexes t) (StateTable.ofNames.go field t names)
    (StateIndex.ofNames.go field s names) := by
  induction names generalizing s t with
  | nil => exact .found h
  | cons name names ih =>
    rw [StateTable.ofNames.go, StateIndex.ofNames.go]
    simp only [Array.contains_iff_mem, h.mem_numbers_iff]
    split
    · exact .failed rfl
    · split
      · exact .failed rfl
      · exact ih (h.push name).1

end Indexes

theorem sameResult_ofNames (names : List String) (field : String) :
    SameResult Eq (fun t s => s.Indexes t) (StateTable.ofNames names field) (ofNames names field) :=
  Indexes.empty.ofNames_go names

end StateIndex

namespace StateTable

variable {t : StateTable}

/-- In every table that declared names and then generated ones were entered into, names and numbers
determine each other. A further name gets the least number of primes that makes it new and the size
of the table as its number, and all else stays as it was. A map of the numbers beside the names,
with primes added for as long as the map has the name, always tells the same. -/
theorem names_determine_numbers (h : ofNames names field = .ok t) (generated : List String) :
    let table := generated.foldl push t
    table.Distinct ∧ (∀ name id, table.id? name = some id ↔ table.names[id]? = some name) ∧
    (∀ name, ∃ primes, IsLeast {k | primed name k ∉ table.names} primes ∧ primes ≤ table.size ∧
      (table.push name).names = table.names.push (primed name primes) ∧
      (table.push name).id? (primed name primes) = some table.size ∧
      ∀ other ≠ primed name primes, (table.push name).id? other = table.id? other) ∧
    ∃ index, StateIndex.ofNames names field = .ok index ∧ (index.pushAll generated).Indexes table ∧
      ∀ name, ((index.pushAll generated).push name).1.Indexes (table.push name) ∧
        ((index.pushAll generated).push name).2 = table.size := by
  intro table
  obtain ⟨-, ht⟩ := ofNames_go_eq_ok h distinct_empty
  have hdistinct : table.Distinct := foldl_push_distinct ht generated
  refine ⟨hdistinct, fun name id => hdistinct.id?_eq_some_iff, fun name => ?_, ?_⟩
  · obtain ⟨primes, hle, hleast, hpush⟩ := table.exists_push_eq name
    have hid := id?_mk_push hdistinct hleast.1
    rw [hpush]
    exact ⟨primes, hleast, hle, rfl, (hid _).trans (if_pos rfl), fun other hother =>
      (hid other).trans (if_neg (Ne.symm hother))⟩
  · have hsame := StateIndex.sameResult_ofNames names field
    rw [h] at hsame
    generalize StateIndex.ofNames names field = result at hsame
    cases hsame with
    | found hindexes =>
      have hall := hindexes.pushAll generated
      exact ⟨_, rfl, hall, hall.push⟩

theorem names_determine_numbers_primed :
    let generated := ["q", "q"]
    ∃ t, ofNames ["q", "q'"] "states" = .ok t ∧ (generated.foldl push t).names =
      #["q", "q'", "q''", "q'''"] ∧
      (generated.foldl push t).id? "q''" = some 2 ∧
      ∃ index, StateIndex.ofNames ["q", "q'"] "states" = .ok index ∧
      (index.pushAll generated).numbers["q''"]? = some 2 ∧
        ((index.pushAll generated).push "p").2 = 4 := by
  intro generated
  let t : StateTable := ⟨#["q", "q'"]⟩
  have h : ofNames ["q", "q'"] "states" = .ok t := by decide +kernel
  obtain ⟨-, hid, -, index, hindex, hall, hpush⟩ := names_determine_numbers h generated
  have hnames : (generated.foldl push t).names = #["q", "q'", "q''", "q'''"] := by decide +kernel
  have hnumber : (generated.foldl push t).id? "q''" = some 2 := (hid _ _).2 (by rw [hnames]; rfl)
  refine ⟨t, h, hnames, hnumber, index, hindex, (hall.getElem?_numbers _).trans hnumber, ?_⟩
  rw [(hpush "p").2, size, hnames]
  rfl

end StateTable

end Acceptors
