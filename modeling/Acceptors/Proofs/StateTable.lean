import Mathlib.Data.List.Nodup
import Mathlib.Data.List.Perm.Subperm
import Mathlib.Logic.Function.Iterate
import Mathlib.Order.Bounds.Basic
import Mathlib.Tactic.Common
import Acceptors.Declaration
import Acceptors.Proofs.Outcome
import Acceptors.Proofs.Places

/-! Tables of state names. Declared names are checked to be distinct and generated ones get primes
until they are, so in every table a name and its number determine each other. -/

namespace Acceptors

def primed (name : String) (primes : Nat) : String := (fun s => s.push '\'')^[primes] name

variable {taken : String → Bool} {name field : String} {names : List String} {bound i id : Nat}
  {t t' : StateTable}

theorem length_primed (name : String) (primes : Nat) :
    (primed name primes).length = name.length + primes := by
  induction primes with
  | zero => rfl
  | succ primes ih =>
    rw [primed, Function.iterate_succ_apply', ← primed, String.length_push, ih, Nat.add_assoc]

theorem primed_injective (name : String) : (primed name).Injective := by
  intro m n h
  have hlength := congrArg String.length h
  rw [length_primed, length_primed] at hlength
  omega

/-- A list holds no more names with primes than it is long. -/
theorem le_length_of_primed_mem {primes : Nat} (h : ∀ j < primes, primed name j ∈ names) :
    primes ≤ names.length := by
  have hnodup : ((List.range primes).map (primed name)).Nodup :=
    List.nodup_range.map (primed_injective name)
  have hsubset : (List.range primes).map (primed name) ⊆ names := by
    intro s hs
    obtain ⟨j, hj, rfl⟩ := List.mem_map.1 hs
    exact h j (List.mem_range.1 hj)
  have hlength := (List.subperm_of_subset hnodup hsubset).length_le
  rwa [List.length_map, List.length_range] at hlength

theorem freshName_spec (taken : String → Bool) (bound : Nat) (name : String) :
    ∃ k, freshName taken bound name = primed name k ∧ (∀ j < k, taken (primed name j) = true) ∧
      (taken (primed name k) = true → k = bound) := by
  induction bound generalizing name with
  | zero =>
    refine ⟨0, rfl, fun j hj => absurd hj (Nat.not_lt_zero j), fun _ => rfl⟩
  | succ bound ih =>
    rw [freshName]
    split
    · rename_i htaken
      obtain ⟨k, hfresh, hbefore, hlast⟩ := ih (name.push '\'')
      refine ⟨k + 1, hfresh, fun j hj => ?_, fun hk => congrArg (· + 1) (hlast hk)⟩
      cases j with
      | zero => exact htaken
      | succ j => exact hbefore j (Nat.lt_of_succ_lt_succ hj)
    · rename_i hfree
      exact ⟨0, rfl, fun j hj => absurd hj (Nat.not_lt_zero j), fun h => absurd h hfree⟩

theorem freshName_free (name : String) (htaken : ∀ s, taken s = true → s ∈ names)
    (hbound : names.length ≤ bound) : taken (freshName taken bound name) = false := by
  obtain ⟨k, hfresh, hbefore, hlast⟩ := freshName_spec taken bound name
  rw [hfresh]
  by_contra hk
  have hk : taken (primed name k) = true := Bool.not_eq_false _ ▸ hk
  obtain rfl := hlast hk
  have hlength : k + 1 ≤ names.length := le_length_of_primed_mem fun j hj => by
    rcases Nat.lt_succ_iff_lt_or_eq.1 hj with hj | rfl
    · exact htaken _ (hbefore j hj)
    · exact htaken _ hk
  omega

namespace StateTable

def Distinct (t : StateTable) : Prop := t.names.toList.Nodup

theorem Distinct.id?_eq_some_iff (h : t.Distinct) :
    t.id? name = some id ↔ t.names[id]? = some name :=
  array_idxOf?_eq_some_iff h

theorem getElem?_names (hid : id < t.size) : t.names[id]? = some (t.name id) := by
  rw [name, Array.getD_eq_getD_getElem?, Array.getElem?_eq_getElem hid]
  rfl

theorem Distinct.id?_name (h : t.Distinct) (hid : id < t.size) : t.id? (t.name id) = some id :=
  h.id?_eq_some_iff.2 (getElem?_names hid)

theorem name_of_id? (h : t.Distinct) (hid : t.id? name = some id) : t.name id = name := by
  rw [StateTable.name, Array.getD_eq_getD_getElem?, h.id?_eq_some_iff.1 hid]
  rfl

theorem eq_of_id? {other : String} (h : t.Distinct) (hid : t.id? name = some id)
    (hother : t.id? other = some id) :
    name = other :=
  (name_of_id? h hid).symm.trans (name_of_id? h hother)

theorem lt_size_of_id? (h : t.Distinct) (hid : t.id? name = some id) : id < t.size :=
  (Array.getElem?_eq_some_iff.1 (h.id?_eq_some_iff.1 hid)).1

theorem Distinct.name_inj (h : t.Distinct) (hi : i < t.size) (hid : id < t.size) :
    t.name i = t.name id ↔ i = id := array_getD_inj h hi hid ""

theorem resolve_eq_ok_iff : t.resolve name field = .ok id ↔ t.id? name = some id := by
  rw [resolve]
  split
  · rename_i i hi
    rw [hi, Except.ok.injEq, Option.some.injEq]
  · rename_i hi
    rw [hi]
    constructor
    · intro h
      cases h
    · intro h
      cases h

theorem lt_size_of_resolve (h : t.resolve name field = .ok id) : id < t.size := by
  rw [resolve] at h
  split at h
  · rename_i i hi
    cases h
    rw [id?, Array.idxOf?, Option.map_eq_some_iff] at hi
    obtain ⟨i, _, rfl⟩ := hi
    exact i.isLt
  · cases h

theorem push_of_not_mem (hname : name ∉ t.names.toList) : t.push name = ⟨t.names.push name⟩ := by
  have hfree : ¬t.names.contains name = true := fun h =>
    hname (Array.mem_toList_iff.2 (Array.contains_iff_mem.1 h))
  rw [push, freshName, if_neg hfree]

theorem distinct_push (h : t.Distinct) (hname : name ∉ t.names.toList) :
    (StateTable.mk (t.names.push name)).Distinct := by
  rw [Distinct, Array.toList_push, ← List.concat_eq_append]
  exact h.concat hname

theorem id?_mk_push (h : t.Distinct) (hname : name ∉ t.names) (other : String) :
    (StateTable.mk (t.names.push name)).id? other = if name = other then some t.size
    else t.id? other := by
  have hold : ∀ id, t.names[id]? ≠ some name := fun id hid => hname (Array.mem_of_getElem? hid)
  have hlast : t.names[t.size]? = none := Array.getElem?_eq_none (Nat.le_refl _)
  ext id
  rw [(distinct_push h (mt Array.mem_toList_iff.1 hname)).id?_eq_some_iff,
    Array.getElem?_push, ← size]
  split
  · rename_i hid
    subst hid
    split
    · rename_i hother
      simp [hother]
    · rename_i hother
      simp [h.id?_eq_some_iff, hother, hlast]
  · rename_i hid
    split
    · rename_i hother
      simp [← hother, hold, Ne.symm hid]
    · exact h.id?_eq_some_iff.symm

theorem distinct_empty : empty.Distinct := List.nodup_nil

theorem exists_push_eq (t : StateTable) (name : String) : ∃ primes, primes ≤ t.size ∧
    IsLeast {k | primed name k ∉ t.names} primes ∧
    t.push name = ⟨t.names.push (primed name primes)⟩ := by
  obtain ⟨k, hfresh, hbefore, -⟩ := freshName_spec t.names.contains (t.size + 1) name
  have htaken : ∀ s, t.names.contains s = true → s ∈ t.names.toList := fun s hs =>
    Array.mem_toList_iff.2 (Array.contains_iff_mem.1 hs)
  have hfree : primed name k ∉ t.names := by
    have h := freshName_free name htaken (Nat.le_succ _)
    rwa [Array.length_toList, ← size, hfresh, ← Bool.not_eq_true, Array.contains_iff_mem] at h
  have hleast : ∀ j ∈ {k | primed name k ∉ t.names}, k ≤ j := fun j hj =>
    Nat.not_lt.1 fun hlt => hj (Array.contains_iff_mem.1 (hbefore j hlt))
  have hk : k ≤ t.names.toList.length := le_length_of_primed_mem fun j hj => htaken _ (hbefore j hj)
  exact ⟨k, hk, ⟨hfree, hleast⟩, by rw [push, hfresh]⟩

theorem push_distinct (h : t.Distinct) (name : String) : (t.push name).Distinct := by
  obtain ⟨primes, -, hleast, hpush⟩ := exists_push_eq t name
  rw [hpush]
  exact distinct_push h (mt Array.mem_toList_iff.1 hleast.1)

theorem foldl_push_distinct (h : t.Distinct) (names : List String) :
    (names.foldl push t).Distinct := by
  induction names generalizing t with
  | nil => exact h
  | cons name names ih => exact ih (push_distinct h name)

theorem foldl_push_of_nodup (h : (t.names.toList ++ names).Nodup) :
    names.foldl push t = ⟨t.names ++ names⟩ := by
  induction names generalizing t with
  | nil => rw [List.foldl_nil, Array.appendList_nil]
  | cons name names ih =>
    have hname : name ∉ t.names.toList := fun hm =>
      (List.nodup_append.1 h).2.2 name hm name List.mem_cons_self rfl
    rw [List.foldl_cons, push_of_not_mem hname, ih, Array.appendList_cons]
    rwa [Array.toList_push, List.append_assoc]

theorem Distinct.foldl_push (h : t.Distinct) : t.names.toList.foldl push empty = t := by
  have hempty : (empty.names.toList ++ t.names.toList).Nodup := h
  rw [foldl_push_of_nodup hempty]
  exact congrArg StateTable.mk
    (Array.toList_inj.1 (Array.toList_appendList.trans (List.nil_append _)))

theorem ofNames_go_eq_ok (h : ofNames.go field t names = .ok t') (ht : t.Distinct) :
    t'.names.toList = t.names.toList ++ names ∧ t'.Distinct := by
  induction names generalizing t with
  | nil =>
    cases h
    exact ⟨(List.append_nil _).symm, ht⟩
  | cons name names ih =>
    rw [ofNames.go] at h
    split at h
    · cases h
    · split at h
      · cases h
      · rename_i hfree
        have hname : name ∉ t.names.toList := fun hm =>
          hfree (Array.contains_iff_mem.2 (Array.mem_toList_iff.1 hm))
        rw [push_of_not_mem hname] at h
        obtain ⟨hnames, hdistinct⟩ := ih h (distinct_push ht hname)
        rw [Array.toList_push, List.append_assoc] at hnames
        exact ⟨hnames, hdistinct⟩

theorem size_generate (names : List String) : (generate names).size = names.length := by
  suffices h : ∀ done taken, (generate.go done taken names).size = done.size + names.length by
    rw [size, generate, h, List.size_toArray, List.length_nil, Nat.zero_add]
  induction names with
  | nil => exact fun _ _ => rfl
  | cons name names ih =>
    intro done taken
    rw [generate.go, ih, Array.size_push, List.length_cons]
    omega

theorem generate_go_eq {done : Array String} {used : Std.TreeSet String compare}
    (hused : ∀ s, used.contains s = true ↔ s ∈ done) :
    (⟨generate.go done used names⟩ : StateTable) = names.foldl push ⟨done⟩ := by
  induction names generalizing done used with
  | nil => rfl
  | cons name names ih =>
    have htaken : used.contains = done.contains := by
      funext s
      rw [Bool.eq_iff_iff, hused, Array.contains_iff_mem]
    rw [generate.go, htaken, ih, List.foldl_cons]
    · rfl
    · intro s
      rw [Std.TreeSet.contains_insert, Bool.or_eq_true, beq_iff_eq, Std.compare_eq_iff_eq, hused,
        Array.mem_push, or_comm, eq_comm]

theorem generate_eq_foldl_push (names : List String) : generate names = names.foldl push empty :=
  generate_go_eq fun s => by simp

theorem distinct_generate (names : List String) : (generate names).Distinct := by
  rw [generate_eq_foldl_push]
  exact foldl_push_distinct distinct_empty names

theorem states_eq_ok (h : Declaration.states names = .ok t) :
    t.names.toList = names ∧ t.Distinct := by
  rw [Declaration.states] at h
  split at h
  · cases h
  · exact ofNames_go_eq_ok h List.nodup_nil

theorem marked_eq_ok {marks : Array Bool} (h : Declaration.marked t names field = .ok marks) :
    marks.size = t.size ∧ ∀ s, marks.getD s false = true ↔ ∃ name ∈ names, t.id? name = some s := by
  refine foldlM_prefix_induction (P := fun done marks => marks.size = t.size ∧
    ∀ s, marks.getD s false = true ↔ ∃ name ∈ done, t.id? name = some s) ?_ ?_ h
  · intro done marks name entered hmarks henter
    obtain ⟨hsize, hmarked⟩ := hmarks
    obtain ⟨i, hi, henter⟩ := bind_eq_ok_iff.1 henter
    cases henter
    have hlt : i < marks.size := hsize ▸ lt_size_of_resolve hi
    refine ⟨by rw [Array.size_setIfInBounds, hsize], fun s => ?_⟩
    rw [Array.getD_eq_getD_getElem?, Array.getElem?_setIfInBounds]
    simp only [List.mem_append, List.mem_singleton, or_and_right, exists_or, exists_eq_left,
      resolve_eq_ok_iff.1 hi, Option.some_inj]
    by_cases hs : i = s
    · subst hs
      simp [hlt]
    · rw [if_neg hs, ← Array.getD_eq_getD_getElem?, hmarked, or_iff_left hs]
  · refine ⟨Array.size_replicate, fun s => ?_⟩
    rw [getD_replicate_self]
    simp

end StateTable

end Acceptors
