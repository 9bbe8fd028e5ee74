import Mathlib.Tactic.Common
import Acceptors.Text.Longest

/-! The longest of the names that a text begins with. Two names of one length that a text begins
with are the same name, so it does not matter which of them is kept. -/

namespace Acceptors.Text

variable {names : List (List Char)} {text name : List Char} {best : Option (List Char)}

structure IsLongest (names : List (List Char)) (text name : List Char) : Prop where
  mem : name ∈ names
  ne_nil : name ≠ []
  begins : name <+: text
  longest : ∀ other ∈ names, other <+: text → other.length ≤ name.length

theorem IsLongest.unique {name' : List Char} (h : IsLongest names text name)
    (h' : IsLongest names text name') : name = name' := by
  have hlength : name.length = name'.length :=
    Nat.le_antisymm (h'.longest name h.mem h.begins) (h.longest name' h'.mem h'.begins)
  exact (List.prefix_of_prefix_length_le h.begins h'.begins (Nat.le_of_eq hlength)).eq_of_length
    hlength

theorem longer_spec (best : Option (List Char)) (name : List Char) :
    ∃ kept, longer best name = some kept ∧ (best = some kept ∨ name = kept) ∧
      name.length ≤ kept.length ∧ ∀ other ∈ best, other.length ≤ kept.length := by
  unfold longer
  cases best with
  | none => exact ⟨name, rfl, .inr rfl, Nat.le_refl _, by simp⟩
  | some b =>
    simp only
    split
    · exact ⟨name, rfl, .inr rfl, Nat.le_refl _, by simpa⟩
    · exact ⟨b, rfl, .inl rfl, by omega, by simp⟩

theorem foldl_longer_spec (names : List (List Char)) (best : Option (List Char)) :
    (names.foldl longer best = none ∧ names = [] ∧ best = none) ∨
    ∃ name, names.foldl longer best = some name ∧ (best = some name ∨ name ∈ names) ∧
      (∀ other ∈ names, other.length ≤ name.length) ∧ ∀ other ∈ best,
      other.length ≤ name.length := by
  induction names generalizing best with
  | nil =>
    cases best with
    | none => exact .inl ⟨rfl, rfl, rfl⟩
    | some b => exact .inr ⟨b, rfl, .inl rfl, by simp, by simp⟩
  | cons first names ih =>
    obtain ⟨kept, hkept, hfrom, hfirst, hbest⟩ := longer_spec best first
    rw [List.foldl_cons, hkept]
    rcases ih (some kept) with ⟨-, -, hnone⟩ | ⟨name, hname, hmem, hnames, hle⟩
    · cases hnone
    · have hkept' : kept.length ≤ name.length := hle kept rfl
      refine .inr ⟨name, hname, ?_, ?_, fun other hother =>
        Nat.le_trans (hbest other hother) hkept'⟩
      · rcases hmem with hmem | hmem
        · cases hmem
          exact hfrom.imp_right fun h => List.mem_cons.2 (.inl h.symm)
        · exact .inr (List.mem_cons_of_mem first hmem)
      · exact List.forall_mem_cons.2 ⟨Nat.le_trans hfirst hkept', hnames⟩

theorem mem_candidates_iff {other : List Char} :
    other ∈ names.filter (fun name => !name.isEmpty && name.isPrefixOf text) ↔
      other ∈ names ∧ other ≠ [] ∧ other <+: text := by
  simp [List.mem_filter]

theorem longestName?_spec (names : List (List Char)) (text : List Char) :
    (longestName? names text = none ∧ ∀ name ∈ names, name ≠ [] → ¬name <+: text) ∨
    ∃ name, longestName? names text = some name ∧ IsLongest names text name := by
  rcases foldl_longer_spec (names.filter fun name => !name.isEmpty && name.isPrefixOf text)
    none with
    ⟨hnone, hnil, -⟩ | ⟨name, hsome, hmem, hlongest, -⟩
  · refine .inl ⟨hnone, fun name hname hne hbegins => ?_⟩
    have hcandidate := mem_candidates_iff.2 ⟨hname, hne, hbegins⟩
    rw [hnil] at hcandidate
    exact List.not_mem_nil hcandidate
  · obtain ⟨hname, hne, hbegins⟩ := mem_candidates_iff.1 (hmem.resolve_left (by simp))
    refine .inr ⟨name, hsome, hname, hne, hbegins, fun other hother hprefix => ?_⟩
    by_cases hnil : other = []
    · rw [hnil]
      exact Nat.zero_le _
    · exact hlongest other (mem_candidates_iff.2 ⟨hother, hnil, hprefix⟩)

theorem longestName?_eq_none_iff :
    longestName? names text = none ↔ ∀ name ∈ names, name ≠ [] → ¬name <+: text := by
  rcases longestName?_spec names text with ⟨hnone, hall⟩ | ⟨name, hsome, hlongest⟩
  · exact iff_of_true hnone hall
  · refine iff_of_false (by simp [hsome]) fun hall => ?_
    exact hall name hlongest.mem hlongest.ne_nil hlongest.begins

theorem longestName?_eq_some_iff : longestName? names text = some name ↔
    IsLongest names text name := by
  rcases longestName?_spec names text with ⟨hnone, hall⟩ | ⟨found, hsome, hlongest⟩
  · refine iff_of_false (by simp [hnone]) fun h => ?_
    exact hall name h.mem h.ne_nil h.begins
  · rw [hsome, Option.some_inj]
    constructor
    · rintro rfl
      exact hlongest
    · exact hlongest.unique

end Acceptors.Text
