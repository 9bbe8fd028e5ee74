import Mathlib.Tactic.Common
import Acceptors.Proofs.Declaration
import Acceptors.Source.Fields

/-! Where key paths lead. A path that is known leads to the first place that is known for it, and
any other path to that of the longest known path around it. -/

namespace Acceptors.Source

variable {outer path : List Char} {best : Option (List Char × Location)} {p : List Char × Location}
  {l before after : List (List Char × Location)} {n : Nat}

theorem encloses_iff : encloses outer path = true ↔ outer = path ∨ outer ++ ['.'] <+: path := by
  rw [encloses, Bool.or_eq_true_iff, beq_iff_eq, List.isPrefixOf_iff_prefix]

theorem length_lt_of_encloses (h : encloses outer path = true) (hne : outer ≠ path) :
    outer.length < path.length := by
  have hlength := ((encloses_iff.1 h).resolve_left hne).length_le
  rwa [List.length_append] at hlength

theorem length_le_of_encloses (h : encloses outer path = true) : outer.length ≤ path.length := by
  by_cases hne : outer = path
  · exact Nat.le_of_eq (congrArg List.length hne)
  · exact Nat.le_of_lt (length_lt_of_encloses h hne)

theorem isSome_foldl_longerPath_iff : (l.foldl longerPath best).isSome ↔ best.isSome ∨ l ≠ [] := by
  induction l generalizing best with
  | nil => exact (or_iff_left (not_not_intro rfl)).symm
  | cons p l ih =>
    rw [List.foldl_cons, ih]
    refine iff_of_true (.inl ?_) (.inr (List.cons_ne_nil p l))
    cases best with
    | none => rfl
    | some b =>
      rw [longerPath]
      split <;> rfl

theorem foldl_longerPath_eq_some (h : ∀ q ∈ l, q.1.length ≤ p.1.length) :
    l.foldl longerPath (some p) = some p := by
  induction l with
  | nil => rfl
  | cons q l ih =>
    obtain ⟨hq, hl⟩ := List.forall_mem_cons.1 h
    rw [List.foldl_cons, longerPath, if_neg (Nat.not_lt_of_le hq)]
    exact ih hl

theorem length_foldl_longerPath_lt (h : ∀ q ∈ l, q.1.length < n)
    (hbest : ∀ b ∈ best, b.1.length < n) :
    ∀ b ∈ l.foldl longerPath best, b.1.length < n := by
  induction l generalizing best with
  | nil => exact hbest
  | cons q l ih =>
    obtain ⟨hq, hl⟩ := List.forall_mem_cons.1 h
    refine ih hl fun b hb => ?_
    cases best with
    | none =>
      cases hb
      exact hq
    | some best =>
      rw [longerPath] at hb
      split at hb
      · cases hb
        exact hq
      · exact hbest b hb

theorem foldl_longerPath_append (hbefore : ∀ q ∈ before, q.1.length < p.1.length)
    (hafter : ∀ q ∈ after, q.1.length ≤ p.1.length) :
    (before ++ p :: after).foldl longerPath none = some p := by
  have hshorter : ∀ b ∈ before.foldl longerPath none, b.1.length < p.1.length :=
    length_foldl_longerPath_lt hbefore nofun
  have hchosen : longerPath (before.foldl longerPath none) p = some p := by
    cases hbest : before.foldl longerPath none with
    | none => rfl
    | some b =>
      rw [longerPath, if_pos (hshorter b hbest)]
  rw [List.foldl_append, List.foldl_cons, hchosen, foldl_longerPath_eq_some hafter]

namespace Places

variable {places : Places} {path : String}

theorem mem_known_iff {q : List Char × Location} :
    q ∈ (places.map fun p => (p.1.toList, p.2)).filter (fun p => encloses p.1 path.toList) ↔
      ∃ p ∈ places, encloses p.1.toList path.toList = true ∧ q = (p.1.toList, p.2) := by
  rw [List.mem_filter, List.mem_map]
  constructor
  · rintro ⟨⟨p, hp, rfl⟩, hencloses⟩
    exact ⟨p, hp, hencloses, rfl⟩
  · rintro ⟨p, hp, hencloses, rfl⟩
    exact ⟨⟨p, hp, rfl⟩, hencloses⟩

theorem isSome_find?_iff :
    (places.find? path).isSome ↔ ∃ p ∈ places, encloses p.1.toList path.toList = true := by
  rw [find?, Option.isSome_map, isSome_foldl_longerPath_iff, Option.isSome_none,
    or_iff_right Bool.false_ne_true]
  constructor
  · intro hne
    obtain ⟨q, hq⟩ := List.exists_mem_of_ne_nil _ hne
    obtain ⟨p, hp, hencloses, -⟩ := mem_known_iff.1 hq
    exact ⟨p, hp, hencloses⟩
  · rintro ⟨p, hp, hencloses⟩
    exact List.ne_nil_of_mem (mem_known_iff.2 ⟨p, hp, hencloses, rfl⟩)

/-- A known path leads to where it begins first. -/
theorem find?_eq_lookup (h : path ∈ places.map Prod.fst) :
    places.find? path = places.lookup path := by
  obtain ⟨l, hl⟩ : ∃ l, places.lookup path = some l := by
    obtain ⟨p, hp, hpath⟩ := List.mem_map.1 h
    exact Option.isSome_iff_exists.1 (List.lookup_isSome_iff.2 ⟨p, hp, beq_iff_eq.2 hpath.symm⟩)
  obtain ⟨before, after, rfl, hbefore⟩ := List.lookup_eq_some_iff.1 hl
  have hself : encloses path.toList path.toList = true := encloses_iff.2 (.inl rfl)
  rw [hl, find?, List.map_append, List.map_cons]
  dsimp only
  rw [List.filter_append, List.filter_cons, if_pos hself, foldl_longerPath_append]
  · rfl
  · intro q hq
    obtain ⟨p, hp, hencloses, rfl⟩ := mem_known_iff.1 hq
    exact length_lt_of_encloses hencloses fun hpath =>
      bne_iff_ne.1 (hbefore p hp) (String.toList_inj.1 hpath).symm
  · intro q hq
    obtain ⟨p, -, hencloses, rfl⟩ := mem_known_iff.1 hq
    exact length_le_of_encloses hencloses

theorem locate_of_isAt {e : ParseError} (h : e.IsAt path) :
    places.locate e = { e with location? := places.find? path } := by
  obtain ⟨hfield, hlocation⟩ := h
  rw [locate, hlocation, hfield]

end Places

end Acceptors.Source
