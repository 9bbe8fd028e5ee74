import Mathlib.Data.List.Sort
import Mathlib.Tactic.Common
import Acceptors.Search

/-! A breadth-first search finds exactly the vertices that edges lead to from its starts. What was
seen before the last level is closed under edges, and a level only holds new vertices, so a level is
empty before the fuel of a search is used up. -/

namespace Acceptors.Search

open Relation (ReflTransGen)

variable {bound : Nat} {next : Nat → List Nat} {starts : List Nat} {s : Front} {v : Nat}

def Adjacent (bound : Nat) (next : Nat → List Nat) (u v : Nat) : Prop := v ∈ next u ∧ v < bound

def Reaches (bound : Nat) (next : Nat → List Nat) (starts : List Nat) (v : Nat) : Prop :=
  ∃ u ∈ starts, u < bound ∧ ReflTransGen (Adjacent bound next) u v

theorem Reaches.start (hv : v ∈ starts) (hb : v < bound) : Reaches bound next starts v :=
  ⟨v, hv, hb, .refl⟩

theorem Reaches.tail {u : Nat} (hu : Reaches bound next starts u) (hv : v ∈ next u)
    (hb : v < bound) : Reaches bound next starts v := by
  obtain ⟨w, hw, hwb, hp⟩ := hu
  exact ⟨w, hw, hwb, hp.tail ⟨hv, hb⟩⟩

theorem Reaches.lt_bound (h : Reaches bound next starts v) : v < bound := by
  obtain ⟨u, _, hu, hp⟩ := h
  cases hp with
  | refl => exact hu
  | tail _ he => exact he.2

theorem visit_eq (bound : Nat) (s : Front) (v : Nat) :
    visit bound s v = if v < bound ∧ v ∉ s.seen then ⟨s.seen.insert v, v :: s.level⟩ else s := by
  unfold visit
  by_cases hb : v < bound <;> by_cases hs : v ∈ s.seen <;>
    simp [hb, hs, Nat.not_le.2, Nat.not_lt.1, Std.TreeSet.mem_iff_contains.1]

theorem mem_seen_visit {u : Nat} :
    u ∈ (visit bound s v).seen ↔ u ∈ s.seen ∨ (u = v ∧ v < bound) := by
  rw [visit_eq]
  split
  · rename_i h
    simp only [Std.TreeSet.mem_insert, Std.compare_eq_iff_eq]
    tauto
  · rename_i h
    constructor
    · exact Or.inl
    · rintro (hu | ⟨rfl, hb⟩)
      · exact hu
      · by_contra hs
        exact h ⟨hb, hs⟩

theorem mem_level_visit {u : Nat} :
    u ∈ (visit bound s v).level ↔ u ∈ s.level ∨ (u = v ∧ v < bound ∧ v ∉ s.seen) := by
  rw [visit_eq]
  split
  · rw [List.mem_cons]
    tauto
  · tauto

theorem size_visit (bound : Nat) (s : Front) (v : Nat) :
    (visit bound s v).seen.size + s.level.length =
      s.seen.size + (visit bound s v).level.length := by
  rw [visit_eq]
  split
  · rename_i h
    rw [Std.TreeSet.size_insert, if_neg (by simpa using h.2), List.length_cons]
    omega
  · rfl

section Visits

variable (vs : List Nat)

theorem mem_seen_visits {u : Nat} :
    u ∈ (vs.foldl (visit bound) s).seen ↔ u ∈ s.seen ∨ (u ∈ vs ∧ u < bound) := by
  induction vs generalizing s with
  | nil => simp
  | cons v vs ih =>
    rw [List.foldl_cons, ih, mem_seen_visit, List.mem_cons]
    by_cases hu : u = v
    · subst hu
      tauto
    · tauto

theorem mem_level_visits {u : Nat} :
    u ∈ (vs.foldl (visit bound) s).level ↔
      u ∈ s.level ∨ (u ∈ vs ∧ u < bound ∧ u ∉ s.seen) := by
  induction vs generalizing s with
  | nil => simp
  | cons v vs ih =>
    rw [List.foldl_cons, ih, mem_level_visit, mem_seen_visit, List.mem_cons]
    by_cases hu : u = v
    · subst hu
      tauto
    · tauto

theorem size_visits (bound : Nat) (s : Front) :
    (vs.foldl (visit bound) s).seen.size + s.level.length =
      s.seen.size + (vs.foldl (visit bound) s).level.length := by
  induction vs generalizing s with
  | nil => rfl
  | cons v vs ih =>
    have hv := size_visit bound s v
    have hvs := ih (visit bound s v)
    rw [List.foldl_cons]
    omega

end Visits

/-- What holds of a front between two levels of a search. -/
structure Invariant (bound : Nat) (next : Nat → List Nat) (starts : List Nat) (s : Front) :
    Prop where
  sound : ∀ v ∈ s.seen, Reaches bound next starts v
  starts_seen : ∀ v ∈ starts, v < bound → v ∈ s.seen
  level_seen : ∀ v ∈ s.level, v ∈ s.seen
  closed : ∀ u ∈ s.seen, u ∉ s.level → ∀ v ∈ next u, v < bound → v ∈ s.seen

theorem invariant_start : Invariant bound next starts (start bound starts) where
  sound v hv := by
    rw [start, mem_seen_visits] at hv
    rcases hv with hv | ⟨hv, hb⟩
    · exact absurd hv Std.TreeSet.not_mem_emptyc
    · exact .start hv hb
  starts_seen v hv hb := by
    rw [start, mem_seen_visits]
    exact Or.inr ⟨hv, hb⟩
  level_seen v hv := by
    rw [start, mem_level_visits] at hv
    rw [start, mem_seen_visits]
    rcases hv with hv | ⟨hv, hb, _⟩
    · cases hv
    · exact Or.inr ⟨hv, hb⟩
  closed u hu hl := by
    rw [start, mem_seen_visits] at hu
    rw [start, mem_level_visits] at hl
    rcases hu with hu | ⟨hu, hb⟩
    · exact absurd hu Std.TreeSet.not_mem_emptyc
    · exact absurd (Or.inr ⟨hu, hb, Std.TreeSet.not_mem_emptyc⟩) hl

theorem Invariant.expand (h : Invariant bound next starts s) :
    Invariant bound next starts (expand bound next s) where
  sound v hv := by
    rw [Search.expand, mem_seen_visits] at hv
    rcases hv with hv | ⟨hv, hb⟩
    · exact h.sound v hv
    · obtain ⟨u, hu, hv⟩ := List.mem_flatMap.1 hv
      exact (h.sound u (h.level_seen u (List.mem_reverse.1 hu))).tail hv hb
  starts_seen v hv hb := by
    rw [Search.expand, mem_seen_visits]
    exact Or.inl (h.starts_seen v hv hb)
  level_seen v hv := by
    rw [Search.expand, mem_level_visits] at hv
    rw [Search.expand, mem_seen_visits]
    rcases hv with hv | ⟨hv, hb, _⟩
    · cases hv
    · exact Or.inr ⟨hv, hb⟩
  closed u hu hl v hv hb := by
    rw [Search.expand, mem_seen_visits] at hu ⊢
    rw [Search.expand, mem_level_visits] at hl
    -- a vertex outside the new level is old, and its edges were followed now or before
    have hs : u ∈ s.seen := by tauto
    by_cases hul : u ∈ s.level
    · exact Or.inr ⟨List.mem_flatMap.2 ⟨u, List.mem_reverse.2 hul, hv⟩, hb⟩
    · exact Or.inl (h.closed u hs hul v hv hb)

theorem toList_sorted (seen : Std.TreeSet Nat) : seen.toList.Pairwise (· < ·) :=
  (Std.TreeSet.ordered_toList (t := seen)).imp Nat.compare_eq_lt.1

theorem Invariant.size_le (h : Invariant bound next starts s) : s.seen.size ≤ bound := by
  have hd : s.seen.toList.Nodup := (toList_sorted s.seen).imp Nat.ne_of_lt
  have hs : s.seen.toList ⊆ List.range bound := fun v hv =>
    List.mem_range.2 (h.sound v (Std.TreeSet.mem_toList.1 hv)).lt_bound
  have hl := (List.subperm_of_subset hd hs).length_le
  rwa [Std.TreeSet.length_toList, List.length_range] at hl

theorem size_expand (bound : Nat) (next : Nat → List Nat) (s : Front) :
    (expand bound next s).seen.size = s.seen.size + (expand bound next s).level.length :=
  size_visits (s.level.reverse.flatMap next) bound ⟨s.seen, []⟩

/-- The fuel counts the vertices that were not expanded yet. -/
theorem sweep_spec (fuel : Nat) (h : Invariant bound next starts s)
    (hf : bound + s.level.length ≤ fuel + s.seen.size) :
    Invariant bound next starts (sweep bound next fuel s) ∧
      (sweep bound next fuel s).level = [] := by
  induction fuel generalizing s with
  | zero =>
    have hs := h.size_le
    have hl : s.level.length = 0 := by omega
    exact ⟨h, List.eq_nil_of_length_eq_zero hl⟩
  | succ fuel ih =>
    rw [sweep]
    split
    · rename_i hl
      exact ⟨h, List.isEmpty_iff.1 hl⟩
    · rename_i hl
      have hpos : 0 < s.level.length := List.length_pos_iff.2 (by simpa using hl)
      have hsize := size_expand bound next s
      apply ih h.expand
      omega

theorem size_start (bound : Nat) (starts : List Nat) :
    (start bound starts).seen.size = (start bound starts).level.length := by
  have h := size_visits starts bound ⟨∅, []⟩
  simpa only [start, Std.TreeSet.size_emptyc, List.length_nil, Nat.add_zero,
    Nat.zero_add] using h

theorem Invariant.mem_seen_iff (h : Invariant bound next starts s) (hl : s.level = []) :
    v ∈ s.seen ↔ Reaches bound next starts v := by
  constructor
  · exact h.sound v
  · rintro ⟨u, hu, hub, hp⟩
    induction hp with
    | refl => exact h.starts_seen u hu hub
    | tail _ he ih => exact h.closed _ ih (by simp [hl]) _ he.1 he.2

theorem mem_reached_iff : v ∈ reached bound next starts ↔ Reaches bound next starts v := by
  have hstart : Invariant bound next starts (start bound starts) := invariant_start
  obtain ⟨h, hl⟩ := sweep_spec bound hstart (by rw [size_start])
  exact h.mem_seen_iff hl

theorem mem_reachable_iff : v ∈ reachable bound next starts ↔ Reaches bound next starts v := by
  rw [reachable, Std.TreeSet.mem_toList, mem_reached_iff]

theorem reachable_sorted (bound : Nat) (next : Nat → List Nat) (starts : List Nat) :
    (reachable bound next starts).Pairwise (· < ·) :=
  toList_sorted _

theorem reachable_sublist (bound : Nat) (next : Nat → List Nat) (starts : List Nat) :
    (reachable bound next starts).Sublist (List.range bound) := by
  have hsorted := reachable_sorted bound next starts
  have hsubset : reachable bound next starts ⊆ List.range bound := fun v hv =>
    List.mem_range.2 (mem_reachable_iff.1 hv).lt_bound
  exact List.sublist_of_subperm_of_pairwise
    (List.subperm_of_subset (hsorted.imp Nat.ne_of_lt) hsubset) hsorted List.pairwise_lt_range

theorem mem_unreachable_iff :
    v ∈ unreachable bound next starts ↔ v < bound ∧ ¬Reaches bound next starts v := by
  rw [unreachable, List.mem_filter, List.mem_range, Bool.not_eq_true', ← Bool.not_eq_true,
    ← Std.TreeSet.mem_iff_contains, mem_reached_iff]

section Test

variable {test : Nat → Bool}

/-- The vertices seen before the last level pass a test. -/
def Passed (test : Nat → Bool) (s : Front) : Prop := ∀ v ∈ s.seen, v ∉ s.level → test v = true

theorem Passed.expand (h : Passed test s) (hlevel : ∀ v ∈ s.level, test v = true) :
    Passed test (expand bound next s) := by
  intro v hv hnew
  rw [Search.expand, mem_seen_visits] at hv
  rw [Search.expand, mem_level_visits] at hnew
  have hs : v ∈ s.seen := by tauto
  by_cases hvl : v ∈ s.level
  · exact hlevel v hvl
  · exact h v hs hvl

theorem Passed.all_of_level_eq_nil (hp : Passed test s) (h : Invariant bound next starts s)
    (hl : s.level = []) : ∀ v, Reaches bound next starts v → test v = true := fun v hv =>
  hp v ((h.mem_seen_iff hl).2 hv) (by simp [hl])

theorem holds_spec (fuel : Nat) (h : Invariant bound next starts s) (hp : Passed test s)
    (hf : bound + s.level.length ≤ fuel + s.seen.size) :
    holds bound next test fuel s = true ↔ ∀ v, Reaches bound next starts v → test v = true := by
  induction fuel generalizing s with
  | zero =>
    have hs := h.size_le
    have hl : s.level = [] := List.eq_nil_of_length_eq_zero (by omega)
    rw [holds]
    exact iff_of_true rfl (hp.all_of_level_eq_nil h hl)
  | succ fuel ih =>
    rw [holds]
    by_cases hl : s.level = []
    · simp only [hl, List.isEmpty_nil, Bool.true_or]
      exact iff_of_true trivial (hp.all_of_level_eq_nil h hl)
    rw [Bool.or_eq_true, Bool.and_eq_true, List.all_eq_true, List.isEmpty_iff, or_iff_right hl]
    by_cases hlevel : ∀ v ∈ s.level, test v = true
    · have hpos : 0 < s.level.length := List.length_pos_iff.2 hl
      have hsize := size_expand bound next s
      rw [and_iff_right hlevel]
      exact ih h.expand (hp.expand hlevel) (by omega)
    · refine iff_of_false (fun hboth => hlevel hboth.1) fun hall => hlevel fun v hv => ?_
      exact hall v (h.sound v (h.level_seen v hv))

theorem all_eq_true_iff :
    all bound next starts test = true ↔ ∀ v, Reaches bound next starts v → test v = true := by
  refine holds_spec bound invariant_start (fun v hv hl => ?_) (by rw [size_start])
  rw [start, mem_seen_visits] at hv
  rw [start, mem_level_visits] at hl
  rcases hv with hv | ⟨hv, hb⟩
  · exact absurd hv Std.TreeSet.not_mem_emptyc
  · exact absurd (Or.inr ⟨hv, hb, Std.TreeSet.not_mem_emptyc⟩) hl

end Test

end Acceptors.Search
