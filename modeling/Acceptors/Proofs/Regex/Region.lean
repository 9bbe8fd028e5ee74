import Mathlib.Computability.Language
import Acceptors.Proofs.Nfa.Path

/-! Regions of an automaton. A region owns a range of states and the edges among them; it is entered
at one state, into which no edge of its own leads, and left at states that no edge of its own
leaves. Its language is what paths through it read. Putting regions together with empty moves puts
their languages together, since a path can only cross from one to the next by these moves. -/

namespace Acceptors.Regex

open Nfa (Path)
open scoped Computability

abbrev Links := Nat → Option Char → Nat → Prop

structure Region (first last : Nat) (links : Links) (entry : Nat) (exits : Set Nat)
    (language : Language Char) : Prop where
  entry_bounds : first ≤ entry ∧ entry < last
  exit_bounds : ∀ x ∈ exits, first ≤ x ∧ x < last
  entry_not_exit : entry ∉ exits
  source_bounds : ∀ s label t, links s label t → first ≤ s ∧ s < last
  target_bounds : ∀ s label t, links s label t → first ≤ t ∧ t < last
  not_into_entry : ∀ s label t, links s label t → t ≠ entry
  not_from_exit : ∀ s label t, links s label t → s ∉ exits
  path_iff : ∀ w, (∃ x ∈ exits, Path links entry w x) ↔ w ∈ language

variable {first middle last s t u x y : Nat} {links left right : Links} {entry second : Nat}
  {exits : Set Nat} {language K L : Language Char} {label : Option Char} {w : List Char}

theorem Region.path_bounds (hr : Region first last links entry exits L) (hp : Path links s w t)
    (hs : first ≤ s ∧ s < last) : first ≤ t ∧ t < last := by
  induction hp with
  | nil => exact hs
  | cons h _ ih => exact ih (hr.target_bounds _ _ _ h)

theorem Region.mem_iff (hr : Region first last links entry {x} L) :
    w ∈ L ↔ Path links entry w x := by
  rw [← hr.path_iff w]
  constructor
  · rintro ⟨_, rfl, hp⟩
    exact hp
  · intro hp
    exact ⟨x, rfl, hp⟩

def link (s t : Nat) : Links := fun s' label t' => s' = s ∧ label = none ∧ t' = t

theorem region_start (n : Nat) : Region n (n + 1) (fun _ _ _ => False) n ∅ 0 where
  entry_bounds := ⟨Nat.le_refl n, Nat.lt_succ_self n⟩
  exit_bounds _ hx := hx.elim
  entry_not_exit hx := hx.elim
  source_bounds _ _ _ h := h.elim
  target_bounds _ _ _ h := h.elim
  not_into_entry _ _ _ h := h.elim
  not_from_exit _ _ _ h := h.elim
  path_iff w := by
    constructor
    · rintro ⟨x, hx, _⟩
      exact hx.elim
    · intro h
      exact absurd h (Language.notMem_zero w)

theorem region_single (n : Nat) (label : Option Char) :
    Region n (n + 2) (fun s l t => s = n ∧ l = label ∧ t = n + 1) n {n + 1} {label.toList} where
  entry_bounds := by omega
  exit_bounds x hx := by
    obtain rfl := hx
    omega
  entry_not_exit hx := by
    rw [Set.mem_singleton_iff] at hx
    omega
  source_bounds s l t h := by omega
  target_bounds s l t h := by omega
  not_into_entry s l t h := by omega
  not_from_exit s l t h hx := by
    rw [Set.mem_singleton_iff] at hx
    omega
  path_iff w := by
    constructor
    · rintro ⟨x, rfl, hp⟩
      cases hp with
      | cons h hp =>
        obtain ⟨_, rfl, rfl⟩ := h
        cases hp with
        | nil =>
          rw [List.append_nil]
          exact Set.mem_singleton _
        | cons h _ =>
          obtain ⟨h, _⟩ := h
          omega
    · rintro rfl
      have hp : Path (fun s l t => s = n ∧ l = label ∧ t = n + 1) n (label.toList ++ []) (n + 1) :=
        .cons ⟨rfl, rfl, rfl⟩ (.nil (n + 1))
      rw [List.append_nil] at hp
      exact ⟨n + 1, rfl, hp⟩

/-- Two regions, and a move from a state of the first to the entry of the second. -/
def attach (left right : Links) (bridge second : Nat) : Links := fun s label t =>
  left s label t ∨ right s label t ∨ link bridge second s label t

theorem attach_bounds (hl : Region first middle left entry exits K)
    (hr : Region middle last right second {y} L) (hu : first ≤ u ∧ u < middle)
    (h : attach left right u second s label t) :
    (first ≤ s ∧ s < last) ∧ (first ≤ t ∧ t < last) ∧ t ≠ entry := by
  have hentry := hl.entry_bounds
  have hsecond := hr.entry_bounds
  rcases h with h | h | ⟨rfl, _, rfl⟩
  · have hs := hl.source_bounds _ _ _ h
    have ht := hl.target_bounds _ _ _ h
    exact ⟨by omega, by omega, hl.not_into_entry _ _ _ h⟩
  · have hs := hr.source_bounds _ _ _ h
    have ht := hr.target_bounds _ _ _ h
    exact ⟨by omega, by omega, by omega⟩
  · exact ⟨by omega, by omega, by omega⟩

theorem path_of_chain (hl : Region first middle left entry {x} K)
    (hr : Region middle last right second {y} L) (hp : Path (attach left right x second) s w y) :
    (s < middle → ∃ u v, w = u ++ v ∧ Path left s u x ∧ v ∈ L) ∧
      (middle ≤ s → Path right s w y) := by
  have hx := hl.exit_bounds x rfl
  have hy := hr.exit_bounds y rfl
  induction hp using Path.head_induction with
  | nil => exact ⟨fun hs => by omega, fun _ => .nil y⟩
  | @cons s label t w h _ ih =>
    rcases h with h | h | ⟨rfl, rfl, rfl⟩
    · have hs := hl.source_bounds _ _ _ h
      obtain ⟨u, v, rfl, hu, hv⟩ := ih.1 (hl.target_bounds _ _ _ h).2
      refine ⟨fun _ => ⟨label.toList ++ u, v, ?_, .cons h hu, hv⟩, fun hm => by omega⟩
      rw [List.append_assoc]
    · have hs := hr.source_bounds _ _ _ h
      exact ⟨fun hm => by omega, fun _ => .cons h (ih.2 (hr.target_bounds _ _ _ h).1)⟩
    · have hv : w ∈ L := hr.mem_iff.2 (ih.2 hr.entry_bounds.1)
      exact ⟨fun _ => ⟨[], w, rfl, .nil s, hv⟩, fun hm => by omega⟩

theorem Region.chain (hl : Region first middle left entry {x} K)
    (hr : Region middle last right second {y} L) :
    Region first last (attach left right x second) entry {y} (K * L) := by
  have hx := hl.exit_bounds x rfl
  have hy := hr.exit_bounds y rfl
  have hentry := hl.entry_bounds
  have hsecond := hr.entry_bounds
  refine ⟨by omega, ?_, ?_, fun s label t h => (attach_bounds hl hr hx h).1,
    fun s label t h => (attach_bounds hl hr hx h).2.1,
    fun s label t h => (attach_bounds hl hr hx h).2.2, ?_, fun w => ?_⟩
  · rintro _ rfl
    omega
  · rintro rfl
    omega
  · intro s label t h hs
    rw [Set.mem_singleton_iff] at hs
    rcases h with h | h | ⟨rfl, _, _⟩
    · have := hl.source_bounds _ _ _ h
      omega
    · exact hr.not_from_exit _ _ _ h hs
    · omega
  · rw [Language.mem_mul]
    constructor
    · rintro ⟨_, rfl, hp⟩
      obtain ⟨u, v, rfl, hu, hv⟩ := (path_of_chain hl hr hp).1 hentry.2
      exact ⟨u, hl.mem_iff.2 hu, v, hv, rfl⟩
    · rintro ⟨u, hu, v, hv, rfl⟩
      have hu := hl.mem_iff.1 hu
      have hv := hr.mem_iff.1 hv
      have hlink : link x second x none second := ⟨rfl, rfl, rfl⟩
      exact ⟨y, rfl, (hu.mono fun _ _ _ h => Or.inl h).append
        (.empty (Or.inr (Or.inr hlink)) (hv.mono fun _ _ _ h => Or.inr (Or.inl h)))⟩

theorem path_of_branch (hl : Region first middle left entry exits K)
    (hr : Region middle last right second {y} L)
    (hp : Path (attach left right entry second) s w u) :
    (s < middle → Path left s w u ∨ s = entry ∧ Path right second w u) ∧
      (middle ≤ s → Path right s w u) := by
  have hentry := hl.entry_bounds
  induction hp using Path.head_induction with
  | nil => exact ⟨fun _ => .inl (.nil u), fun _ => .nil u⟩
  | @cons s label t w h _ ih =>
    rcases h with h | h | ⟨rfl, rfl, rfl⟩
    · have hs := hl.source_bounds _ _ _ h
      have ht := hl.target_bounds _ _ _ h
      refine ⟨fun _ => ?_, fun hm => by omega⟩
      -- no edge leads back to the common entry, so the path stays on the left
      rcases ih.1 ht.2 with hp | ⟨rfl, _⟩
      · exact .inl (.cons h hp)
      · exact absurd rfl (hl.not_into_entry _ _ _ h)
    · have hs := hr.source_bounds _ _ _ h
      exact ⟨fun hm => by omega, fun _ => .cons h (ih.2 (hr.target_bounds _ _ _ h).1)⟩
    · exact ⟨fun _ => .inr ⟨rfl, ih.2 hr.entry_bounds.1⟩, fun hm => by omega⟩

theorem Region.branch (hl : Region first middle left entry exits K)
    (hr : Region middle last right second {y} L) :
    Region first last (attach left right entry second) entry (insert y exits) (K + L) := by
  have hy := hr.exit_bounds y rfl
  have hentry := hl.entry_bounds
  have hsecond := hr.entry_bounds
  refine ⟨by omega, ?_, ?_, fun s label t h => (attach_bounds hl hr hentry h).1,
    fun s label t h => (attach_bounds hl hr hentry h).2.1,
    fun s label t h => (attach_bounds hl hr hentry h).2.2, ?_, fun w => ?_⟩
  · rintro x (rfl | hx)
    · omega
    · have := hl.exit_bounds x hx
      omega
  · rintro (rfl | hx)
    · omega
    · exact hl.entry_not_exit hx
  · rintro s label t (h | h | ⟨rfl, _, _⟩) (rfl | hs)
    · have := hl.source_bounds _ _ _ h
      omega
    · exact hl.not_from_exit _ _ _ h hs
    · exact hr.not_from_exit _ _ _ h rfl
    · have := hr.source_bounds _ _ _ h
      have := hl.exit_bounds _ hs
      omega
    · omega
    · exact hl.entry_not_exit hs
  · rw [Language.mem_add, ← hl.path_iff w, hr.mem_iff]
    constructor
    · rintro ⟨u, hu, hp⟩
      rcases (path_of_branch hl hr hp).1 hentry.2 with hp | ⟨_, hp⟩
      · have := hl.path_bounds hp hentry
        rcases hu with rfl | hu
        · omega
        · exact .inl ⟨u, hu, hp⟩
      · have := hr.path_bounds hp hsecond
        rcases hu with rfl | hu
        · exact .inr hp
        · have := hl.exit_bounds u hu
          omega
    · rintro (⟨u, hu, hp⟩ | hp)
      · exact ⟨u, .inr hu, hp.mono fun _ _ _ h => Or.inl h⟩
      · have hlink : link entry second entry none second := ⟨rfl, rfl, rfl⟩
        exact ⟨y, .inl rfl, .empty (Or.inr (Or.inr hlink)) (hp.mono fun _ _ _ h =>
          Or.inr (Or.inl h))⟩

theorem path_of_join (hl : Region first middle left entry exits K)
    (hp : Path (fun s label t => left s label t ∨
      (s ∈ exits ∧ label = none ∧ t = middle)) s w middle) :
    (s < middle → ∃ x ∈ exits, Path left s w x) ∧ (middle ≤ s → w = []) := by
  induction hp using Path.head_induction with
  | nil => exact ⟨fun hs => by omega, fun _ => rfl⟩
  | @cons s label t w h _ ih =>
    rcases h with h | ⟨hx, rfl, rfl⟩
    · have hs := hl.source_bounds _ _ _ h
      obtain ⟨x, hx, hp⟩ := ih.1 (hl.target_bounds _ _ _ h).2
      exact ⟨fun _ => ⟨x, hx, .cons h hp⟩, fun hm => by omega⟩
    · have hs := hl.exit_bounds s hx
      obtain rfl := ih.2 (Nat.le_refl _)
      exact ⟨fun _ => ⟨s, hx, .nil s⟩, fun hm => by omega⟩

theorem Region.join (hl : Region first middle left entry exits K) :
    Region first (middle + 1)
      (fun s label t => left s label t ∨ (s ∈ exits ∧ label = none ∧ t = middle))
      entry {middle} K := by
  have hentry := hl.entry_bounds
  refine ⟨by omega, ?_, ?_, ?_, ?_, ?_, ?_, ?_⟩
  · rintro _ rfl
    omega
  · rintro rfl
    omega
  · rintro s label t (h | ⟨hs, _, _⟩)
    · have := hl.source_bounds _ _ _ h
      omega
    · have := hl.exit_bounds s hs
      omega
  · rintro s label t (h | ⟨_, _, rfl⟩)
    · have := hl.target_bounds _ _ _ h
      omega
    · omega
  · rintro s label t (h | ⟨_, _, rfl⟩)
    · exact hl.not_into_entry _ _ _ h
    · omega
  · rintro s label t (h | ⟨hs, _, _⟩) rfl
    · have := hl.source_bounds _ _ _ h
      omega
    · have := hl.exit_bounds _ hs
      omega
  · intro w
    rw [← hl.path_iff w]
    constructor
    · rintro ⟨_, rfl, hp⟩
      exact (path_of_join hl hp).1 hentry.2
    · rintro ⟨x, hx, hp⟩
      have hout : Path (fun s label t => left s label t ∨ (s ∈ exits ∧ label = none ∧ t = middle))
          x [] middle := .empty (Or.inr ⟨hx, rfl, rfl⟩) (.nil middle)
      have hq := (hp.mono fun _ _ _ h => Or.inl h).append hout
      rw [List.append_nil] at hq
      exact ⟨middle, rfl, hq⟩

/-- The edges around the body of a star: into it, past it, around it and out of it. -/
def loop (body : Links) (entry second x exit : Nat) : Links := fun s label t =>
  body s label t ∨ link entry second s label t ∨ link x second s label t ∨ link x exit s label t ∨
    link entry exit s label t

theorem path_of_loop (hr : Region (first + 1) middle right second {x} L)
    (hp : Path (loop right first second x middle) s w middle) :
    (s = first → w ∈ L∗) ∧
      (first < s → s < middle → ∃ u v, w = u ++ v ∧ Path right s u x ∧ v ∈ L∗) ∧
      (middle ≤ s → w = []) := by
  have hx := hr.exit_bounds x rfl
  have hsecond := hr.entry_bounds
  -- From the entry of the body a path first reads a word of its language.
  have again : ∀ {w}, (∃ u v, w = u ++ v ∧ Path right second u x ∧ v ∈ L∗) → w ∈ L∗ := by
    rintro _ ⟨u, v, rfl, hu, hv⟩
    obtain ⟨pieces, rfl, hpieces⟩ := Language.mem_kstar.1 hv
    refine Language.mem_kstar.2 ⟨u :: pieces, rfl, ?_⟩
    rintro y (_ | ⟨_, hy⟩)
    · exact hr.mem_iff.2 hu
    · exact hpieces y hy
  induction hp using Path.head_induction with
  | nil => exact ⟨fun hs => by omega, fun _ _ => by omega, fun _ => rfl⟩
  | @cons s label t w h _ ih =>
    rcases h with h | ⟨rfl, rfl, rfl⟩ | ⟨rfl, rfl, rfl⟩ | ⟨rfl, rfl, rfl⟩ | ⟨rfl, rfl, rfl⟩
    · have hs := hr.source_bounds _ _ _ h
      have ht := hr.target_bounds _ _ _ h
      obtain ⟨u, v, rfl, hu, hv⟩ := ih.2.1 (by omega) ht.2
      refine ⟨fun hs => by omega, fun _ _ => ⟨label.toList ++ u, v, ?_, .cons h hu, hv⟩,
        fun hm => by omega⟩
      rw [List.append_assoc]
    · exact ⟨fun _ => again (ih.2.1 (by omega) hsecond.2), fun _ _ => by omega, fun hm => by omega⟩
    · have hw := again (ih.2.1 (by omega) hsecond.2)
      exact ⟨fun hs => by omega, fun _ _ => ⟨[], w, rfl, .nil s, hw⟩, fun hm => by omega⟩
    · obtain rfl := ih.2.2 (Nat.le_refl _)
      exact ⟨fun hs => by omega, fun _ _ => ⟨[], [], rfl, .nil s, Language.nil_mem_kstar L⟩,
        fun hm => by omega⟩
    · obtain rfl := ih.2.2 (Nat.le_refl _)
      exact ⟨fun _ => Language.nil_mem_kstar L, fun _ _ => by omega, fun hm => by omega⟩

theorem path_loop_flatten (hr : Region (first + 1) middle right second {x} L)
    (hs : s = first ∨ s = x) {pieces : List (List Char)} (hpieces : ∀ u ∈ pieces, u ∈ L) :
    Path (loop right first second x middle) s pieces.flatten middle := by
  have hin : ∀ {s}, s = first ∨ s = x → loop right first second x middle s none second := by
    rintro s (rfl | rfl)
    · exact .inr (.inl ⟨rfl, rfl, rfl⟩)
    · exact .inr (.inr (.inl ⟨rfl, rfl, rfl⟩))
  have hout : ∀ {s}, s = first ∨ s = x → loop right first second x middle s none middle := by
    rintro s (rfl | rfl)
    · exact .inr (.inr (.inr (.inr ⟨rfl, rfl, rfl⟩)))
    · exact .inr (.inr (.inr (.inl ⟨rfl, rfl, rfl⟩)))
  induction pieces generalizing s with
  | nil => exact .empty (hout hs) (.nil middle)
  | cons u pieces ih =>
    have hu := hr.mem_iff.1 (hpieces u List.mem_cons_self)
    exact .empty (hin hs) ((hu.mono fun _ _ _ h => Or.inl h).append
      (ih (.inr rfl) fun v hv => hpieces v (List.mem_cons_of_mem u hv)))

theorem Region.star (hr : Region (first + 1) middle right second {x} L) :
    Region first (middle + 1) (loop right first second x middle) first {middle} L∗ := by
  have hx := hr.exit_bounds x rfl
  have hsecond := hr.entry_bounds
  refine ⟨by omega, ?_, ?_, ?_, ?_, ?_, ?_, ?_⟩
  · rintro _ rfl
    omega
  · rintro rfl
    omega
  · rintro s label t (h | ⟨rfl, _⟩ | ⟨rfl, _⟩ | ⟨rfl, _⟩ | ⟨rfl, _⟩)
    · have := hr.source_bounds _ _ _ h
      omega
    all_goals omega
  · rintro s label t (h | ⟨_, _, rfl⟩ | ⟨_, _, rfl⟩ | ⟨_, _, rfl⟩ | ⟨_, _, rfl⟩)
    · have := hr.target_bounds _ _ _ h
      omega
    all_goals omega
  · rintro s label t (h | ⟨_, _, rfl⟩ | ⟨_, _, rfl⟩ | ⟨_, _, rfl⟩ | ⟨_, _, rfl⟩)
    · have := hr.target_bounds _ _ _ h
      omega
    all_goals omega
  · rintro s label t (h | ⟨rfl, _⟩ | ⟨rfl, _⟩ | ⟨rfl, _⟩ | ⟨rfl, _⟩) hs <;>
      rw [Set.mem_singleton_iff] at hs
    · have := hr.source_bounds _ _ _ h
      omega
    all_goals omega
  · intro w
    constructor
    · rintro ⟨_, rfl, hp⟩
      exact (path_of_loop hr hp).1 rfl
    · intro hw
      obtain ⟨pieces, rfl, hpieces⟩ := Language.mem_kstar.1 hw
      exact ⟨middle, rfl, path_loop_flatten hr (.inl rfl) hpieces⟩

end Acceptors.Regex
