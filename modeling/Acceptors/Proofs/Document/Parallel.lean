import Mathlib.Data.List.Forall2
import Mathlib.Tactic.Common
import Acceptors.Document.Scan

/-! Scans of two texts side by side. Begun at places that correspond, both scanners fail, or both
succeed with results that correspond and go on at places that correspond. What was tried before does
not matter. -/

namespace Acceptors.Scan

variable {α β α' β' : Type} {P Q R : Cursor → Cursor → Prop} {S : α → α' → Prop} {T : β → β' → Prop}
  {p p₁ p₂ : Scan α} {p' p₁' p₂' : Scan α'} {q : α → Scan β} {q' : α' → Scan β'}

inductive SameOutcome (Q : Cursor → Cursor → Prop) (S : α → α' → Prop) :
    Attempts × Option (α × Cursor) → Attempts × Option (α' × Cursor) → Prop
  | failed {a a' : Attempts} : SameOutcome Q S (a, none) (a', none)
  | found {a a' : Attempts} {x : α} {x' : α'} {c c' : Cursor} (hx : S x x') (hc : Q c c') :
      SameOutcome Q S (a, some (x, c)) (a', some (x', c'))

def Parallel (P Q : Cursor → Cursor → Prop) (S : α → α' → Prop) (p : Scan α)
    (p' : Scan α') : Prop :=
  ∀ c c' a a', P c c' → SameOutcome Q S (p c a) (p' c' a')

theorem Parallel.imp {P' Q' : Cursor → Cursor → Prop} {S' : α → α' → Prop} (h : Parallel P Q S p p')
    (hP : ∀ c c', P' c c' → P c c') (hQ : ∀ c c', Q c c' → Q' c c')
    (hS : ∀ x x', S x x' → S' x x') :
    Parallel P' Q' S' p p' := by
  intro c c' a a' hc
  have hp := h c c' a a' (hP c c' hc)
  generalize p c a = r at hp ⊢
  generalize p' c' a' = r' at hp ⊢
  cases hp with
  | failed => exact .failed
  | found hx hd => exact .found (hS _ _ hx) (hQ _ _ hd)

theorem parallel_pure {x : α} {x' : α'} (hx : S x x') :
    Parallel P P S (Pure.pure x : Scan α) (Pure.pure x' : Scan α') :=
  fun _ _ _ _ hc => .found hx hc

theorem Parallel.bind (h : Parallel P Q S p p')
    (hq : ∀ x x', S x x' → Parallel Q R T (q x) (q' x')) :
    Parallel P R T (p >>= q) (p' >>= q') := by
  intro c c' a a' hc
  change SameOutcome R T (Scan.bind p q c a) (Scan.bind p' q' c' a')
  have hp := h c c' a a' hc
  rw [Scan.bind, Scan.bind]
  generalize p c a = r at hp ⊢
  generalize p' c' a' = r' at hp ⊢
  cases hp with
  | failed => exact .failed
  | found hx hd => exact hq _ _ hx _ _ _ _ hd

theorem Parallel.map {f : α → β} {f' : α' → β'} (h : Parallel P Q S p p')
    (hf : ∀ x x', S x x' → T (f x) (f' x')) :
    Parallel P Q T (f <$> p) (f' <$> p') :=
  h.bind fun x x' hx => parallel_pure (hf x x' hx)

theorem Parallel.orElse (h₁ : Parallel P Q S p₁ p₁') (h₂ : Parallel P Q S p₂ p₂') :
    Parallel P Q S (p₁ <|> p₂) (p₁' <|> p₂') := by
  intro c c' a a' hc
  change SameOutcome Q S (Scan.orElse p₁ p₂ c a) (Scan.orElse p₁' p₂' c' a')
  have hp := h₁ c c' a a' hc
  rw [Scan.orElse, Scan.orElse]
  generalize p₁ c a = r at hp ⊢
  generalize p₁' c' a' = r' at hp ⊢
  cases hp with
  | failed => exact h₂ _ _ _ _ hc
  | found hx hd => exact .found hx hd

theorem Parallel.optional (h : Parallel P P S p p') :
    Parallel P P (Option.Rel S) p.optional p'.optional := by
  intro c c' a a' hc
  have hp := h c c' a a' hc
  rw [Scan.optional, Scan.optional]
  generalize p c a = r at hp ⊢
  generalize p' c' a' = r' at hp ⊢
  cases hp with
  | failed => exact .found .none hc
  | found hx hd => exact .found (.some hx) hd

theorem Parallel.ahead (h : Parallel P Q S p p') :
    Parallel P P (fun _ _ => True) p.ahead p'.ahead := by
  intro c c' a a' hc
  have hp := h c c' a a' hc
  rw [Scan.ahead, Scan.ahead]
  generalize p c a = r at hp ⊢
  generalize p' c' a' = r' at hp ⊢
  cases hp with
  | failed => exact .failed
  | found _ _ => exact .found trivial hc

theorem Parallel.named (construct : Construct) (h : Parallel P Q S p p') :
    Parallel P Q S (named construct p) (named construct p') := by
  intro c c' a a' hc
  have hp := h c c' a a' hc
  rw [Scan.named, Scan.named]
  generalize p c a = r at hp ⊢
  generalize p' c' a' = r' at hp ⊢
  cases hp with
  | failed => exact .failed
  | found hx hd => exact .found hx hd

theorem parallel_location {L : Location → Location → Prop}
    (h : ∀ c c', P c c' → L c.location c'.location) :
    Parallel P P L location location :=
  fun c c' _ _ hc => .found (h c c' hc) hc

theorem parallel_endOfText (h : ∀ c c', P c c' → c.rest.isEmpty = c'.rest.isEmpty) :
    Parallel P P (fun _ _ => True) endOfText endOfText := by
  refine Parallel.named .endOfInput fun c c' a a' hc => ?_
  simp only [h c c' hc]
  split
  · exact .found trivial hc
  · exact .failed

variable {W : Nat → Cursor → Cursor → Prop} {n k k' : Nat}

/-- Each round reads something of both texts, so that `n`, a bound on what is left, is limit
enough. -/
theorem Parallel.manyAfter (h : ∀ m < n, Parallel (W (m + 1)) (W m) S p p')
    (hzero : ∀ c c', ¬W 0 c c') (hsucc : ∀ m c c', W m c c' → W (m + 1) c c') (hk : n ≤ k)
    (hk' : n ≤ k') {found : List α} {found' : List α'} (hfound : List.Forall₂ S found found') :
    Parallel (W n) (W n) (List.Forall₂ S) (manyAfter p k found) (manyAfter p' k' found') := by
  induction n generalizing k k' found found' with
  | zero => exact fun c c' a a' hc => absurd hc (hzero c c')
  | succ n ih =>
    obtain ⟨k, rfl⟩ := Nat.exists_eq_add_one_of_ne_zero (Nat.ne_zero_of_lt hk)
    obtain ⟨k', rfl⟩ := Nat.exists_eq_add_one_of_ne_zero (Nat.ne_zero_of_lt hk')
    intro c c' a a' hc
    have hp := h n (Nat.lt_succ_self n) c c' a a' hc
    rw [Scan.manyAfter, Scan.manyAfter]
    generalize p c a = r at hp ⊢
    generalize p' c' a' = r' at hp ⊢
    cases hp with
    | failed => exact .found (List.rel_reverse hfound) hc
    | found hx hd =>
      have hrest := ih (fun m hm => h m (Nat.lt_succ_of_lt hm)) (Nat.le_of_succ_le_succ hk)
        (Nat.le_of_succ_le_succ hk') (.cons hx hfound)
      exact hrest.imp (fun _ _ h => h) (hsucc n) (fun _ _ h => h) _ _ _ _ hd

theorem Parallel.many (h : ∀ m < n, Parallel (W (m + 1)) (W m) S p p') (hzero : ∀ c c', ¬W 0 c c')
    (hsucc : ∀ m c c', W m c c' → W (m + 1) c c') (hk : n ≤ k) (hk' : n ≤ k') :
    Parallel (W n) (W n) (List.Forall₂ S) (many k p) (many k' p') :=
  manyAfter h hzero hsucc hk hk' .nil

end Acceptors.Scan
