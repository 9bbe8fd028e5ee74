import Mathlib.Data.List.TakeDrop
import Mathlib.Tactic.Common
import Acceptors.Document.Scan

/-! What scanners do with a text, whatever was tried before and wherever the text stands. A scanner
reads the front of a text up to some rest, or it fails on the text. -/

namespace Acceptors.Scan

variable {α β : Type} {p p₁ p₂ : Scan α} {q : α → Scan β} {t t' t'' : List Char} {P Q : α → Prop}
  {R : β → Prop} {construct : Construct} {x : Char} {inClass : Char → Bool}

def Reads (p : Scan α) (t t' : List Char) (P : α → Prop) : Prop :=
  ∀ c a, c.rest = t → ∃ x c' a', p c a = (a', some (x, c')) ∧ c'.rest = t' ∧ P x

def Fails (p : Scan α) (t : List Char) : Prop := ∀ c a, c.rest = t → ∃ a', p c a = (a', none)

theorem Reads.imp (h : Reads p t t' P) (hpq : ∀ x, P x → Q x) : Reads p t t' Q := by
  intro c a hc
  obtain ⟨x, c', a', hp, hrest, hx⟩ := h c a hc
  exact ⟨x, c', a', hp, hrest, hpq x hx⟩

theorem reads_pure (x : α) : Reads (Pure.pure x : Scan α) t t (· = x) :=
  fun c a hc => ⟨x, c, a, rfl, hc, rfl⟩

theorem Reads.bind (h : Reads p t t' P) (hq : ∀ x, P x → Reads (q x) t' t'' R) :
    Reads (p >>= q) t t'' R := by
  intro c a hc
  obtain ⟨x, c', a', hp, hrest, hx⟩ := h c a hc
  obtain ⟨y, c'', a'', hqx, hrest', hy⟩ := hq x hx c' a' hrest
  refine ⟨y, c'', a'', ?_, hrest', hy⟩
  change Scan.bind p q c a = _
  rw [Scan.bind, hp]
  exact hqx

theorem Fails.bind (h : Fails p t) : Fails (p >>= q) t := by
  intro c a hc
  obtain ⟨a', hp⟩ := h c a hc
  refine ⟨a', ?_⟩
  change Scan.bind p q c a = _
  rw [Scan.bind, hp]

theorem Reads.bind_fails (h : Reads p t t' P) (hq : ∀ x, P x → Fails (q x) t') :
    Fails (p >>= q) t := by
  intro c a hc
  obtain ⟨x, c', a', hp, hrest, hx⟩ := h c a hc
  obtain ⟨a'', hqx⟩ := hq x hx c' a' hrest
  refine ⟨a'', ?_⟩
  change Scan.bind p q c a = _
  rw [Scan.bind, hp]
  exact hqx

theorem Reads.map (f : α → β) (h : Reads p t t' P) :
    Reads (f <$> p) t t' fun y => ∃ x, P x ∧ y = f x :=
  h.bind fun x hx => (reads_pure (f x)).imp fun _ hy => ⟨x, hx, hy⟩

theorem Fails.map (f : α → β) (h : Fails p t) : Fails (f <$> p) t := h.bind

theorem Reads.orElse (h : Reads p₁ t t' P) : Reads (p₁ <|> p₂) t t' P := by
  intro c a hc
  obtain ⟨x, c', a', hp, hrest, hx⟩ := h c a hc
  refine ⟨x, c', a', ?_, hrest, hx⟩
  change Scan.orElse p₁ p₂ c a = _
  rw [Scan.orElse, hp]

theorem Fails.orElse_reads (h : Fails p₁ t) (h₂ : Reads p₂ t t' P) : Reads (p₁ <|> p₂) t t' P := by
  intro c a hc
  obtain ⟨a', hp⟩ := h c a hc
  obtain ⟨x, c', a'', hp₂, hrest, hx⟩ := h₂ c a' hc
  refine ⟨x, c', a'', ?_, hrest, hx⟩
  change Scan.orElse p₁ p₂ c a = _
  rw [Scan.orElse, hp]
  exact hp₂

theorem Fails.orElse (h : Fails p₁ t) (h₂ : Fails p₂ t) : Fails (p₁ <|> p₂) t := by
  intro c a hc
  obtain ⟨a', hp⟩ := h c a hc
  obtain ⟨a'', hp₂⟩ := h₂ c a' hc
  refine ⟨a'', ?_⟩
  change Scan.orElse p₁ p₂ c a = _
  rw [Scan.orElse, hp]
  exact hp₂

theorem Reads.optional (h : Reads p t t' P) :
    Reads p.optional t t' fun o => ∃ x, o = some x ∧ P x := by
  intro c a hc
  obtain ⟨x, c', a', hp, hrest, hx⟩ := h c a hc
  refine ⟨some x, c', a', ?_, hrest, x, rfl, hx⟩
  rw [Scan.optional, hp]

theorem Fails.optional (h : Fails p t) : Reads p.optional t t (· = none) := by
  intro c a hc
  obtain ⟨a', hp⟩ := h c a hc
  refine ⟨none, c, a', ?_, hc, rfl⟩
  rw [Scan.optional, hp]

theorem Reads.ahead (h : Reads p t t' P) : Reads p.ahead t t fun _ => True := by
  intro c a hc
  obtain ⟨x, c', a', hp, -⟩ := h c a hc
  refine ⟨(), c, a', ?_, hc, trivial⟩
  rw [Scan.ahead, hp]

theorem Reads.named (construct : Construct) (h : Reads p t t' P) :
    Reads (named construct p) t t' P := by
  intro c a hc
  obtain ⟨x, c', a', hp, hrest, hx⟩ := h c a hc
  refine ⟨x, c', a', ?_, hrest, hx⟩
  rw [Scan.named, hp]

theorem Fails.named (construct : Construct) (h : Fails p t) : Fails (named construct p) t := by
  intro c a hc
  obtain ⟨a', hp⟩ := h c a hc
  exact ⟨a'.record c construct (a.countAt c), by rw [Scan.named, hp]⟩

theorem fails_fail : Fails (fail : Scan α) t := fun _ a _ => ⟨a, rfl⟩

theorem reads_location : Reads location t t fun _ => True :=
  fun c a hc => ⟨c.location, c, a, rfl, hc, trivial⟩

theorem reads_part {cut : List Char → List Char × List Char} {read : List Char}
    (h : cut t = (read, t')) :
    Reads (part cut) t t' (· = read) := by
  intro c a hc
  refine ⟨read, c.after read t', a, ?_, rfl, rfl⟩
  rw [part, hc, h]

theorem reads_skip (inClass : Char → Bool) :
    Reads (skip inClass) t (t.dropWhile inClass) (· = t.takeWhile inClass) :=
  reads_part (List.span_eq_takeWhile_dropWhile inClass t)

theorem span_append_cons {inClass : Char → Bool} {xs : List Char} {y : Char}
    (hxs : ∀ x ∈ xs, inClass x = true) (hy : inClass y = false) :
    (xs ++ y :: t).span inClass = (xs, y :: t) := by
  rw [List.span_eq_takeWhile_dropWhile, List.takeWhile_append_of_pos hxs,
    List.dropWhile_append_of_pos hxs, List.takeWhile_cons_of_neg (by simp [hy]),
    List.dropWhile_cons_of_neg (by simp [hy]), List.append_nil]

theorem reads_skip_append (inClass : Char → Bool) {xs : List Char} {y : Char}
    (hxs : ∀ x ∈ xs, inClass x = true) (hy : inClass y = false) :
    Reads (skip inClass) (xs ++ y :: t) (y :: t) (· = xs) :=
  reads_part (span_append_cons hxs hy)

theorem reads_skip_nil (inClass : Char → Bool) : Reads (skip inClass) [] [] (· = []) :=
  reads_skip inClass

theorem reads_skip_nothing (hx : inClass x = false) :
    Reads (skip inClass) (x :: t) (x :: t) (· = []) :=
  reads_skip_append inClass (List.forall_mem_nil _) hx

theorem reads_skip1 (hx : inClass x = true) :
    Reads (skip1 inClass) (x :: t) (t.dropWhile inClass) fun _ => True := by
  intro c a hc
  obtain ⟨y, c', a', hp, hrest, -⟩ := reads_skip (t := x :: t) inClass c a hc
  refine ⟨y, c', a', ?_, ?_, trivial⟩
  · rw [skip1, hc]
    simp only [hx, if_true, hp]
  · rw [hrest, List.dropWhile_cons_of_pos hx]

theorem reads_skip1_single {y : Char} (hx : inClass x = true) (hy : inClass y = false) :
    Reads (skip1 inClass) (x :: y :: t) (y :: t) fun _ => True := by
  have h := reads_skip1 (t := y :: t) hx
  rwa [List.dropWhile_cons_of_neg (by simp [hy])] at h

theorem fails_skip1 (hx : inClass x = false) : Fails (skip1 inClass) (x :: t) := by
  intro c a hc
  refine ⟨a, ?_⟩
  rw [skip1, hc]
  simp only [hx, Bool.false_eq_true, if_false]

theorem fails_next (ht : ∀ x ∈ t.head?, inClass x = false) : Fails (next inClass) t := by
  intro c a hc
  refine ⟨a, ?_⟩
  rw [next, hc]
  cases t with
  | nil => rfl
  | cons x t => simp only [ht x rfl, Bool.false_eq_true, if_false]

theorem reads_char (x : Char) : Reads (char x) (x :: t) t fun _ => True := by
  intro c a hc
  refine ⟨(), c.after [x] t, a, ?_, rfl, trivial⟩
  rw [char, hc]
  exact if_pos rfl

theorem fails_char (ht : t.head? ≠ some x) : Fails (char x) t := by
  intro c a hc
  refine ⟨a, ?_⟩
  rw [char, hc]
  cases t with
  | nil => rfl
  | cons y t => exact if_neg fun hy => ht (congrArg some hy)

theorem reads_newline : Reads newline ('\n' :: t) t fun _ => True := by
  intro c a hc
  refine ⟨(), c.after ['\n'] t, a, ?_, rfl, trivial⟩
  simp only [newline, hc]

theorem fails_newline_nil : Fails newline [] := by
  intro c a hc
  refine ⟨a, ?_⟩
  rw [newline, hc]

theorem reads_endOfText : Reads endOfText [] [] fun _ => True := by
  refine Reads.named .endOfInput fun c a hc => ⟨(), c, a, ?_, hc, trivial⟩
  simp only [hc, List.isEmpty_nil, if_true]

theorem Reads.manyAfter {k : Nat} {found : List α} {S : List α → Prop} (h : Reads p t t' P)
    (hrest : ∀ x, P x → Reads (manyAfter p k (x :: found)) t' t'' S) :
    Reads (manyAfter p (k + 1) found) t t'' S := by
  intro c a hc
  obtain ⟨x, c', a', hp, hc', hx⟩ := h c a hc
  obtain ⟨xs, c'', a'', hmany, hc'', hxs⟩ := hrest x hx c' a' hc'
  refine ⟨xs, c'', a'', ?_, hc'', hxs⟩
  rw [Scan.manyAfter, hp]
  exact hmany

theorem Fails.manyAfter (h : Fails p t) (k : Nat) (found : List α) :
    Reads (manyAfter p k found) t t (· = found.reverse) := by
  intro c a hc
  cases k with
  | zero => exact ⟨found.reverse, c, a, rfl, hc, rfl⟩
  | succ k =>
    obtain ⟨a', hp⟩ := h c a hc
    refine ⟨found.reverse, c, a', ?_, hc, rfl⟩
    rw [Scan.manyAfter, hp]

/-! Scans that succeeded. -/

variable {c c' c'' : Cursor} {found : List α} {z : α} {y : β}

def Finds (p : Scan α) (c : Cursor) (x : α) (c' : Cursor) : Prop :=
  ∃ a a', p c a = (a', some (x, c'))

theorem Finds.of_named (h : Finds (named construct p) c z c') : Finds p c z c' := by
  obtain ⟨a, a', h⟩ := h
  rw [Scan.named] at h
  split at h
  · cases h
  · exact ⟨a, a', h⟩

theorem Finds.of_pure {w : α} (h : Finds (Pure.pure w : Scan α) c z c') : z = w ∧ c' = c := by
  obtain ⟨a, a', h⟩ := h
  cases h
  exact ⟨rfl, rfl⟩

theorem Finds.of_bind (h : Finds (p >>= q) c y c'') :
    ∃ x c', Finds p c x c' ∧ Finds (q x) c' y c'' := by
  obtain ⟨a, a'', h⟩ := h
  change Scan.bind p q c a = _ at h
  rw [Scan.bind] at h
  split at h
  · rename_i a' x c' hp
    exact ⟨x, c', ⟨a, a', hp⟩, a', a'', h⟩
  · cases h

theorem Finds.of_endOfText {u : Unit} (h : Finds endOfText c u c') : c.rest = [] := by
  obtain ⟨a, a', h⟩ := h.of_named
  beta_reduce at h
  split at h
  · rename_i hempty
    exact List.isEmpty_iff.1 hempty
  · cases h

inductive Repeated (p : Scan α) : Cursor → List α → Cursor → Prop
  | nil (c : Cursor) : Repeated p c [] c
  | cons {c c' c'' : Cursor} {x : α} {xs : List α} (h : Finds p c x c')
      (hrest : Repeated p c' xs c'') :
      Repeated p c (x :: xs) c''

theorem Finds.of_manyAfter {k : Nat} {xs : List α} (h : Finds (manyAfter p k found) c xs c'') :
    ∃ ys, xs = found.reverse ++ ys ∧ Repeated p c ys c'' := by
  induction k generalizing found c with
  | zero =>
    obtain ⟨a, a', h⟩ := h
    cases h
    exact ⟨[], (List.append_nil _).symm, .nil _⟩
  | succ k ih =>
    obtain ⟨a, a'', h⟩ := h
    rw [Scan.manyAfter] at h
    split at h
    · rename_i a' x c' hp
      obtain ⟨ys, rfl, hys⟩ := ih ⟨a', a'', h⟩
      refine ⟨x :: ys, ?_, .cons ⟨a, a', hp⟩ hys⟩
      rw [List.reverse_cons, List.append_assoc, List.singleton_append]
    · cases h
      exact ⟨[], (List.append_nil _).symm, .nil _⟩

end Acceptors.Scan
