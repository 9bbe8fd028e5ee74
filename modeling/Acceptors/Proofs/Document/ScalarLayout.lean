import Mathlib.Data.List.Forall2
import Mathlib.Data.List.TakeWhile
import Mathlib.Tactic.Common
import Acceptors.Proofs.Document.Layout
import Acceptors.Proofs.Document.Parallel

/-! Scalars of a text in two layouts. A scanner of scalars stops at a line end, whatever it is made
of, and what it reads on a line stays the same. -/

namespace Acceptors.Layout

open Scan (Parallel parallel_pure)
open Syntax

variable {y : Layout} {n : Nat} {c c' : Cursor} {t : List Char} {x : Char} {p : Char → Bool}

theorem Inside.rest_cases (h : y.Inside n c c') :
    (c.rest = [] ∧ c'.rest = []) ∨
      (∃ x t, c.rest = x :: t ∧ isLineEnd x = false ∧ c'.rest = x :: y.within t) ∨
      ∃ t z zs, c.rest = '\n' :: t ∧ c'.rest = z :: zs ∧ isLineEnd z = true := by
  have hplain := h.plain
  rw [h.rest]
  generalize c.rest = t at hplain ⊢
  cases t with
  | nil => exact .inl ⟨rfl, rfl⟩
  | cons x t =>
    by_cases hx : x = '\n'
    · obtain ⟨z, zs, hend, hz⟩ := exists_lineEnd_eq_cons y.lineEnd
      refine .inr (.inr ⟨t, z, zs ++ (y.blanks ++ y.within t), by rw [hx], ?_, hz⟩)
      rw [hx, within_newline, hend, List.cons_append]
    · exact .inr (.inl ⟨x, t, rfl, hplain.not_isLineEnd hx, within_cons hx t⟩)

theorem parallel_char (hx : isLineEnd x = false) :
    Parallel (y.Inside (n + 1)) (y.Inside n) (fun _ _ => True) (Scan.char x) (Scan.char x) := by
  intro c c' a a' hc
  have hsize := hc.size
  rw [Scan.char, Scan.char]
  rcases hc.rest_cases with
    ⟨hrest, hrest'⟩ | ⟨z, t, hrest, hz, hrest'⟩ | ⟨t, z, zs, hrest, hrest', hz⟩
  · simp only [hrest, hrest']
    exact .failed
  · rw [hrest, List.length_cons] at hsize
    simp only [hrest, hrest']
    split
    · have hne : ∀ w ∈ [z], w ≠ '\n' := by
        rintro w hw rfl
        rw [← List.mem_singleton.1 hw] at hz
        cases hz
      have hafter : y.Inside n (c.after [z] t) (c'.after (y.within [z]) (y.within t)) :=
        hc.after hrest (Nat.lt_of_succ_lt_succ hsize)
      rw [within_eq_self hne] at hafter
      exact .found trivial hafter
    · exact .failed
  · have hnext : '\n' ≠ x := fun h => by rw [← h] at hx; cases hx
    have hz' : z ≠ x := fun h => by rw [h, hx] at hz; cases hz
    simp only [hrest, hrest', if_neg hnext, if_neg hz']
    exact .failed

theorem parallel_char_of_inside (hx : isLineEnd x = false) :
    Parallel (y.Inside n) (y.Inside n) (fun _ _ => True) (Scan.char x) (Scan.char x) := by
  cases n with
  | zero => exact fun c c' _ _ hc => absurd hc (not_inside_zero c c')
  | succ n => exact (parallel_char hx).imp (fun _ _ h => h) (fun _ _ h => h.succ) (fun _ _ h => h)

theorem parallel_next (hp : ∀ x, isLineEnd x = true → p x = false) :
    Parallel (y.Inside n) (y.Inside n) (fun _ _ => True) (Scan.next p) (Scan.next p) := by
  intro c c' a a' hc
  rw [Scan.next, Scan.next]
  rcases hc.rest_cases with
    ⟨hrest, hrest'⟩ | ⟨z, t, hrest, hz, hrest'⟩ | ⟨t, z, zs, hrest, hrest', hz⟩
  · simp only [hrest, hrest']
    exact .failed
  · simp only [hrest, hrest']
    split
    · exact .found trivial hc
    · exact .failed
  · simp only [hrest, hrest', hp '\n' rfl, hp z hz, Bool.false_eq_true, if_false]
    exact .failed

theorem parallel_part {cut : List Char → List Char × List Char} {S : List Char → List Char → Prop}
    (hcut : ∀ t, PlainLines t → ∃ xs rest, t = xs ++ rest ∧ cut t = (xs, rest) ∧
      cut (y.within t) = (y.within xs, y.within rest) ∧ S xs (y.within xs)) :
    Parallel (y.Inside n) (y.Inside n) S (Scan.part cut) (Scan.part cut) := by
  intro c c' a a' hc
  obtain ⟨xs, rest, ht, hread, hread', hS⟩ := hcut c.rest hc.plain
  have hsize := hc.size
  rw [ht, List.length_append] at hsize
  rw [Scan.part, Scan.part, hc.rest, hread, hread']
  exact .found hS (hc.after ht (Nat.lt_of_le_of_lt (Nat.le_add_left _ _) hsize))

theorem parallel_skip (hdrop : ∀ t, (y.within t).dropWhile p = y.within (t.dropWhile p)) :
    Parallel (y.Inside n) (y.Inside n) (fun _ _ => True) (Scan.skip p) (Scan.skip p) := by
  refine parallel_part fun t _ => ⟨t.takeWhile p, t.dropWhile p,
    List.takeWhile_append_dropWhile.symm,
    List.span_eq_takeWhile_dropWhile p t, ?_, trivial⟩
  have hparts : (y.within t).takeWhile p ++ y.within (t.dropWhile p) =
      y.within (t.takeWhile p) ++ y.within (t.dropWhile p) := by
    rw [← hdrop t, List.takeWhile_append_dropWhile, hdrop t, ← within_append,
      List.takeWhile_append_dropWhile]
  rw [List.span_eq_takeWhile_dropWhile, hdrop, List.append_cancel_right hparts]

theorem parallel_skip1 (hp : ∀ x, isLineEnd x = true → p x = false) :
    Parallel (y.Inside n) (y.Inside n) (fun _ _ => True) (Scan.skip1 p) (Scan.skip1 p) := by
  intro c c' a a' hc
  rw [Scan.skip1, Scan.skip1]
  rcases hc.rest_cases with
    ⟨hrest, hrest'⟩ | ⟨z, t, hrest, hz, hrest'⟩ | ⟨t, z, zs, hrest, hrest', hz⟩
  · simp only [hrest, hrest']
    exact .failed
  · simp only [hrest, hrest']
    split
    · exact parallel_skip (dropWhile_within hp) c c' a a' hc
    · exact .failed
  · simp only [hrest, hrest', hp '\n' rfl, hp z hz, Bool.false_eq_true, if_false]
    exact .failed

theorem isBlank_of_isLineEnd (hx : isLineEnd x = true) : isBlank x = false := by
  rw [isLineEnd, Bool.or_eq_true, beq_iff_eq, beq_iff_eq] at hx
  rcases hx with rfl | rfl <;> rfl

theorem isPlain_of_isLineEnd (hx : isLineEnd x = true) : isPlain x = false := by
  rw [isLineEnd, Bool.or_eq_true, beq_iff_eq, beq_iff_eq] at hx
  rcases hx with rfl | rfl <;> rfl

theorem parallel_skipBlanks :
    Parallel (y.Inside n) (y.Inside n) (fun _ _ => True) skipBlanks skipBlanks :=
  parallel_skip (dropWhile_within fun _ => isBlank_of_isLineEnd)

theorem parallel_skipSpace :
    Parallel (y.Inside n) (y.Inside n) (fun _ _ => True) skipSpace skipSpace :=
  parallel_skip (dropWhile_within_of_space fun _ h => h)

/-! Scalars. -/

theorem singleText_stop (hx : isLineEnd x = true) (read rest : List Char) :
    singleText read (x :: rest) = (read.reverse, x :: rest) := by
  rw [singleText, if_pos (by rw [hx, Bool.or_true])]
  rintro t rfl _
  cases hx

theorem doubleText_stop (hx : isLineEnd x = true) (read rest : List Char) :
    doubleText read (x :: rest) = (read.reverse, x :: rest) := by
  rw [doubleText, if_pos (by rw [hx, Bool.or_true])]
  rintro z t rfl _
  cases hx

theorem singleText_within (read : List Char) (ht : PlainLines t) :
    ∃ xs rest, t = xs ++ rest ∧ (∀ x ∈ xs, x ≠ '\n') ∧
    singleText read t = (read.reverse ++ xs, rest) ∧
      singleText read (y.within t) = (read.reverse ++ xs, y.within rest) := by
  fun_induction singleText read t with
  | case1 read rest ih =>
    obtain ⟨xs, rest, rfl, hxs, heq, heq'⟩ := ih ht.tail.tail
    refine ⟨'\'' :: '\'' :: xs, rest, rfl, by simpa using hxs, ?_, ?_⟩
    · rw [heq]
      simp
    · rw [within_cons (by decide), within_cons (by decide), singleText, heq']
      simp
  | case2 read x t hnext hstop =>
    refine ⟨[], x :: t, rfl, List.forall_mem_nil _, by rw [List.append_nil], ?_⟩
    rw [List.append_nil]
    by_cases hx : x = '\n'
    · obtain ⟨z, zs, hend, hz⟩ := exists_lineEnd_eq_cons y.lineEnd
      rw [hx, within_newline, hend, List.cons_append, singleText_stop hz]
    · have hnext' : ∀ t', x = '\'' → y.within t = '\'' :: t' → False := by
        intro t' hquote ht'
        have hhead := (head?_within_iff (y := y) (t := t) (x := '\'') rfl).1 (by rw [ht']; rfl)
        obtain ⟨u, rfl⟩ := List.head?_eq_some_iff.1 hhead
        exact hnext u hquote rfl
      rw [within_cons hx, singleText, if_pos hstop]
      exact hnext'
  | case3 read x t hnext hgo ih =>
    obtain ⟨xs, rest, rfl, hxs, heq, heq'⟩ := ih ht.tail
    have hx : x ≠ '\n' := by
      rintro rfl
      exact hgo rfl
    have hquote : x ≠ '\'' := by
      rintro rfl
      exact hgo rfl
    refine ⟨x :: xs, rest, rfl, List.forall_mem_cons.2 ⟨hx, hxs⟩, ?_, ?_⟩
    · rw [heq]
      simp
    · rw [within_cons hx, singleText, if_neg hgo, heq']
      · simp
      · exact fun _ h _ => hquote h
  | case4 read =>
    exact ⟨[], [], rfl, List.forall_mem_nil _, by rw [List.append_nil], by simp [singleText]⟩

theorem doubleText_within (read : List Char) (ht : PlainLines t) :
    ∃ xs rest, t = xs ++ rest ∧ (∀ x ∈ xs, x ≠ '\n') ∧
    doubleText read t = (read.reverse ++ xs, rest) ∧
      doubleText read (y.within t) = (read.reverse ++ xs, y.within rest) := by
  fun_induction doubleText read t with
  | case1 read x t ih =>
    obtain ⟨xs, rest, rfl, hxs, heq, heq'⟩ := ih ht.tail.tail
    have hx : x ≠ '\n' := ht.escaped_ne
    refine ⟨'\\' :: x :: xs, rest, rfl, by simpa [hx] using hxs, ?_, ?_⟩
    · rw [heq]
      simp
    · rw [within_cons (by decide), within_cons hx, doubleText, heq']
      simp
  | case2 read x t hnext hstop =>
    refine ⟨[], x :: t, rfl, List.forall_mem_nil _, by rw [List.append_nil], ?_⟩
    rw [List.append_nil]
    by_cases hx : x = '\n'
    · obtain ⟨z, zs, hend, hz⟩ := exists_lineEnd_eq_cons y.lineEnd
      rw [hx, within_newline, hend, List.cons_append, doubleText_stop hz]
    · rw [within_cons hx, doubleText, if_pos hstop]
      rintro z u rfl _
      cases hstop
  | case3 read x t hnext hgo ih =>
    obtain ⟨xs, rest, rfl, hxs, heq, heq'⟩ := ih ht.tail
    have hx : x ≠ '\n' := by
      rintro rfl
      exact hgo rfl
    refine ⟨x :: xs, rest, rfl, List.forall_mem_cons.2 ⟨hx, hxs⟩, ?_, ?_⟩
    · rw [heq]
      simp
    · rw [within_cons hx, doubleText, if_neg hgo, heq']
      · simp
      · intro z u hescape hu
        cases hrest : xs ++ rest with
        | nil =>
          rw [hrest] at hu
          cases hu
        | cons w ws => exact hnext w ws hescape hrest
  | case4 read =>
    exact ⟨[], [], rfl, List.forall_mem_nil _, by rw [List.append_nil], by simp [doubleText]⟩

theorem plainText_within (t : List Char) : ∃ xs rest, t = xs ++ rest ∧ (∀ x ∈ xs, x ≠ '\n') ∧
    plainText t = (xs, rest) ∧ plainText (y.within t) = (xs, y.within rest) := by
  have hp : ∀ x, isLineEnd x = true → (isPlain x || isBlank x) = false := fun x hx => by
    rw [isPlain_of_isLineEnd hx, isBlank_of_isLineEnd hx]
    rfl
  rw [plainText, plainText, takeWhile_within hp]
  set run := t.takeWhile fun c => isPlain c || isBlank c with hrun
  set read := (run.reverse.dropWhile isBlank).reverse with hread
  have hprefix : read <+: t := by
    have hsuffix : run.reverse.dropWhile isBlank <:+ run.reverse := List.dropWhile_suffix _
    have hread' : read <+: run := by
      rw [← List.reverse_suffix, hread, List.reverse_reverse]
      exact hsuffix
    exact hread'.trans (List.takeWhile_prefix _)
  have hne : ∀ x ∈ read, x ≠ '\n' := by
    rintro x hx rfl
    have hmem : '\n' ∈ run :=
      List.mem_reverse.1 ((List.dropWhile_sublist _).subset (List.mem_reverse.1 hx))
    exact absurd (List.mem_takeWhile_imp hmem) (by decide)
  obtain ⟨rest, hrest⟩ := hprefix
  have hwithin : y.within t = read ++ y.within rest := by
    rw [← hrest, within_append, within_eq_self hne]
  refine ⟨read, rest, hrest.symm, hne, ?_, ?_⟩
  · rw [← hrest, List.drop_left]
  · rw [hwithin, List.drop_left]

/-- A cut that ends in front of line ends, and so takes the same from a text in both layouts. -/
def CutsAlike (y : Layout) (cut : List Char → List Char × List Char) : Prop :=
  ∀ t, PlainLines t → ∃ xs rest, t = xs ++ rest ∧ (∀ x ∈ xs, x ≠ '\n') ∧ cut t = (xs, rest) ∧
    cut (y.within t) = (xs, y.within rest)

theorem parallel_cut {cut : List Char → List Char × List Char} (hcut : y.CutsAlike cut) :
    Parallel (y.Inside n) (y.Inside n) Eq (Scan.part cut) (Scan.part cut) := by
  refine parallel_part fun t ht => ?_
  obtain ⟨xs, rest, heq, hxs, hread, hread'⟩ := hcut t ht
  rw [hread']
  refine ⟨xs, rest, heq, hread, ?_, (within_eq_self hxs).symm⟩
  rw [within_eq_self hxs]

theorem parallel_quoted (outer inner : Construct) {quote : Char} (hquote : isLineEnd quote = false)
    {cut : List Char → List Char × List Char} (unquote : List Char → String)
    (hcut : y.CutsAlike cut) :
    Parallel (y.Inside n) (y.Inside n) Eq
      (Scan.named outer do
        Scan.char quote
        let text ← Scan.named inner (Scan.part cut)
        Scan.char quote
        return unquote text)
      (Scan.named outer do
        Scan.char quote
        let text ← Scan.named inner (Scan.part cut)
        Scan.char quote
        return unquote text) := by
  refine Parallel.named _ ((parallel_char_of_inside hquote).bind fun _ _ _ => ?_)
  refine ((parallel_cut hcut).named _).bind fun read read' hread => ?_
  exact (parallel_char_of_inside hquote).bind fun _ _ _ => parallel_pure (by rw [hread])

theorem parallel_singleQuoted : Parallel (y.Inside n) (y.Inside n) Eq singleQuoted singleQuoted :=
  parallel_quoted _ _ (by decide) _ fun _ => singleText_within []

theorem parallel_doubleQuoted : Parallel (y.Inside n) (y.Inside n) Eq doubleQuoted doubleQuoted :=
  parallel_quoted _ _ (by decide) _ fun _ => doubleText_within []

theorem parallel_plain : Parallel (y.Inside n) (y.Inside n) Eq plain plain := by
  refine Parallel.named _ ((parallel_next fun _ => isPlain_of_isLineEnd).bind fun _ _ _ => ?_)
  have htext : Parallel (y.Inside n) (y.Inside n) Eq (Scan.part plainText) (Scan.part plainText) :=
    parallel_cut fun t _ => plainText_within t
  exact htext.bind fun read read' hread => parallel_pure (by rw [hread])

theorem parallel_scalar : Parallel (y.Inside n) (y.Inside n) Eq scalar scalar :=
  (parallel_singleQuoted.orElse (parallel_doubleQuoted.orElse parallel_plain)).named _

end Acceptors.Layout
