import Mathlib.Data.List.Infix
import Mathlib.Data.List.TakeDrop
import Mathlib.Tactic.Common
import Acceptors.Document.Syntax

/-! Layouts of a text. The lines of a text with line feeds may come to end in another way, and all
of them may be moved to the right. What stands on them stays the same. -/

namespace Acceptors

inductive LineEnd
  | lineFeed
  | carriageReturn
  | both

def LineEnd.text : LineEnd → List Char
  | lineFeed => ['\n']
  | carriageReturn => ['\r']
  | both => ['\r', '\n']

structure Layout where
  lineEnd : LineEnd
  margin : Nat

namespace Layout

variable {y : Layout} {t xs : List Char} {c x : Char} {p : Char → Bool} {l l' : Location}

def blanks (y : Layout) : List Char := List.replicate y.margin ' '

def spell (y : Layout) (c : Char) : List Char :=
  if c = '\n' then y.lineEnd.text ++ y.blanks else [c]

def within (y : Layout) (t : List Char) : List Char := t.flatMap y.spell

def apply (y : Layout) (text : String) : String := .ofList (y.blanks ++ y.within text.toList)

example : apply ⟨.both, 2⟩ "a\n\nb" = "  a\r\n  \r\n  b" := by decide

@[simp] theorem within_nil : y.within [] = [] := rfl

theorem within_newline (t : List Char) :
    y.within ('\n' :: t) = y.lineEnd.text ++ (y.blanks ++ y.within t) := by
  rw [within, List.flatMap_cons, spell, if_pos rfl, List.append_assoc]
  rfl

theorem within_cons (h : c ≠ '\n') (t : List Char) : y.within (c :: t) = c :: y.within t := by
  rw [within, List.flatMap_cons, spell, if_neg h]
  rfl

theorem within_append (xs t : List Char) : y.within (xs ++ t) = y.within xs ++ y.within t :=
  List.flatMap_append

theorem within_eq_self (h : ∀ x ∈ xs, x ≠ '\n') : y.within xs = xs := by
  induction xs with
  | nil => rfl
  | cons x xs ih =>
    obtain ⟨hx, hxs⟩ := List.forall_mem_cons.1 h
    rw [within_cons hx, ih hxs]

theorem exists_lineEnd_eq_cons (e : LineEnd) :
    ∃ x xs, e.text = x :: xs ∧ Syntax.isLineEnd x = true := by
  cases e with
  | lineFeed => exact ⟨_, _, rfl, by decide⟩
  | carriageReturn => exact ⟨_, _, rfl, by decide⟩
  | both => exact ⟨_, _, rfl, by decide⟩

theorem isLineEnd_of_mem (e : LineEnd) : ∀ x ∈ e.text, Syntax.isLineEnd x = true := by
  have hall : e.text.all Syntax.isLineEnd = true := by cases e <;> rfl
  exact List.all_eq_true.1 hall

theorem isEmpty_within (t : List Char) : (y.within t).isEmpty = t.isEmpty := by
  cases t with
  | nil => rfl
  | cons c t =>
    by_cases hc : c = '\n'
    · obtain ⟨x, xs, hend, -⟩ := exists_lineEnd_eq_cons y.lineEnd
      rw [hc, within_newline, hend]
      rfl
    · rw [within_cons hc]
      rfl

theorem length_le_within (t : List Char) : t.length ≤ (y.within t).length := by
  induction t with
  | nil => exact Nat.le_refl 0
  | cons c t ih =>
    by_cases hc : c = '\n'
    · obtain ⟨x, xs, hend, -⟩ := exists_lineEnd_eq_cons y.lineEnd
      rw [hc, within_newline, hend, List.cons_append, List.length_cons, List.length_cons,
        List.length_append, List.length_append]
      omega
    · rw [within_cons hc, List.length_cons, List.length_cons]
      exact Nat.succ_le_succ ih

theorem takeWhile_within (hp : ∀ x, Syntax.isLineEnd x = true → p x = false) (t : List Char) :
    (y.within t).takeWhile p = t.takeWhile p := by
  induction t with
  | nil => rfl
  | cons c t ih =>
    by_cases hc : c = '\n'
    · obtain ⟨x, xs, hend, hx⟩ := exists_lineEnd_eq_cons y.lineEnd
      rw [hc, within_newline, hend, List.cons_append, List.takeWhile_cons_of_neg
        (by simp [hp x hx]), List.takeWhile_cons_of_neg (by simp [hp '\n' rfl])]
    · rw [within_cons hc, List.takeWhile_cons, List.takeWhile_cons, ih]

theorem dropWhile_within (hp : ∀ x, Syntax.isLineEnd x = true → p x = false) (t : List Char) :
    (y.within t).dropWhile p = y.within (t.dropWhile p) := by
  induction t with
  | nil => rfl
  | cons c t ih =>
    by_cases hc : c = '\n'
    · obtain ⟨x, xs, hend, hx⟩ := exists_lineEnd_eq_cons y.lineEnd
      rw [hc, List.dropWhile_cons_of_neg (by simp [hp '\n' rfl]), within_newline, hend,
        List.cons_append, List.dropWhile_cons_of_neg (by simp [hp x hx])]
    · rw [within_cons hc, List.dropWhile_cons, List.dropWhile_cons]
      split
      · exact ih
      · exact (within_cons hc t).symm

theorem dropWhile_within_of_space (hp : ∀ x, Syntax.isSpace x = true → p x = true) (t : List Char) :
    (y.within t).dropWhile p = y.within (t.dropWhile p) := by
  induction t with
  | nil => rfl
  | cons c t ih =>
    by_cases hc : c = '\n'
    · have hend : ∀ x ∈ y.lineEnd.text, p x = true := fun x hx =>
        hp x (by rw [Syntax.isSpace, isLineEnd_of_mem _ x hx, Bool.or_true])
      have hblanks : ∀ x ∈ y.blanks, p x = true := fun x hx =>
        hp x (by rw [List.eq_of_mem_replicate hx]; rfl)
      rw [hc, within_newline, List.dropWhile_append_of_pos hend,
        List.dropWhile_append_of_pos hblanks, ih, List.dropWhile_cons_of_pos (hp '\n' rfl)]
    · rw [within_cons hc, List.dropWhile_cons, List.dropWhile_cons]
      split
      · exact ih
      · exact (within_cons hc t).symm

theorem head?_within_iff (hx : Syntax.isLineEnd x = false) :
    (y.within t).head? = some x ↔ t.head? = some x := by
  cases t with
  | nil => exact Iff.rfl
  | cons c t =>
    by_cases hc : c = '\n'
    · obtain ⟨z, zs, hend, hz⟩ := exists_lineEnd_eq_cons y.lineEnd
      rw [hc, within_newline, hend]
      refine iff_of_false (fun h => ?_) fun h => ?_
      · rw [Option.some.inj h, hx] at hz
        cases hz
      · rw [← Option.some.inj h] at hx
        cases hx
    · rw [within_cons hc]
      exact Iff.rfl

end Layout

/-- Lines end with line feeds only, and none of these is escaped. -/
def PlainLines (t : List Char) : Prop := '\r' ∉ t ∧ ¬['\\', '\n'] <:+: t

instance (t : List Char) : Decidable (PlainLines t) := inferInstanceAs (Decidable (_ ∧ _))

namespace PlainLines

variable {t xs : List Char} {c : Char}

theorem of_append (h : PlainLines (xs ++ t)) : PlainLines t :=
  ⟨fun ht => h.1 (List.mem_append_right xs ht), fun ht =>
    h.2 (ht.trans (List.suffix_append xs t).isInfix)⟩

theorem tail (h : PlainLines (c :: t)) : PlainLines t := by
  have happend : PlainLines ([c] ++ t) := h
  exact happend.of_append

theorem not_isLineEnd (h : PlainLines (c :: t)) (hc : c ≠ '\n') : Syntax.isLineEnd c = false := by
  have hreturn : c ≠ '\r' := fun hc => h.1 (hc ▸ List.mem_cons_self)
  simp [Syntax.isLineEnd, hc, hreturn]

theorem escaped_ne (h : PlainLines ('\\' :: c :: t)) : c ≠ '\n' :=
  fun hc => h.2 (hc ▸ (List.prefix_append ['\\', '\n'] t).isInfix)

end PlainLines

namespace Layout

variable {y : Layout} {t xs : List Char} {c : Char} {l l' : Location}

/-! Places of the same character. A carriage return is no line end for them, so behind the first
line a text with carriage returns has larger columns. -/

def Places (y : Layout) (l l' : Location) : Prop :=
  1 ≤ l.line ∧ 1 ≤ l.column ∧
    match y.lineEnd with
    | .carriageReturn => l.column + y.margin ≤ l'.column ∧
      (l.line = 1 → l'.column = l.column + y.margin)
    | _ => l' = ⟨l.line, l.column + y.margin⟩

theorem next_of_ne (h : c ≠ '\n') (l : Location) : l.next c = ⟨l.line, l.column + 1⟩ := if_neg h

theorem after_blanks (l : Location) : l.after y.blanks = ⟨l.line, l.column + y.margin⟩ := by
  obtain ⟨e, k⟩ := y
  rw [blanks]
  induction k generalizing l with
  | zero => rfl
  | succ k ih =>
    rw [List.replicate_succ, Location.after_cons, next_of_ne (by decide), ih]
    simp only [Location.mk.injEq, true_and]
    omega

theorem places_start : y.Places .start (Location.start.after y.blanks) := by
  rw [after_blanks]
  refine ⟨Nat.le_refl 1, Nat.le_refl 1, ?_⟩
  split
  · exact ⟨Nat.le_refl _, fun _ => rfl⟩
  · rfl

theorem Places.next (h : y.Places l l') (hc : c ≠ '\n') : y.Places (l.next c) (l'.next c) := by
  obtain ⟨hline, hcolumn, h⟩ := h
  rw [next_of_ne hc, next_of_ne hc]
  refine ⟨hline, Nat.le_add_left 1 _, ?_⟩
  split at h
  · obtain ⟨hle, heq⟩ := h
    refine ⟨?_, fun hl => ?_⟩
    · simp only []
      omega
    · have := heq hl
      simp only []
      omega
  · rw [h]
    simp only [Location.mk.injEq, true_and]
    omega

theorem Places.newline (h : y.Places l l') :
    y.Places (l.next '\n') ((l'.after y.lineEnd.text).after y.blanks) := by
  obtain ⟨hline, hcolumn, h⟩ := h
  have hnext : l.next '\n' = ⟨l.line + 1, 1⟩ := rfl
  rw [after_blanks, hnext]
  refine ⟨Nat.le_add_left 1 _, Nat.le_refl 1, ?_⟩
  obtain ⟨e, k⟩ := y
  cases e with
  | lineFeed =>
    obtain rfl : l' = ⟨l.line, l.column + k⟩ := h
    rfl
  | carriageReturn =>
    have hcolumn' : (l'.after LineEnd.carriageReturn.text).column = l'.column + 1 := rfl
    refine ⟨?_, fun hl => ?_⟩
    · simp only [hcolumn']
      omega
    · simp only [] at hl
      omega
  | both =>
    obtain rfl : l' = ⟨l.line, l.column + k⟩ := h
    rfl

theorem Places.after_within (h : y.Places l l') (xs : List Char) :
    y.Places (l.after xs) (l'.after (y.within xs)) := by
  induction xs generalizing l l' with
  | nil => exact h
  | cons x xs ih =>
    by_cases hx : x = '\n'
    · rw [hx, within_newline, Location.after_append, Location.after_append, Location.after_cons]
      exact ih h.newline
    · rw [within_cons hx, Location.after_cons, Location.after_cons]
      exact ih (h.next hx)

/-- Two cursors inside a line, with the same text behind them in two layouts. `n` bounds what is
left to read. -/
structure Inside (y : Layout) (n : Nat) (c c' : Cursor) : Prop where
  size : c.rest.length < n
  plain : PlainLines c.rest
  rest : c'.rest = y.within c.rest
  place : y.Places c.location c'.location

/-- Two cursors in front of a line, the second one before the blanks of the margin. -/
structure AtMargin (y : Layout) (n : Nat) (c c' : Cursor) : Prop where
  size : c.rest.length < n
  plain : PlainLines c.rest
  rest : c'.rest = y.blanks ++ y.within c.rest
  place : y.Places c.location (c'.location.after y.blanks)

variable {n m : Nat} {d d' : Cursor}

theorem not_inside_zero (d d' : Cursor) : ¬y.Inside 0 d d' := fun h => Nat.not_lt_zero _ h.size

theorem Inside.succ (h : y.Inside n d d') : y.Inside (n + 1) d d' :=
  { h with size := Nat.lt_succ_of_lt h.size }

theorem Inside.after (h : y.Inside n d d') (hd : d.rest = xs ++ t) (hm : t.length < m) :
    y.Inside m (d.after xs t) (d'.after (y.within xs) (y.within t)) where
  size := hm
  plain := (hd ▸ h.plain).of_append
  rest := rfl
  place := h.place.after_within xs

end Layout

end Acceptors
