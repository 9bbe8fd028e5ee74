import Mathlib.Data.List.Forall2
import Mathlib.Data.List.TakeWhile
import Mathlib.Tactic.Common
import Acceptors.Proofs.Document.Alike
import Acceptors.Proofs.Document.ScalarLayout

/-! Lines of a text in two layouts. A flow collection passes over line ends, whatever they are made
of, and a line of the document goes on behind the margin. So the lines come out alike. -/

namespace Acceptors.Layout

open Scan (Parallel parallel_pure parallel_location)
open Syntax

variable {α α' : Type} {y : Layout} {n k k' : Nat} {c c' : Cursor} {t rest : List Char}
    {S : α → α' → Prop} {q : Scan α} {q' : Scan α'}

/-! Flow collections. Every comma and every opening bracket is a character less, so the length of
the text bounds both the number of the items and the depth. -/

theorem parallel_separated (hq : ∀ m ≤ n, Parallel (y.Inside m) (y.Inside m) S q q') (hk : n ≤ k)
    (hk' : n ≤ k') :
    Parallel (y.Inside n) (y.Inside n) (List.Forall₂ S) (separated k q) (separated k' q') := by
  have hnext : ∀ m < n, Parallel (y.Inside (m + 1)) (y.Inside m) S
      (do let _ ← skipSpace; Scan.char ','; let _ ← skipSpace; q)
      (do let _ ← skipSpace; Scan.char ','; let _ ← skipSpace; q') := fun m hm =>
    parallel_skipSpace.bind fun _ _ _ => (parallel_char (by decide)).bind fun _ _ _ =>
      parallel_skipSpace.bind fun _ _ _ => hq m (Nat.le_of_lt hm)
  have hcomma : Parallel (y.Inside n) (y.Inside n) (fun _ _ => True)
      (do let _ ← skipSpace; Scan.char ',') (do let _ ← skipSpace; Scan.char ',') :=
    parallel_skipSpace.bind fun _ _ _ => parallel_char_of_inside (by decide)
  have hmany := Parallel.many hnext not_inside_zero (fun _ _ _ h => h.succ) hk hk'
  have hitems : Parallel (y.Inside n) (y.Inside n) (List.Forall₂ S)
      (do
        let x ← q
        let rest ← Scan.many k do let _ ← skipSpace; Scan.char ','; let _ ← skipSpace; q
        let _ ← Scan.optional do let _ ← skipSpace; Scan.char ','
        return x :: rest)
      (do
        let x ← q'
        let rest ← Scan.many k' do let _ ← skipSpace; Scan.char ','; let _ ← skipSpace; q'
        let _ ← Scan.optional do let _ ← skipSpace; Scan.char ','
        return x :: rest) :=
    (hq n (Nat.le_refl n)).bind fun _ _ hx => hmany.bind fun _ _ hrest =>
      hcomma.optional.bind fun _ _ _ => parallel_pure (.cons hx hrest)
  refine hitems.optional.bind fun found found' hfound => parallel_pure ?_
  cases hfound with
  | none => exact .nil
  | some hfound => exact hfound

theorem parallel_bracketed {opening closing : Char} (hopening : isLineEnd opening = false)
    (hclosing : isLineEnd closing = false) (hq : ∀ m ≤ n, Parallel (y.Inside m) (y.Inside m) S q q')
    (hk : n ≤ k) (hk' : n ≤ k') :
    Parallel (y.Inside (n + 1)) (y.Inside (n + 1)) (List.Forall₂ S) (bracketed opening closing k q)
      (bracketed opening closing k' q') := by
  have hrest : Parallel (y.Inside n) (y.Inside n) (List.Forall₂ S)
      (do
        let _ ← skipSpace
        let items ← separated k q
        let _ ← skipSpace
        Scan.char closing
        return items)
      (do
        let _ ← skipSpace
        let items ← separated k' q'
        let _ ← skipSpace
        Scan.char closing
        return items) :=
    parallel_skipSpace.bind fun _ _ _ => (parallel_separated hq hk hk').bind fun _ _ hitems =>
      parallel_skipSpace.bind fun _ _ _ => (parallel_char_of_inside hclosing).bind fun _ _ _ =>
        parallel_pure hitems
  exact (parallel_char hopening).bind fun _ _ _ =>
    hrest.imp (fun _ _ h => h) (fun _ _ h => h.succ) fun _ _ h => h

theorem parallel_flowPair {value value' : Scan Node}
    (h : Parallel (y.Inside n) (y.Inside n) (Node.Alike y.Places) value value') :
    Parallel (y.Inside n) (y.Inside n) (Entry.Alike y.Places) (flowPair value)
    (flowPair value') := by
  refine Parallel.named _ ((parallel_location fun _ _ hc => hc.place).bind fun l l' hl => ?_)
  refine parallel_scalar.bind fun key key' hkey => parallel_skipSpace.bind fun _ _ _ => ?_
  refine (parallel_char_of_inside (by decide)).bind fun _ _ _ =>
    parallel_skipSpace.bind fun _ _ _ => ?_
  exact h.bind fun _ _ hvalue => parallel_pure (hkey ▸ .mk hl hvalue)

theorem parallel_value (hk : n ≤ k) (hk' : n ≤ k') :
    Parallel (y.Inside n) (y.Inside n) (Node.Alike y.Places) (value k) (value k') := by
  induction n using Nat.strong_induction_on generalizing k k' with
  | h n ih =>
    cases n with
    | zero => exact fun c c' _ _ hc => absurd hc (not_inside_zero c c')
    | succ n =>
      obtain ⟨k, rfl⟩ := Nat.exists_eq_add_one_of_ne_zero (Nat.ne_zero_of_lt hk)
      obtain ⟨k', rfl⟩ := Nat.exists_eq_add_one_of_ne_zero (Nat.ne_zero_of_lt hk')
      have hk := Nat.le_of_succ_le_succ hk
      have hk' := Nat.le_of_succ_le_succ hk'
      have hinner : ∀ m ≤ n, Parallel (y.Inside m) (y.Inside m) (Node.Alike y.Places)
          (value k) (value k') :=
        fun m hm => ih m (Nat.lt_succ_of_le hm) (hm.trans hk) (hm.trans hk')
      have hlist : Parallel (y.Inside (n + 1)) (y.Inside (n + 1))
          (List.Forall₂ (Node.Alike y.Places))
          (flowSequence k (value k)) (flowSequence k' (value k')) :=
        (parallel_bracketed (by decide) (by decide) hinner hk hk').named _
      have hmapping : Parallel (y.Inside (n + 1)) (y.Inside (n + 1))
          (List.Forall₂ (Entry.Alike y.Places))
          (flowMapping k (value k)) (flowMapping k' (value k')) :=
        (parallel_bracketed (by decide) (by decide) (fun m hm => parallel_flowPair (hinner m hm))
          hk hk').named _
      refine (parallel_location fun _ _ hc => hc.place).bind fun l l' hl => ?_
      refine (hlist.map fun _ _ hitems => .list hl hitems).orElse ?_
      refine (hmapping.map fun _ _ hentries => .mapping hl hentries).orElse ?_
      exact parallel_scalar.map fun _ _ htext => htext ▸ .scalar hl

/-! Lines. -/

theorem parallel_entry (hk : n ≤ k) (hk' : n ≤ k') :
    Parallel (y.Inside n) (y.Inside n) (Field.Alike y.Places) (entry k) (entry k') := by
  have hvalue : Parallel (y.Inside n) (y.Inside n) (Node.Alike y.Places)
      (do let _ ← Scan.skip1 isBlank; value k) (do let _ ← Scan.skip1 isBlank; value k') :=
    (parallel_skip1 fun _ => isBlank_of_isLineEnd).bind fun _ _ _ => parallel_value hk hk'
  refine Parallel.named _ ((parallel_location fun _ _ hc => hc.place).bind fun l l' hl => ?_)
  refine parallel_scalar.bind fun key key' hkey => parallel_skipBlanks.bind fun _ _ _ => ?_
  refine (parallel_char_of_inside (by decide)).bind fun _ _ _ =>
    hvalue.optional.bind fun _ _ hvalue => ?_
  exact parallel_pure ⟨hkey.symm, hl, hvalue⟩

theorem newline_of_return (hc : c.rest = '\r' :: rest) (hrest : rest.head? ≠ some '\n')
    (a : Attempts) :
    Scan.newline c a = (a, some ((), c.after ['\r'] rest)) := by
  rw [Scan.newline, hc]
  split
  · rename_i h
    cases h
  · rename_i h
    cases h
    exact absurd rfl hrest
  · rename_i h
    cases h
    rfl
  · rename_i h
    exact absurd rfl (h rest)

theorem newline_of_not_isLineEnd (hc : ∀ x ∈ c.rest.head?, isLineEnd x = false) (a : Attempts) :
    Scan.newline c a = (a, none) := by
  rw [Scan.newline]
  split
  · rename_i h
    cases hc '\n' (by rw [h]; rfl)
  · rename_i h
    cases hc '\r' (by rw [h]; rfl)
  · rename_i h
    cases hc '\r' (by rw [h]; rfl)
  · rfl

theorem head?_margin_ne (hend : y.lineEnd = .carriageReturn) (t : List Char) :
    (y.blanks ++ y.within t).head? ≠ some '\n' := by
  obtain ⟨e, k⟩ := y
  obtain rfl : e = .carriageReturn := hend
  cases k with
  | zero =>
    cases t with
    | nil => exact fun h => nomatch h
    | cons x t =>
      by_cases hx : x = '\n'
      · rw [hx, within_newline]
        exact fun h => absurd (Option.some.inj h) (by decide)
      · rw [within_cons hx]
        exact fun h => hx (Option.some.inj h)
  | succ k => exact fun h => absurd (Option.some.inj h) (by decide)

theorem exists_newline (hc' : c'.rest = y.within ('\n' :: t)) (a : Attempts) :
    Scan.newline c' a = (a, some ((), c'.after y.lineEnd.text (y.blanks ++ y.within t))) := by
  rw [within_newline] at hc'
  cases hend : y.lineEnd with
  | lineFeed =>
    rw [hend] at hc'
    rw [Scan.newline, hc']
    rfl
  | carriageReturn =>
    rw [hend] at hc'
    exact newline_of_return hc' (head?_margin_ne hend t) a
  | both =>
    rw [hend] at hc'
    rw [Scan.newline, hc']
    rfl

theorem parallel_newline :
    Parallel (y.Inside (n + 1)) (y.AtMargin n) (fun _ _ => True) Scan.newline Scan.newline := by
  intro c c' a a' hc
  have hsize := hc.size
  rcases hc.rest_cases with ⟨hrest, hrest'⟩ | ⟨z, t, hrest, hz, hrest'⟩ | ⟨t, z, zs, hrest, -⟩
  · rw [newline_of_not_isLineEnd (by simp [hrest]), newline_of_not_isLineEnd (by simp [hrest'])]
    exact .failed
  · rw [newline_of_not_isLineEnd (by simp [hrest, hz]),
      newline_of_not_isLineEnd (by simp [hrest', hz])]
    exact .failed
  · have hrest' := hc.rest
    rw [hrest] at hrest'
    rw [hrest, List.length_cons] at hsize
    have hplain := hc.plain
    rw [hrest] at hplain
    have hread : Scan.newline c a = (a, some ((), c.after ['\n'] t)) := by
      rw [Scan.newline, hrest]
      rfl
    rw [hread, exists_newline hrest']
    exact .found trivial ⟨Nat.lt_of_succ_lt_succ hsize, hplain.tail, rfl, hc.place.newline⟩

theorem parallel_afterDash :
    Parallel (y.Inside n) (fun _ _ => True) (fun _ _ => True) afterDash afterDash := by
  have hblank : Parallel (y.Inside n) (y.Inside n) (fun _ _ => True)
      (do let _ ← Scan.skip1 isBlank) (do let _ ← Scan.skip1 isBlank) :=
    (parallel_skip1 fun _ => isBlank_of_isLineEnd).bind fun _ _ _ => parallel_pure trivial
  have hnewline : Parallel (y.Inside n) (fun _ _ => True) (fun _ _ => True) Scan.newline
      Scan.newline :=
    parallel_newline.imp (fun _ _ h => h.succ) (fun _ _ _ => trivial) fun _ _ h => h
  have hend : Parallel (y.Inside n) (y.Inside n) (fun _ _ => True) Scan.endOfText Scan.endOfText :=
    Scan.parallel_endOfText fun c c' hc => by rw [hc.rest, isEmpty_within]
  refine Parallel.orElse ?_ (hnewline.orElse ?_)
  · exact hblank.imp (fun _ _ h => h) (fun _ _ _ => trivial) fun _ _ h => h
  · exact hend.imp (fun _ _ h => h) (fun _ _ _ => trivial) fun _ _ h => h

theorem parallel_item (hk : n ≤ k) (hk' : n ≤ k') :
    Parallel (y.Inside n) (y.Inside n) (Line.Content.Alike y.Places) (item k) (item k') := by
  have hcontent : Parallel (y.Inside n) (y.Inside n) (Line.Content.Alike y.Places)
      (do
        let _ ← Scan.skip1 isBlank
        Line.Content.itemEntry <$> entry k <|> Line.Content.itemValue <$> value k)
      (do
        let _ ← Scan.skip1 isBlank
        Line.Content.itemEntry <$> entry k' <|> Line.Content.itemValue <$> value k') :=
    (parallel_skip1 fun _ => isBlank_of_isLineEnd).bind fun _ _ _ =>
      ((parallel_entry hk hk').map fun _ _ h => .itemEntry h).orElse
        ((parallel_value hk hk').map fun _ _ h => .itemValue h)
  refine Parallel.named _ ((parallel_char_of_inside (by decide)).bind fun _ _ _ => ?_)
  refine parallel_afterDash.ahead.bind fun _ _ _ =>
    hcontent.optional.bind fun found found' hfound => parallel_pure ?_
  cases hfound with
  | none => exact .item
  | some h => exact h

theorem parallel_skipComment :
    Parallel (y.Inside n) (y.Inside n) (fun _ _ => True) skipComment skipComment := by
  have hrest : Parallel (y.Inside n) (y.Inside n) (fun _ _ => True) (Scan.skip fun c =>
    !isLineEnd c)
      (Scan.skip fun c => !isLineEnd c) :=
    parallel_skip (dropWhile_within fun x hx => by rw [hx]; rfl)
  exact (parallel_char_of_inside (by decide)).bind fun _ _ _ => hrest.bind fun _ _ _ =>
    parallel_pure trivial

theorem parallel_indent :
    Parallel (y.AtMargin n) (y.Inside n) (fun read read' => read'.length = read.length + y.margin)
      (Scan.skip (· == ' ')) (Scan.skip (· == ' ')) := by
  intro c c' a a' hc
  have hp : ∀ x, isLineEnd x = true → (x == ' ') = false := by
    rintro x hx
    rw [beq_eq_false_iff_ne]
    rintro rfl
    cases hx
  have hblanks : ∀ x ∈ y.blanks, (x == ' ') = true :=
    fun x hx => by rw [List.eq_of_mem_replicate hx]; rfl
  have hread : List.span (· == ' ') c'.rest =
      (y.blanks ++ c.rest.takeWhile (· == ' '), y.within (c.rest.dropWhile (· == ' '))) := by
    rw [List.span_eq_takeWhile_dropWhile, hc.rest, List.takeWhile_append_of_pos hblanks,
      List.dropWhile_append_of_pos hblanks, takeWhile_within hp, dropWhile_within hp]
  have hwithin : y.within (c.rest.takeWhile (· == ' ')) = c.rest.takeWhile (· == ' ') := by
    refine within_eq_self fun x hx => ?_
    rintro rfl
    exact absurd (List.mem_takeWhile_imp hx) (by decide)
  rw [Scan.skip, Scan.part, Scan.part, hread, List.span_eq_takeWhile_dropWhile]
  refine .found ?_ ⟨?_, ?_, rfl, ?_⟩
  · rw [List.length_append, blanks, List.length_replicate, Nat.add_comm]
  · exact Nat.lt_of_le_of_lt (List.dropWhile_sublist _).length_le hc.size
  · have hplain := hc.plain
    rw [← List.takeWhile_append_dropWhile (p := (· == ' ')) (l := c.rest)] at hplain
    exact hplain.of_append
  · have hplace := hc.place.after_within (c.rest.takeWhile (· == ' '))
    rwa [hwithin, ← Location.after_append] at hplace

theorem parallel_line (hk : n ≤ k) (hk' : n ≤ k') :
    Parallel (y.AtMargin n) (y.Inside n) (Option.Rel (Line.Alike y.Places y.margin)) (line k)
    (line k') := by
  have hcontent : Parallel (y.Inside n) (y.Inside n) (Line.Content.Alike y.Places)
      (item k <|> Line.Content.entry <$> entry k) (item k' <|> Line.Content.entry <$> entry k') :=
    (parallel_item hk hk').orElse ((parallel_entry hk hk').map fun _ _ h => .entry h)
  refine Parallel.named _ ((parallel_indent.named _).bind fun indent indent' hindent => ?_)
  refine (parallel_location fun _ _ hc => hc.place).bind fun l l' hl => ?_
  refine hcontent.optional.bind fun content content' hcontent =>
    parallel_skipBlanks.bind fun _ _ _ => ?_
  refine parallel_skipComment.optional.bind fun _ _ _ => parallel_pure ?_
  cases hcontent with
  | none => exact .none
  | some h => exact .some ⟨hindent, hl, h⟩

theorem forall₂_filterMap_id {S : α → α' → Prop} {os : List (Option α)} {os' : List (Option α')}
    (h : List.Forall₂ (Option.Rel S) os os') :
    List.Forall₂ S (os.filterMap id) (os'.filterMap id) := by
  induction h with
  | nil => exact .nil
  | cons hx _ ih =>
    cases hx with
    | none => exact ih
    | some hx => exact .cons hx ih

theorem parallel_document (hk : n ≤ k) (hk' : n ≤ k') :
    Parallel (y.AtMargin n) (y.Inside n) (List.Forall₂ (Line.Alike y.Places y.margin)) (document k)
    (document k') := by
  have hnext : ∀ m < n, Parallel (y.Inside (m + 1)) (y.Inside m)
      (Option.Rel (Line.Alike y.Places y.margin))
      (do Scan.newline; line k) (do Scan.newline; line k') := fun m hm =>
    parallel_newline.bind fun _ _ _ =>
      parallel_line ((Nat.le_of_lt hm).trans hk) ((Nat.le_of_lt hm).trans hk')
  have hmany := Parallel.many hnext not_inside_zero (fun _ _ _ h => h.succ) hk hk'
  refine Parallel.named _ ((parallel_line hk hk').bind fun first first' hfirst =>
    hmany.bind fun others others' h => ?_)
  refine (Scan.parallel_endOfText fun c c' hc => by rw [hc.rest, isEmpty_within]).bind fun _ _ _ =>
    ?_
  exact parallel_pure (forall₂_filterMap_id (.cons hfirst h))

theorem lines_alike {text : String} (h : PlainLines text.toList) :
    SameResult (fun _ _ => True) (List.Forall₂ (Line.Alike y.Places y.margin)) (lines text.toList)
      (lines (y.apply text).toList) := by
  have hlength : text.toList.length ≤ (y.apply text).toList.length := by
    rw [apply, String.toList_ofList, List.length_append]
    exact (length_le_within text.toList).trans (Nat.le_add_left _ _)
  have hstart : y.AtMargin (text.toList.length + 1) (.ofText text.toList)
      (.ofText (y.apply text).toList) :=
    ⟨Nat.lt_succ_self _, h, String.toList_ofList, places_start⟩
  have hread :=
    parallel_document (Nat.le_refl _) (Nat.succ_le_succ hlength) _ _ .initial .initial hstart
  rw [lines, lines]
  generalize document (text.toList.length + 1) (.ofText text.toList) .initial = r at hread ⊢
  generalize document ((y.apply text).toList.length + 1) (.ofText (y.apply text).toList) .initial =
    r' at hread ⊢
  cases hread with
  | failed => exact .failed trivial
  | found hls _ => exact .found hls

end Acceptors.Layout
