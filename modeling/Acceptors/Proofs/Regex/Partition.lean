import Mathlib.Data.List.Pairwise
import Mathlib.Tactic.Common
import Acceptors.Proofs.Regex.Tokens

/-! Tokens as a partition of the pattern. Each token covers one character, a backslash and the
character after it, or a whole name. The tokens of a scan cover every character that is not blank,
and none twice. -/

namespace Acceptors.Regex.Token

open Text (isBlank)

variable {names : List String} {text : List Char} {tokens front later : List Token} {c : Char}
    {k : Kind} {m n p : Nat} {t u : Token}

def stop (text : List Char) (t : Token) : Nat := t.offset + width (text.drop t.offset) t.kind

def Covers (text : List Char) (t : Token) (p : Nat) : Prop := t.offset ≤ p ∧ p < t.stop text

/-- The tokens partition the first `n` characters of a text. -/
structure Partition (names : List String) (text : List Char) (n : Nat)
    (tokens : List Token) : Prop where
  increasing : tokens.Pairwise fun t u => t.offset < u.offset
  disjoint : tokens.Pairwise fun t u => t.stop text ≤ u.offset
  within : ∀ t ∈ tokens, t.offset < t.stop text ∧ t.stop text ≤ n
  blank : ∀ p < n, (∀ t ∈ tokens, ¬t.Covers text p) → ∃ c, text[p]? = some c ∧ isBlank c = true
  begins : ∀ t ∈ tokens, Begins names (text.drop t.offset) t.kind

/-! ### From one place to the next -/

namespace Partition

theorem nil (names : List String) (text : List Char) : Partition names text 0 [] where
  increasing := .nil
  disjoint := .nil
  within := by simp
  blank := by simp
  begins := by simp

theorem skip (h : Partition names text n tokens) (hn : text[n]? = some c)
    (hblank : isBlank c = true) :
    Partition names text (n + 1) tokens where
  increasing := h.increasing
  disjoint := h.disjoint
  within t ht := ⟨(h.within t ht).1, Nat.le_succ_of_le (h.within t ht).2⟩
  blank p hp hcovers := by
    rcases Nat.lt_succ_iff_lt_or_eq.1 hp with hp | rfl
    · exact h.blank p hp hcovers
    · exact ⟨c, hn, hblank⟩
  begins := h.begins

theorem take (h : Partition names text n tokens) (hbegins : Begins names (text.drop n) k) :
    Partition names text (stop text ⟨k, n⟩) (tokens ++ [⟨k, n⟩]) := by
  have hlt : n < stop text ⟨k, n⟩ := Nat.lt_add_of_pos_right hbegins.width_bounds.1
  have hbefore : ∀ t ∈ tokens, t.stop text ≤ n ∧ t.offset < n := fun t ht =>
    ⟨(h.within t ht).2, Nat.lt_of_lt_of_le (h.within t ht).1 (h.within t ht).2⟩
  refine ⟨?_, ?_, fun t ht => ?_, fun p hp hcovers => ?_, fun t ht => ?_⟩
  · rw [List.pairwise_append]
    exact ⟨h.increasing, List.pairwise_singleton _ _, by simpa using fun t ht => (hbefore t ht).2⟩
  · rw [List.pairwise_append]
    exact ⟨h.disjoint, List.pairwise_singleton _ _, by simpa using fun t ht => (hbefore t ht).1⟩
  · rcases List.mem_append.1 ht with ht | ht
    · exact ⟨(h.within t ht).1, Nat.le_trans (hbefore t ht).1 (Nat.le_of_lt hlt)⟩
    · obtain rfl := List.mem_singleton.1 ht
      exact ⟨hlt, Nat.le_refl _⟩
  · rcases Nat.lt_or_ge p n with hpn | hpn
    · exact h.blank p hpn fun t ht => hcovers t (List.mem_append_left _ ht)
    · exact absurd ⟨hpn, hp⟩ (hcovers _ (List.mem_append_right _ List.mem_cons_self))
  · rcases List.mem_append.1 ht with ht | ht
    · exact h.begins t ht
    · obtain rfl := List.mem_singleton.1 ht
      exact hbegins

theorem le_offset (h : Partition names text n (front ++ later))
    (hfront : Partition names text p front) (hu : u ∈ later) : p ≤ u.offset := by
  by_contra hlt
  -- the token would begin at a character that is blank or covered already
  have hnot : ∀ t ∈ front, ¬t.Covers text u.offset := by
    intro t ht hcovers
    exact Nat.not_lt.2 ((List.pairwise_append.1 h.disjoint).2.2 t ht u hu) hcovers.2
  obtain ⟨c, hc, hblank⟩ := hfront.blank u.offset (Nat.not_le.1 hlt) hnot
  obtain ⟨hlength, hget⟩ := List.getElem?_eq_some_iff.1 hc
  have hbegins := h.begins u (List.mem_append_right _ hu)
  rw [List.drop_eq_getElem_cons hlength, hget] at hbegins
  exact absurd hblank (Bool.eq_false_iff.1 hbegins.not_isBlank)

theorem next (h : Partition names text n (front ++ later)) (hfront : Partition names text p front)
    (hp : p < n) :
    (∃ c, text[p]? = some c ∧ isBlank c = true ∧ Partition names text (p + 1) front) ∨
    ∃ k rest, later = ⟨k, p⟩ :: rest ∧ Begins names (text.drop p) k ∧
      Partition names text (stop text ⟨k, p⟩) (front ++ [⟨k, p⟩]) := by
  by_cases hcovered : ∃ t ∈ front ++ later, t.Covers text p
  · obtain ⟨t, ht, hcovers⟩ := hcovered
    have hlater : t ∈ later := by
      refine (List.mem_append.1 ht).resolve_left fun hmem => ?_
      exact Nat.not_lt.2 (hfront.within t hmem).2 hcovers.2
    obtain _ | ⟨u, rest⟩ := later
    · cases hlater
    have hle : u.offset ≤ t.offset := by
      rcases List.mem_cons.1 hlater with rfl | hrest
      · exact Nat.le_refl _
      · have hincreasing := (List.pairwise_append.1 h.increasing).2.1
        exact Nat.le_of_lt ((List.pairwise_cons.1 hincreasing).1 t hrest)
    have hoffset : u.offset = p :=
      Nat.le_antisymm (Nat.le_trans hle hcovers.1) (h.le_offset hfront List.mem_cons_self)
    have hbegins := h.begins u (List.mem_append_right _ List.mem_cons_self)
    obtain ⟨k, offset⟩ := u
    subst hoffset
    exact .inr ⟨k, rest, rfl, hbegins, hfront.take hbegins⟩
  · obtain ⟨c, hc, hblank⟩ := h.blank p hp fun t ht hcovers => hcovered ⟨t, ht, hcovers⟩
    exact .inl ⟨c, hc, hblank, hfront.skip hc hblank⟩

theorem scan_from (h : Partition names text n (front ++ later))
    (hfront : Partition names text p front) (hp : p ≤ n) (hn : n ≤ text.length) :
    scan (names.map String.toList) 0 p (text.drop p) front.reverse =
      scan (names.map String.toList) 0 n (text.drop n) (front ++ later).reverse := by
  induction hd : n - p using Nat.strongRecOn generalizing p front later with
  | _ d ih =>
    rcases Nat.lt_or_eq_of_le hp with hlt | rfl
    · rcases h.next hfront hlt with ⟨c, hc, hblank, hnext⟩ | ⟨k, rest, rfl, hbegins, hnext⟩
      · obtain ⟨hlength, hget⟩ := List.getElem?_eq_some_iff.1 hc
        rw [← ih (n - (p + 1)) (by omega) h hnext hlt rfl, List.drop_eq_getElem_cons hlength, hget,
          scan_blank _ hblank]
      · have hwithin := h.within ⟨k, p⟩ (List.mem_append_right _ List.mem_cons_self)
        have hpos : p < stop text ⟨k, p⟩ := hwithin.1
        rw [List.append_cons] at h ⊢
        rw [← ih (n - stop text ⟨k, p⟩) (by omega) h hnext hwithin.2 rfl, hbegins.scan_eq,
          List.drop_drop, List.reverse_append]
        rfl
    · have hnone : later = [] := by
        refine List.eq_nil_iff_forall_not_mem.2 fun u hu => ?_
        have hwithin := h.within u (List.mem_append_right _ hu)
        have hoffset := h.le_offset hfront hu
        omega
      rw [hnone, List.append_nil]

theorem tokenize_eq (h : Partition names text n tokens) (hn : n ≤ text.length) :
    tokenize names text = scan (names.map String.toList) 0 n (text.drop n) tokens.reverse := by
  have hall : Partition names text n ([] ++ tokens) := h
  exact hall.scan_from (nil names text) (Nat.zero_le n) hn

/-- From every place on, the tokens go on to the end of the text, or to a backslash there with
nothing to escape. -/
theorem exists_extension (h : Partition names text p tokens) (hp : p ≤ text.length) :
    (∃ tokens, Partition names text text.length tokens) ∨
      text.getLast? = some '\\' ∧ ∃ tokens, Partition names text (text.length - 1) tokens := by
  induction hd : text.length - p using Nat.strongRecOn generalizing p tokens with
  | _ d ih =>
    rcases Nat.lt_or_eq_of_le hp with hlt | rfl
    · have hdrop := List.drop_eq_getElem_cons hlt
      rcases begins_or names text[p] (text.drop (p + 1)) with
        hblank | ⟨k, hbegins⟩ | ⟨hescape, hrest⟩
      · exact ih (text.length - (p + 1)) (by omega)
          (h.skip (List.getElem?_eq_getElem hlt) hblank) hlt rfl
      · rw [← hdrop] at hbegins
        have hbounds := hbegins.width_bounds
        have hstop : stop text ⟨k, p⟩ = p + width (text.drop p) k := rfl
        rw [List.length_drop] at hbounds
        exact ih (text.length - stop text ⟨k, p⟩) (by omega) (h.take hbegins) (by omega) rfl
      · have hlast : text.length - 1 = p := by
          have := List.drop_eq_nil_iff.1 hrest
          omega
        refine .inr ⟨?_, tokens, hlast ▸ h⟩
        rw [List.getLast?_eq_getElem?, hlast, List.getElem?_eq_getElem hlt, hescape]
    · exact .inl ⟨tokens, h⟩

theorem tokenize_eq_ok (h : Partition names text text.length tokens) :
    tokenize names text = .ok tokens := by
  rw [h.tokenize_eq (Nat.le_refl _), List.drop_length]
  exact congrArg Except.ok (List.reverse_reverse tokens)

theorem tokenize_eq_error (h : Partition names text (text.length - 1) tokens)
    (hlast : text.getLast? = some '\\') :
    tokenize names text = .error ⟨.danglingEscape, text.length - 1⟩ := by
  obtain ⟨front, rfl⟩ := List.getLast?_eq_some_iff.1 hlast
  have hlength : (front ++ ['\\']).length - 1 = front.length := by simp
  rw [h.tokenize_eq (Nat.sub_le _ _), hlength, List.drop_left]
  rfl

end Partition

/-- A pattern either has tokens, and these are the one partition of it: in order and without overlap
they cover all that is not blank, and where a token begins with a plain character it is the longest
name that fits, or the character alone if none does. Or the pattern ends in a backslash that none of
the tokens before it covers, and this is the only fault. -/
theorem tokens_partition_pattern (names : List String) (text : List Char) :
    (∀ tokens, tokenize names text = .ok tokens ↔ Partition names text text.length tokens) ∧
    ∀ e, tokenize names text = .error e ↔ e = ⟨.danglingEscape, text.length - 1⟩ ∧
    text.getLast? = some '\\' ∧
      ∃ tokens, Partition names text (text.length - 1) tokens := by
  have hcases := (Partition.nil names text).exists_extension (Nat.zero_le _)
  refine ⟨fun tokens => ⟨fun h => ?_, Partition.tokenize_eq_ok⟩, fun e =>
    ⟨fun h => ?_, fun h => ?_⟩⟩
  · rcases hcases with ⟨found, hfound⟩ | ⟨hlast, found, hfound⟩
    · rw [hfound.tokenize_eq_ok] at h
      cases h
      exact hfound
    · rw [hfound.tokenize_eq_error hlast] at h
      cases h
  · rcases hcases with ⟨found, hfound⟩ | ⟨hlast, found, hfound⟩
    · rw [hfound.tokenize_eq_ok] at h
      cases h
    · rw [hfound.tokenize_eq_error hlast] at h
      cases h
      exact ⟨rfl, hlast, found, hfound⟩
  · obtain ⟨rfl, hlast, found, hfound⟩ := h
    exact hfound.tokenize_eq_error hlast

example : tokenize ["A", "AB", "x\\", ""] "AB A|x\\".toList =
    .ok [⟨.name "AB", 0⟩, ⟨.name "A", 3⟩, ⟨.bar, 4⟩, ⟨.name "x\\", 5⟩] := by
  decide +kernel

end Acceptors.Regex.Token
