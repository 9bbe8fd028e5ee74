import Mathlib.Data.List.DropRight
import Mathlib.Tactic.Common
import Acceptors.Proofs.Outcome
import Acceptors.Regex.Token

/-! What each character of a pattern stands for, by the characters before it. A scan without names
finds just that, and fails only when the last backslash has nothing to escape. -/

namespace Acceptors.Regex

open Token (Kind)

namespace Pattern

def backslashes (text : List Char) : Nat := (text.rtakeWhile (· == '\\')).length

def Escapes (text : List Char) : Prop := backslashes text % 2 = 1

instance (text : List Char) : Decidable (Escapes text) := inferInstanceAs (Decidable (_ = _))

/-- An escaped character is a symbol whatever it is. Blanks and the backslash that escapes stand
for nothing. -/
def kindAt (before : List Char) (c : Char) : Option Kind :=
  if Escapes before then some (.symbol c)
  else if Text.isBlank c ∨ c = '\\' then none
  else if c = '(' then some .opening
  else if c = ')' then some .closing
  else if c = '|' then some .bar
  else if c = '*' then some .star
  else some (.symbol c)

/-- What the characters of a text stand for, in order; `before` is the text in front of it. -/
def kinds (before : List Char) : List Char → List Kind
  | [] => []
  | c :: rest => (kindAt before c).toList ++ kinds (before ++ [c]) rest

variable {front before : List Char} {c : Char} {ks₁ ks₂ : List Kind} {k : Kind}

theorem not_escapes_nil : ¬Escapes [] := by decide

theorem escapes_concat : Escapes (before ++ [c]) ↔ c = '\\' ∧ ¬Escapes before := by
  unfold Escapes backslashes
  rw [List.rtakeWhile_concat]
  by_cases hc : c = '\\'
  · simp [hc]
    omega
  · simp [hc]

theorem kindAt_eq_star_iff : kindAt before c = some .star ↔ ¬Escapes before ∧ c = '*' := by
  unfold kindAt
  split_ifs with hescapes hskipped
  · simp [hescapes]
  · have hstar : c ≠ '*' := by
      rintro rfl
      exact absurd hskipped (by decide)
    simp [hstar]
  all_goals simp_all

theorem kinds_append (front before after : List Char) :
    kinds front (before ++ after) = kinds front before ++ kinds (front ++ before) after := by
  induction before generalizing front with
  | nil => rw [List.nil_append, kinds, List.nil_append, List.append_nil]
  | cons c before ih => rw [List.cons_append, kinds, kinds, ih, ← List.append_cons,
    List.append_assoc]

theorem name_notMem_kinds (front text : List Char) (name : String) :
    .name name ∉ kinds front text := by
  induction text generalizing front with
  | nil => exact List.not_mem_nil
  | cons c rest ih =>
    rw [kinds, List.mem_append, Option.mem_toList, not_or]
    refine ⟨?_, ih (front ++ [c])⟩
    unfold kindAt
    split_ifs <;> simp

theorem exists_of_kinds_eq {text : List Char} (h : kinds front text = ks₁ ++ k :: ks₂) :
    ∃ before c after, text = before ++ c :: after ∧ kindAt (front ++ before) c = some k ∧
      kinds front before = ks₁ := by
  induction text generalizing front ks₁ with
  | nil => simp [kinds] at h
  | cons c rest ih =>
    have later : ∀ ks, kinds (front ++ [c]) rest = ks ++ k :: ks₂ →
        ks₁ = (kindAt front c).toList ++ ks → ∃ before d after, c :: rest = before ++ d :: after ∧
          kindAt (front ++ before) d = some k ∧ kinds front before = ks₁ := by
      rintro ks hks rfl
      obtain ⟨before, d, after, rfl, hd, rfl⟩ := ih hks
      exact ⟨c :: before, d, after, rfl, List.append_cons .. ▸ hd, rfl⟩
    rw [kinds] at h
    cases hc : kindAt front c with
    | none =>
      rw [hc] at h
      exact later ks₁ h (by rw [hc]; rfl)
    | some k' =>
      rw [hc, Option.toList_some, List.singleton_append] at h
      rcases List.cons_eq_append_iff.1 h with ⟨rfl, hk⟩ | ⟨ks, rfl, hks⟩
      · obtain ⟨rfl, -⟩ := List.cons.inj hk
        exact ⟨[], c, rest, rfl, by rw [List.append_nil, hc], rfl⟩
      · exact later ks hks (by rw [hc]; rfl)

end Pattern

namespace Token

open Pattern

variable {before rest : List Char} {c : Char} {offset : Nat} {found : List Token}

theorem scan_char (hbefore : ¬Escapes before) (hc : c ≠ '\\') :
    scan [] 0 offset (c :: rest) found =
      scan [] 0 (offset + 1) rest (((kindAt before c).map (⟨·, offset⟩)).toList ++ found) := by
  -- What a backslash leads to depends on `rest`, and does not matter here.
  obtain ⟨escape, hscan⟩ : ∃ escape, scan [] 0 offset (c :: rest) found =
      if Text.isBlank c then scan [] 0 (offset + 1) rest found
      else if c = '\\' then escape
      else if c = '(' then scan [] 0 (offset + 1) rest (⟨.opening, offset⟩ :: found)
      else if c = ')' then scan [] 0 (offset + 1) rest (⟨.closing, offset⟩ :: found)
      else if c = '|' then scan [] 0 (offset + 1) rest (⟨.bar, offset⟩ :: found)
      else if c = '*' then scan [] 0 (offset + 1) rest (⟨.star, offset⟩ :: found)
      else scan [] 0 (offset + 1) rest (⟨.symbol c, offset⟩ :: found) := by
    cases rest <;> exact ⟨_, rfl⟩
  rw [hscan]
  simp only [kindAt, hbefore, hc, or_false, if_false]
  split_ifs <;> rfl

theorem scan_escaped (e : Char) : scan [] 0 offset ('\\' :: e :: rest) found =
    scan [] 0 (offset + 2) rest (⟨.symbol e, offset⟩ :: found) := rfl

theorem map_kind_toList (k : Option Kind) (offset : Nat) :
    ((k.map fun k => (⟨k, offset⟩ : Token)).toList.reverse.map kind) = k.toList := by
  cases k <;> rfl

theorem kinds_escaped (hbefore : ¬Escapes before) (e : Char) :
    kinds before ('\\' :: e :: rest) = .symbol e :: kinds (before ++ ['\\'] ++ [e]) rest := by
  have hescapes : Escapes (before ++ ['\\']) := escapes_concat.2 ⟨rfl, hbefore⟩
  rw [kinds, kinds, kindAt, if_neg hbefore, if_pos (.inr rfl), kindAt, if_pos hescapes]
  rfl

/-- From an unescaped place on, the scan fails when the text ends in an escape, and else finds what
the characters stand for. -/
theorem scan_spec : ∀ {before : List Char} (rest : List Char) (offset : Nat) (found : List Token),
    ¬Escapes before →
      (Escapes (before ++ rest) ∧ ∃ e, scan [] 0 offset rest found = .error e) ∨
      (¬Escapes (before ++ rest) ∧ ∃ tokens, scan [] 0 offset rest found = .ok tokens ∧
        tokens.map kind = found.reverse.map kind ++ kinds before rest)
  | before, [], offset, found, hbefore => by
    rw [List.append_nil]
    exact .inr ⟨hbefore, found.reverse, rfl, (List.append_nil _).symm⟩
  | before, c :: rest, offset, found, hbefore => by
    by_cases hc : c = '\\'
    · subst hc
      have hescapes : Escapes (before ++ ['\\']) := escapes_concat.2 ⟨rfl, hbefore⟩
      match rest with
      | [] => exact .inl ⟨hescapes, _, rfl⟩
      | e :: rest =>
        have hpair : ¬Escapes (before ++ ['\\'] ++ [e]) := fun h => (escapes_concat.1 h).2 hescapes
        have ih := scan_spec rest (offset + 2) (⟨.symbol e, offset⟩ :: found) hpair
        rw [List.append_cons, List.append_cons, scan_escaped, kinds_escaped hbefore]
        rwa [List.reverse_cons, List.map_append, List.append_assoc (List.map _ _)] at ih
    · have hnext : ¬Escapes (before ++ [c]) := fun h => hc (escapes_concat.1 h).1
      have ih :=
        scan_spec rest (offset + 1) (((kindAt before c).map (⟨·, offset⟩)).toList ++ found) hnext
      rw [List.append_cons, scan_char hbefore hc, kinds]
      rwa [List.reverse_append, List.map_append, List.append_assoc (List.map _ _),
        map_kind_toList] at ih

theorem tokenize_spec (text : List Char) :
    (Escapes text ∧ ∃ e, tokenize [] text = .error e) ∨
    (¬Escapes text ∧ ∃ tokens, tokenize [] text = .ok tokens ∧ tokens.map kind = kinds [] text) :=
  scan_spec text 0 [] not_escapes_nil

end Token

end Acceptors.Regex
