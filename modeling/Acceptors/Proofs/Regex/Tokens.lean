import Mathlib.Tactic.Common
import Acceptors.Proofs.Longest
import Acceptors.Regex.Expr
import Acceptors.Regex.Token

/-! The tokens of a pattern as a relation between the pattern and its tokens. A character that is
neither blank nor special begins the longest name that fits there, or is a symbol where none
does. -/

namespace Acceptors.Regex.Token

open Text (isBlank IsLongest longestName? longestName?_spec longestName?_eq_some_iff
  longestName?_eq_none_iff)

def IsPlain (c : Char) : Prop := isBlank c = false ∧ Expr.isSpecial c = false

instance (c : Char) : Decidable (IsPlain c) := inferInstanceAs (Decidable (_ ∧ _))

def IsFindable (names : List String) (name : String) : Prop :=
  name ∈ names ∧ ∃ c chars, name.toList = c :: chars ∧ IsPlain c

def markOf (c : Char) : Option Kind :=
  if c = '(' then some .opening
  else if c = ')' then some .closing
  else if c = '|' then some .bar
  else if c = '*' then some .star
  else none

inductive Found (names : List String) : Nat → List Char → List Token → Prop
  | nil (offset : Nat) : Found names offset [] []
  | blank {offset : Nat} {c : Char} {rest : List Char} {tokens : List Token} (h : isBlank c = true)
    (hrest : Found names (offset + 1) rest tokens) : Found names offset (c :: rest) tokens
  | escape {offset : Nat} {rest : List Char} {tokens : List Token} (c : Char)
    (hrest : Found names (offset + 2) rest tokens) :
    Found names offset ('\\' :: c :: rest) (⟨.symbol c, offset⟩ :: tokens)
  | mark {offset : Nat} {c : Char} {k : Kind} {rest : List Char} {tokens : List Token}
    (h : markOf c = some k) (hrest : Found names (offset + 1) rest tokens) :
    Found names offset (c :: rest) (⟨k, offset⟩ :: tokens)
  | name {offset : Nat} {c : Char} {chars rest : List Char} {tokens : List Token} {name : String}
    (h : IsPlain c) (hname : name ∈ names) (hchars : name.toList = c :: chars)
    (hlongest : ∀ other ∈ names, other.toList <+: name.toList ++ rest → other.length ≤ name.length)
    (hrest : Found names (offset + name.length) rest tokens) :
    Found names offset (c :: (chars ++ rest)) (⟨.name name, offset⟩ :: tokens)
  | symbol {offset : Nat} {c : Char} {rest : List Char} {tokens : List Token} (h : IsPlain c)
    (hnames : ∀ name ∈ names, name ≠ "" → ¬name.toList <+: c :: rest)
    (hrest : Found names (offset + 1) rest tokens) :
    Found names offset (c :: rest) (⟨.symbol c, offset⟩ :: tokens)

inductive Begins (names : List String) : List Char → Kind → Prop
  | mark {c : Char} {k : Kind} (h : markOf c = some k) (rest : List Char) :
      Begins names (c :: rest) k
  | escape (c : Char) (rest : List Char) : Begins names ('\\' :: c :: rest) (.symbol c)
  | name {c : Char} {rest : List Char} {name : String} (h : IsPlain c)
    (hlongest : IsLongest (names.map String.toList) (c :: rest) name.toList) :
    Begins names (c :: rest) (.name name)
  | symbol {c : Char} {rest : List Char} (h : IsPlain c)
    (hnames : ∀ name ∈ names, name ≠ "" → ¬name.toList <+: c :: rest) :
    Begins names (c :: rest) (.symbol c)

def width : List Char → Kind → Nat
  | _, .name name => name.length
  | '\\' :: _, .symbol _ => 2
  | _, _ => 1

variable {names : List String} {offset : Nat} {text rest : List Char} {found tokens : List Token}
  {c : Char} {k : Kind} {name : String}

theorem isSpecial_eq_false_iff :
    Expr.isSpecial c = false ↔ c ≠ '(' ∧ c ≠ ')' ∧ c ≠ '|' ∧ c ≠ '*' ∧ c ≠ '\\' := by
  simp [Expr.isSpecial, and_assoc]

theorem isPlain_of_markOf (h : markOf c = none) (hblank : isBlank c = false) (hescape : c ≠ '\\') :
    IsPlain c := by
  refine ⟨hblank, isSpecial_eq_false_iff.2 ?_⟩
  unfold markOf at h
  split_ifs at h with hopening hclosing hbar hstar
  exact ⟨hopening, hclosing, hbar, hstar, hescape⟩

/-! ### Single steps of the scan -/

theorem scan_skip (names : List (List Char)) (front rest : List Char) (offset : Nat)
    (found : List Token) :
    scan names front.length offset (front ++ rest) found =
      scan names 0 (offset + front.length) rest found := by
  induction front generalizing offset with
  | nil => rfl
  | cons c front ih =>
    refine (ih (offset + 1)).trans ?_
    rw [List.length_cons, Nat.add_assoc, Nat.add_comm 1]

theorem scan_blank (names : List (List Char)) (h : isBlank c = true)
    (rest : List Char) (offset : Nat) (found : List Token) :
    scan names 0 offset (c :: rest) found = scan names 0 (offset + 1) rest found := by
  cases rest <;> exact if_pos h

theorem scan_mark (names : List (List Char)) (h : markOf c = some k) (rest : List Char)
    (offset : Nat) (found : List Token) :
    scan names 0 offset (c :: rest) found =
    scan names 0 (offset + 1) rest (⟨k, offset⟩ :: found) := by
  unfold markOf at h
  split_ifs at h <;> subst c <;> cases h <;> cases rest <;> rfl

theorem scan_plain (names : List (List Char)) (h : IsPlain c) (rest : List Char) (offset : Nat)
    (found : List Token) :
    scan names 0 offset (c :: rest) found =
      match longestName? names (c :: rest) with
      | some name =>
        scan names (name.length - 1) (offset + 1) rest (⟨.name (.ofList name), offset⟩ :: found)
      | none => scan names 0 (offset + 1) rest (⟨.symbol c, offset⟩ :: found) := by
  obtain ⟨hopening, hclosing, hbar, hstar, hescape⟩ := isSpecial_eq_false_iff.1 h.2
  have hblank : ¬isBlank c = true := Bool.eq_false_iff.1 h.1
  cases rest <;> exact (if_neg hblank).trans ((if_neg hescape).trans ((if_neg hopening).trans
    ((if_neg hclosing).trans ((if_neg hbar).trans (if_neg hstar)))))

theorem scan_name {chars : List Char} (h : IsPlain c) (hname : name ∈ names)
    (hchars : name.toList = c :: chars)
    (hlongest : ∀ other ∈ names, other.toList <+: name.toList ++ rest → other.length ≤ name.length)
    (offset : Nat) (found : List Token) :
    scan (names.map String.toList) 0 offset (c :: (chars ++ rest)) found =
      scan (names.map String.toList) 0 (offset + name.length) rest
        (⟨.name name, offset⟩ :: found) := by
  have hfits : longestName? (names.map String.toList) (c :: (chars ++ rest)) =
      some name.toList := by
    rw [longestName?_eq_some_iff, ← List.cons_append, ← hchars]
    refine ⟨List.mem_map_of_mem hname, ?_, List.prefix_append _ _, List.forall_mem_map.2 hlongest⟩
    rw [hchars]
    exact List.cons_ne_nil c chars
  have hlength : name.toList.length = chars.length + 1 := congrArg List.length hchars
  rw [scan_plain _ h, hfits]
  simp only [String.ofList_toList, hlength, Nat.add_sub_cancel]
  rw [scan_skip, Nat.add_assoc, Nat.add_comm 1, ← hlength]
  rfl

theorem scan_symbol (h : IsPlain c)
    (hnames : ∀ name ∈ names, name ≠ "" → ¬name.toList <+: c :: rest) (offset : Nat)
    (found : List Token) :
    scan (names.map String.toList) 0 offset (c :: rest) found =
      scan (names.map String.toList) 0 (offset + 1) rest (⟨.symbol c, offset⟩ :: found) := by
  have hnone : longestName? (names.map String.toList) (c :: rest) = none := by
    rw [longestName?_eq_none_iff, List.forall_mem_map]
    exact fun name hname hne => hnames name hname (mt String.toList_eq_nil_iff.2 hne)
  rw [scan_plain _ h, hnone]

/-! ### The token at one place -/

theorem exists_of_isLongest (h : IsLongest (names.map String.toList) (c :: text) name.toList) :
    name ∈ names ∧ ∃ chars rest, name.toList = c :: chars ∧ text = chars ++ rest ∧
      (c :: text).drop name.length = rest ∧
      ∀ other ∈ names, other.toList <+: name.toList ++ rest → other.length ≤ name.length := by
  obtain ⟨name', hname, hsame⟩ := List.mem_map.1 h.mem
  obtain rfl := String.toList_inj.1 hsame
  obtain ⟨rest, hrest⟩ := h.begins
  have hdrop : (c :: text).drop name'.length = rest := by
    rw [← hrest, ← String.length_toList, List.drop_left]
  cases hchars : name'.toList with
  | nil => exact absurd hchars h.ne_nil
  | cons d chars =>
    rw [hchars, List.cons_append] at hrest
    obtain ⟨rfl, rfl⟩ := List.cons.inj hrest
    refine ⟨hname, chars, rest, rfl, rfl, hdrop, fun other hother hbegins => ?_⟩
    exact h.longest _ (List.mem_map_of_mem hother) hbegins

theorem isBlank_of_markOf (h : markOf c = some k) : isBlank c = false := by
  unfold markOf at h
  split_ifs at h <;> subst c <;> rfl

theorem width_mark (h : markOf c = some k) (rest : List Char) : width (c :: rest) k = 1 := by
  unfold markOf at h
  split_ifs at h <;> cases h <;> rfl

theorem width_plain (h : IsPlain c) (rest : List Char) : width (c :: rest) (.symbol c) = 1 := by
  obtain ⟨-, -, -, -, hescape⟩ := isSpecial_eq_false_iff.1 h.2
  unfold width
  split <;> simp_all

theorem begins_or (names : List String) (c : Char) (rest : List Char) :
    isBlank c = true ∨ (∃ k, Begins names (c :: rest) k) ∨ (c = '\\' ∧ rest = []) := by
  by_cases hblank : isBlank c = true
  · exact .inl hblank
  refine .inr ?_
  by_cases hescape : c = '\\'
  · subst hescape
    cases rest with
    | nil => exact .inr ⟨rfl, rfl⟩
    | cons e rest => exact .inl ⟨_, .escape e rest⟩
  refine .inl ?_
  cases hmark : markOf c with
  | some k => exact ⟨k, .mark hmark rest⟩
  | none =>
    have hplain := isPlain_of_markOf hmark (Bool.eq_false_iff.2 hblank) hescape
    rcases longestName?_spec (names.map String.toList) (c :: rest) with
      ⟨-, hnone⟩ | ⟨fitting, -, hlongest⟩
    · refine ⟨_, .symbol hplain fun name hname hne => ?_⟩
      exact hnone _ (List.mem_map_of_mem hname) (mt String.toList_eq_nil_iff.1 hne)
    · obtain ⟨name, -, rfl⟩ := List.mem_map.1 hlongest.mem
      exact ⟨_, .name hplain hlongest⟩

namespace Begins

theorem not_isBlank {rest : List Char} (h : Begins names (c :: rest) k) : isBlank c = false := by
  cases h with
  | mark h => exact isBlank_of_markOf h
  | escape => rfl
  | name h => exact h.1
  | symbol h => exact h.1

theorem width_bounds (h : Begins names text k) : 0 < width text k ∧ width text k ≤ text.length := by
  cases h with
  | mark h rest => simp [width_mark h]
  | escape c rest => simp [width]
  | name h hlongest =>
    have hlength := hlongest.begins.length_le
    have hpos := List.length_pos_iff.2 hlongest.ne_nil
    exact ⟨hpos, hlength⟩
  | symbol h => simp [width_plain h]

theorem scan_eq (h : Begins names text k) (offset : Nat) (found : List Token) :
    scan (names.map String.toList) 0 offset text found =
      scan (names.map String.toList) 0 (offset + width text k) (text.drop (width text k))
      (⟨k, offset⟩ :: found) := by
  cases h with
  | mark h rest => rw [scan_mark _ h, width_mark h, List.drop_succ_cons, List.drop_zero]
  | escape c rest => rfl
  | name h hlongest =>
    obtain ⟨hname, chars, rest, hchars, rfl, hdrop, hlongest⟩ := exists_of_isLongest hlongest
    rw [scan_name h hname hchars hlongest]
    simp only [width, hdrop]
  | symbol h hnames => rw [scan_symbol h hnames, width_plain h, List.drop_succ_cons, List.drop_zero]

end Begins

/-! ### Whole patterns -/

theorem Found.scan_eq (h : Found names offset text tokens) (found : List Token) :
    scan (names.map String.toList) 0 offset text found = .ok (found.reverse ++ tokens) := by
  induction h generalizing found with
  | nil offset => exact congrArg Except.ok (List.append_nil _).symm
  | blank h _ ih => rw [scan_blank _ h, ih]
  | escape c _ ih =>
    refine (ih _).trans ?_
    rw [List.reverse_cons, List.append_assoc, List.singleton_append]
  | mark h _ ih => rw [scan_mark _ h, ih, List.reverse_cons, List.append_assoc,
    List.singleton_append]
  | name h hname hchars hlongest _ ih =>
    rw [scan_name h hname hchars hlongest, ih, List.reverse_cons, List.append_assoc,
      List.singleton_append]
  | symbol h hnames _ ih =>
    rw [scan_symbol h hnames, ih, List.reverse_cons, List.append_assoc, List.singleton_append]

theorem Found.of_begins (h : Begins names text k)
    (hrest : Found names (offset + width text k) (text.drop (width text k)) tokens) :
    Found names offset text (⟨k, offset⟩ :: tokens) := by
  cases h with
  | mark h rest =>
    rw [width_mark h] at hrest
    exact .mark h hrest
  | escape c rest => exact .escape c hrest
  | name h hlongest =>
    obtain ⟨hname, chars, rest, hchars, rfl, hdrop, hlongest⟩ := exists_of_isLongest hlongest
    simp only [width, hdrop] at hrest
    exact .name h hname hchars hlongest hrest
  | symbol h hnames =>
    rw [width_plain h] at hrest
    exact .symbol h hnames hrest

theorem found_of_scan (text : List Char) {offset : Nat} {found tokens : List Token}
    (h : scan (names.map String.toList) 0 offset text found = .ok tokens) :
    ∃ later, tokens = found.reverse ++ later ∧ Found names offset text later := by
  match text with
  | [] =>
    cases h
    exact ⟨[], (List.append_nil _).symm, .nil _⟩
  | c :: rest =>
    rcases begins_or names c rest with hblank | ⟨k, hbegins⟩ | ⟨rfl, rfl⟩
    · rw [scan_blank _ hblank] at h
      obtain ⟨later, htokens, hlater⟩ := found_of_scan rest h
      exact ⟨later, htokens, .blank hblank hlater⟩
    · have hpos := hbegins.width_bounds.1
      rw [hbegins.scan_eq] at h
      obtain ⟨later, rfl, hlater⟩ := found_of_scan ((c :: rest).drop (width (c :: rest) k)) h
      refine ⟨_, ?_, .of_begins hbegins hlater⟩
      rw [List.reverse_cons, List.append_assoc, List.singleton_append]
    · cases h
termination_by text.length
decreasing_by
  · exact Nat.lt_succ_self _
  · rw [List.length_drop, List.length_cons]
    omega

theorem tokenize_eq_ok_iff : tokenize names text = .ok tokens ↔ Found names 0 text tokens := by
  constructor
  · intro h
    obtain ⟨later, rfl, hlater⟩ := found_of_scan text h
    exact hlater
  · intro h
    exact h.scan_eq []

theorem Found.isFindable (h : Found names offset text tokens)
    (hname : .name name ∈ tokens.map kind) :
    IsFindable names name := by
  induction h with
  | nil => cases hname
  | blank _ _ ih => exact ih hname
  | escape c _ ih =>
    rcases List.mem_cons.1 hname with hname | hname
    · cases hname
    · exact ih hname
  | mark h _ ih =>
    rcases List.mem_cons.1 hname with hname | hname
    · unfold markOf at h
      split_ifs at h <;> cases h <;> cases hname
    · exact ih hname
  | name h hmem hchars _ _ ih =>
    rcases List.mem_cons.1 hname with hname | hname
    · cases hname
      exact ⟨hmem, _, _, hchars, h⟩
    · exact ih hname
  | symbol _ _ _ ih =>
    rcases List.mem_cons.1 hname with hname | hname
    · cases hname
    · exact ih hname

end Acceptors.Regex.Token
