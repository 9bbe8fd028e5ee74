import Mathlib.Data.List.ReduceOption
import Acceptors.Proofs.Regex.Parts
import Acceptors.Proofs.Regex.Tokens

/-! The pattern of an expression as a row of tokens and blanks. Where names leave the tokens of the
pattern alone, they are what is found in it. -/

namespace Acceptors.Regex

open Token (Kind)

/-- The text of a token. A symbol that would not stand for itself has a backslash. -/
def Token.Kind.text : Kind → List Char
  | .opening => ['(']
  | .closing => [')']
  | .bar => ['|']
  | .star => ['*']
  | .symbol c => if Expr.isSpecial c || Text.isBlank c then ['\\', c] else [c]
  | .name text => text.toList

def textOf : List (Option Kind) → List Char
  | [] => []
  | none :: ks => ' ' :: textOf ks
  | some k :: ks => k.text ++ textOf ks

namespace Expr

def grouped (needed : Bool) (ks : List (Option Kind)) : List (Option Kind) :=
  if needed then some .opening :: (ks ++ [some .closing]) else ks

mutual

def printed : Expr → List (Option Kind)
  | empty => [some .opening, some .closing]
  | literal c => [some (.symbol c)]
  | reference name _ => [some (.name name)]
  | concat items => printedConcat false items
  | union items => printedUnion items
  | star body => grouped body.isLoose (printed body) ++ [some .star]

def printedConcat (blank : Bool) : List Expr → List (Option Kind)
  | [] => []
  | e :: items =>
    (if blank then [none] else []) ++ grouped e.isUnion (printed e) ++
      printedConcat (e.isReference || items.head?.any isReference) items

def printedUnion : List Expr → List (Option Kind)
  | [] => []
  | [e] => printed e
  | e :: f :: items => printed e ++ some .bar :: printedUnion (f :: items)

end

end Expr

variable {names : List String} {ks ks' : List (Option Kind)} {e : Expr} {k : Kind} {name : String}

theorem textOf_append (ks ks' : List (Option Kind)) :
    textOf (ks ++ ks') = textOf ks ++ textOf ks' := by
  induction ks with
  | nil => rfl
  | cons k ks ih => cases k <;> simp [textOf, ih]

theorem toList_parenthesized {text : String} (needed : Bool) (h : text.toList = textOf ks) :
    (Expr.parenthesized needed text).toList = textOf (Expr.grouped needed ks) := by
  cases needed with
  | false => exact h
  | true =>
    simp only [Expr.parenthesized, Expr.grouped, if_true, String.toList_append, h, textOf,
      textOf_append]
    rfl

mutual

theorem toList_display : ∀ e : Expr, e.display.toList = textOf e.printed
  | .empty => rfl
  | .literal c => by
    rw [Expr.display, Expr.printed, textOf, textOf, List.append_nil, Kind.text]
    split
    · rw [String.toList_append, Char.toString, String.toList_singleton]
      rfl
    · rw [Char.toString, String.toList_singleton]
  | .reference name _ => (List.append_nil name.toList).symm
  | .concat items => toList_displayConcat false items
  | .union items => toList_displayUnion items
  | .star body => by
    rw [Expr.display, String.toList_append, toList_parenthesized _ (toList_display body),
      Expr.printed, textOf_append]
    rfl

theorem toList_displayConcat (blank : Bool) : ∀ items : List Expr,
    (Expr.displayConcat blank items).toList = textOf (Expr.printedConcat blank items)
  | [] => rfl
  | e :: items => by
    rw [Expr.displayConcat, Expr.printedConcat, String.toList_append, String.toList_append,
      textOf_append, textOf_append, toList_parenthesized _ (toList_display e),
      toList_displayConcat _ items]
    cases blank <;> rfl

theorem toList_displayUnion : ∀ items : List Expr,
    (Expr.displayUnion items).toList = textOf (Expr.printedUnion items)
  | [] => rfl
  | [e] => toList_display e
  | e :: f :: items => by
    rw [Expr.displayUnion, Expr.printedUnion, String.toList_append, String.toList_append,
      textOf_append, toList_display e, toList_displayUnion (f :: items), List.append_assoc]
    rfl

end

theorem mem_grouped_iff (needed : Bool) :
    some (.name name) ∈ Expr.grouped needed ks ↔ some (.name name) ∈ ks := by
  cases needed <;> simp [Expr.grouped]

mutual

theorem exists_of_name_mem_printed : ∀ {e : Expr}, some (.name name) ∈ e.printed →
    ∃ target, .reference name target ∈ e.parts
  | .empty, h => by simp [Expr.printed] at h
  | .literal c, h => by simp [Expr.printed] at h
  | .reference _ target, h => by
    obtain rfl : name = _ := by simpa [Expr.printed] using h
    exact ⟨target, Expr.mem_parts_self _⟩
  | .concat items, h => by
    obtain ⟨target, htarget⟩ := exists_of_name_mem_printedConcat h
    exact ⟨target, List.mem_cons_of_mem _ htarget⟩
  | .union items, h => by
    obtain ⟨target, htarget⟩ := exists_of_name_mem_printedUnion h
    exact ⟨target, List.mem_cons_of_mem _ htarget⟩
  | .star body, h => by
    rw [Expr.printed, List.mem_append, mem_grouped_iff] at h
    rcases h with h | h
    · obtain ⟨target, htarget⟩ := exists_of_name_mem_printed h
      exact ⟨target, List.mem_cons_of_mem _ htarget⟩
    · simp at h

theorem exists_of_name_mem_printedConcat : ∀ {blank : Bool} {items : List Expr},
    some (.name name) ∈ Expr.printedConcat blank items →
    ∃ target, .reference name target ∈ Expr.partsOf items
  | _, [], h => nomatch h
  | blank, e :: items, h => by
    rw [Expr.printedConcat, List.mem_append, List.mem_append, mem_grouped_iff] at h
    rw [Expr.partsOf]
    rcases h with (h | h) | h
    · cases blank <;> simp at h
    · obtain ⟨target, htarget⟩ := exists_of_name_mem_printed h
      exact ⟨target, List.mem_append_left _ htarget⟩
    · obtain ⟨target, htarget⟩ := exists_of_name_mem_printedConcat h
      exact ⟨target, List.mem_append_right _ htarget⟩

theorem exists_of_name_mem_printedUnion : ∀ {items : List Expr},
    some (.name name) ∈ Expr.printedUnion items → ∃ target,
    .reference name target ∈ Expr.partsOf items
  | [], h => nomatch h
  | [e], h => by
    obtain ⟨target, htarget⟩ := exists_of_name_mem_printed h
    exact ⟨target, List.mem_append_left _ htarget⟩
  | e :: f :: items, h => by
    rw [Expr.printedUnion, List.mem_append, List.mem_cons] at h
    rw [Expr.partsOf]
    rcases h with h | h | h
    · obtain ⟨target, htarget⟩ := exists_of_name_mem_printed h
      exact ⟨target, List.mem_append_left _ htarget⟩
    · cases h
    · obtain ⟨target, htarget⟩ := exists_of_name_mem_printedUnion h
      exact ⟨target, List.mem_append_right _ htarget⟩

end

/-! ### Tokens of what was printed -/

/-- No name takes a part of the pattern from a token that is meant, whose text stands before `rest`:
none begins at a symbol without a backslash, and none that begins where a name does is longer. -/
def Token.Kind.Undisturbed (names : List String) (rest : List Char) : Kind → Prop
  | .symbol c => Token.IsPlain c → ∀ name ∈ names, name ≠ "" → ¬name.toList <+: c :: rest
  | .name text => ∀ name ∈ names, name.toList <+: text.toList ++ rest → name.length ≤ text.length
  | _ => True

instance (names : List String) (rest : List Char) : ∀ k : Kind, Decidable (k.Undisturbed names rest)
  | .symbol c => inferInstanceAs
    (Decidable (Token.IsPlain c → ∀ name ∈ names, name ≠ "" → ¬name.toList <+: c :: rest))
  | .name text => inferInstanceAs
    (Decidable (∀ name ∈ names, name.toList <+: text.toList ++ rest → name.length ≤ text.length))
  | .opening | .closing | .bar | .star => .isTrue trivial

def Legible (names : List String) : List (Option Kind) → Prop
  | [] => True
  | none :: ks => Legible names ks
  | some k :: ks => k.Undisturbed names (textOf ks) ∧ Legible names ks

instance decidableLegible (names : List String) : ∀ ks :
    List (Option Kind), Decidable (Legible names ks)
  | [] => .isTrue trivial
  | none :: ks => decidableLegible names ks
  | some k :: ks =>
    have := decidableLegible names ks
    inferInstanceAs (Decidable (k.Undisturbed names (textOf ks) ∧ Legible names ks))

theorem legible_nil (ks : List (Option Kind)) : Legible [] ks := by
  induction ks with
  | nil => trivial
  | cons k ks ih =>
    cases k with
    | none => exact ih
    | some k =>
      refine ⟨?_, ih⟩
      cases k <;> simp [Kind.Undisturbed]

theorem found_text {k : Kind} {offset : Nat} {rest : List Char} {tokens : List Token}
    (hundisturbed : k.Undisturbed names rest)
    (hname : ∀ name, k = .name name → Token.IsFindable names name)
    (hrest : Token.Found names (offset + k.text.length) rest tokens) :
    Token.Found names offset (k.text ++ rest) (⟨k, offset⟩ :: tokens) := by
  cases k with
  | opening => exact .mark rfl hrest
  | closing => exact .mark rfl hrest
  | bar => exact .mark rfl hrest
  | star => exact .mark rfl hrest
  | symbol c =>
    cases hplain : Expr.isSpecial c || Text.isBlank c with
    | true =>
      rw [Kind.text, if_pos hplain] at hrest ⊢
      exact .escape c hrest
    | false =>
      rw [Kind.text, if_neg (Bool.eq_false_iff.1 hplain)] at hrest ⊢
      obtain ⟨hspecial, hblank⟩ := Bool.or_eq_false_iff.1 hplain
      exact .symbol ⟨hblank, hspecial⟩ (hundisturbed ⟨hblank, hspecial⟩) hrest
  | name text =>
    obtain ⟨hmem, c, chars, hchars, hplain⟩ := hname text rfl
    rw [Kind.text] at hrest ⊢
    rw [hchars, List.cons_append]
    exact .name hplain hmem hchars hundisturbed hrest

theorem exists_found (h : Legible names ks)
    (hnames : ∀ name, some (.name name) ∈ ks → Token.IsFindable names name) (offset : Nat) :
    ∃ tokens, Token.Found names offset (textOf ks) tokens ∧
    tokens.map Token.kind = ks.reduceOption := by
  induction ks generalizing offset with
  | nil => exact ⟨[], .nil offset, rfl⟩
  | cons k ks ih =>
    have hrest : ∀ name, some (.name name) ∈ ks → Token.IsFindable names name :=
      fun name hname => hnames name (List.mem_cons_of_mem k hname)
    cases k with
    | none =>
      obtain ⟨tokens, hfound, hkinds⟩ := ih h hrest (offset + 1)
      exact ⟨tokens, .blank rfl hfound, hkinds⟩
    | some k =>
      obtain ⟨tokens, hfound, hkinds⟩ := ih h.2 hrest (offset + k.text.length)
      refine ⟨_, found_text h.1 (fun name hk => hnames name (hk ▸ List.mem_cons_self)) hfound, ?_⟩
      rw [List.map_cons, hkinds, List.reduceOption_cons_of_some]

end Acceptors.Regex
