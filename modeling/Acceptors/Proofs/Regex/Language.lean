import Mathlib.Computability.Language
import Acceptors.Regex.Expr

/-! The language that a regular expression denotes. A concatenation of no items is the empty word
and a union of no items is empty; a reference stands for what its name was given to. -/

namespace Acceptors.Regex.Expr

open scoped Computability

mutual

def language : Expr → Language Char
  | empty => 1
  | literal c => {[c]}
  | reference _ target => language target
  | concat items => productOf items
  | union items => sumOf items
  | star body => (language body)∗

def productOf : List Expr → Language Char
  | [] => 1
  | e :: items => language e * productOf items

def sumOf : List Expr → Language Char
  | [] => 0
  | e :: items => language e + sumOf items

end

variable {w : List Char} {c : Char}

mutual

theorem mem_literals_of_mem_language : ∀ {e : Expr} {w}, w ∈ e.language → c ∈ w → c ∈ e.literals
  | empty, w, hw, hc => by
    rw [language, Language.mem_one] at hw
    subst hw
    exact absurd hc List.not_mem_nil
  | literal d, w, hw, hc => by
    obtain rfl : w = [d] := hw
    exact hc
  | reference _ target, w, hw, hc => by
    rw [language] at hw
    rw [literals]
    exact mem_literals_of_mem_language hw hc
  | concat items, w, hw, hc => by
    rw [language] at hw
    rw [literals]
    exact mem_literalsOf_of_mem_productOf hw hc
  | union items, w, hw, hc => by
    rw [language] at hw
    rw [literals]
    exact mem_literalsOf_of_mem_sumOf hw hc
  | star body, w, hw, hc => by
    rw [language, Language.mem_kstar] at hw
    rw [literals]
    obtain ⟨pieces, rfl, hpieces⟩ := hw
    obtain ⟨piece, hpiece, hc⟩ := List.mem_flatten.1 hc
    exact mem_literals_of_mem_language (hpieces piece hpiece) hc

theorem mem_literalsOf_of_mem_productOf :
    ∀ {items : List Expr} {w}, w ∈ productOf items → c ∈ w → c ∈ literalsOf items
  | [], w, hw, hc => by
    rw [productOf, Language.mem_one] at hw
    subst hw
    exact absurd hc List.not_mem_nil
  | e :: items, w, hw, hc => by
    rw [productOf, Language.mem_mul] at hw
    rw [literalsOf, List.mem_append]
    obtain ⟨u, hu, v, hv, rfl⟩ := hw
    rcases List.mem_append.1 hc with hc | hc
    · exact .inl (mem_literals_of_mem_language hu hc)
    · exact .inr (mem_literalsOf_of_mem_productOf hv hc)

theorem mem_literalsOf_of_mem_sumOf :
    ∀ {items : List Expr} {w}, w ∈ sumOf items → c ∈ w → c ∈ literalsOf items
  | [], w, hw, hc => by
    rw [sumOf] at hw
    exact absurd hw (Language.notMem_zero w)
  | e :: items, w, hw, hc => by
    rw [sumOf, Language.mem_add] at hw
    rw [literalsOf, List.mem_append]
    rcases hw with hw | hw
    · exact .inl (mem_literals_of_mem_language hw hc)
    · exact .inr (mem_literalsOf_of_mem_sumOf hw hc)

end

theorem mem_symbols_of_mem_language {e : Expr} (hw : w ∈ e.language) (hc : c ∈ w) :
    c ∈ e.symbols := by
  rw [symbols, List.mem_eraseDups]
  exact mem_literals_of_mem_language hw hc

end Acceptors.Regex.Expr
