import Std.Data.TreeMap
import Mathlib.Tactic.Common
import Acceptors.Proofs.Places

/-! Maps that number keys in the order in which they came. The number of a key is its place among
them. -/

namespace Acceptors

structure Numbers (numbers : Std.TreeMap (List Nat) Nat) (keys : List (List Nat)) : Prop where
  getElem?_iff : ∀ (key : List Nat) (i : Nat), numbers[key]? = some i ↔ keys[i]? = some key
  size_eq : numbers.size = keys.length

namespace Numbers

variable {numbers : Std.TreeMap (List Nat) Nat} {keys : List (List Nat)} {key : List Nat}

theorem empty : Numbers ∅ [] where
  getElem?_iff key i := by simp
  size_eq := rfl

theorem nodup (h : Numbers numbers keys) : keys.Nodup := by
  rw [List.nodup_iff_getElem?_ne_getElem?]
  intro i j hij hj heq
  have hkey := List.getElem?_eq_getElem hj
  have hi := (h.getElem?_iff _ i).2 (heq.trans hkey)
  rw [(h.getElem?_iff _ j).2 hkey] at hi
  cases hi
  exact Nat.lt_irrefl _ hij

theorem not_mem_iff (h : Numbers numbers keys) : key ∉ keys ↔ numbers[key]? = none := by
  rw [List.mem_iff_getElem?, not_exists, Option.eq_none_iff_forall_ne_some]
  exact forall_congr' fun i => not_congr (h.getElem?_iff key i).symm

theorem insert (h : Numbers numbers keys) (hkey : key ∉ keys) :
    Numbers (numbers.insert key keys.length) (keys ++ [key]) where
  getElem?_iff key' i := by
    rw [Std.TreeMap.getElem?_insert, getElem?_append_singleton_eq_some_iff]
    split
    · rename_i heq
      obtain rfl := Std.compare_eq_iff_eq.1 heq
      have hnone : ¬keys[i]? = some key := fun hi => hkey (List.mem_of_getElem? hi)
      rw [Option.some.injEq]
      tauto
    · rename_i hne
      rw [h.getElem?_iff]
      have hkey' : key' ≠ key := fun heq => hne (Std.compare_eq_iff_eq.2 heq.symm)
      tauto
  size_eq := by
    have hnew : numbers.contains key = false := by
      rw [Std.TreeMap.contains_eq_isSome_getElem?, h.not_mem_iff.1 hkey]
      rfl
    rw [Std.TreeMap.size_insert, hnew, h.size_eq, List.length_append]
    rfl

end Numbers

end Acceptors
