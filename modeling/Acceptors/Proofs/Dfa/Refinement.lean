import Mathlib.Data.Fintype.Card
import Mathlib.Data.Fintype.EquivFin
import Acceptors.Dfa.Minimize
import Acceptors.Proofs.Numbering

/-! Partition refinement. A round only tells more places apart. When it uses as many classes as the
round before, it told none apart, so the classes are stable: places of one class have successors of
one class in each column. A relation that successors preserve, and that the first classes respect,
is respected by all later ones. -/

namespace Acceptors.Dfa.Partition

variable {m n k p q fuel : Nat} {classes finer : Array Nat}
    {signatures successors : List (List Nat)} {succ : Nat → Nat → Nat}

/-- Classes for `m` places, each number below their count in use. -/
structure Numbering (m : Nat) (classes : Array Nat) : Prop where
  size_eq : classes.size = m
  dense : ∀ k < count classes, ∃ p < m, classes.getD p 0 = k

structure Rows (m n : Nat) (succ : Nat → Nat → Nat) (successors : List (List Nat)) : Prop where
  length_eq : successors.length = m
  row_eq : ∀ p < m, successors[p]? = some ((List.range n).map (succ p))
  succ_lt : ∀ p < m, ∀ i < n, succ p i < m

def Stable (m n : Nat) (succ : Nat → Nat → Nat) (classes : Array Nat) : Prop :=
  ∀ p < m, ∀ q < m, classes.getD p 0 = classes.getD q 0 →
    ∀ i < n, classes.getD (succ p i) 0 = classes.getD (succ q i) 0

def Refines (m : Nat) (finer classes : Array Nat) : Prop :=
  ∀ p < m, ∀ q < m, finer.getD p 0 = finer.getD q 0 → classes.getD p 0 = classes.getD q 0

section Renumber

theorem lt_count_iff : k < count classes ↔ ∃ j ∈ classes, k ≤ j := by
  suffices h : ∀ (l : List Nat) (bound : Nat),
      k < l.foldl (fun n k => max n (k + 1)) bound ↔ k < bound ∨ ∃ j ∈ l, k ≤ j by
    rw [count, ← Array.foldl_toList, h]
    simp
  intro l
  induction l with
  | nil => simp
  | cons j l ih =>
    intro bound
    rw [List.foldl_cons, ih, List.exists_mem_cons_iff, lt_max_iff, Nat.lt_succ_iff]
    tauto

theorem Numbering.lt_count (h : Numbering m classes) (hp : p < m) :
    classes.getD p 0 < count classes := by
  have hsize : p < classes.size := h.size_eq ▸ hp
  rw [Array.getD_eq_getD_getElem?, Array.getElem?_eq_getElem hsize]
  exact lt_count_iff.2 ⟨classes[p], Array.getElem_mem hsize, Nat.le_refl _⟩

theorem renumber_go_spec (signatures : List (List Nat)) {numbers : Std.TreeMap (List Nat) Nat}
    {keys : List (List Nat)} (h : Numbers numbers keys) (done : Array Nat) :
    ∃ all :
    List (List Nat), (∀ (i : Nat) key, keys[i]? = some key → all[i]? = some key) ∧ all.Nodup ∧
      (∀ s, s ∈ all ↔ s ∈ keys ∨ s ∈ signatures) ∧
      (renumber.go numbers done signatures).toList = done.toList ++ signatures.map all.idxOf := by
  induction signatures generalizing numbers keys done with
  | nil => exact ⟨keys, fun _ _ h => h, h.nodup, by simp, by simp [renumber.go]⟩
  | cons s signatures ih =>
    rw [renumber.go]
    split
    · rename_i k hk
      obtain ⟨all, hkeys, hnodup, hmem, hgo⟩ := ih h (done.push k)
      have hs := (h.getElem?_iff s k).1 hk
      refine ⟨all, hkeys, hnodup, fun t => ?_, ?_⟩
      · rw [hmem, List.mem_cons]
        have := List.mem_of_getElem? hs
        constructor
        · tauto
        · rintro (ht | rfl | ht)
          · exact .inl ht
          · exact .inl this
          · exact .inr ht
      · obtain ⟨hlt, hall⟩ := List.getElem?_eq_some_iff.1 (hkeys k s hs)
        rw [hgo, Array.toList_push, List.map_cons, List.append_assoc, ← hall,
          hnodup.idxOf_getElem]
        rfl
    · rename_i hnone
      have hs := h.not_mem_iff.2 hnone
      rw [h.size_eq]
      obtain ⟨all, hkeys, hnodup, hmem, hgo⟩ := ih (h.insert hs) (done.push keys.length)
      refine ⟨all, fun i key hi => hkeys i key ?_, hnodup, fun t => ?_, ?_⟩
      · exact getElem?_append_singleton_eq_some_iff.2 (.inl hi)
      · rw [hmem, List.mem_cons, List.mem_append, List.mem_singleton]
        tauto
      · have hkey := hkeys keys.length s
          (getElem?_append_singleton_eq_some_iff.2 (.inr ⟨rfl, rfl⟩))
        obtain ⟨hlt, hall⟩ := List.getElem?_eq_some_iff.1 hkey
        rw [hgo, Array.toList_push, List.map_cons, List.append_assoc, ← hall,
          hnodup.idxOf_getElem]
        rfl

theorem renumber_spec (signatures : List (List Nat)) :
    ∃ keys : List (List Nat), keys.Nodup ∧ (∀ s, s ∈ keys ↔ s ∈ signatures) ∧
      (renumber signatures).toList = signatures.map keys.idxOf := by
  obtain ⟨all, _, hnodup, hmem, hgo⟩ := renumber_go_spec signatures Numbers.empty #[]
  exact ⟨all, hnodup, fun s => by simp [hmem], hgo⟩

theorem getD_renumber_eq_iff {u v : List Nat} (hp : signatures[p]? = some u)
    (hq : signatures[q]? = some v) :
    (renumber signatures).getD p 0 = (renumber signatures).getD q 0 ↔ u = v := by
  obtain ⟨keys, _, hmem, hspec⟩ := renumber_spec signatures
  have hu : u ∈ keys := (hmem u).2 (List.mem_of_getElem? hp)
  rw [Array.getD_eq_getD_getElem?, Array.getD_eq_getD_getElem?, ← Array.getElem?_toList,
    ← Array.getElem?_toList, hspec, List.getElem?_map, List.getElem?_map, hp, hq]
  exact List.idxOf_inj hu

theorem numbering_renumber (signatures : List (List Nat)) :
    Numbering signatures.length (renumber signatures) := by
  obtain ⟨keys, hnodup, hmem, hspec⟩ := renumber_spec signatures
  refine ⟨by rw [← Array.length_toList, hspec, List.length_map], fun k hk => ?_⟩
  obtain ⟨j, hj, hkj⟩ := lt_count_iff.1 hk
  rw [← Array.mem_toList_iff, hspec] at hj
  obtain ⟨s, hs, rfl⟩ := List.mem_map.1 hj
  have hlt : k < keys.length := Nat.lt_of_le_of_lt hkj (List.idxOf_lt_length_iff.2 ((hmem s).2 hs))
  obtain ⟨p, hp, hkey⟩ := List.getElem_of_mem ((hmem keys[k]).1 (List.getElem_mem hlt))
  refine ⟨p, hp, ?_⟩
  rw [Array.getD_eq_getD_getElem?, ← Array.getElem?_toList, hspec, List.getElem?_map,
    List.getElem?_eq_getElem hp, hkey]
  exact hnodup.idxOf_getElem k hlt

end Renumber

section Order

def Ordered (classes : Array Nat) : Prop :=
  ∀ p, ∀ k < classes.getD p 0, ∃ q < p, classes.getD q 0 = k

def Used (n : Nat) (classes : Array Nat) : Prop := ∀ k < n, ∃ q < classes.size, classes.getD q 0 = k

theorem Used.push (h : Used n classes) (k : Nat) : Used n (classes.push k) := by
  intro j hj
  obtain ⟨q, hq, rfl⟩ := h j hj
  exact ⟨q, by rw [Array.size_push]; omega, array_getD_push_of_lt hq k 0⟩

theorem Used.push_next (h : Used n classes) : Used (n + 1) (classes.push n) := by
  intro j hj
  rcases Nat.lt_succ_iff_lt_or_eq.1 hj with hj | rfl
  · exact h.push n j hj
  · exact ⟨classes.size, by rw [Array.size_push]; omega, array_getD_push_size classes j 0⟩

theorem Ordered.push (h : Ordered classes) (hused : Used k classes) : Ordered (classes.push k) := by
  intro p j hj
  rcases Nat.lt_trichotomy p classes.size with hlt | rfl | hgt
  · rw [array_getD_push_of_lt hlt] at hj
    obtain ⟨q, hq, hclass⟩ := h p j hj
    exact ⟨q, hq, by rw [array_getD_push_of_lt (Nat.lt_trans hq hlt), hclass]⟩
  · rw [array_getD_push_size] at hj
    obtain ⟨q, hq, hclass⟩ := hused j hj
    exact ⟨q, hq, by rw [array_getD_push_of_lt hq, hclass]⟩
  · rw [Array.getD_eq_getD_getElem?, Array.getElem?_eq_none (by rw [Array.size_push]; omega)] at hj
    exact absurd hj (Nat.not_lt_zero j)

theorem ordered_renumber_go (signatures : List (List Nat)) {numbers : Std.TreeMap (List Nat) Nat}
    {keys : List (List Nat)} (hkeys : Numbers numbers keys) {done : Array Nat} (h : Ordered done)
    (hused : Used keys.length done) : Ordered (renumber.go numbers done signatures) := by
  induction signatures generalizing numbers keys done with
  | nil => exact h
  | cons s signatures ih =>
    rw [renumber.go]
    split
    · rename_i k hk
      have hlt := (List.getElem?_eq_some_iff.1 ((hkeys.getElem?_iff s k).1 hk)).1
      exact ih hkeys (h.push fun j hj => hused j (Nat.lt_trans hj hlt)) (hused.push k)
    · rename_i hnone
      rw [hkeys.size_eq]
      refine ih (hkeys.insert (hkeys.not_mem_iff.2 hnone)) (h.push hused) ?_
      rw [List.length_append]
      exact hused.push_next

theorem ordered_renumber (signatures : List (List Nat)) : Ordered (renumber signatures) :=
  ordered_renumber_go signatures .empty (fun _ _ hk => absurd hk (Nat.not_lt_zero _))
    fun _ hk => absurd hk (Nat.not_lt_zero _)

theorem Ordered.getD_eq_self (h : Ordered classes)
    (hinj : ∀ p < n, ∀ q < n, classes.getD p 0 = classes.getD q 0 → p = q) (hp : p < n) :
    classes.getD p 0 = p := by
  induction p using Nat.strong_induction_on with
  | _ p ih =>
    rcases Nat.lt_trichotomy (classes.getD p 0) p with hlt | heq | hgt
    · exact hinj _ (Nat.lt_trans hlt hp) p hp (ih _ hlt (Nat.lt_trans hlt hp))
    · exact heq
    · obtain ⟨q, hq, hclass⟩ := h p p hgt
      rw [ih q hq (Nat.lt_trans hq hp)] at hclass
      exact absurd hclass (Nat.ne_of_lt hq)

end Order

section Count

theorem exists_surjection (hc : Numbering m classes) (hf : Numbering m finer)
    (h : Refines m finer classes) : ∃ f : Fin (count finer) → Fin (count classes),
      Function.Surjective f ∧ ∀ p (hp : p < m), f ⟨finer.getD p 0, hf.lt_count hp⟩ =
        ⟨classes.getD p 0, hc.lt_count hp⟩ := by
  choose place hplace hk using hf.dense
  have hf' : ∀ p (hp : p < m), classes.getD (place _ (hf.lt_count hp)) 0 = classes.getD p 0 :=
    fun p hp => h _ (hplace _ _) p hp (hk _ _)
  refine ⟨fun k => ⟨classes.getD (place k k.isLt) 0, hc.lt_count (hplace k k.isLt)⟩, fun k => ?_,
    fun p hp => Fin.ext (hf' p hp)⟩
  obtain ⟨p, hp, hpk⟩ := hc.dense k k.isLt
  exact ⟨⟨finer.getD p 0, hf.lt_count hp⟩, Fin.ext ((hf' p hp).trans hpk)⟩

theorem Refines.count_le (hc : Numbering m classes) (hf : Numbering m finer)
    (h : Refines m finer classes) : count classes ≤ count finer := by
  obtain ⟨f, hf, _⟩ := exists_surjection hc hf h
  have hcard := Fintype.card_le_of_surjective f hf
  rwa [Fintype.card_fin, Fintype.card_fin] at hcard

/-- With as many classes, a finer partition is the same partition. -/
theorem Refines.symm (hc : Numbering m classes) (hf : Numbering m finer)
    (h : Refines m finer classes) (hcount : count finer = count classes) :
    Refines m classes finer := by
  obtain ⟨f, hsurj, hclass⟩ := exists_surjection hc hf h
  have hbij := (Fintype.bijective_iff_surjective_and_card f).2 ⟨hsurj, by simp [hcount]⟩
  intro p hp q hq heq
  have hval : f ⟨finer.getD p 0, hf.lt_count hp⟩ = f ⟨finer.getD q 0, hf.lt_count hq⟩ := by
    rw [hclass p hp, hclass q hq]
    exact Fin.ext heq
  exact congrArg Fin.val (hbij.1 hval)

theorem Numbering.count_le (h : Numbering m classes) : count classes ≤ m := by
  choose place hplace hk using h.dense
  have hinj : Function.Injective fun k : Fin (count classes) =>
    (⟨place k k.isLt, hplace k k.isLt⟩ : Fin m) := by
    intro j k hjk
    have hval : place j j.isLt = place k k.isLt := congrArg Fin.val hjk
    exact Fin.ext (by rw [← hk j j.isLt, hval, hk k k.isLt])
  have hcard := Fintype.card_le_of_injective _ hinj
  rwa [Fintype.card_fin, Fintype.card_fin] at hcard

end Count

section Refine

theorem numbering_split (hr : Rows m n succ successors) (h : Numbering m classes) :
    Numbering m (split successors classes) := by
  have hlength : (List.zipWith (fun k row => k :: row.map fun s => classes.getD s 0)
      classes.toList successors).length = m := by
    rw [List.length_zipWith, Array.length_toList, h.size_eq, hr.length_eq, Nat.min_self]
  have hsplit :=
    numbering_renumber (List.zipWith (fun k row => k :: row.map fun s => classes.getD s 0)
    classes.toList successors)
  rwa [hlength] at hsplit

theorem getD_split_eq_iff (hr : Rows m n succ successors) (h : Numbering m classes) (hp : p < m)
    (hq : q < m) :
    (split successors classes).getD p 0 = (split successors classes).getD q 0 ↔
      classes.getD p 0 = classes.getD q 0 ∧
        ∀ i < n, classes.getD (succ p i) 0 = classes.getD (succ q i) 0 := by
  have hget : ∀ {p}, p < m → (List.zipWith (fun k row => k :: row.map fun s => classes.getD s 0)
      classes.toList successors)[p]? =
        some (classes.getD p 0 :: (List.range n).map fun i => classes.getD (succ p i) 0) := by
    intro p hp
    have hsize : p < classes.size := h.size_eq ▸ hp
    rw [List.getElem?_zipWith, hr.row_eq p hp, Array.getElem?_toList,
      Array.getElem?_eq_getElem hsize, Array.getD_eq_getD_getElem?, Array.getElem?_eq_getElem hsize]
    simp only [List.map_map]
    rfl
  rw [split, getD_renumber_eq_iff (hget hp) (hget hq), List.cons.injEq, List.map_inj_left]
  simp only [List.mem_range]

theorem refines_split (hr : Rows m n succ successors) (h : Numbering m classes) :
    Refines m (split successors classes) classes :=
  fun _ hp _ hq heq => ((getD_split_eq_iff hr h hp hq).1 heq).1

theorem stable_split (hr : Rows m n succ successors) (h : Numbering m classes)
    (hcount : count (split successors classes) = count classes) :
    Stable m n succ (split successors classes) := by
  have hsymm := (refines_split hr h).symm h (numbering_split hr h) hcount
  intro p hp q hq heq i hi
  exact hsymm _ (hr.succ_lt p hp i hi) _ (hr.succ_lt q hq i hi)
    (((getD_split_eq_iff hr h hp hq).1 heq).2 i hi)

/-- Each round adds a class, and there are no more classes than places. -/
theorem refine_spec (hr : Rows m n succ successors) (h : Numbering m classes)
    (hfuel : m < fuel + count classes) :
    Numbering m (refine successors fuel classes) ∧
    Stable m n succ (refine successors fuel classes) ∧
      Refines m (refine successors fuel classes) classes := by
  induction fuel generalizing classes with
  | zero =>
    have := h.count_le
    omega
  | succ fuel ih =>
    have hsplit := numbering_split hr h
    have hrefines := refines_split hr h
    rw [refine]
    split
    · rename_i hcount
      exact ⟨hsplit, stable_split hr h hcount, hrefines⟩
    · rename_i hcount
      have hle := hrefines.count_le h hsplit
      obtain ⟨hnumbering, hstable, hfiner⟩ := ih hsplit (by omega)
      exact ⟨hnumbering, hstable, fun p hp q hq heq => hrefines p hp q hq (hfiner p hp q hq heq)⟩

/-- What successors preserve and the first classes respect, all later classes respect. -/
theorem refine_respects {R : Nat → Nat → Prop} (hr : Rows m n succ successors)
    (hsucc : ∀ p q, R p q → ∀ i < n, R (succ p i) (succ q i)) (h : Numbering m classes)
    (hclasses : ∀ p < m, ∀ q < m, R p q → classes.getD p 0 = classes.getD q 0) (fuel : Nat) :
    ∀ p < m, ∀ q < m, R p q →
      (refine successors fuel classes).getD p 0 = (refine successors fuel classes).getD q 0 := by
  induction fuel generalizing classes with
  | zero => exact hclasses
  | succ fuel ih =>
    have hsplit : ∀ p < m, ∀ q < m, R p q →
        (split successors classes).getD p 0 = (split successors classes).getD q 0 :=
      fun p hp q hq hpq => (getD_split_eq_iff hr h hp hq).2 ⟨hclasses p hp q hq hpq, fun i hi =>
        hclasses _ (hr.succ_lt p hp i hi) _ (hr.succ_lt q hq i hi) (hsucc p q hpq i hi)⟩
    rw [refine]
    split
    · exact hsplit
    · exact ih (numbering_split hr h) hsplit

theorem Ordered.refine (h : Ordered classes) (successors : List (List Nat)) (fuel : Nat) :
    Ordered (refine successors fuel classes) := by
  induction fuel generalizing classes with
  | zero => exact h
  | succ fuel ih =>
    have hsplit : Ordered (split successors classes) := ordered_renumber _
    rw [Partition.refine]
    split
    · exact hsplit
    · exact ih hsplit

end Refine

end Acceptors.Dfa.Partition
