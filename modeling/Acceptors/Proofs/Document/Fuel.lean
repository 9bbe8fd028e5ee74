import Mathlib.Tactic.Common
import Acceptors.Proofs.Document.Readers

/-! The fuel of the readers of blocks. Once there are two units of it for each line, more of it
changes nothing, so the readers come to an end by themselves. -/

namespace Acceptors.Block

variable {α : Type} {i fuel : Nat} {f : Field} {l : Line} {ls rest : List Line}

theorem Closes.length_le {s : List Open → Openings} {E : ParseError → Prop}
    {P : α → List Line → List Line → Prop} {x : α} (h : Closes s ls E P (.ok (x, rest))) :
    rest.length ≤ ls.length := by
  cases h with
  | took hls _ _ =>
    rw [hls, List.length_append]
    exact Nat.le_add_left _ _

def BlockStable (fuel : Nat) : Prop := ∀ i ls, 2 * ls.length + 2 ≤ fuel →
    block (fuel + 1) i ls = block fuel i ls

def EntriesStable (fuel : Nat) : Prop := ∀ i found ls, 2 * ls.length + 1 ≤ fuel →
  Block.entries (fuel + 1) i found ls = Block.entries fuel i found ls

def ItemsStable (fuel : Nat) : Prop := ∀ i found ls, 2 * ls.length + 1 ≤ fuel →
  Block.items (fuel + 1) i found ls = Block.items fuel i found ls

theorem BlockStable.fieldValue_eq (h : BlockStable fuel) (hfuel : 2 * ls.length + 2 ≤ fuel)
    (i : Nat) (f : Field) :
    fieldValue (block (fuel + 1)) i f ls = fieldValue (block fuel) i f ls := by
  rw [fieldValue.eq_def, fieldValue.eq_def]
  cases f.value with
  | some n => rfl
  | none =>
    cases ls with
    | nil => rfl
    | cons l ls => simp only [h l.indent (l :: ls) hfuel]

theorem BlockStable.itemBelow_eq (h : BlockStable fuel) (hfuel : 2 * ls.length + 2 ≤ fuel) (i : Nat)
    (location : Location) :
    itemBelow (block (fuel + 1)) i location ls = itemBelow (block fuel) i location ls := by
  cases ls with
  | nil => rfl
  | cons l ls => rw [itemBelow, itemBelow, h l.indent (l :: ls) hfuel]

theorem blockStable_step (hentries : EntriesStable fuel) (hitems : ItemsStable fuel) :
    BlockStable (fuel + 1) := by
  intro i ls hfuel
  cases ls with
  | nil => rw [block, block]
  | cons l ls =>
    rw [block, block, hentries i [] (l :: ls) (by omega), hitems i [] (l :: ls) (by omega)]

theorem entriesStable_step (hblock : BlockCloses fuel) (hstable : BlockStable fuel)
    (hentries : EntriesStable fuel) :
    EntriesStable (fuel + 1) := by
  intro i found ls hfuel
  cases ls with
  | nil => rw [Block.entries, Block.entries]
  | cons l ls =>
    rw [List.length_cons] at hfuel
    rw [Block.entries, Block.entries]
    split
    · rename_i f hf
      split
      · rename_i hi
        have hvalue := entryValue_closes hblock ls hf (by omega)
        rw [hi] at hvalue
        rw [hstable.fieldValue_eq (by omega)]
        generalize fieldValue (block fuel) i f ls = r at hvalue ⊢
        cases r with
        | error e => rfl
        | ok r =>
          have hrest := hvalue.length_le
          rcases Entry.add_cases found (.mk f.key f.location r.1) with ⟨-, hadd⟩ | ⟨-, hadd⟩
          · simp only [hadd]
          · simp only [hadd]
            exact hentries i _ _ (by omega)
      · rfl
    · rfl

theorem compact_stable (hblock : BlockCloses fuel) (hstable : BlockStable fuel)
    (hentries : EntriesStable fuel) (hl : l.content = .itemEntry f)
    (hfuel : 2 * ls.length + 2 ≤ fuel) :
    compact (fuel + 1) f ls = compact fuel f ls := by
  have hvalue : Closes (fun outer => ⟨outer, some l⟩) ls (Repeats ls)
      (fun n taken _ => Arranged (innerIndent f) (.value f n) taken)
        (fieldValue (block fuel) (innerIndent f) f ls) :=
    fieldValue_closes hblock (fun l' => by rw [leads, hl]) hfuel
  rw [compact, compact, hstable.fieldValue_eq hfuel]
  generalize fieldValue (block fuel) (innerIndent f) f ls = r at hvalue ⊢
  cases r with
  | error e => rfl
  | ok r =>
    have hrest := hvalue.length_le
    simp only []
    rw [hentries _ _ _ (by omega)]

theorem itemOf_stable (hblock : BlockCloses fuel) (hstable : BlockStable fuel)
    (hentries : EntriesStable fuel) (l : Line) (hfuel : 2 * ls.length + 2 ≤ fuel) :
    itemOf (fuel + 1) l ls = itemOf fuel l ls := by
  rw [itemOf, itemOf]
  cases hcontent : l.content with
  | entry f => rfl
  | item => exact hstable.itemBelow_eq hfuel _ _
  | itemValue n => rfl
  | itemEntry f => exact compact_stable hblock hstable hentries hcontent hfuel

theorem itemsStable_step (hblock : BlockCloses fuel) (hclose : EntriesClose fuel)
    (hstable : BlockStable fuel) (hentries : EntriesStable fuel) (hitems : ItemsStable fuel) :
    ItemsStable (fuel + 1) := by
  intro i found ls hfuel
  cases ls with
  | nil => rw [Block.items, Block.items]
  | cons l ls =>
    rw [List.length_cons] at hfuel
    by_cases htakes : (⟨i, true⟩ : Open).takes l = true
    · have hitem := itemOf_closes hblock hclose ls (takes_items_iff.1 htakes).2 (by omega)
      rw [items_eq_of_takes htakes, items_eq_of_takes htakes,
        itemOf_stable hblock hstable hentries l (by omega)]
      generalize itemOf fuel l ls = r at hitem ⊢
      cases r with
      | error e => rfl
      | ok r =>
        have hrest := hitem.length_le
        exact hitems i _ _ (by omega)
    · rw [Bool.not_eq_true] at htakes
      rw [items_eq_of_not_takes htakes, items_eq_of_not_takes htakes]

theorem readers_stable (fuel : Nat) : BlockStable fuel ∧ EntriesStable fuel ∧ ItemsStable fuel := by
  induction fuel with
  | zero => exact ⟨fun _ _ h => by omega, fun _ _ _ h => by omega, fun _ _ _ h => by omega⟩
  | succ fuel ih =>
    obtain ⟨hblock, hentries, hitems⟩ := ih
    obtain ⟨hcloses, hclose, -⟩ := readers_close fuel
    exact ⟨blockStable_step hentries hitems, entriesStable_step hcloses hblock hentries,
      itemsStable_step hcloses hclose hblock hentries hitems⟩

theorem block_eq_of_le {k : Nat} (hk : 2 * ls.length + 2 ≤ k) (hle : k ≤ fuel) :
    block fuel i ls = block k i ls := by
  induction hle with
  | refl => rfl
  | step hle ih => exact ((readers_stable _).1 i ls (Nat.le_trans hk hle)).trans ih

end Acceptors.Block
