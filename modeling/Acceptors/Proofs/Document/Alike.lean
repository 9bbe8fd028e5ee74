import Mathlib.Data.List.Forall2
import Mathlib.Tactic.Common
import Acceptors.Document.Basic
import Acceptors.Proofs.Document.Block
import Acceptors.Proofs.Document.Readers
import Acceptors.Proofs.Outcome

/-! Content that differs in its places only, and the blocks that lines with such content make up. -/

namespace Acceptors

mutual

/-- The same content, at places related by `L`. -/
inductive Node.Alike (L : Location → Location → Prop) : Node → Node → Prop
  | null {l l' : Location} (h : L l l') : Node.Alike L (.null l) (.null l')
  | scalar {l l' : Location} {text : String} (h : L l l') :
      Node.Alike L (.scalar l text) (.scalar l' text)
  | list {l l' : Location} {items items' : List Node} (h : L l l')
      (hitems : List.Forall₂ (Node.Alike L) items items') :
      Node.Alike L (.list l items) (.list l' items')
  | mapping {l l' : Location} {entries entries' : List Entry} (h : L l l')
      (hentries : List.Forall₂ (Entry.Alike L) entries entries') :
      Node.Alike L (.mapping l entries) (.mapping l' entries')

inductive Entry.Alike (L : Location → Location → Prop) : Entry → Entry → Prop
  | mk {key : String} {l l' : Location} {n n' : Node} (h : L l l') (hn : Node.Alike L n n') :
      Entry.Alike L (.mk key l n) (.mk key l' n')

end

structure Field.Alike (L : Location → Location → Prop) (f f' : Field) : Prop where
  key : f'.key = f.key
  place : L f.location f'.location
  value : Option.Rel (Node.Alike L) f.value f'.value

inductive Line.Content.Alike (L : Location → Location → Prop) : Line.Content → Line.Content → Prop
  | entry {f f' : Field} (h : f.Alike L f') : Line.Content.Alike L (.entry f) (.entry f')
  | item : Line.Content.Alike L .item .item
  | itemValue {n n' : Node} (h : n.Alike L n') : Line.Content.Alike L (.itemValue n) (.itemValue n')
  | itemEntry {f f' : Field} (h : f.Alike L f') :
      Line.Content.Alike L (.itemEntry f) (.itemEntry f')

/-- The same content, indented by `k` more columns in the second line. -/
structure Line.Alike (L : Location → Location → Prop) (k : Nat) (l l' : Line) : Prop where
  indent : l'.indent = l.indent + k
  place : L l.location l'.location
  content : l.content.Alike L l'.content

variable {L : Location → Location → Prop} {k : Nat} {g g' : Location → Location} {n n' : Node}
  {items items' : List Node} {entries entries' : List Entry} {l l' : Line} {ls ls' : List Line}
  {f f' : Field}

mutual

theorem Node.Alike.relocate_eq (hg : ∀ l l', L l l' → g l = g' l') :
    ∀ n n' : Node, n.Alike L n' → n.relocate g = n'.relocate g'
  | .null _, _, .null h => congrArg Node.null (hg _ _ h)
  | .scalar _ text, _, .scalar h => congrArg (Node.scalar · text) (hg _ _ h)
  | .list _ items, _, .list h hitems =>
    congrArg₂ Node.list (hg _ _ h) (relocateItems_eq_of_alike hg items _ hitems)
  | .mapping _ entries, _, .mapping h hentries =>
    congrArg₂ Node.mapping (hg _ _ h) (relocateEntries_eq_of_alike hg entries _ hentries)

theorem relocateItems_eq_of_alike (hg : ∀ l l', L l l' → g l = g' l') :
    ∀ items items' : List Node, List.Forall₂ (Node.Alike L) items items' →
      relocateItems g items = relocateItems g' items'
  | [], _, .nil => rfl
  | n :: items, _, .cons hn hitems =>
    congrArg₂ List.cons (Node.Alike.relocate_eq hg n _ hn)
      (relocateItems_eq_of_alike hg items _ hitems)

theorem relocateEntries_eq_of_alike (hg : ∀ l l', L l l' → g l = g' l') :
    ∀ entries entries' : List Entry, List.Forall₂ (Entry.Alike L) entries entries' →
      relocateEntries g entries = relocateEntries g' entries'
  | [], _, .nil => rfl
  | .mk key _ n :: entries, _, .cons (.mk h hn) hentries =>
    congrArg₂ List.cons (congrArg₂ (Entry.mk key) (hg _ _ h) (Node.Alike.relocate_eq hg n _ hn))
      (relocateEntries_eq_of_alike hg entries _ hentries)

end

mutual

theorem Node.relocate_id (n : Node) : n.relocate id = n := by
  cases n with
  | null _ => rfl
  | scalar _ _ => rfl
  | list l items => exact congrArg (Node.list l) (relocateItems_id items)
  | mapping l entries => exact congrArg (Node.mapping l) (relocateEntries_id entries)

theorem relocateItems_id (items : List Node) : relocateItems id items = items := by
  cases items with
  | nil => rfl
  | cons n items => exact congrArg₂ List.cons n.relocate_id (relocateItems_id items)

theorem relocateEntries_id (entries : List Entry) : relocateEntries id entries = entries := by
  cases entries with
  | nil => rfl
  | cons e entries =>
    obtain ⟨key, l, n⟩ := e
    exact congrArg₂ List.cons (congrArg (Entry.mk key l) n.relocate_id) (relocateEntries_id entries)

end

theorem Node.Alike.bare_eq (h : n.Alike L n') : n'.bare = n.bare :=
  (relocate_eq (fun _ _ _ => rfl) n n' h).symm

theorem Node.Alike.eq_relocate (h : n.Alike L n') (hL : ∀ l l', L l l' → l' = g l) :
    n' = n.relocate g := by
  have hid : n.relocate g = n'.relocate id := relocate_eq (fun l l' h => (hL l l' h).symm) n n' h
  rw [hid, n'.relocate_id]

theorem Node.Alike.keysDistinct_iff (h : n.Alike L n') : n'.KeysDistinct ↔ n.KeysDistinct := by
  rw [← n'.keysDistinct_bare_iff, h.bare_eq, n.keysDistinct_bare_iff]

theorem Entry.Alike.key_eq {e e' : Entry} (h : e.Alike L e') : e'.key = e.key := by
  cases h with
  | mk _ _ => rfl

theorem map_key_eq_of_alike (h : List.Forall₂ (Entry.Alike L) entries entries') :
    entries'.map Entry.key = entries.map Entry.key := by
  induction h with
  | nil => rfl
  | cons he _ ih => rw [List.map_cons, List.map_cons, he.key_eq, ih]

theorem Field.Alike.entry (h : f.Alike L f') (hn : n.Alike L n') :
    Entry.Alike L (.mk f.key f.location n) (.mk f'.key f'.location n') :=
  h.key.symm ▸ .mk h.place hn

theorem Line.Alike.isItem_eq (h : l.Alike L k l') : l'.isItem = l.isItem := by
  have hcontent := h.content
  rw [Line.isItem, Line.isItem]
  generalize l.content = content at hcontent ⊢
  generalize l'.content = content' at hcontent ⊢
  cases hcontent <;> rfl

theorem Field.Alike.bare_eq (h : f.Alike L f') : f'.bare = f.bare := by
  have hvalue := h.value
  rw [Field.bare, Field.bare, h.key]
  generalize f.value = value at hvalue ⊢
  generalize f'.value = value' at hvalue ⊢
  cases hvalue with
  | none => rfl
  | some hn => rw [Option.map_some, Option.map_some, hn.bare_eq]

theorem Line.Content.Alike.bare_eq {content content' : Line.Content}
    (h : content.Alike L content') :
    content'.bare = content.bare := by
  cases h with
  | entry h => exact congrArg Line.Content.entry h.bare_eq
  | item => rfl
  | itemValue h => exact congrArg Line.Content.itemValue h.bare_eq
  | itemEntry h => exact congrArg Line.Content.itemEntry h.bare_eq

theorem Line.Alike.bare_eq (h : l.Alike L 0 l') : l'.bare = l.bare := by
  rw [Line.bare, Line.bare, h.indent, h.content.bare_eq]
  rfl

theorem Line.Alike.inlineValue? (h : l.Alike L k l') :
    Option.Rel (Node.Alike L) l.inlineValue? l'.inlineValue? := by
  have hcontent := h.content
  rw [Line.inlineValue?, Line.inlineValue?]
  generalize l.content = content at hcontent ⊢
  generalize l'.content = content' at hcontent ⊢
  cases hcontent with
  | entry h => exact h.value
  | item => exact .none
  | itemValue h => exact .some h
  | itemEntry h => exact h.value

namespace Block

/-- The indents `i` and `i'` come to the same for the lines below: they differ as those of the lines
do, or the next line stands to the left of both. -/
def SameIndent (k i i' : Nat) (ls : List Line) : Prop :=
  i' = i + k ∨ i + k ≤ i' ∧ ∀ l ∈ ls.head?, l.indent < i

/-- Lines that are alike and in which the mappings beside dashes have the same fields. -/
inductive Paired (L : Location → Location → Prop) (k : Nat) : List Line → List Line → Prop
  | nil : Paired L k [] []
  | cons {l l' : Line} {ls ls' : List Line} (hl : l.Alike L k l')
      (hinner : ∀ f f', l.content = .itemEntry f → l'.content = .itemEntry f' →
        SameIndent k (innerIndent f) (innerIndent f') ls)
      (hrest : Paired L k ls ls') : Paired L k (l :: ls) (l' :: ls')

inductive SameReading {α : Type} (L : Location → Location → Prop) (k : Nat) (S : α → α → Prop) :
    Except ParseError (α × List Line) → Except ParseError (α × List Line) → Prop
  | failed {e e' : ParseError} : SameReading L k S (.error e) (.error e')
  | found {x x' : α} {ls ls' : List Line} (hx : S x x') (hls : Paired L k ls ls') :
      SameReading L k S (.ok (x, ls)) (.ok (x', ls'))

def BlockSame (L : Location → Location → Prop) (k fuel : Nat) : Prop :=
  ∀ i l l' ls ls', Paired L k (l :: ls) (l' :: ls') →
  SameReading L k (Node.Alike L) (block fuel i (l :: ls)) (block fuel (i + k) (l' :: ls'))

def EntriesSame (L : Location → Location → Prop) (k fuel : Nat) : Prop :=
  ∀ i i' found found' ls ls',
  Paired L k ls ls' → SameIndent k i i' ls → List.Forall₂ (Entry.Alike L) found found' →
    SameReading L k (List.Forall₂ (Entry.Alike L)) (Block.entries fuel i found ls)
    (Block.entries fuel i' found' ls')

def ItemsSame (L : Location → Location → Prop) (k fuel : Nat) : Prop := ∀ i found found' ls ls',
  Paired L k ls ls' → List.Forall₂ (Node.Alike L) found found' →
    SameReading L k (List.Forall₂ (Node.Alike L)) (Block.items fuel i found ls)
    (Block.items fuel (i + k) found' ls')

variable {i i' fuel : Nat} {found found' : List Entry} {e e' : Entry}

theorem SameIndent.beq_eq (h : SameIndent k i i' (l :: ls)) (hl : l.Alike L k l') :
    (l'.indent == i') = (l.indent == i) := by
  rw [hl.indent, Bool.eq_iff_iff, beq_iff_eq, beq_iff_eq]
  rcases h with rfl | ⟨hle, hlt⟩
  · exact Nat.add_right_cancel_iff
  · have hlt := hlt l rfl
    omega

theorem SameIndent.belongsToKey_eq (h : SameIndent k i i' (l :: ls)) (hl : l.Alike L k l') :
    belongsToKey i' l' = belongsToKey i l := by
  have hlt : i' < l'.indent ↔ i < l.indent := by
    rw [hl.indent]
    rcases h with rfl | ⟨hle, hlt⟩
    · exact Nat.add_lt_add_iff_right
    · have hlt := hlt l rfl
      omega
  rw [belongsToKey, belongsToKey, h.beq_eq hl, hl.isItem_eq, decide_eq_decide.2 hlt]

theorem SameIndent.takes_eq (h : SameIndent k i i' (l :: ls)) (hl : l.Alike L k l')
    (isList : Bool) :
    (⟨i', isList⟩ : Open).takes l' = (⟨i, isList⟩ : Open).takes l := by
  rw [Open.takes, Open.takes, h.beq_eq hl, hl.isItem_eq]

theorem SameIndent.eq_add (h : SameIndent k i i' (l :: ls)) (hl : l.indent = i) : i' = i + k := by
  rcases h with h | ⟨-, hlt⟩
  · exact h
  · exact absurd hl (Nat.ne_of_lt (hlt l rfl))

theorem fieldValue_same (hblock : BlockSame L k fuel) (hf : f.Alike L f') (hls : Paired L k ls ls')
    (hi : SameIndent k i i' ls) :
    SameReading L k (Node.Alike L) (fieldValue (block fuel) i f ls)
    (fieldValue (block fuel) i' f' ls') := by
  have hvalue := hf.value
  rw [fieldValue.eq_def, fieldValue.eq_def]
  generalize f.value = value at hvalue ⊢
  generalize f'.value = value' at hvalue ⊢
  cases hvalue with
  | some hn => exact .found hn hls
  | none =>
    cases hls with
    | nil => exact .found (.null hf.place) .nil
    | @cons l l' ls ls' hl hinner hrest =>
      simp only [hi.belongsToKey_eq hl, hl.indent]
      split
      · exact hblock _ _ _ _ _ (.cons hl hinner hrest)
      · exact .found (.null hf.place) (.cons hl hinner hrest)

theorem fieldValue_of_lt (h : ∀ l ∈ ls.head?, l.indent < i)
    (reader : Nat → Reader Node) (f : Field) :
    ∃ n, fieldValue reader i f ls = .ok (n, ls) := by
  rw [fieldValue.eq_def]
  cases f.value with
  | some n => exact ⟨n, rfl⟩
  | none =>
    cases ls with
    | nil => exact ⟨_, rfl⟩
    | cons l ls => exact ⟨_, if_neg (not_belongsToKey (.inl (h l rfl)))⟩

theorem compact_same (hblock : BlockSame L k fuel)
    (hentries : EntriesSame L k fuel) (hf : f.Alike L f') (hls : Paired L k ls ls')
    (hi : SameIndent k (innerIndent f) (innerIndent f') ls) :
    SameReading L k (Node.Alike L) (compact fuel f ls) (compact fuel f' ls') := by
  have hvalue := fieldValue_same hblock hf hls hi
  -- Either the indents differ as those of the lines do, or the field leaves all lines below it.
  have hrest : ∀ n rest, fieldValue (block fuel) (innerIndent f) f ls = .ok (n, rest) →
      SameIndent k (innerIndent f) (innerIndent f') rest := by
    intro n rest h
    rcases hi with heq | ⟨hle, hlt⟩
    · exact .inl heq
    · obtain ⟨m, hm⟩ := fieldValue_of_lt hlt (block fuel) f
      cases hm.symm.trans h
      exact .inr ⟨hle, hlt⟩
  rw [compact, compact]
  generalize fieldValue (block fuel) (innerIndent f) f ls = r at hvalue hrest ⊢
  generalize fieldValue (block fuel) (innerIndent f') f' ls' = r' at hvalue ⊢
  cases hvalue with
  | failed => exact .failed
  | @found n n' rest rest' hn hpaired =>
    have hothers := hentries _ _ _ _ _ _ hpaired (hrest n rest rfl) (.cons (hf.entry hn) .nil)
    simp only []
    generalize Block.entries fuel (innerIndent f) [.mk f.key f.location n] rest = r at hothers ⊢
    generalize Block.entries fuel (innerIndent f') [.mk f'.key f'.location n'] rest' =
      r' at hothers ⊢
    cases hothers with
    | failed => exact .failed
    | found hes hpaired => exact .found (.mapping hf.place hes) hpaired

theorem itemBelow_same (hblock : BlockSame L k fuel) (hl : l.Alike L k l')
    (hls : Paired L k ls ls') :
    SameReading L k (Node.Alike L) (itemBelow (block fuel) l.indent l.location ls)
      (itemBelow (block fuel) l'.indent l'.location ls') := by
  cases hls with
  | nil => exact .found (.null hl.place) .nil
  | @cons next next' ls ls' hnext hinner hrest =>
    rw [itemBelow, itemBelow, hl.indent, hnext.indent]
    simp only [Nat.add_lt_add_iff_right]
    split
    · exact hblock _ _ _ _ _ (.cons hnext hinner hrest)
    · exact .found (.null hl.place) (.cons hnext hinner hrest)

theorem itemOf_same (hblock : BlockSame L k fuel) (hentries : EntriesSame L k fuel)
    (hl : l.Alike L k l')
    (hinner : ∀ f f', l.content = .itemEntry f → l'.content = .itemEntry f' →
      SameIndent k (innerIndent f) (innerIndent f') ls) (hls : Paired L k ls ls') :
    SameReading L k (Node.Alike L) (itemOf fuel l ls) (itemOf fuel l' ls') := by
  have hcontent := hl.content
  rw [itemOf, itemOf]
  generalize l.content = content at hcontent hinner ⊢
  generalize l'.content = content' at hcontent hinner ⊢
  cases hcontent with
  | entry _ => exact .failed
  | item => exact itemBelow_same hblock hl hls
  | itemValue hn => exact .found hn hls
  | itemEntry hf => exact compact_same hblock hentries hf hls (hinner _ _ rfl rfl)

theorem add_same (hfound : List.Forall₂ (Entry.Alike L) found found') (he : e.Alike L e') :
    (∃ r r', Entry.add found e = .error r ∧ Entry.add found' e' = .error r') ∨
      (Entry.add found e = .ok (e :: found) ∧ Entry.add found' e' = .ok (e' :: found')) := by
  have hadd := Entry.add_cases found' e'
  rw [map_key_eq_of_alike hfound, he.key_eq] at hadd
  rcases Entry.add_cases found e with ⟨hkey, h⟩ | ⟨hkey, h⟩
  · exact .inl ⟨_, _, h, (hadd.resolve_right fun h => h.1 hkey).2⟩
  · exact .inr ⟨h, (hadd.resolve_left fun h => hkey h.1).2⟩

theorem entriesSame_step (hblock : BlockSame L k fuel) (hentries : EntriesSame L k fuel) :
    EntriesSame L k (fuel + 1) := by
  intro i i' found found' ls ls' hls hi hfound
  cases hls with
  | nil =>
    rw [Block.entries, Block.entries]
    exact .found (List.rel_reverse hfound) .nil
  | @cons l l' ls ls' hl hinner hrest =>
    by_cases htakes : (⟨i, false⟩ : Open).takes l = true
    · obtain ⟨hindent, f, hf⟩ := takes_entries_iff.1 htakes
      obtain ⟨hindent', f', hf'⟩ := takes_entries_iff.1 ((hi.takes_eq hl false).trans htakes)
      have hcontent := hl.content
      rw [hf, hf'] at hcontent
      cases hcontent with
      | entry hfield =>
        have hi' := hi.eq_add hindent
        have hvalue := fieldValue_same hblock hfield hrest (.inl hi')
        rw [Block.entries, Block.entries]
        simp only [hf, hf', hindent, hindent', if_true]
        generalize fieldValue (block fuel) i f ls = r at hvalue ⊢
        generalize fieldValue (block fuel) i' f' ls' = r' at hvalue ⊢
        cases hvalue with
        | failed => exact .failed
        | found hn hpaired =>
          rcases add_same hfound (hfield.entry hn) with ⟨_, _, hadd, hadd'⟩ | ⟨hadd, hadd'⟩
          · simp only [hadd, hadd']
            exact .failed
          · simp only [hadd, hadd']
            exact hentries _ _ _ _ _ _ hpaired (.inl hi') (.cons (hfield.entry hn) hfound)
    · rw [Bool.not_eq_true] at htakes
      rw [entries_eq_of_not_takes htakes,
        entries_eq_of_not_takes ((hi.takes_eq hl false).trans htakes)]
      exact .found (List.rel_reverse hfound) (.cons hl hinner hrest)

theorem itemsSame_step (hblock : BlockSame L k fuel) (hentries : EntriesSame L k fuel)
    (hitems : ItemsSame L k fuel) :
    ItemsSame L k (fuel + 1) := by
  intro i found found' ls ls' hls hfound
  cases hls with
  | nil =>
    rw [Block.items, Block.items]
    exact .found (List.rel_reverse hfound) .nil
  | @cons l l' ls ls' hl hinner hrest =>
    have hi : SameIndent k i (i + k) (l :: ls) := .inl rfl
    have htakes_eq := hi.takes_eq hl true
    by_cases htakes : (⟨i, true⟩ : Open).takes l = true
    · have hitem := itemOf_same hblock hentries hl hinner hrest
      rw [items_eq_of_takes htakes, items_eq_of_takes (htakes_eq.trans htakes)]
      generalize itemOf fuel l ls = r at hitem ⊢
      generalize itemOf fuel l' ls' = r' at hitem ⊢
      cases hitem with
      | failed => exact .failed
      | found hn hpaired => exact hitems _ _ _ _ _ hpaired (.cons hn hfound)
    · rw [Bool.not_eq_true] at htakes
      rw [items_eq_of_not_takes htakes, items_eq_of_not_takes (htakes_eq.trans htakes)]
      exact .found (List.rel_reverse hfound) (.cons hl hinner hrest)

theorem blockSame_step (hentries : EntriesSame L k fuel) (hitems : ItemsSame L k fuel) :
    BlockSame L k (fuel + 1) := by
  intro i l l' ls ls' hls
  have hl : l.Alike L k l' := by
    cases hls with
    | cons hl _ _ => exact hl
  rw [block, block, hl.isItem_eq]
  split
  · have hread := hitems i [] [] _ _ hls .nil
    generalize Block.items fuel i [] (l :: ls) = r at hread ⊢
    generalize Block.items fuel (i + k) [] (l' :: ls') = r' at hread ⊢
    cases hread with
    | failed => exact .failed
    | found hns hpaired => exact .found (.list hl.place hns) hpaired
  · have hread := hentries i (i + k) [] [] _ _ hls (.inl rfl) .nil
    generalize Block.entries fuel i [] (l :: ls) = r at hread ⊢
    generalize Block.entries fuel (i + k) [] (l' :: ls') = r' at hread ⊢
    cases hread with
    | failed => exact .failed
    | found hes hpaired => exact .found (.mapping hl.place hes) hpaired

theorem readers_same (L : Location → Location → Prop) (k fuel : Nat) :
    BlockSame L k fuel ∧ EntriesSame L k fuel ∧ ItemsSame L k fuel := by
  induction fuel with
  | zero =>
    refine ⟨fun i l l' ls ls' _ => ?_, fun i i' found found' ls ls' hls _ hfound => ?_,
      fun i found found' ls ls' hls hfound => ?_⟩
    · rw [block, block]
      exact .failed
    · cases hls with
      | nil =>
        rw [Block.entries, Block.entries]
        exact .found (List.rel_reverse hfound) .nil
      | cons _ _ _ =>
        rw [Block.entries, Block.entries]
        exact .failed
    · cases hls with
      | nil =>
        rw [Block.items, Block.items]
        exact .found (List.rel_reverse hfound) .nil
      | cons _ _ _ =>
        rw [Block.items, Block.items]
        exact .failed
  | succ fuel ih =>
    obtain ⟨hblock, hentries, hitems⟩ := ih
    exact ⟨blockSame_step hentries hitems, entriesSame_step hblock hentries,
      itemsSame_step hblock hentries hitems⟩

theorem Paired.length_eq (h : Paired L k ls ls') : ls'.length = ls.length := by
  induction h with
  | nil => rfl
  | cons _ _ _ ih => rw [List.length_cons, List.length_cons, ih]

theorem ofLines_alike (h : Paired L k (l :: ls) (l' :: ls')) :
    SameResult (fun _ _ => True) (Node.Alike L) (ofLines (l :: ls)) (ofLines (l' :: ls')) := by
  have hlength : ls'.length = ls.length := Nat.succ.inj h.length_eq
  have hl : l.Alike L k l' := by
    cases h with
    | cons hl _ _ => exact hl
  have hread := (readers_same L k (3 * (ls.length + 1) + 2)).1 l.indent _ _ _ _ h
  rw [ofLines, ofLines, hlength, hl.indent]
  generalize block (3 * (ls.length + 1) + 2) l.indent (l :: ls) = r at hread ⊢
  generalize block (3 * (ls.length + 1) + 2) (l.indent + k) (l' :: ls') = r' at hread ⊢
  cases hread with
  | failed => exact .failed trivial
  | found hn hpaired =>
    cases hpaired with
    | nil => exact .found hn
    | cons _ _ _ => exact .failed trivial

end Block

end Acceptors
