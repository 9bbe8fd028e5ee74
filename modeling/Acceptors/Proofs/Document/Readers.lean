import Mathlib.Tactic.Common
import Acceptors.Proofs.Document.Node
import Acceptors.Proofs.Document.OpenBlocks

/-! How blocks are built from lines. A reader of blocks takes lines that hold what it returns and
leaves the others to the blocks that were open before. Only a key that is there already or a line
that no open block accepts can stop it. Two units of fuel for each line are enough. -/

namespace Acceptors.Block

variable {α : Type} {i fuel : Nat} {f : Field} {n : Node} {l l' : Line} {ls rest : List Line}
    {outer : List Open} {es found : List Entry}

/-- Begun with the blocks `s outer` open, a reader takes some of the lines, and only the outer
blocks are left open for the others. Otherwise it fails with one of the errors `E`. -/
inductive Closes (s : List Open → Openings) (ls : List Line) (E : ParseError → Prop)
    (P : α → List Line → List Line → Prop) : Except ParseError (α × List Line) → Prop
  | failed {e : ParseError} (h : E e) : Closes s ls E P (.error e)
  | took {x : α} {taken rest : List Line} (hls : ls = taken ++ rest) (h : P x taken rest)
      (hstray : ∀ outer, stray? (s outer) ls = stray? ⟨outer, none⟩ rest) :
      Closes s ls E P (.ok (x, rest))

def BlockCloses (fuel : Nat) : Prop := ∀ l ls, 2 * (ls.length + 1) + 2 ≤ fuel →
  Closes (fun outer => ⟨.ofLine l :: outer, none⟩) (l :: ls) (Repeats (l :: ls))
    (fun n taken _ => Arranged l.indent (.block n) taken) (block fuel l.indent (l :: ls))

def EntriesClose (fuel : Nat) : Prop := ∀ i found ls, 2 * ls.length + 1 ≤ fuel →
  Closes (fun outer => ⟨⟨i, false⟩ :: outer, none⟩) ls (fun e => Repeats ls e ∨
    RepeatsAfter i found ls e)
    (fun es taken rest => ∃ es', es = found.reverse ++ es' ∧ Arranged i (.entries es') taken ∧
      ((found.map Entry.key).Nodup → (es.map Entry.key).Nodup) ∧
      ∀ l ∈ rest.head?, (⟨i, false⟩ : Open).takes l = false)
    (Block.entries fuel i found ls)

def ItemsClose (fuel : Nat) : Prop := ∀ i found ls, 2 * ls.length + 1 ≤ fuel →
  Closes (fun outer => ⟨⟨i, true⟩ :: outer, none⟩) ls (Repeats ls)
    (fun ns taken rest => ∃ ns', ns = found.reverse ++ ns' ∧ Arranged i (.items ns') taken ∧
      ∀ l ∈ rest.head?, (⟨i, true⟩ : Open).takes l = false)
    (Block.items fuel i found ls)

theorem Closes.nothing {s : List Open → Openings} {x : α} {E : ParseError → Prop}
    {P : α → List Line → List Line → Prop} (hP : P x [] ls)
    (hs : ∀ outer, stray? (s outer) ls = stray? ⟨outer, none⟩ ls) : Closes s ls E P (.ok (x, ls)) :=
  .took rfl hP hs

theorem Closes.imp {s : List Open → Openings} {E E' : ParseError → Prop}
    {P : α → List Line → List Line → Prop} {r : Except ParseError (α × List Line)}
    (h : Closes s ls E P r) (hE : ∀ e, E e → E' e) : Closes s ls E' P r := by
  cases h with
  | failed h => exact .failed (hE _ h)
  | took hls hP hstray => exact .took hls hP hstray

theorem BlockCloses.below (h : BlockCloses fuel) (ls : List Line) (hleads : leads l l' = true)
    (hfuel : 2 * (ls.length + 1) + 2 ≤ fuel) :
    Closes (fun outer => ⟨outer, some l⟩) (l' :: ls) (Repeats (l' :: ls))
      (fun n taken _ => ∃ tail, taken = l' :: tail ∧ Arranged l'.indent (.block n) (l' :: tail))
      (block fuel l'.indent (l' :: ls)) := by
  have hblock := h l' ls hfuel
  generalize block fuel l'.indent (l' :: ls) = r at hblock ⊢
  cases hblock with
  | failed h => exact .failed h
  | @took n taken rest hls harranged hstray =>
    obtain ⟨first, tail, rfl⟩ := harranged.exists_cons
    obtain ⟨rfl, -⟩ := List.cons.inj hls
    exact .took hls ⟨tail, rfl, harranged⟩ fun outer =>
      (stray?_begin hleads ls).trans (hstray outer)

theorem fieldValue_closes (h : BlockCloses fuel)
    (hleads : ∀ l', leads l l' = (f.value.isNone && belongsToKey i l'))
    (hfuel : 2 * ls.length + 2 ≤ fuel) :
    Closes (fun outer => ⟨outer, some l⟩) ls (Repeats ls)
    (fun n taken _ => Arranged i (.value f n) taken) (fieldValue (block fuel) i f ls) := by
  cases hvalue : f.value with
  | some n =>
    have hpass : ∀ l' ∈ ls.head?, leads l l' = false := fun l' _ => by rw [hleads, hvalue]; rfl
    have heq : fieldValue (block fuel) i f ls = .ok (n, ls) := by
      rw [fieldValue.eq_def, hvalue]
    rw [heq]
    exact .nothing (.beside hvalue) fun _ => stray?_pass hpass
  | none =>
    have hleads' : ∀ l', leads l l' = belongsToKey i l' := fun l' => by rw [hleads, hvalue]; rfl
    rw [fieldValue.eq_def, hvalue]
    cases ls with
    | nil => exact .nothing (.missing hvalue) fun _ => rfl
    | cons l' ls =>
      by_cases hbelongs : belongsToKey i l' = true
      · have hbelow := h.below ls ((hleads' l').trans hbelongs) hfuel
        simp only [hbelongs, if_true]
        generalize block fuel l'.indent (l' :: ls) = r at hbelow ⊢
        cases hbelow with
        | failed h => exact .failed h
        | took hls harranged hstray =>
          obtain ⟨tail, rfl, harranged⟩ := harranged
          exact .took hls (.valueBelow hvalue hbelongs harranged) hstray
      · rw [Bool.not_eq_true] at hbelongs
        simp only [hbelongs, Bool.false_eq_true, if_false]
        refine .nothing (.missing hvalue) fun _ => stray?_pass ?_
        rintro _ ⟨⟩
        exact (hleads' l').trans hbelongs

theorem entryValue_closes (h : BlockCloses fuel) (ls : List Line) (hl : l.content = .entry f)
    (hfuel : 2 * ls.length + 2 ≤ fuel) :
    Closes (fun outer => ⟨openedBy l ++ outer, some l⟩) ls (Repeats ls)
      (fun n taken _ => Arranged l.indent (.value f n) taken)
      (fieldValue (block fuel) l.indent f ls) := by
  have hopened : openedBy l = [] := by rw [openedBy, hl]
  rw [hopened]
  exact fieldValue_closes h (fun l' => by rw [leads, hl]) hfuel

theorem itemBelow_closes (h : BlockCloses fuel) (ls : List Line) (hl : l.content = .item)
    (hfuel : 2 * ls.length + 2 ≤ fuel) :
    Closes (fun outer => ⟨outer, some l⟩) ls (Repeats ls)
      (fun n taken _ => Arranged l.indent (.item n) (l :: taken))
      (itemBelow (block fuel) l.indent l.location ls) := by
  have hleads : ∀ l', leads l l' = decide (l.indent < l'.indent) := fun l' => by rw [leads, hl]
  cases ls with
  | nil => exact .nothing (.noContent rfl hl) fun _ => rfl
  | cons l' ls =>
    rw [itemBelow]
    split
    · rename_i hlt
      have hbelow := h.below ls ((hleads l').trans (decide_eq_true hlt)) hfuel
      generalize block fuel l'.indent (l' :: ls) = r at hbelow ⊢
      cases hbelow with
      | failed h => exact .failed h
      | took hls harranged hstray =>
        obtain ⟨tail, rfl, harranged⟩ := harranged
        exact .took hls (.itemBelow rfl hl hlt harranged) hstray
    · rename_i hge
      refine .nothing (.noContent rfl hl) fun _ => stray?_pass ?_
      rintro _ ⟨⟩
      exact (hleads l').trans (decide_eq_false hge)

def compact (fuel : Nat) (f : Field) : Reader Node := fun ls =>
  match fieldValue (block fuel) (innerIndent f) f ls with
  | .error e => .error e
  | .ok (value, ls) =>
    match Block.entries fuel (innerIndent f) [.mk f.key f.location value] ls with
    | .error e => .error e
    | .ok (es, ls) => .ok (.mapping f.location es, ls)

def itemOf (fuel : Nat) (l : Line) : Reader Node := fun ls =>
  match l.content with
  | .entry _ => .error (misplaced l)
  | .item => itemBelow (block fuel) l.indent l.location ls
  | .itemValue n => .ok (n, ls)
  | .itemEntry f => compact fuel f ls

theorem compact_closes (hblock : BlockCloses fuel) (hentries : EntriesClose fuel) (ls : List Line)
    (hl : l.content = .itemEntry f) (hfuel : 2 * ls.length + 2 ≤ fuel) :
    Closes (fun outer => ⟨openedBy l ++ outer, some l⟩) ls (Repeats (l :: ls))
      (fun n taken _ => Arranged l.indent (.item n) (l :: taken)) (compact fuel f ls) := by
  have hopened : openedBy l = [⟨innerIndent f, false⟩] := by rw [openedBy, hl]
  have hvalue : Closes (fun outer => ⟨outer, some l⟩) ls (Repeats ls)
      (fun n taken _ => Arranged (innerIndent f) (.value f n) taken)
        (fieldValue (block fuel) (innerIndent f) f ls) :=
    fieldValue_closes hblock (fun l' => by rw [leads, hl]) hfuel
  rw [compact]
  generalize fieldValue (block fuel) (innerIndent f) f ls = r at hvalue ⊢
  cases hvalue with
  | failed h => exact .failed (h.mono (List.suffix_cons l ls).isInfix)
  | @took n taken rest hls hn hstray =>
    subst hls
    rw [List.length_append] at hfuel
    have hothers := hentries (innerIndent f) [.mk f.key f.location n] rest (by omega)
    simp only []
    generalize Block.entries fuel (innerIndent f) [.mk f.key f.location n] rest = r at hothers ⊢
    cases hothers with
    | failed h =>
      rcases h with h | h
      · exact .failed (h.mono (List.suffix_append (l :: taken) rest).isInfix)
      · exact .failed (h.compact hl hn)
    | @took es taken' rest' hls hes hstray' =>
      obtain ⟨es', rfl, hes, hnodup, -⟩ := hes
      subst hls
      refine .took (List.append_assoc ..).symm (.itemEntry rfl hl hn hes
        (hnodup (List.nodup_singleton _)))
        fun outer => ?_
      rw [hopened]
      exact (hstray _).trans (hstray' outer)

theorem itemOf_closes (hblock : BlockCloses fuel) (hentries : EntriesClose fuel) (ls : List Line)
    (hl : ∀ f, l.content ≠ .entry f) (hfuel : 2 * ls.length + 2 ≤ fuel) :
    Closes (fun outer => ⟨openedBy l ++ outer, some l⟩) ls (Repeats (l :: ls))
      (fun n taken _ => Arranged l.indent (.item n) (l :: taken)) (itemOf fuel l ls) := by
  have hmono : ∀ e, Repeats ls e → Repeats (l :: ls) e :=
    fun e h => h.mono (List.suffix_cons l ls).isInfix
  rw [itemOf]
  cases hcontent : l.content with
  | entry f => exact absurd hcontent (hl f)
  | item =>
    have hopened : openedBy l = [] := by rw [openedBy, hcontent]
    rw [hopened]
    exact (itemBelow_closes hblock ls hcontent hfuel).imp hmono
  | itemValue n =>
    have hopened : openedBy l = [] := by rw [openedBy, hcontent]
    have hpass : ∀ l' ∈ ls.head?, leads l l' = false := fun l' _ => by rw [leads, hcontent]
    rw [hopened]
    exact .nothing (.itemValue rfl hcontent) fun _ => stray?_pass hpass
  | itemEntry f => exact compact_closes hblock hentries ls hcontent hfuel

/-! One step of each reader. -/

theorem entries_eq_of_not_takes (h : (⟨i, false⟩ : Open).takes l = false) (found : List Entry) :
    Block.entries (fuel + 1) i found (l :: ls) = .ok (found.reverse, l :: ls) := by
  rw [Block.entries]
  split
  · rename_i f hf
    rw [if_neg]
    intro hi
    rw [takes_entries_iff.2 ⟨hi, f, hf⟩] at h
    cases h
  · rfl

theorem items_eq_of_not_takes (h : (⟨i, true⟩ : Open).takes l = false) (found : List Node) :
    Block.items (fuel + 1) i found (l :: ls) = .ok (found.reverse, l :: ls) := by
  rw [Block.items]
  split
  · rename_i hi
    have hentry : ∃ f, l.content = .entry f := by
      by_contra hnot
      rw [takes_items_iff.2 ⟨hi, fun f hf => hnot ⟨f, hf⟩⟩] at h
      cases h
    obtain ⟨f, hf⟩ := hentry
    simp only [hf]
  · rfl

theorem items_eq_of_takes (h : (⟨i, true⟩ : Open).takes l = true) (found : List Node) :
    Block.items (fuel + 1) i found (l :: ls) = match itemOf fuel l ls with
      | .error e => .error e
      | .ok (n, ls) => Block.items fuel i (n :: found) ls := by
  obtain ⟨rfl, hl⟩ := takes_items_iff.1 h
  rw [Block.items, if_pos rfl, itemOf]
  cases hcontent : l.content with
  | entry f => exact absurd hcontent (hl f)
  | item => rfl
  | itemValue n => rfl
  | itemEntry f =>
    have hinner : f.location.column - 1 = innerIndent f := rfl
    simp only [compact, hinner]
    cases fieldValue (block fuel) (innerIndent f) f ls with
    | error e => rfl
    | ok r =>
      simp only []
      cases Block.entries fuel (innerIndent f) [.mk f.key f.location r.1] r.2 with
      | error e => rfl
      | ok r' => rfl

theorem entries_step (hblock : BlockCloses fuel) (hentries : EntriesClose fuel) :
    EntriesClose (fuel + 1) := by
  intro i found ls hfuel
  cases ls with
  | nil =>
    rw [Block.entries]
    refine .nothing ⟨[], (List.append_nil _).symm, .noEntries, fun h => ?_,
      fun l hl => nomatch hl⟩ fun _ => rfl
    rwa [List.map_reverse, List.nodup_reverse]
  | cons l ls =>
    rw [List.length_cons] at hfuel
    by_cases htakes : (⟨i, false⟩ : Open).takes l = true
    · obtain ⟨hi, f, hf⟩ := takes_entries_iff.1 htakes
      have hvalue := entryValue_closes hblock ls hf (by omega)
      rw [hi] at hvalue
      rw [Block.entries]
      simp only [hf, hi, if_true]
      generalize fieldValue (block fuel) i f ls = r at hvalue ⊢
      cases hvalue with
      | failed h => exact .failed (.inl (h.mono (List.suffix_cons l ls).isInfix))
      | @took n taken rest hls hn hstray =>
        subst hls
        rw [List.length_append] at hfuel
        rcases Entry.add_cases found (.mk f.key f.location n) with ⟨hkey, hadd⟩ | ⟨hkey, hadd⟩
        · simp only [hadd]
          refine .failed (.inr ⟨l :: (taken ++ []), [], _, ?_, .entry hi hf hn .noEntries, ?_, rfl⟩)
          · rw [List.append_nil]
            exact List.prefix_append (l :: taken) rest
          · rwa [List.append_nil]
        · simp only [hadd]
          have hothers := hentries i (.mk f.key f.location n :: found) rest (by omega)
          generalize Block.entries fuel i (.mk f.key f.location n :: found) rest = r at hothers ⊢
          cases hothers with
          | failed h =>
            rcases h with h | h
            · exact .failed (.inl (h.mono (List.suffix_append (l :: taken) rest).isInfix))
            · exact .failed (.inr (h.cons hi hf hn))
          | @took es taken' rest' hls hes hstray' =>
            obtain ⟨es', rfl, hes, hnodup, hend⟩ := hes
            subst hls
            have hall : l :: (taken ++ (taken' ++ rest')) = l :: (taken ++ taken') ++ rest' := by
              rw [List.cons_append, List.append_assoc]
            refine .took hall ⟨_, ?_, .entry hi hf hn hes,
              fun h => hnodup (List.nodup_cons.2 ⟨hkey, h⟩), hend⟩
              fun outer => ?_
            · rw [List.reverse_cons, List.append_assoc, List.singleton_append]
            · rw [stray?_take htakes]
              exact (hstray _).trans (hstray' outer)
    · rw [Bool.not_eq_true] at htakes
      rw [entries_eq_of_not_takes htakes]
      refine .nothing ⟨[], (List.append_nil _).symm, .noEntries, fun h => ?_, ?_⟩ fun _ =>
        stray?_close htakes ls
      · rwa [List.map_reverse, List.nodup_reverse]
      · rintro _ ⟨⟩
        exact htakes

theorem Closes.items (taken : List Line) {found : List Node}
    {r : Except ParseError (List Node × List Line)} (htakes : (⟨i, true⟩ : Open).takes l = true)
    (hn : Arranged i (.item n) (l :: taken))
    (hstray : ∀ outer, stray? ⟨openedBy l ++ ⟨i, true⟩ :: outer, some l⟩ (taken ++ rest) =
      stray? ⟨⟨i, true⟩ :: outer, none⟩ rest)
    (h : Closes (fun outer => ⟨⟨i, true⟩ :: outer, none⟩) rest (Repeats rest)
      (fun ns taken rest => ∃ ns', ns = (n :: found).reverse ++ ns' ∧
        Arranged i (.items ns') taken ∧
        ∀ l ∈ rest.head?, (⟨i, true⟩ : Open).takes l = false) r) :
    Closes (fun outer => ⟨⟨i, true⟩ :: outer, none⟩) (l :: (taken ++ rest))
    (Repeats (l :: (taken ++ rest)))
      (fun ns taken rest => ∃ ns', ns = found.reverse ++ ns' ∧ Arranged i (.items ns') taken ∧
        ∀ l ∈ rest.head?, (⟨i, true⟩ : Open).takes l = false) r := by
  cases h with
  | failed h => exact .failed (h.mono (List.suffix_append (l :: taken) rest).isInfix)
  | @took ns taken' rest' hls hns hstray' =>
    obtain ⟨ns', rfl, hns, hend⟩ := hns
    subst hls
    have hall : l :: (taken ++ (taken' ++ rest')) = l :: taken ++ taken' ++ rest' := by
      rw [List.cons_append, List.cons_append, List.append_assoc]
    refine .took hall ⟨_, ?_, .items hn hns, hend⟩ fun outer => ?_
    · rw [List.reverse_cons, List.append_assoc, List.singleton_append]
    · rw [stray?_take htakes]
      exact (hstray outer).trans (hstray' outer)

theorem items_step (hblock : BlockCloses fuel) (hentries : EntriesClose fuel)
    (hitems : ItemsClose fuel) :
    ItemsClose (fuel + 1) := by
  intro i found ls hfuel
  cases ls with
  | nil =>
    rw [Block.items]
    exact .nothing ⟨[], (List.append_nil _).symm, .noItems, by simp⟩ fun _ => rfl
  | cons l ls =>
    rw [List.length_cons] at hfuel
    by_cases htakes : (⟨i, true⟩ : Open).takes l = true
    · obtain ⟨rfl, hcontent⟩ := takes_items_iff.1 htakes
      have hitem := itemOf_closes hblock hentries ls hcontent (by omega)
      rw [items_eq_of_takes htakes]
      generalize itemOf fuel l ls = r at hitem ⊢
      cases hitem with
      | failed h => exact .failed h
      | @took n taken rest hls hn hstray =>
        subst hls
        rw [List.length_append] at hfuel
        exact .items taken htakes hn (fun outer => hstray _)
          (hitems l.indent (n :: found) rest (by omega))
    · rw [Bool.not_eq_true] at htakes
      rw [items_eq_of_not_takes htakes]
      refine .nothing ⟨[], (List.append_nil _).symm, .noItems, ?_⟩ fun _ => stray?_close htakes ls
      rintro _ ⟨⟩
      exact htakes

theorem block_step (hentries : EntriesClose fuel) (hitems : ItemsClose fuel) :
    BlockCloses (fuel + 1) := by
  intro l ls hfuel
  have hfirst : ∀ {taken rest : List Line}, l :: ls = taken ++ rest →
      (∀ l' ∈ rest.head?, (Open.ofLine l).takes l' = false) → ∃ tail, taken = l :: tail := by
    intro taken rest hls hend
    cases taken with
    | nil =>
      have htakes := hend l (by rw [List.nil_append] at hls; rw [← hls]; rfl)
      rw [takes_ofLine] at htakes
      cases htakes
    | cons first tail => exact ⟨tail, by rw [(List.cons.inj hls).1]⟩
  rw [block]
  cases hitem : l.isItem with
  | true =>
    have hopen : Open.ofLine l = ⟨l.indent, true⟩ := by rw [Open.ofLine, hitem]
    have hlist := hitems l.indent [] (l :: ls) (by rw [List.length_cons]; omega)
    rw [if_pos rfl]
    rw [hopen] at hfirst ⊢
    generalize Block.items fuel l.indent [] (l :: ls) = r at hlist ⊢
    cases hlist with
    | failed h => exact .failed h
    | took hls hns hstray =>
      obtain ⟨ns, rfl, hns, hend⟩ := hns
      obtain ⟨tail, rfl⟩ := hfirst hls hend
      exact .took hls (.list hns) hstray
  | false =>
    have hopen : Open.ofLine l = ⟨l.indent, false⟩ := by rw [Open.ofLine, hitem]
    have hmapping := hentries l.indent [] (l :: ls) (by rw [List.length_cons]; omega)
    rw [if_neg Bool.false_ne_true]
    rw [hopen] at hfirst ⊢
    generalize Block.entries fuel l.indent [] (l :: ls) = r at hmapping ⊢
    cases hmapping with
    | failed h => exact .failed (h.elim id RepeatsAfter.repeats)
    | took hls hes hstray =>
      obtain ⟨es, rfl, hes, hnodup, hend⟩ := hes
      obtain ⟨tail, rfl⟩ := hfirst hls hend
      exact .took hls (.mapping hes (hnodup List.nodup_nil)) hstray

/-- Two units of fuel for each line are enough. -/
theorem readers_close (fuel : Nat) : BlockCloses fuel ∧ EntriesClose fuel ∧ ItemsClose fuel := by
  induction fuel with
  | zero => exact ⟨fun _ _ h => by omega, fun _ _ _ h => by omega, fun _ _ _ h => by omega⟩
  | succ fuel ih =>
    obtain ⟨hblock, hentries, hitems⟩ := ih
    exact ⟨block_step hentries hitems, entries_step hblock hentries,
      items_step hblock hentries hitems⟩

/-! Whole documents. -/

theorem ofLines_cases (ls : List Line) :
    (∃ n, ofLines ls = .ok n ∧ Holds ls n ∧ strayLine? ls = none) ∨
    (∃ e, ofLines ls = .error e ∧ Repeats ls e) ∨
    ∃ l, ofLines ls = .error (misplaced l) ∧ strayLine? ls = some l := by
  cases ls with
  | nil => exact .inl ⟨_, rfl, .nothing, rfl⟩
  | cons l ls =>
    have hblock := (readers_close (3 * (ls.length + 1) + 2)).1 l ls (by omega)
    rw [ofLines, strayLine?]
    generalize block (3 * (ls.length + 1) + 2) l.indent (l :: ls) = r at hblock ⊢
    cases hblock with
    | failed h => exact .inr (.inl ⟨_, rfl, h⟩)
    | @took n taken rest hls hn hstray =>
      rw [hstray [], stray?_nil_blocks]
      cases rest with
      | nil =>
        rw [List.append_nil] at hls
        subst hls
        exact .inl ⟨n, rfl, .block hn, rfl⟩
      | cons l' rest => exact .inr (.inr ⟨l', rfl, rfl⟩)

theorem holds_of_ofLines (h : ofLines ls = .ok n) : Holds ls n := by
  rcases ofLines_cases ls with ⟨m, hm, hholds, -⟩ | ⟨e, he, -⟩ | ⟨l, hl, -⟩
  · rw [hm] at h
    cases h
    exact hholds
  · rw [he] at h
    cases h
  · rw [hl] at h
    cases h

end Acceptors.Block
