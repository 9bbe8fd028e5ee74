import Mathlib.Tactic.Common
import Acceptors.Document.Block
import Acceptors.Proofs.Document.Written

/-! Blocks from the lines of a document. Whatever follows the lines of a list or a mapping and is
indented less is left alone, and from the lines themselves comes what they were made of. -/

namespace Acceptors.Block

variable {n : Node} {items : List Node} {es : List Entry} {ls rest : List Line} {l : Line}
    {i fuel : Nat}

def Ends (indent : Nat) (rest : List Line) : Prop := ∀ l ∈ rest.head?, l.indent < indent

theorem beside_cases (n : Node) (indent : Nat) :
    (n.bare = .null .start ∧ n.beside? = none ∧ n.lines indent = []) ∨
      (n.beside? = some n.bare ∧ n.lines indent = []) ∨
      (n.beside? = none ∧ ∃ content ls, n.lines indent = ⟨indent, .start, content⟩ :: ls) := by
  cases n with
  | null l => exact .inl ⟨rfl, rfl, rfl⟩
  | scalar l text => exact .inr (.inl ⟨rfl, rfl⟩)
  | list l items =>
    cases items with
    | nil => exact .inr (.inl ⟨rfl, rfl⟩)
    | cons n items => exact .inr (.inr ⟨rfl, _, _, rfl⟩)
  | mapping l entries =>
    cases entries with
    | nil => exact .inr (.inl ⟨rfl, rfl⟩)
    | cons e entries => obtain ⟨key, l, value⟩ := e; exact .inr (.inr ⟨rfl, _, _, rfl⟩)

theorem indent_eq_of_bare {content : Line.Content} (h : l.bare = ⟨i, .start, content⟩) :
    l.indent = i :=
  congrArg Line.indent h

theorem not_belongsToKey (h : l.indent < i ∨ l.indent = i ∧ l.isItem = false) :
    ¬belongsToKey i l = true := by
  rw [belongsToKey]
  rcases h with h | ⟨h, hitem⟩
  · simp [Nat.not_lt_of_gt h, Nat.ne_of_lt h]
  · simp [h, hitem]

theorem fieldValue_of_lines {f : Field} (hblock : n.lines (i + 2) ≠ [] →
      ∃ m, block fuel (i + 2) (ls ++ rest) = .ok (m, rest) ∧ m.bare = n.bare)
    (hf : f.value.map Node.bare = n.beside?) (hls : ls.map Line.bare = n.lines (i + 2))
    (hrest : ∀ l ∈ rest.head?, l.indent < i ∨ l.indent = i ∧ l.isItem = false) :
    ∃ m, fieldValue (block fuel) i f (ls ++ rest) = .ok (m, rest) ∧ m.bare = n.bare := by
  obtain ⟨key, location, value⟩ := f
  rcases beside_cases n (i + 2) with
    ⟨hnull, hbeside, hlines⟩ | ⟨hbeside, hlines⟩ | ⟨hbeside, content, tail, hlines⟩
  · obtain rfl := Option.map_eq_none_iff.1 (hf.trans hbeside)
    obtain rfl := List.map_eq_nil_iff.1 (hls.trans hlines)
    refine ⟨.null location, ?_, hnull.symm⟩
    rw [List.nil_append]
    cases rest with
    | nil => rfl
    | cons l rest => exact if_neg (not_belongsToKey (hrest l rfl))
  · obtain ⟨m, rfl, hbare⟩ := Option.map_eq_some_iff.1 (hf.trans hbeside)
    obtain rfl := List.map_eq_nil_iff.1 (hls.trans hlines)
    exact ⟨m, rfl, hbare⟩
  · obtain rfl := Option.map_eq_none_iff.1 (hf.trans hbeside)
    rw [hlines] at hls
    obtain ⟨l, ls, rfl, hl, -⟩ := List.map_eq_cons_iff.1 hls
    obtain ⟨m, hm, hbare⟩ := hblock (by rw [hlines]; exact List.cons_ne_nil _ _)
    refine ⟨m, ?_, hbare⟩
    have hindent := indent_eq_of_bare hl
    have hbelongs : belongsToKey i l = true := by
      rw [belongsToKey, hindent]
      simp
    rw [← hindent] at hm
    exact (if_pos hbelongs).trans hm

theorem itemBelow_of_lines {location : Location} (hblock : n.lines (i + 2) ≠ [] →
      ∃ m, block fuel (i + 2) (ls ++ rest) = .ok (m, rest) ∧ m.bare = n.bare)
    (hn : n.beside? = none) (hls : ls.map Line.bare = n.lines (i + 2))
    (hrest : ∀ l ∈ rest.head?, l.indent ≤ i) :
    ∃ m, itemBelow (block fuel) i location (ls ++ rest) = .ok (m, rest) ∧ m.bare = n.bare := by
  rcases beside_cases n (i + 2) with ⟨hnull, -, hlines⟩ | ⟨hbeside, -⟩ | ⟨-, content, tail, hlines⟩
  · rw [hlines, List.map_eq_nil_iff] at hls
    refine ⟨.null location, ?_, hnull.symm⟩
    rw [hls, List.nil_append]
    cases rest with
    | nil => rfl
    | cons l rest => exact if_neg (Nat.not_lt_of_ge (hrest l rfl))
  · rw [hn] at hbeside
    cases hbeside
  · rw [hlines] at hls
    obtain ⟨l, ls, rfl, hl, -⟩ := List.map_eq_cons_iff.1 hls
    obtain ⟨m, hm, hbare⟩ := hblock (by rw [hlines]; exact List.cons_ne_nil _ _)
    refine ⟨m, ?_, hbare⟩
    have hindent := indent_eq_of_bare hl
    rw [List.cons_append, itemBelow, if_pos (by omega), hindent]
    exact hm

theorem entries_end {found : List Entry} (hrest : Ends i rest) (hfuel : 0 < fuel) :
    entries fuel i found rest = .ok (found.reverse, rest) := by
  cases rest with
  | nil => rw [entries]
  | cons l rest =>
    obtain ⟨fuel, rfl⟩ := Nat.exists_eq_add_one_of_ne_zero (Nat.ne_of_gt hfuel)
    rw [entries]
    split
    · rw [if_neg (Nat.ne_of_lt (hrest l rfl))]
    · rfl

theorem items_end {found : List Node} (hrest : Ends i rest) (hfuel : 0 < fuel) :
    Block.items fuel i found rest = .ok (found.reverse, rest) := by
  cases rest with
  | nil => rw [Block.items]
  | cons l rest =>
    obtain ⟨fuel, rfl⟩ := Nat.exists_eq_add_one_of_ne_zero (Nat.ne_of_gt hfuel)
    rw [Block.items, if_neg (Nat.ne_of_lt (hrest l rfl))]

theorem head_entryLines (hls : ls.map Line.bare = entryLines i es) :
    ∀ l ∈ ls.head?, l.indent = i ∧ l.isItem = false := by
  cases es with
  | nil =>
    obtain rfl := List.map_eq_nil_iff.1 hls
    exact fun l hl => nomatch hl
  | cons e es =>
    obtain ⟨key, location, value⟩ := e
    rw [entryLines] at hls
    obtain ⟨⟨indent, location, content⟩, ls, rfl, hl, -⟩ := List.map_eq_cons_iff.1 hls
    rintro _ ⟨⟩
    obtain ⟨f, rfl, -⟩ := Line.Content.bare_eq_entry_iff.1 (congrArg Line.content hl)
    exact ⟨indent_eq_of_bare hl, rfl⟩

theorem head_itemLines (hls : ls.map Line.bare = itemLines i items) :
    ∀ l ∈ ls.head?, l.indent = i ∧ l.isItem = true := by
  cases items with
  | nil =>
    obtain rfl := List.map_eq_nil_iff.1 hls
    exact fun l hl => nomatch hl
  | cons n items =>
    rw [itemLines] at hls
    obtain ⟨⟨indent, location, content⟩, ls, rfl, hl, -⟩ := List.map_eq_cons_iff.1 hls
    rintro _ ⟨⟩
    refine ⟨indent_eq_of_bare hl, ?_⟩
    have hcontent : content.bare = .ofItem n.beside? := congrArg Line.content hl
    cases hbeside : n.beside? with
    | none =>
      rw [hbeside] at hcontent
      obtain rfl := Line.Content.bare_eq_item_iff.1 hcontent
      rfl
    | some inline =>
      rw [hbeside] at hcontent
      obtain ⟨m, rfl, -⟩ := Line.Content.bare_eq_itemValue_iff.1 hcontent
      rfl

theorem ends_entryLines (hls : ls.map Line.bare = entryLines i es) (hrest : Ends i rest) :
    ∀ l ∈ (ls ++ rest).head?, l.indent < i ∨ l.indent = i ∧ l.isItem = false := by
  cases ls with
  | nil => exact fun l hl => .inl (hrest l hl)
  | cons l ls => exact fun l hl => .inr (head_entryLines hls l hl)

theorem ends_itemLines (hls : ls.map Line.bare = itemLines i items) (hrest : Ends i rest) :
    ∀ l ∈ (ls ++ rest).head?, l.indent ≤ i := by
  cases ls with
  | nil => exact fun l hl => Nat.le_of_lt (hrest l hl)
  | cons l ls => exact fun l hl => Nat.le_of_eq (head_itemLines hls l hl).1

theorem items_cons (hblock : n.lines (i + 2) ≠ [] →
      ∃ m, block fuel (i + 2) (ls ++ rest) = .ok (m, rest) ∧ m.bare = n.bare)
    (hl : l.bare = ⟨i, .start, .ofItem n.beside?⟩) (hls : ls.map Line.bare = n.lines (i + 2))
    (hrest : ∀ l ∈ rest.head?, l.indent ≤ i) (found : List Node) :
    ∃ m, m.bare = n.bare ∧
      Block.items (fuel + 1) i found (l :: (ls ++ rest)) =
      Block.items fuel i (m :: found) rest := by
  obtain ⟨indent, location, content⟩ := l
  obtain rfl := indent_eq_of_bare hl
  have hcontent : content.bare = .ofItem n.beside? := congrArg Line.content hl
  cases hbeside : n.beside? with
  | none =>
    rw [hbeside] at hcontent
    obtain rfl := Line.Content.bare_eq_item_iff.1 hcontent
    obtain ⟨m, hm, hbare⟩ : ∃ m, itemBelow (block fuel) indent location (ls ++ rest) =
        .ok (m, rest) ∧
        m.bare = n.bare := itemBelow_of_lines hblock hbeside hls hrest
    refine ⟨m, hbare, ?_⟩
    rw [Block.items, if_pos rfl]
    simp only [hm]
  | some inline =>
    rw [hbeside] at hcontent
    obtain ⟨m, rfl, hm⟩ := Line.Content.bare_eq_itemValue_iff.1 hcontent
    rcases beside_cases n (indent + 2) with ⟨-, hnone, -⟩ | ⟨hvalue, hlines⟩ | ⟨hnone, -⟩
    · cases hbeside.symm.trans hnone
    · obtain rfl := List.map_eq_nil_iff.1 (hls.trans hlines)
      refine ⟨m, hm.trans (Option.some.inj (hbeside.symm.trans hvalue)), ?_⟩
      rw [Block.items, if_pos rfl]
      rfl
    · cases hbeside.symm.trans hnone

theorem entries_cons {key : String} (hblock : n.lines (i + 2) ≠ [] →
      ∃ m, block fuel (i + 2) (ls ++ rest) = .ok (m, rest) ∧ m.bare = n.bare)
    (hl : l.bare = ⟨i, .start, .entry ⟨key, .start, n.beside?⟩⟩)
    (hls : ls.map Line.bare = n.lines (i + 2))
    (hrest : ∀ l ∈ rest.head?, l.indent < i ∨ l.indent = i ∧ l.isItem = false) {found : List Entry}
    (hnew : key ∉ found.map Entry.key) :
    ∃ e : Entry, e.key = key ∧ e.value.bare = n.bare ∧
      entries (fuel + 1) i found (l :: (ls ++ rest)) = entries fuel i (e :: found) rest := by
  obtain ⟨indent, location, content⟩ := l
  obtain rfl := indent_eq_of_bare hl
  obtain ⟨f, rfl, hf⟩ := Line.Content.bare_eq_entry_iff.1 (congrArg Line.content hl)
  have hkey : f.key = key := congrArg Field.key hf
  obtain ⟨m, hm, hbare⟩ := fieldValue_of_lines (f := f) hblock (congrArg Field.value hf) hls hrest
  have hnew' : (Entry.mk f.key f.location m).key ∉ found.map Entry.key := hkey.symm ▸ hnew
  have hadd := ((Entry.add_cases found (.mk f.key f.location m)).resolve_left fun h => hnew' h.1).2
  refine ⟨.mk f.key f.location m, hkey, hbare, ?_⟩
  rw [entries]
  simp only [if_true, hm, hadd]

mutual

theorem block_of_lines (n : Node) (hk : n.KeysDistinct) {ls rest : List Line} {fuel i : Nat}
    (hne : n.lines i ≠ []) (hls : ls.map Line.bare = n.lines i) (hrest : Ends i rest)
    (hfuel : 2 * ls.length + 2 ≤ fuel) :
    ∃ m, block fuel i (ls ++ rest) = .ok (m, rest) ∧ m.bare = n.bare := by
  -- Two units for each line are enough: one for its block and one for the line itself.
  obtain ⟨fuel, rfl⟩ : ∃ k, fuel = k + 1 := ⟨fuel - 1, by omega⟩
  obtain ⟨l, ls, rfl⟩ := List.exists_cons_of_ne_nil fun h : ls = [] => hne (by rw [← hls, h]; rfl)
  cases n with
  | null _ => exact absurd rfl hne
  | scalar _ _ => exact absurd rfl hne
  | list location items =>
    obtain ⟨read, hread, hbare⟩ :=
      items_of_lines items hk hls hrest (Nat.le_of_succ_le_succ hfuel) []
    refine ⟨.list l.location read, ?_, by rw [Node.bare_list, Node.bare_list, hbare]⟩
    rw [List.cons_append] at hread ⊢
    rw [block, if_pos (head_itemLines hls l rfl).2, hread]
    rfl
  | mapping location es =>
    obtain ⟨read, hread, hbare⟩ :=
      entries_of_lines es hk.2 hls hrest (Nat.le_of_succ_le_succ hfuel) []
      hk.1 (fun _ _ => List.not_mem_nil)
    refine ⟨.mapping l.location read, ?_, by rw [Node.bare_mapping, Node.bare_mapping, hbare]⟩
    rw [List.cons_append] at hread ⊢
    rw [block, if_neg (by rw [(head_entryLines hls l rfl).2]; exact Bool.false_ne_true), hread]
    rfl

theorem items_of_lines (items : List Node) (hk : Node.ItemKeysDistinct items) {ls rest : List Line}
    {fuel i : Nat} (hls : ls.map Line.bare = itemLines i items) (hrest : Ends i rest)
    (hfuel : 2 * ls.length + 1 ≤ fuel) (found : List Node) :
    ∃ read, Block.items fuel i found (ls ++ rest) = .ok (found.reverse ++ read, rest) ∧
      read.map Node.bare = items.map Node.bare := by
  cases items with
  | nil =>
    obtain rfl := List.map_eq_nil_iff.1 hls
    exact ⟨[], by rw [List.nil_append, items_end hrest (by omega), List.append_nil], rfl⟩
  | cons n items =>
    rw [itemLines] at hls
    obtain ⟨l, tail, rfl, hl, htail⟩ := List.map_eq_cons_iff.1 hls
    obtain ⟨below, others, rfl, hbelow, hothers⟩ := List.map_eq_append_iff.1 htail
    rw [List.length_cons, List.length_append] at hfuel
    obtain ⟨fuel, rfl⟩ : ∃ k, fuel = k + 1 := ⟨fuel - 1, by omega⟩
    -- The item below this one ends what stands below it, since its indent is smaller.
    have hnext := ends_itemLines hothers hrest
    have hends : Ends (i + 2) (others ++ rest) := fun l hl => by
      have := hnext l hl
      omega
    have hfuel₁ : 2 * below.length + 2 ≤ fuel := by omega
    have hfuel₂ : 2 * others.length + 1 ≤ fuel := by omega
    obtain ⟨m, hm, hitem⟩ := items_cons
      (fun hne => block_of_lines n hk.1 hne hbelow hends hfuel₁) hl hbelow hnext found
    obtain ⟨read, hread, hbare⟩ := items_of_lines items hk.2 hothers hrest hfuel₂ (m :: found)
    refine ⟨m :: read, ?_, by rw [List.map_cons, List.map_cons, hm, hbare]⟩
    rw [List.cons_append, List.append_assoc, hitem, hread, List.reverse_cons, List.append_assoc]
    rfl

theorem entries_of_lines (es : List Entry) (hk : Node.EntryKeysDistinct es) {ls rest : List Line}
    {fuel i : Nat} (hls : ls.map Line.bare = entryLines i es) (hrest : Ends i rest)
    (hfuel : 2 * ls.length + 1 ≤ fuel) (found : List Entry) (hnodup : (es.map Entry.key).Nodup)
    (hnew : ∀ e ∈ es, e.key ∉ found.map Entry.key) :
    ∃ read, entries fuel i found (ls ++ rest) = .ok (found.reverse ++ read, rest) ∧
      read.map Entry.bare = es.map Entry.bare := by
  cases es with
  | nil =>
    obtain rfl := List.map_eq_nil_iff.1 hls
    exact ⟨[], by rw [List.nil_append, entries_end hrest (by omega), List.append_nil], rfl⟩
  | cons e es =>
    obtain ⟨key, location, value⟩ := e
    rw [entryLines] at hls
    obtain ⟨l, tail, rfl, hl, htail⟩ := List.map_eq_cons_iff.1 hls
    obtain ⟨below, others, rfl, hbelow, hothers⟩ := List.map_eq_append_iff.1 htail
    rw [List.length_cons, List.length_append] at hfuel
    obtain ⟨fuel, rfl⟩ : ∃ k, fuel = k + 1 := ⟨fuel - 1, by omega⟩
    have hnext := ends_entryLines hothers hrest
    have hends : Ends (i + 2) (others ++ rest) := fun l hl => by
      have := hnext l hl
      omega
    have hfuel₁ : 2 * below.length + 2 ≤ fuel := by omega
    have hfuel₂ : 2 * others.length + 1 ≤ fuel := by omega
    obtain ⟨hkey, hnodup⟩ := List.nodup_cons.1 hnodup
    obtain ⟨hnewkey, hnew⟩ := List.forall_mem_cons.1 hnew
    obtain ⟨e, hekey, hvalue, hentry⟩ := entries_cons
      (fun hne => block_of_lines value hk.1 hne hbelow hends hfuel₁) hl hbelow hnext hnewkey
    have hnew' : ∀ e' ∈ es, e'.key ∉ (e :: found).map Entry.key := by
      intro e' he'
      rw [List.map_cons, List.mem_cons, not_or, hekey]
      exact ⟨fun h => hkey (List.mem_map.2 ⟨e', he', h⟩), hnew e' he'⟩
    obtain ⟨read, hread, hbare⟩ :=
      entries_of_lines es hk.2 hothers hrest hfuel₂ (e :: found) hnodup hnew'
    refine ⟨e :: read, ?_, ?_⟩
    · rw [List.cons_append, List.append_assoc, hentry, hread, List.reverse_cons, List.append_assoc]
      rfl
    · rw [List.map_cons, List.map_cons, hbare, Entry.bare, hekey, hvalue]
      rfl

end

end Acceptors.Block
