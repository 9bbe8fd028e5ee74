import Mathlib.Data.Finset.Card
import Mathlib.Tactic.Common
import Acceptors.Proofs.Grammar.Definition
import Acceptors.Proofs.Grammar.Derivation
import Acceptors.Proofs.Search

/-! Nonterminals that are of no use: those that derive no word, and those that no form derived from
the start symbol holds. Marks are only ever put on nonterminals that derive a word. As long as the
marks leave out the head of a covered body a round adds one, so they leave out none after as many
rounds as there are nonterminals. -/

namespace Acceptors.Grammar

open Relation (ReflTransGen)

variable {d : Definition} {g : Grammar} {marks : Array Bool} {form body : List Symbol}
    {p : Production} {ps : List Production} {w : List Char} {a b k : Nat}

def IsProductive (g : Grammar) (a : Nat) : Prop := ∃ w, g.Derives [.nonterminal a] (word w)

def Occurs (g : Grammar) (a : Nat) : Prop := ∃ form, g.Derives [.nonterminal 0] form ∧
    .nonterminal a ∈ form

theorem exists_derives_of_productive (h : ∀ b, .nonterminal b ∈ form → g.IsProductive b) :
    ∃ w, g.Derives form (word w) := by
  induction form with
  | nil => exact ⟨[], .refl⟩
  | cons s form ih =>
    obtain ⟨v, hv⟩ := ih fun b hb => h b (List.mem_cons_of_mem s hb)
    cases s with
    | terminal c =>
      have hform := hv.append [.terminal c] []
      rw [List.append_nil, List.append_nil] at hform
      exact ⟨c :: v, hform⟩
    | nonterminal b =>
      obtain ⟨u, hu⟩ := h b List.mem_cons_self
      have hfirst := hu.append [] form
      have hform := hv.append (word u) []
      rw [List.append_nil, List.append_nil] at hform
      refine ⟨u ++ v, ?_⟩
      rw [word, List.map_append]
      exact hfirst.trans hform

theorem IsProductive.of_body (hp : ⟨a, body⟩ ∈ g.productions)
    (h : ∀ b, .nonterminal b ∈ body → g.IsProductive b) : g.IsProductive a := by
  obtain ⟨w, hw⟩ := exists_derives_of_productive h
  have hstep : g.Rewrites [.nonterminal a] body := by
    simpa only [List.nil_append, List.append_nil] using Rewrites.expand [] [] hp
  exact ⟨w, .head hstep hw⟩

theorem DerivesWithin.exists_of_mem (h : g.DerivesWithin k form w) (hb : .nonterminal b ∈ form) :
    ∃ u, g.DerivesWithin k [.nonterminal b] u := by
  induction form generalizing w with
  | nil => cases hb
  | cons s form ih =>
    cases s with
    | terminal c =>
      obtain ⟨v, -, hv⟩ := derivesWithin_terminal.1 h
      exact ih hv ((List.mem_cons.1 hb).resolve_left Symbol.noConfusion)
    | nonterminal a =>
      obtain ⟨u, v, -, hu, hv⟩ := derivesWithin_nonterminal.1 h
      rcases List.mem_cons.1 hb with hb | hb
      · cases hb
        exact ⟨u, hu⟩
      · exact ih hv hb

/-! Marks. -/

def Marked (marks : Array Bool) (a : Nat) : Prop := marks.getD a false = true

theorem isCovered_iff : isCovered marks body = true ↔ ∀ b, .nonterminal b ∈ body →
    Marked marks b := by
  rw [isCovered, List.all_eq_true]
  constructor
  · exact fun h b hb => h _ hb
  · intro h s hs
    cases s with
    | terminal c => rfl
    | nonterminal b => exact h b hs

theorem marked_set_iff : Marked (marks.setIfInBounds a true) b ↔
    Marked marks b ∨ a = b ∧ a < marks.size := by
  rw [Marked, Marked, Array.getD_eq_getD_getElem?, Array.getD_eq_getD_getElem?,
    Array.getElem?_setIfInBounds]
  by_cases hab : a = b
  · subst hab
    by_cases ha : a < marks.size
    · simp [ha]
    · simp [ha]
  · simp [hab]

def markHead (marks : Array Bool) (p : Production) : Array Bool :=
  if isCovered marks p.body then marks.setIfInBounds p.head true else marks

theorem marked_markHead_iff : Marked (markHead marks p) a ↔
    Marked marks a ∨ isCovered marks p.body = true ∧ p.head = a ∧ p.head < marks.size := by
  rw [markHead]
  split
  · rename_i h
    rw [marked_set_iff]
    tauto
  · tauto

theorem size_markHead (marks : Array Bool) (p : Production) :
    (markHead marks p).size = marks.size := by
  rw [markHead]
  split
  · exact Array.size_setIfInBounds
  · rfl

theorem size_foldl_markHead (marks : Array Bool) (ps : List Production) :
    (ps.foldl markHead marks).size = marks.size := by
  induction ps generalizing marks with
  | nil => rfl
  | cons p ps ih => rw [List.foldl_cons, ih, size_markHead]

theorem Marked.foldl (h : Marked marks a) (ps : List Production) :
    Marked (ps.foldl markHead marks) a := by
  induction ps generalizing marks with
  | nil => exact h
  | cons p ps ih => exact ih (marked_markHead_iff.2 (.inl h))

theorem isCovered_of_marked {marks' : Array Bool} (h : isCovered marks body = true)
    (hmarks : ∀ b, Marked marks b → Marked marks' b) : isCovered marks' body = true :=
  isCovered_iff.2 fun b hb => hmarks b (isCovered_iff.1 h b hb)

theorem marked_foldl_of_covered (hp : p ∈ ps) (hcovered : isCovered marks p.body = true)
    (hlt : p.head < marks.size) : Marked (ps.foldl markHead marks) p.head := by
  induction ps generalizing marks with
  | nil => cases hp
  | cons q ps ih =>
    rcases List.mem_cons.1 hp with rfl | hp
    · exact (marked_markHead_iff.2 (.inr ⟨hcovered, rfl, hlt⟩)).foldl ps
    · exact ih hp (isCovered_of_marked hcovered fun b hb => marked_markHead_iff.2 (.inl hb))
        ((size_markHead marks q).symm ▸ hlt)

theorem productive_of_marked_foldl (hps : ps ⊆ g.productions)
    (hmarks : ∀ a, Marked marks a → g.IsProductive a) :
    ∀ a, Marked (ps.foldl markHead marks) a → g.IsProductive a := by
  induction ps generalizing marks with
  | nil => exact hmarks
  | cons p ps ih =>
    obtain ⟨hp, hps⟩ := List.cons_subset.1 hps
    refine ih hps fun a ha => ?_
    rcases marked_markHead_iff.1 ha with ha | ⟨hcovered, rfl, -⟩
    · exact hmarks a ha
    · exact .of_body hp fun b hb => hmarks b (isCovered_iff.1 hcovered b hb)

theorem productive_succ (g : Grammar) (k : Nat) :
    g.productive (k + 1) = g.productions.foldl markHead (g.productive k) := rfl

theorem size_productive (g : Grammar) (k : Nat) : (g.productive k).size = g.nonterminals.size := by
  induction k with
  | zero => exact Array.size_replicate
  | succ k ih => rw [productive_succ, size_foldl_markHead, ih]

theorem not_marked_productive_zero : ¬Marked (g.productive 0) a := by
  rw [Marked, productive, getD_replicate_self]
  exact Bool.false_ne_true

theorem productive_of_marked (k : Nat) : ∀ a, Marked (g.productive k) a → g.IsProductive a := by
  induction k with
  | zero => exact fun a ha => absurd ha not_marked_productive_zero
  | succ k ih => exact productive_of_marked_foldl (List.Subset.refl _) ih

theorem Marked.succ (h : Marked (g.productive k) a) : Marked (g.productive (k + 1)) a := h.foldl _

theorem Marked.mono {m : Nat} (h : Marked (g.productive k) a) (hkm : k ≤ m) :
    Marked (g.productive m) a := by
  induction hkm with
  | refl => exact h
  | step _ ih => exact ih.succ

def Closed (g : Grammar) (marks : Array Bool) : Prop :=
  ∀ p ∈ g.productions, isCovered marks p.body = true → Marked marks p.head

theorem Closed.marked (h : g.Closed marks) (hk : g.DerivesWithin k [.nonterminal a] w) :
    Marked marks a := by
  induction k generalizing a w with
  | zero => exact absurd hk not_derivesWithin_zero
  | succ k ih =>
    obtain ⟨body, hp, hbody⟩ := derivesWithin_tree.1 hk
    refine h _ hp (isCovered_iff.2 fun b hb => ?_)
    obtain ⟨u, hu⟩ := hbody.exists_of_mem hb
    exact ih hu

theorem Closed.marked_of_productive (h : g.Closed marks) (ha : g.IsProductive a) :
    Marked marks a := by
  obtain ⟨w, hw⟩ := ha
  obtain ⟨k, hk⟩ := derives_word_iff.1 hw
  exact h.marked hk

def markedAfter (g : Grammar) (k : Nat) : Finset Nat :=
  (Finset.range g.nonterminals.size).filter fun a => (g.productive k).getD a false = true

theorem mem_markedAfter_iff : a ∈ g.markedAfter k ↔ a < g.nonterminals.size ∧
    Marked (g.productive k) a := by
  rw [markedAfter, Finset.mem_filter, Finset.mem_range, Marked]

theorem card_markedAfter_lt (hg : g.WellFormed) (h : ¬g.Closed (g.productive k)) :
    (g.markedAfter k).card < (g.markedAfter (k + 1)).card := by
  rw [Closed] at h
  push Not at h
  obtain ⟨p, hp, hcovered, hnew⟩ := h
  have hlt := hg.head_lt p hp
  have hmarked : Marked (g.productive (k + 1)) p.head :=
    marked_foldl_of_covered hp hcovered (by rwa [size_productive])
  refine Finset.card_lt_card ⟨fun a ha => ?_, fun hsub => ?_⟩
  · obtain ⟨hlt, ha⟩ := mem_markedAfter_iff.1 ha
    exact mem_markedAfter_iff.2 ⟨hlt, ha.succ⟩
  · exact hnew (mem_markedAfter_iff.1 (hsub (mem_markedAfter_iff.2 ⟨hlt, hmarked⟩))).2

theorem closed_or_le_card (hg : g.WellFormed) (k : Nat) :
    (∃ m < k, g.Closed (g.productive m)) ∨ k ≤ (g.markedAfter k).card := by
  induction k with
  | zero => exact .inr (Nat.zero_le _)
  | succ k ih =>
    by_cases hclosed : g.Closed (g.productive k)
    · exact .inl ⟨k, Nat.lt_succ_self k, hclosed⟩
    · rcases ih with ⟨m, hm, hclosed'⟩ | hcard
      · exact .inl ⟨m, Nat.lt_succ_of_lt hm, hclosed'⟩
      · exact .inr (Nat.lt_of_le_of_lt hcard (card_markedAfter_lt hg hclosed))

theorem marked_productive_iff (hg : g.WellFormed) (ha : a < g.nonterminals.size) :
    Marked (g.productive g.nonterminals.size) a ↔ g.IsProductive a := by
  refine ⟨productive_of_marked _ a, fun hproductive => ?_⟩
  rcases closed_or_le_card hg g.nonterminals.size with ⟨m, hm, hclosed⟩ | hcard
  · exact (hclosed.marked_of_productive hproductive).mono (Nat.le_of_lt hm)
  · -- All nonterminals are marked then.
    have hall : g.markedAfter g.nonterminals.size = Finset.range g.nonterminals.size :=
      Finset.eq_of_subset_of_card_le (Finset.filter_subset _ _) (by rwa [Finset.card_range])
    exact (mem_markedAfter_iff.1 (hall ▸ Finset.mem_range.2 ha)).2

/-! Reaching. -/

theorem mem_successors_iff : b ∈ g.successors a ↔ ∃ body, ⟨a, body⟩ ∈ g.productions ∧
    .nonterminal b ∈ body := by
  rw [successors, List.mem_flatMap]
  refine exists_congr fun body => and_congr mem_bodies_iff ?_
  rw [List.mem_filterMap]
  constructor
  · rintro ⟨s, hs, hb⟩
    cases s with
    | terminal c => cases hb
    | nonterminal b' =>
      cases hb
      exact hs
  · exact fun hb => ⟨_, hb, rfl⟩

theorem Occurs.successor (h : g.Occurs a) (hb : b ∈ g.successors a) : g.Occurs b := by
  obtain ⟨form, hform, ha⟩ := h
  obtain ⟨body, hp, hb⟩ := mem_successors_iff.1 hb
  obtain ⟨before, after, rfl⟩ := List.append_of_mem ha
  refine ⟨before ++ body ++ after, hform.tail (.expand before after hp), ?_⟩
  exact List.mem_append_left after (List.mem_append_right before hb)

theorem reaches_iff_occurs (hg : g.WellFormed) (hpos : 0 < g.nonterminals.size) :
    Search.Reaches g.nonterminals.size g.successors [0] a ↔ g.Occurs a := by
  constructor
  · rintro ⟨u, hu, -, hpath⟩
    obtain rfl := List.mem_singleton.1 hu
    induction hpath with
    | refl => exact ⟨_, .refl, List.mem_singleton_self _⟩
    | tail _ hedge ih => exact ih.successor hedge.1
  · rintro ⟨form, hform, ha⟩
    induction hform generalizing a with
    | refl =>
      cases List.mem_singleton.1 ha
      exact .start (List.mem_singleton_self 0) hpos
    | tail _ hstep ih =>
      obtain ⟨before, after, hp⟩ := hstep
      rw [List.mem_append, List.mem_append] at ha
      rcases ha with (hbefore | hbody) | hafter
      · exact ih (List.mem_append_left _ hbefore)
      · have hhead := ih (List.mem_append_right before List.mem_cons_self)
        exact hhead.tail (mem_successors_iff.2 ⟨_, hp, hbody⟩) (hg.index_lt _ hp a hbody)
      · exact ih (List.mem_append_right before (List.mem_cons_of_mem _ hafter))

/-! What is listed. -/

theorem sublist_map_name {is : List Nat} (h : is.Sublist (List.range g.nonterminals.size)) :
    (is.map g.name).Sublist g.nonterminals.toList :=
  array_map_getD_range g.nonterminals "" ▸ h.map g.name

theorem name_mem_map_iff (hg : g.WellFormed) {is : List Nat}
    (h : is.Sublist (List.range g.nonterminals.size)) (ha : a < g.nonterminals.size) :
    g.name a ∈ is.map g.name ↔ a ∈ is := by
  refine ⟨fun hmem => ?_, List.mem_map_of_mem⟩
  obtain ⟨b, hb, hname⟩ := List.mem_map.1 hmem
  rwa [← (hg.name_inj (List.mem_range.1 (h.subset hb)) ha).1 hname]

/-- In the order of their declaration, the nonterminals that derive no word are listed as
unproductive, and those that no form derived from the start symbol holds as unreachable. -/
theorem lists_useless_nonterminals (hd : d.build = .ok g) :
    g.unproductiveNonterminals.Sublist d.names ∧ g.unreachableNonterminals.Sublist d.names ∧
    ∀ a < g.nonterminals.size,
      (g.name a ∈ g.unproductiveNonterminals ↔ ∀ w, ¬g.Derives [.nonterminal a] (word w)) ∧
      (g.name a ∈ g.unreachableNonterminals ↔ ∀ form, g.Derives [.nonterminal 0] form →
        .nonterminal a ∉ form) := by
  have hg := Definition.wellFormed_of_build hd
  have hpos := Definition.size_pos_of_build hd
  have hnames : g.nonterminals.toList = d.names := by
    obtain ⟨-, _, -, rfl⟩ := Definition.build_eq_ok hd
    exact List.toList_toArray
  have hunmarked : ((List.range g.nonterminals.size).filter fun i =>
      !(g.productive g.nonterminals.size).getD i false).Sublist (List.range g.nonterminals.size) :=
    List.filter_sublist
  have hunreached : (Search.unreachable g.nonterminals.size g.successors [0]).Sublist
      (List.range g.nonterminals.size) := List.filter_sublist
  rw [← hnames]
  refine ⟨sublist_map_name hunmarked, sublist_map_name hunreached, fun a ha => ⟨?_, ?_⟩⟩
  · rw [unproductiveNonterminals, name_mem_map_iff hg hunmarked ha, List.mem_filter,
      Bool.not_eq_true', ← Bool.not_eq_true, ← Marked, marked_productive_iff hg ha,
      IsProductive, not_exists]
    exact and_iff_right (List.mem_range.2 ha)
  · rw [unreachableNonterminals, name_mem_map_iff hg hunreached ha, Search.mem_unreachable_iff,
      reaches_iff_occurs hg hpos, Occurs, not_exists, and_iff_right ha]
    exact forall_congr' fun form => not_and

/-- `B` only derives forms that hold `B`, and `C` is mentioned by `D` alone, which is mentioned
nowhere. -/
theorem lists_useless_nonterminals_cycle :
    let d : Definition :=
      ⟨[("S", ["aA", "B"]), ("A", [""]), ("B", ["bB"]), ("C", ["A"]), ("D", ["C", "D"])]⟩
    ∃ g, d.build = .ok g ∧ g.unproductiveNonterminals = ["B"] ∧
      g.unreachableNonterminals = ["C", "D"] ∧
      (∀ w, ¬g.Derives [.nonterminal 2] (word w)) ∧
      ∀ form, g.Derives [.nonterminal 0] form → .nonterminal 3 ∉ form := by
  intro d
  let g : Grammar := ⟨#["S", "A", "B", "C", "D"],
    [⟨0, [.terminal 'a', .nonterminal 1]⟩, ⟨0, [.nonterminal 2]⟩, ⟨1, []⟩,
      ⟨2, [.terminal 'b', .nonterminal 2]⟩, ⟨3, [.nonterminal 1]⟩, ⟨4, [.nonterminal 3]⟩,
      ⟨4, [.nonterminal 4]⟩],
    10000, 4194304⟩
  have hd : d.build = .ok g := by decide +kernel
  have hunproductive : g.unproductiveNonterminals = ["B"] := by decide +kernel
  have hunreachable : g.unreachableNonterminals = ["C", "D"] := by decide +kernel
  obtain ⟨-, -, huseless⟩ := lists_useless_nonterminals hd
  refine ⟨g, hd, hunproductive, hunreachable, (huseless 2 (by decide)).1.1 ?_,
    (huseless 3 (by decide)).2.1 ?_⟩
  · rw [hunproductive]
    exact List.mem_singleton_self _
  · rw [hunreachable]
    exact List.mem_cons_self

end Acceptors.Grammar
