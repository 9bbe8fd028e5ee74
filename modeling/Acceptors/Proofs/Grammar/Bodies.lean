import Acceptors.Proofs.Grammar.Definition

/-! Bodies and the texts they are read from. Reading loses no character, and the longest name goes
first at every place. A text that is printed from a body is therefore read as that body again. -/

namespace Acceptors.Grammar

open Text (IsLongest)

variable {g : Grammar} {d : Definition} {s : Symbol} {body : List Symbol} {names : List (List Char)}
  {text : String} {skip head a : Nat} {name : List Char} {rules : List (String × List String)}
  {productions : List Production}

def nameTexts (g : Grammar) : List (List Char) := g.nonterminals.toList.map String.toList

/-- The characters that the symbols of a body stand for, one symbol after the other. -/
def spelling (g : Grammar) (body : List Symbol) : List Char :=
  body.flatMap fun s => (g.displaySymbol s).toList

/-- The symbol to be read where a text goes on like this: the nonterminal with the longest name that
stands there, and a terminal if no name does. -/
def Chosen (g : Grammar) (rest : List Char) : Symbol → Prop
  | .terminal _ => ∀ name ∈ g.nameTexts, ¬name <+: rest
  | .nonterminal a => a < g.nonterminals.size ∧ IsLongest g.nameTexts rest (g.name a).toList

def Greedy (g : Grammar) (body : List Symbol) : Prop :=
  ∀ s rest, s :: rest <:+ body → g.Chosen (g.spelling (s :: rest)) s

structure ReadAs (g : Grammar) (text : String) (body : List Symbol) : Prop where
  eq_nil_iff : body = [] ↔ text = "" ∨ text = emptyText
  spelling_eq : body ≠ [] → g.spelling body = text.toList
  greedy : g.Greedy body

theorem spelling_cons (g : Grammar) (s : Symbol) (body : List Symbol) :
    g.spelling (s :: body) = (g.displaySymbol s).toList ++ g.spelling body := List.flatMap_cons

theorem spelling_terminal (g : Grammar) (c : Char) (body : List Symbol) :
    g.spelling (.terminal c :: body) = c :: g.spelling body := by
  rw [spelling_cons, displaySymbol, Char.toString, String.toList_singleton]
  rfl

theorem displayBody_of_ne_nil (h : body ≠ []) : (g.displayBody body).toList = g.spelling body := by
  rw [displayBody, if_neg (by simpa using h), String.toList_join, List.flatMap_map, spelling]

theorem Greedy.nil (g : Grammar) : g.Greedy [] := fun s rest h => by
  cases List.suffix_nil.1 h

theorem Greedy.cons (hs : g.Chosen (g.spelling (s :: body)) s) (h : g.Greedy body) :
    g.Greedy (s :: body) := by
  intro s' rest hsuffix
  rcases List.suffix_cons_iff.1 hsuffix with heq | hsuffix
  · cases heq
    exact hs
  · exact h s' rest hsuffix

theorem name_idxOf (h : name ∈ g.nameTexts) :
    g.nameTexts.idxOf name < g.nonterminals.size ∧
    (g.name (g.nameTexts.idxOf name)).toList = name := by
  have hlt := List.idxOf_lt_length_iff.2 h
  have hget := List.getElem_idxOf hlt
  have hsize : g.nameTexts.idxOf name < g.nonterminals.size := by
    rwa [nameTexts, List.length_map, Array.length_toList] at hlt
  refine ⟨hsize, ?_⟩
  rw [Grammar.name, Array.getD_eq_getD_getElem?, Array.getElem?_eq_getElem hsize, Option.getD_some]
  simpa only [nameTexts, List.getElem_map, Array.getElem_toList] using hget

namespace Definition

/-- Where a name stands, all of it is skipped, so nothing of the text is lost. -/
theorem spelling_scan (hne : ∀ name ∈ g.nameTexts, name ≠ []) (skip : Nat) (text : List Char) :
    g.spelling (scan g.nameTexts skip text) = text.drop skip ∧
    g.Greedy (scan g.nameTexts skip text) := by
  fun_induction scan g.nameTexts skip text with
  | case1 skip => exact ⟨List.drop_nil.symm, .nil g⟩
  | case2 skip c rest ih => exact ih
  | case3 c rest name hname ih =>
    have hlongest := Text.longestName?_eq_some_iff.1 hname
    obtain ⟨hlt, hidx⟩ := name_idxOf hlongest.mem
    have hspelling : g.spelling
        (.nonterminal (g.nameTexts.idxOf name) :: scan g.nameTexts (name.length - 1) rest) =
        c :: rest := by
      rw [spelling_cons, ih.1, displaySymbol, hidx]
      obtain ⟨_, tail, rfl⟩ := List.exists_cons_of_ne_nil hlongest.ne_nil
      obtain ⟨rfl, after, rfl⟩ := List.cons_prefix_cons.1 hlongest.begins
      rw [List.length_cons, Nat.add_sub_cancel, List.drop_left, List.cons_append]
    refine ⟨hspelling, .cons ?_ ih.2⟩
    rw [hspelling, Chosen, hidx]
    exact ⟨hlt, hlongest⟩
  | case4 c rest hname ih =>
    have hspelling : g.spelling (.terminal c :: scan g.nameTexts 0 rest) = c :: rest := by
      rw [spelling_terminal, ih.1, List.drop_zero]
    refine ⟨hspelling, .cons ?_ ih.2⟩
    rw [hspelling]
    exact fun name hmem => Text.longestName?_eq_none_iff.1 hname name hmem (hne name hmem)

theorem scan_eq_nil_iff {text : List Char} : scan names 0 text = [] ↔ text = [] := by
  cases text with
  | nil => exact iff_of_true rfl rfl
  | cons c rest =>
    refine iff_of_false ?_ (List.cons_ne_nil c rest)
    rw [scan]
    split <;> exact List.cons_ne_nil _ _

theorem readAs_bodyOf (hne : ∀ name ∈ g.nameTexts, name ≠ []) (text : String) :
    g.ReadAs text (bodyOf g.nameTexts text) := by
  rw [bodyOf]
  split
  · rename_i hempty
    exact ⟨iff_of_true rfl (.inr hempty), fun h => absurd rfl h, .nil g⟩
  · rename_i htext
    obtain ⟨hspelling, hgreedy⟩ := spelling_scan hne 0 text.toList
    refine ⟨?_, fun _ => hspelling, hgreedy⟩
    rw [scan_eq_nil_iff, String.toList_eq_nil_iff, or_iff_left htext]

/-- Only the empty text is printed in another way, with the mark for it, and this mark is read as
the empty body too. -/
theorem bodyOf_displayBody (hne : ∀ name ∈ g.nameTexts, name ≠ []) (text : String) :
    bodyOf g.nameTexts (g.displayBody (bodyOf g.nameTexts text)) = bodyOf g.nameTexts text := by
  have hread := readAs_bodyOf hne text
  by_cases hnil : bodyOf g.nameTexts text = []
  · rw [hnil, displayBody, List.isEmpty_nil, if_pos rfl, bodyOf, if_pos rfl]
  · have hdisplay : g.displayBody (bodyOf g.nameTexts text) = text :=
      String.toList_injective ((displayBody_of_ne_nil hnil).trans (hread.spelling_eq hnil))
    rw [hdisplay]

/-! Definitions with other texts. -/

def mapTexts (d : Definition) (f : String → String) : Definition :=
  ⟨d.rules.map fun rule => (rule.1, rule.2.map f)⟩

theorem productionsOf_mapTexts {f : String → String}
    (hf : ∀ text, bodyOf names (f text) = bodyOf names text) :
    productionsOf names head (rules.map fun rule => (rule.1, rule.2.map f)) =
    productionsOf names head rules := by
  induction rules generalizing head with
  | nil => rfl
  | cons rule rules ih =>
    simp only [List.map_cons, productionsOf, List.isEmpty_map, List.map_map,
      Function.comp_def, hf, ih]

theorem build_mapTexts {f : String → String}
    (hf : ∀ text, bodyOf (d.names.map String.toList) (f text) =
      bodyOf (d.names.map String.toList) text) :
    (d.mapTexts f).build = d.build := by
  have hnames : (d.mapTexts f).names = d.names := by
    rw [Definition.names, mapTexts, List.map_map]
    rfl
  rw [build, build, hnames, mapTexts, productionsOf_mapTexts hf, List.isEmpty_map]

/-! Productions and the texts they come from. -/

def textsFrom (head : Nat) (rules : List (String × List String)) : List (Nat × String) :=
  (rules.zipIdx head).flatMap fun rule => rule.1.2.map (rule.2, ·)

def texts (d : Definition) : List (Nat × String) := textsFrom 0 d.rules

theorem textsFrom_cons (head : Nat) (rule : String × List String)
    (rules : List (String × List String)) :
    textsFrom head (rule :: rules) = rule.2.map (head, ·) ++ textsFrom (head + 1) rules := by
  rw [textsFrom, List.zipIdx_cons, List.flatMap_cons, textsFrom]

theorem le_of_mem_textsFrom {t : Nat × String} (h : t ∈ textsFrom head rules) : head ≤ t.1 := by
  obtain ⟨rule, hrule, ht⟩ := List.mem_flatMap.1 h
  obtain ⟨text, -, rfl⟩ := List.mem_map.1 ht
  exact List.le_snd_of_mem_zipIdx hrule

theorem filter_textsFrom {rule : String × List String} (h : rules[a]? = some rule) :
    ((textsFrom head rules).filter fun t => t.1 = head + a) = rule.2.map (head + a, ·) := by
  induction rules generalizing head a with
  | nil => cases h
  | cons first rules ih =>
    rw [textsFrom_cons, List.filter_append]
    cases a with
    | zero =>
      cases h
      have hfirst : ((rule.2.map (head, ·)).filter fun t => t.1 = head + 0) =
          rule.2.map (head, ·) := by
        refine List.filter_eq_self.2 fun t ht => ?_
        obtain ⟨text, -, rfl⟩ := List.mem_map.1 ht
        exact decide_eq_true rfl
      have hrest : ((textsFrom (head + 1) rules).filter fun t => t.1 = head + 0) = [] := by
        refine List.filter_eq_nil_iff.2 fun t ht heq => ?_
        have hle := le_of_mem_textsFrom ht
        have := of_decide_eq_true heq
        omega
      rw [hfirst, hrest, List.append_nil, Nat.add_zero]
    | succ a =>
      have hfirst : ((first.2.map (head, ·)).filter fun t => t.1 = head + (a + 1)) = [] := by
        refine List.filter_eq_nil_iff.2 fun t ht heq => ?_
        obtain ⟨text, -, rfl⟩ := List.mem_map.1 ht
        have : head = head + (a + 1) := of_decide_eq_true heq
        omega
      have hrest : ((textsFrom (head + 1) rules).filter fun t => t.1 = head + 1 + a) =
          rule.2.map (head + 1 + a, ·) := ih h
      rw [Nat.add_assoc, Nat.add_comm 1 a] at hrest
      rw [hfirst, hrest, List.nil_append]

theorem productionsOf_eq_map (h : productionsOf names head rules = .ok productions) :
    productions = (textsFrom head rules).map fun t => ⟨t.1, bodyOf names t.2⟩ := by
  induction rules generalizing head productions with
  | nil =>
    cases h
    rfl
  | cons rule rules ih =>
    rw [productionsOf] at h
    split at h
    · cases h
    · obtain ⟨further, hfurther, h⟩ := bind_eq_ok_iff.1 h
      cases h
      rw [ih hfurther, textsFrom_cons, List.map_append, List.map_map]
      rfl

theorem productions_of_build (h : d.build = .ok g) : g.nonterminals.toList = d.names ∧
    g.productions = d.texts.map fun t => ⟨t.1, bodyOf g.nameTexts t.2⟩ := by
  obtain ⟨-, productions, hproductions, rfl⟩ := build_eq_ok h
  exact ⟨rfl, productionsOf_eq_map hproductions⟩

theorem nameTexts_ne_nil (h : d.build = .ok g) : ∀ name ∈ g.nameTexts, name ≠ [] := by
  obtain ⟨hcheck, _, _, rfl⟩ := build_eq_ok h
  refine List.forall_mem_map.2 fun name hname hnil => ?_
  exact ne_empty_of_checkNames hcheck name hname (String.toList_eq_nil_iff.1 hnil)

end Definition

/-- The right-hand side that a displayed production shows behind its head and the arrow. -/
def rightHandSide (g : Grammar) (p : Production) : String :=
  String.ofList ((g.displayProduction p).toList.drop (g.name p.head ++ " -> ").toList.length)

theorem rightHandSide_eq (g : Grammar) (p : Production) :
    g.rightHandSide p = g.displayBody p.body := by
  have hdisplay : (g.displayProduction p).toList =
      (g.name p.head ++ " -> ").toList ++ (g.displayBody p.body).toList := String.toList_append
  rw [rightHandSide, hdisplay, List.drop_left, String.ofList_toList]

def redisplayed (g : Grammar) : Definition :=
  ⟨(List.range g.nonterminals.size).map fun a =>
    (g.name a, (g.productions.filter fun p => p.head = a).map g.rightHandSide)⟩

theorem redisplayed_eq (h : d.build = .ok g) :
    g.redisplayed = d.mapTexts fun text => g.displayBody (Definition.bodyOf g.nameTexts text) := by
  obtain ⟨hnames, hproductions⟩ := Definition.productions_of_build h
  rw [redisplayed, Definition.mapTexts, Definition.mk.injEq]
  refine List.ext_getElem? fun a => ?_
  have hsize : g.nonterminals.size = d.rules.length := by
    rw [← Array.length_toList, hnames, Definition.names, List.length_map]
  rw [List.getElem?_map, List.getElem?_map]
  cases hrule : d.rules[a]? with
  | none =>
    have hle : g.nonterminals.size ≤ a := hsize ▸ List.getElem?_eq_none_iff.1 hrule
    rw [List.getElem?_eq_none (by rwa [List.length_range])]
    rfl
  | some rule =>
    have hlt : a < g.nonterminals.size := hsize ▸ (List.getElem?_eq_some_iff.1 hrule).1
    have hname : g.name a = rule.1 := by
      rw [name, Array.getD_eq_getD_getElem?, ← Array.getElem?_toList, hnames, Definition.names,
        List.getElem?_map, hrule]
      rfl
    have hbodies : (g.productions.filter fun p => p.head = a) =
        rule.2.map fun text => ⟨a, Definition.bodyOf g.nameTexts text⟩ := by
      have hfilter : ((Definition.textsFrom 0 d.rules).filter fun t => t.1 = 0 + a) =
          rule.2.map (0 + a, ·) :=
        Definition.filter_textsFrom hrule
      rw [Nat.zero_add] at hfilter
      rw [hproductions, List.filter_map, Definition.texts, Function.comp_def, hfilter, List.map_map]
      rfl
    rw [List.getElem?_range hlt, Option.map_some, Option.map_some, hname, hbodies, List.map_map]
    simp only [Function.comp_def, rightHandSide_eq]

/-- Every production of a grammar is a right-hand side of its definition, read without loss and with
the longest name first. The right-hand sides that are displayed for the grammar define it again. -/
theorem build_reads_greedily (h : d.build = .ok g) : g.nonterminals.toList = d.names ∧
    List.Forall₂ (fun t p => p.head = t.1 ∧ g.ReadAs t.2 p.body) d.texts g.productions ∧
    g.redisplayed.build = .ok g := by
  obtain ⟨hnames, hproductions⟩ := Definition.productions_of_build h
  have hne := Definition.nameTexts_ne_nil h
  refine ⟨hnames, ?_, ?_⟩
  · rw [hproductions, List.forall₂_map_right_iff, List.forall₂_same]
    exact fun t _ => ⟨rfl, Definition.readAs_bodyOf hne t.2⟩
  · have hread : ∀ text, Definition.bodyOf (d.names.map String.toList)
        (g.displayBody (Definition.bodyOf g.nameTexts text)) =
          Definition.bodyOf (d.names.map String.toList) text := by
      rw [← hnames]
      exact Definition.bodyOf_displayBody hne
    rw [redisplayed_eq h, Definition.build_mapTexts hread, h]

theorem build_reads_greedily_overlapping :
    let d : Definition := ⟨[("A", ["AB", ""]), ("AB", ["ABε", "ε"]), ("ε", ["A -> ε"])]⟩
    ∃ g, d.build = .ok g ∧ g.redisplayed.build = .ok g ∧
      g.ReadAs "A -> ε"
        [.nonterminal 0, .terminal ' ', .terminal '-', .terminal '>', .terminal ' ',
          .nonterminal 2] := by
  intro d
  let g : Grammar := ⟨#["A", "AB", "ε"],
    [⟨0, [.nonterminal 1]⟩, ⟨0, []⟩, ⟨1, [.nonterminal 1, .nonterminal 2]⟩, ⟨1, []⟩,
      ⟨2, [.nonterminal 0, .terminal ' ', .terminal '-', .terminal '>', .terminal ' ',
        .nonterminal 2]⟩],
    10000, 4194304⟩
  have hd : d.build = .ok g := by decide +kernel
  obtain ⟨-, hread, hagain⟩ := build_reads_greedily hd
  exact ⟨g, hd, hagain, (hread.get (i := 4) (by decide) (by decide)).2⟩

end Acceptors.Grammar
