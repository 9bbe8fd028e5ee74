import Acceptors.Proofs.Outcome
import Acceptors.Proofs.Regex.Resolution

/-! Whole definitions. Names are looked at first, then the tokens of all bindings, then the bindings
in order, and the pattern to match last, so a definition is built exactly when each of these can be
read. -/

namespace Acceptors.Regex.Definition

variable {d : Definition} {r : Regex} {texts : List (List Token)} {scope : Pattern.Scope}

theorem checkNames_eq_ok_iff {seen : List String} {bindings : List (String × PatternLine)} :
    checkNames seen bindings = .ok () ↔
      (bindings.map Prod.fst).Nodup ∧ ∀ name ∈ bindings.map Prod.fst, name ∉ seen := by
  induction bindings generalizing seen with
  | nil => simp [checkNames]
  | cons binding bindings ih =>
    obtain ⟨name, line⟩ := binding
    rw [checkNames, List.map_cons, List.nodup_cons, List.forall_mem_cons]
    split
    · rename_i hseen
      exact iff_of_false nofun fun h => h.2.1 hseen
    · rename_i hseen
      rw [ih]
      simp only [List.mem_cons, not_or]
      constructor
      · rintro ⟨hnodup, hnames⟩
        exact ⟨⟨fun hname => (hnames name hname).1 rfl, hnodup⟩, hseen, fun m hm => (hnames m hm).2⟩
      · rintro ⟨⟨hname, hnodup⟩, -, hnames⟩
        exact ⟨hnodup, fun m hm => ⟨fun h => hname (h ▸ hm), hnames m hm⟩⟩

def Tokenizes (d : Definition) (texts : List (List Token)) : Prop :=
  List.Forall₂ (fun b tokens => Token.tokenize d.names b.2.text.toList = .ok tokens)
    d.bindings texts

theorem mapM_tokensOf_eq_ok_iff :
    d.bindings.mapM (fun (name, line) => tokensOf d.names name line) = .ok texts ↔
    d.Tokenizes texts := by
  rw [mapM_eq_ok_iff, Tokenizes]
  refine iff_of_eq (congrArg (List.Forall₂ · _ _) ?_)
  funext b tokens
  exact propext mapError_eq_ok_iff

theorem Tokenizes.tokenized (h : d.Tokenizes texts) (hnames : d.names.Nodup) :
    Tokenized d.names texts where
  nodup := hnames
  length_eq := h.length_eq.symm.trans (List.length_map _).symm
  isFindable := by
    intro tokens htokens name hname
    obtain ⟨b, -, hb⟩ := exists_of_mem_mapM (mapM_tokensOf_eq_ok_iff.2 h) htokens
    exact (Token.tokenize_eq_ok_iff.1 (mapError_eq_ok_iff.1 hb)).isFindable hname

def finish (d : Definition) (scope : Pattern.Scope) : Except ParseError Regex := do
  let tokens ← tokensOf d.names "pattern" d.pattern
  let expr ← (Pattern.parse scope tokens).mapError (d.pattern.error "pattern")
  return ofExpr scope.reverse expr

theorem finish_eq_ok_iff : d.finish scope = .ok r ↔
    ∃ tokens, Token.tokenize d.names d.pattern.text.toList = .ok tokens ∧
      ∃ e, Pattern.parse scope tokens = .ok e ∧ ofExpr scope.reverse e = r := by
  rw [finish, bind_eq_ok_iff]
  refine exists_congr fun tokens => and_congr mapError_eq_ok_iff ?_
  rw [bind_eq_ok_iff]
  exact exists_congr fun e => and_congr mapError_eq_ok_iff ⟨Except.ok.inj, congrArg Except.ok⟩

def lines (d : Definition) (texts : List (List Token)) : List (String × PatternLine × List Token) :=
  d.bindings.zipWith (fun b tokens => (b.1, b.2, tokens)) texts

theorem build_eq_bind (hnames : d.names.Nodup) (htexts : d.Tokenizes texts) :
    d.build = resolve d.names (graphOf d.names texts) [] (d.lines texts) >>= d.finish := by
  rw [build, checkNames_eq_ok_iff.2 ⟨hnames, fun _ _ => List.not_mem_nil⟩,
    mapM_tokensOf_eq_ok_iff.2 htexts]
  rfl

theorem lines_eq_map_zip :
    d.lines texts = (d.bindings.zip texts).map fun (b, tokens) => (b.1, b.2, tokens) := by
  rw [lines, ← List.map_uncurry_zip_eq_zipWith]
  rfl

theorem Tokenizes.map_lines_fst (h : d.Tokenizes texts) :
    (d.lines texts).map Prod.fst = d.names := by
  rw [names, ← List.map_fst_zip h.length_eq.le, lines_eq_map_zip, List.map_map, List.map_map]
  rfl

theorem Tokenizes.map_lines_tokens (h : d.Tokenizes texts) :
    (d.lines texts).map (fun l => l.2.2) = texts := by
  have hsnd : (d.bindings.zip texts).map Prod.snd = texts := List.map_snd_zip h.length_eq.ge
  rw [lines_eq_map_zip, List.map_map]
  exact hsnd

theorem mem_bindings_of_finish (hnames : d.names.Nodup) (hscope : Builds d.names texts scope)
    (hfinish : d.finish scope = .ok r) : ∀ e ∈ r.expr :: r.bindings.map Prod.snd, ∀ name target,
      .reference name target ∈ e.parts → (name, target) ∈ r.bindings := by
  obtain ⟨tokens, -, expr, hparse, rfl⟩ := finish_eq_ok_iff.1 hfinish
  have hagrees : ∀ e ∈ expr :: scope.reverse.map Prod.snd, ∀ p ∈ e.parts,
      Pattern.Agrees scope p := by
    rw [List.forall_mem_cons]
    refine ⟨(Pattern.parse_eq_ok_iff.1 hparse).agrees (hscope.closed hnames), fun e he => ?_⟩
    obtain ⟨⟨name, e⟩, hmem, rfl⟩ := List.mem_map.1 he
    exact hscope.closed hnames name e (hscope.lookup_of_mem hnames (List.mem_reverse.1 hmem))
  intro e he name target hreference
  obtain ⟨l₁, l₂, hscope, -⟩ :=
    List.lookup_eq_some_iff.1 ((hagrees e he _ hreference).2 name target rfl)
  change (name, target) ∈ scope.reverse
  rw [List.mem_reverse, hscope]
  exact List.mem_append_right l₁ List.mem_cons_self

theorem map_fst_of_finish (hscope : Builds d.names texts scope)
    (hlength : scope.length = d.names.length) (hfinish : d.finish scope = .ok r) :
    r.bindings.map Prod.fst = d.names := by
  obtain ⟨tokens, -, expr, -, rfl⟩ := finish_eq_ok_iff.1 hfinish
  have hnames := hscope.map_fst
  rwa [hlength, List.take_length] at hnames

theorem build_spec (hnames : d.names.Nodup) (htexts : d.Tokenizes texts) :
    (∃ scope, Builds d.names texts scope ∧ scope.length = d.names.length ∧
      d.build = d.finish scope) ∨
    ∃ i name line tokens fault, d.bindings[i]? = some (name, line) ∧
    FirstFault d.names texts i tokens fault ∧
      d.build = .error (line.error name fault) := by
  rw [build_eq_bind hnames htexts]
  rcases (htexts.tokenized hnames).resolve_spec .nil htexts.map_lines_fst
    htexts.map_lines_tokens with
    ⟨scope, hresolve, hscope, hlength⟩ | ⟨i, name, line, tokens, fault, hline, hfault, hresolve⟩
  · exact .inl ⟨scope, hscope, hlength, bind_of_eq_ok hresolve⟩
  · obtain ⟨⟨name, line⟩, tokens, hbinding, -, hline⟩ := List.getElem?_zipWith_eq_some.1 hline
    cases hline
    rw [List.length_nil, Nat.zero_add] at hfault
    refine .inr ⟨i, name, line, tokens, fault, hbinding, hfault, ?_⟩
    rw [hresolve]
    rfl

theorem build_eq_ok_iff : d.build = .ok r ↔ d.names.Nodup ∧ ∃ texts, d.Tokenizes texts ∧
    ∃ scope, Builds d.names texts scope ∧ scope.length = d.names.length ∧
    d.finish scope = .ok r := by
  constructor
  · intro h
    obtain ⟨_, hcheck, hrest⟩ := bind_eq_ok_iff.1 h
    obtain ⟨texts, hmap, -⟩ := bind_eq_ok_iff.1 hrest
    have hnames := (checkNames_eq_ok_iff.1 hcheck).1
    have htexts := mapM_tokensOf_eq_ok_iff.1 hmap
    rcases build_spec hnames htexts with ⟨scope, hscope, hlength, hbuild⟩ | ⟨_, _, _, _,
      _, -, -, herror⟩
    · exact ⟨hnames, texts, htexts, scope, hscope, hlength, hbuild.symm.trans h⟩
    · cases h.symm.trans herror
  · rintro ⟨hnames, texts, htexts, scope, hscope, hlength, hfinish⟩
    have htokenized := htexts.tokenized hnames
    rcases build_spec hnames htexts with ⟨scope', hscope', hlength', hbuild⟩ | ⟨i, _, _, _,
      _, -, hfault, -⟩
    · rw [hbuild, hscope'.unique hscope (hlength'.trans hlength.symm)]
      exact hfinish
    · have hlt := htokenized.lt_of_faulty hfault.faulty
      exact absurd hfault.faulty (htokenized.not_faulty_of_lt hscope i (hlength ▸ hlt))

/-- Bindings are resolved in order. In a definition that is built, bindings refer to earlier ones,
and every reference carries what its binding was read as. Otherwise the first binding that refers to
itself or to a later one, or is no pattern, is reported, and where there is none the pattern to
match is read. -/
theorem build_resolves_in_order (d : Definition) (texts : List (List Token))
    (hnames : d.names.Nodup) (htexts : d.Tokenizes texts) :
    (∀ r, d.build = .ok r → r.bindings.map Prod.fst = d.names ∧
      (∀ i j, Refers d.names texts i j → j < i) ∧
      ∀ e ∈ r.expr :: r.bindings.map Prod.snd, ∀ name target, .reference name target ∈ e.parts →
        (name, target) ∈ r.bindings) ∧
    ((∃ i name line tokens fault, d.bindings[i]? = some (name, line) ∧
        FirstFault d.names texts i tokens fault ∧ d.build = .error (line.error name fault)) ∨
      (∀ i, ¬Faulty d.names texts i) ∧ ∃ scope, Builds d.names texts scope ∧
      scope.length = d.names.length ∧
        d.build = d.finish scope) := by
  have htokenized := htexts.tokenized hnames
  rcases build_spec hnames htexts with ⟨scope, hscope, hlength, hbuild⟩ | hfault
  · have hfaulty : ∀ i, ¬Faulty d.names texts i := fun i hi =>
      htokenized.not_faulty_of_lt hscope i (hlength ▸ htokenized.lt_of_faulty hi) hi
    refine ⟨fun r hr => ?_, .inr ⟨hfaulty, scope, hscope, hlength, hbuild⟩⟩
    have hfinish := hbuild.symm.trans hr
    refine ⟨map_fst_of_finish hscope hlength hfinish, ?_,
      mem_bindings_of_finish hnames hscope hfinish⟩
    · rintro i j ⟨tokens, htokens, t, ht, hrefers⟩
      by_contra hlt
      exact hfaulty i ⟨tokens, htokens, .inl ⟨t, ht, j, Nat.le_of_not_lt hlt, hrefers⟩⟩
  · refine ⟨fun r hr => ?_, .inl hfault⟩
    obtain ⟨_, _, _, _, _, -, -, herror⟩ := hfault
    cases hr.symm.trans herror

/-- `B` leads to `D` and `D` back to `B`, which is found before the parenthesis that `C` does not
close. -/
theorem build_resolves_in_order_cycle :
    let d : Definition :=
      ⟨[("A", .ofText "x"), ("B", ⟨"A (C|B)", some ⟨2, 4⟩⟩), ("C", .ofText "D("),
      ("D", .ofText "B*")], .ofText "A"⟩
    let texts : List (List Token) := [[⟨.symbol 'x', 0⟩],
      [⟨.name "A", 0⟩, ⟨.opening, 2⟩, ⟨.name "C", 3⟩, ⟨.bar, 4⟩, ⟨.name "B", 5⟩, ⟨.closing, 6⟩],
      [⟨.name "D", 0⟩, ⟨.opening, 1⟩], [⟨.name "B", 0⟩, ⟨.star, 1⟩]]
    d.names.Nodup ∧ d.Tokenizes texts ∧
      (∃ tokens, FirstFault d.names texts 1 tokens ⟨.circularReference "C", 3⟩) ∧
      d.build = .error ⟨.circularReference "C", some "B", some ⟨2, 7⟩⟩ := by
  intro d texts
  have hnames : d.names.Nodup := by decide
  have htexts : d.Tokenizes texts := by
    refine .cons ?_ (.cons ?_ (.cons ?_ (.cons ?_ .nil))) <;> decide +kernel
  have herror : d.build = .error ⟨.circularReference "C", some "B", some ⟨2, 7⟩⟩ := by
    decide +kernel
  refine ⟨hnames, htexts, ?_, herror⟩
  rcases (build_resolves_in_order d texts hnames htexts).2 with
    ⟨i, name, line, tokens, fault, hbinding, hfault, hbuild⟩ | ⟨hnone, -⟩
  · obtain ⟨reason, offset⟩ := fault
    have hsame := Except.error.inj (hbuild.symm.trans herror)
    obtain ⟨rfl, hname, hlocation⟩ := ParseError.mk.inj hsame
    obtain rfl := Option.some.inj hname
    have hplace : d.names[i]? = some "B" := by
      rw [names, List.getElem?_map, hbinding]
      rfl
    obtain rfl : 1 = i := eq_of_getElem?_eq_some hnames rfl hplace
    cases hbinding
    obtain rfl : offset = 3 :=
      Nat.add_left_cancel (congrArg Location.column (Option.some.inj hlocation))
    exact ⟨tokens, hfault⟩
  · exact absurd ⟨_, rfl, .inl ⟨⟨.name "C", 3⟩, by decide, 2, by decide, "C", rfl, rfl⟩⟩ (hnone 1)

end Acceptors.Regex.Definition
