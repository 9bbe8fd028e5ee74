import Mathlib.Logic.Relation
import Acceptors.Proofs.Places
import Acceptors.Proofs.Search
import Acceptors.Proofs.Regex.Parts
import Acceptors.Proofs.Regex.Pattern
import Acceptors.Proofs.Regex.Tokens

/-! How the bindings of a definition are resolved. A binding may only speak of bindings before it,
and its text has to be a pattern. The first binding that is at fault is reported: by a reference
that leads back to it where it has one, and by what its text cannot be read for where it has
none. -/

namespace Acceptors.Regex

open Token (Kind)
open Relation (ReflTransGen TransGen)

namespace Pattern

variable {scope : Scope} {tokens : List Token} {fault : PatternError}

def Grammatical (ks : List Kind) : Prop := ∃ scope e, Union scope ks e

/-- What tokens cannot be read for: a name that does not stand for anything yet, a parenthesis
without its partner, or a star with nothing in front of it. -/
inductive Blames (scope : Scope) (tokens : List Token) : PatternError → Prop
  | undefinedReference {name : String} {offset : Nat} (hmem : ⟨.name name, offset⟩ ∈ tokens)
    (hname : scope.lookup name = none) : Blames scope tokens ⟨.undefinedReference name, offset⟩
  | unmatchedOpen {offset : Nat} (hmem : ⟨.opening, offset⟩ ∈ tokens) :
    Blames scope tokens ⟨.unmatchedOpen, offset⟩
  | unmatchedClose {offset : Nat} (hmem : ⟨.closing, offset⟩ ∈ tokens) :
    Blames scope tokens ⟨.unmatchedClose, offset⟩
  | nothingToRepeat {offset : Nat} (hmem : ⟨.star, offset⟩ ∈ tokens) :
    Blames scope tokens ⟨.nothingToRepeat, offset⟩

theorem blames_of_read {all tokens : List Token} {f : Frame} {stack : List (Nat × Frame)}
    (htokens : tokens ⊆ all) (hstack : ∀ outer ∈ stack, ⟨.opening, outer.1⟩ ∈ all)
    (h : read scope tokens f stack = .error fault) : Blames scope all fault := by
  fun_induction read scope tokens f stack with
  | case1 => cases h
  | case2 f offset outer stack =>
    cases h
    exact .unmatchedOpen (hstack _ List.mem_cons_self)
  | case3 _ _ _ _ _ ih | case4 _ _ _ _ _ _ _ ih | case9 _ _ _ _ ih | case11 _ _ _ _ _ _ _ ih =>
    exact ih (List.subset_of_cons_subset htokens) hstack h
  | case5 offset tokens f stack text htext =>
    cases h
    exact .undefinedReference (htokens List.mem_cons_self) htext
  | case6 offset tokens f stack ih =>
    refine ih (List.subset_of_cons_subset htokens) (List.forall_mem_cons.2 ⟨?_, hstack⟩) h
    exact htokens List.mem_cons_self
  | case7 offset tokens f =>
    cases h
    exact .unmatchedClose (htokens List.mem_cons_self)
  | case8 offset tokens f _ outer stack ih =>
    exact ih (List.subset_of_cons_subset htokens) (List.forall_mem_cons.1 hstack).2 h
  | case10 offset tokens f stack hnil =>
    cases h
    exact .nothingToRepeat (htokens List.mem_cons_self)

theorem blames_of_parse (h : parse scope tokens = .error fault) : Blames scope tokens fault :=
  blames_of_read (List.Subset.refl tokens) (List.forall_mem_nil _) h

theorem exists_parse_iff : (∃ e, parse scope tokens = .ok e) ↔
    (∀ name, .name name ∈ tokens.map Token.kind → (scope.lookup name).isSome) ∧
      Grammatical (tokens.map Token.kind) := by
  have hreadable : (∃ e, parse scope tokens = .ok e) ↔ Readable scope [] (tokens.map Token.kind) :=
    (exists_congr fun e => parse_eq_ok_iff).trans exists_union_iff
  rw [hreadable]
  constructor
  · intro h
    exact ⟨h.defined, scope, exists_union_iff.2 h⟩
  · rintro ⟨hdefined, scope', h⟩
    -- what is asked of parentheses and stars does not depend on the scope
    obtain ⟨-, hnested, hmatched, hrepeated⟩ := exists_union_iff.1 h
    exact ⟨hdefined, hnested, hmatched, hrepeated⟩

end Pattern

def Token.RefersTo (names : List String) (t : Token) (j : Nat) : Prop :=
  ∃ name, t.kind = .name name ∧ names[j]? = some name

namespace Definition

variable {names : List String} {texts : List (List Token)} {scope : Pattern.Scope}
    {tokens : List Token} {t : Token} {i j : Nat} {name : String} {fault : PatternError}

def Refers (names : List String) (texts : List (List Token)) (i j : Nat) : Prop :=
  ∃ tokens, texts[i]? = some tokens ∧ ∃ t ∈ tokens, t.RefersTo names j

/-- Whether a token of binding `i` refers to that binding or to a later one, and references lead
back. -/
def Circular (names : List String) (texts : List (List Token)) (i : Nat) (t : Token) : Prop :=
  ∃ j, i ≤ j ∧ t.RefersTo names j ∧ ReflTransGen (Refers names texts) j i

/-- Whether binding `i` refers to a binding that is not before it, or is no pattern. -/
def Faulty (names : List String) (texts : List (List Token)) (i : Nat) : Prop :=
  ∃ tokens, texts[i]? = some tokens ∧
    ((∃ t ∈ tokens, ∃ j, i ≤ j ∧ t.RefersTo names j) ∨ ¬Pattern.Grammatical (tokens.map Token.kind))

inductive Builds (names : List String) (texts : List (List Token)) : Pattern.Scope → Prop
  | nil : Builds names texts []
  | cons {scope : Pattern.Scope} {name : String} {tokens : List Token} {e : Expr}
      (h : Builds names texts scope) (hname : names[scope.length]? = some name)
      (htokens : texts[scope.length]? = some tokens) (hparse : Pattern.parse scope tokens = .ok e) :
      Builds names texts ((name, e) :: scope)

/-- What is reported of a binding after those of a scope: its first token that leads back to it, or
else what its tokens cannot be read for. -/
inductive Reports (names : List String) (texts : List (List Token)) (scope : Pattern.Scope)
    (tokens : List Token) : PatternError → Prop
  | circular {before after : List Token} {t : Token}
      {name : String} (htokens : tokens = before ++ t :: after)
      (hkind : t.kind = .name name) (ht : Circular names texts scope.length t)
      (hbefore : ∀ s ∈ before, ¬Circular names texts scope.length s) :
    Reports names texts scope tokens ⟨.circularReference name, t.offset⟩
  | unread {fault : PatternError} (hnone : ∀ t ∈ tokens, ¬Circular names texts scope.length t)
    (hparse : Pattern.parse scope tokens = .error fault)
    (hfault : Pattern.Blames scope tokens fault) :
    Reports names texts scope tokens fault

structure FirstFault (names : List String) (texts : List (List Token)) (i : Nat)
    (tokens : List Token) (fault : PatternError) : Prop where
  place : texts[i]? = some tokens
  faulty : Faulty names texts i
  first : ∀ k < i, ¬Faulty names texts k
  reports : ∃ scope, scope.length = i ∧ Builds names texts scope ∧
    Reports names texts scope tokens fault

structure Tokenized (names : List String) (texts : List (List Token)) : Prop where
  nodup : names.Nodup
  length_eq : texts.length = names.length
  isFindable : ∀ tokens ∈ texts, ∀ name, .name name ∈ tokens.map Token.kind →
    Token.IsFindable names name

/-! ### References -/

def graphOf (names : List String) (texts : List (List Token)) : Array (List Nat) :=
  (texts.map (references names)).toArray

theorem size_graphOf (names : List String) (texts : List (List Token)) :
    (graphOf names texts).size = texts.length := by
  rw [graphOf, List.size_toArray, List.length_map]

theorem mem_references_iff (hnames : names.Nodup) :
    j ∈ references names tokens ↔ ∃ t ∈ tokens, t.RefersTo names j := by
  rw [references, List.mem_filterMap]
  refine exists_congr fun t => and_congr_right fun _ => ?_
  cases hkind : t.kind <;> simp [Token.RefersTo, hkind, list_idxOf?_eq_some_iff hnames]

namespace Tokenized

variable (h : Tokenized names texts)
include h

theorem mem_getD_iff : j ∈ (graphOf names texts).getD i [] ↔ Refers names texts i j := by
  rw [graphOf, Array.getD_eq_getD_getElem?, List.getElem?_toArray, List.getElem?_map, Refers]
  cases texts[i]? with
  | none => simp
  | some tokens => simp [mem_references_iff h.nodup]

theorem lt_of_refers (hrefers : Refers names texts i j) : j < texts.length := by
  obtain ⟨_, _, _, _, _, _, hname⟩ := hrefers
  rw [h.length_eq]
  exact (List.getElem?_eq_some_iff.1 hname).1

theorem leadsTo_iff :
    leadsTo (graphOf names texts) i j = true ↔ TransGen (Refers names texts) i j := by
  have hadjacent : Search.Adjacent (graphOf names texts).size
      (fun i => (graphOf names texts).getD i []) = Refers names texts := by
    funext u v
    rw [Search.Adjacent, h.mem_getD_iff, size_graphOf, eq_iff_iff]
    exact and_iff_left_of_imp h.lt_of_refers
  rw [leadsTo, List.contains_iff_mem, Search.mem_reachable_iff, Search.Reaches, hadjacent,
    TransGen.head'_iff]
  refine exists_congr fun u => ?_
  rw [h.mem_getD_iff, size_graphOf]
  exact and_congr_right fun hu => and_iff_right (h.lt_of_refers hu)

end Tokenized

def faultAt (names : List String) (graph : Array (List Nat)) (i : Nat)
    (t : Token) : Option PatternError :=
  match t.kind with
  | .name text => do
    let target ← names.idxOf? text
    if i ≤ target && leadsTo graph target i then some ⟨.circularReference text, t.offset⟩ else none
  | _ => none

theorem circular?_eq (graph : Array (List Nat)) :
    circular? names graph i tokens = tokens.findSome? (faultAt names graph i) := rfl

theorem faultAt_eq_some_iff (hnames : names.Nodup) {graph : Array (List Nat)} :
    faultAt names graph i t = some fault ↔
      ∃ name, t.kind = .name name ∧ fault = ⟨.circularReference name, t.offset⟩ ∧
        ∃ j, names[j]? = some name ∧ i ≤ j ∧ leadsTo graph j i = true := by
  rw [faultAt]
  cases hkind : t.kind with
  | name text =>
    simp only [Option.bind_eq_bind, Option.bind_eq_some_iff, list_idxOf?_eq_some_iff hnames,
      Kind.name.injEq, Option.ite_none_right_eq_some, Option.some.injEq, Bool.and_eq_true,
      decide_eq_true_eq]
    constructor
    · rintro ⟨j, hname, ⟨hle, hback⟩, rfl⟩
      exact ⟨text, rfl, rfl, j, hname, hle, hback⟩
    · rintro ⟨_, rfl, rfl, j, hname, hle, hback⟩
      exact ⟨j, hname, ⟨hle, hback⟩, rfl⟩
  | _ => simp

namespace Tokenized

variable (h : Tokenized names texts)
include h

theorem circular_iff (htokens : texts[i]? = some tokens) (ht : t ∈ tokens) :
    Circular names texts i t ↔
      ∃ j, i ≤ j ∧ t.RefersTo names j ∧ leadsTo (graphOf names texts) j i = true := by
  refine exists_congr fun j => and_congr_right fun _ => and_congr_right fun hrefers => ?_
  rw [h.leadsTo_iff, Relation.reflTransGen_iff_eq_or_transGen]
  constructor
  · rintro (rfl | hback)
    · exact .single ⟨tokens, htokens, t, ht, hrefers⟩
    · exact hback
  · exact Or.inr

theorem faultAt_eq_some_iff_circular (htokens : texts[i]? = some tokens) (ht : t ∈ tokens) :
    faultAt names (graphOf names texts) i t = some fault ↔ Circular names texts i t ∧
      ∃ name, t.kind = .name name ∧ fault = ⟨.circularReference name, t.offset⟩ := by
  rw [faultAt_eq_some_iff h.nodup, h.circular_iff htokens ht]
  constructor
  · rintro ⟨name, hkind, hfault, j, hname, hle, hback⟩
    exact ⟨⟨j, hle, ⟨name, hkind, hname⟩, hback⟩, name, hkind, hfault⟩
  · rintro ⟨⟨j, hle, ⟨name, hkind, hname⟩, hback⟩, name', hkind', hfault⟩
    obtain rfl : name = name' := Kind.name.inj (hkind.symm.trans hkind')
    exact ⟨name, hkind, hfault, j, hname, hle, hback⟩

theorem faultAt_eq_none_iff (htokens : texts[i]? = some tokens) (ht : t ∈ tokens) :
    faultAt names (graphOf names texts) i t = none ↔ ¬Circular names texts i t := by
  rw [Option.eq_none_iff_forall_ne_some]
  constructor
  · intro hnone hcircular
    obtain ⟨name, hkind, -⟩ := hcircular.choose_spec.2.1
    exact hnone _ ((h.faultAt_eq_some_iff_circular htokens ht).2 ⟨hcircular, name, hkind, rfl⟩)
  · intro hnone fault hfault
    exact hnone ((h.faultAt_eq_some_iff_circular htokens ht).1 hfault).1

theorem circular?_eq_none_iff (htokens : texts[i]? = some tokens) :
    circular? names (graphOf names texts) i tokens = none ↔
      ∀ t ∈ tokens, ¬Circular names texts i t := by
  rw [circular?_eq, List.findSome?_eq_none_iff]
  exact forall₂_congr fun t ht => h.faultAt_eq_none_iff htokens ht

theorem reports_of_circular? (htokens : texts[scope.length]? = some tokens)
    (hfault : circular? names (graphOf names texts) scope.length tokens = some fault) :
    Reports names texts scope tokens fault ∧ Faulty names texts scope.length := by
  rw [circular?_eq, List.findSome?_eq_some_iff] at hfault
  obtain ⟨before, t, after, rfl, ht, hbefore⟩ := hfault
  have hmem : t ∈ before ++ t :: after := List.mem_append_right _ List.mem_cons_self
  obtain ⟨hcircular, name, hkind, rfl⟩ := (h.faultAt_eq_some_iff_circular htokens hmem).1 ht
  constructor
  · refine .circular rfl hkind hcircular fun s hs => ?_
    exact (h.faultAt_eq_none_iff htokens (List.mem_append_left _ hs)).1 (hbefore s hs)
  · obtain ⟨j, hle, hrefers, -⟩ := hcircular
    exact ⟨_, htokens, .inl ⟨t, hmem, j, hle, hrefers⟩⟩

end Tokenized

/-! ### Scopes of the first bindings -/

namespace Builds

theorem map_fst (h : Builds names texts scope) :
    scope.reverse.map Prod.fst = names.take scope.length := by
  induction h with
  | nil => rfl
  | cons h hname _ _ ih =>
    rw [List.reverse_cons, List.map_append, ih, List.length_cons, List.take_add_one, hname]
    rfl

theorem isSome_lookup_iff (h : Builds names texts scope) :
    (scope.lookup name).isSome ↔ ∃ j < scope.length, names[j]? = some name := by
  have hmem : (scope.lookup name).isSome ↔ name ∈ names.take scope.length := by
    rw [List.lookup_isSome_iff, ← h.map_fst, List.mem_map]
    exact exists_congr fun p => and_congr List.mem_reverse.symm (beq_iff_eq.trans eq_comm)
  rw [hmem, List.mem_iff_getElem?]
  refine exists_congr fun j => ?_
  rw [List.getElem?_take, Option.ite_none_right_eq_some]

theorem length_le (h : Builds names texts scope) : scope.length ≤ names.length := by
  have hlength := congrArg List.length h.map_fst
  rw [List.length_map, List.length_reverse, List.length_take] at hlength
  omega

theorem lookup_eq_none (hnames : names.Nodup) (h : Builds names texts scope)
    (hname : names[scope.length]? = some name) : scope.lookup name = none := by
  rw [← Option.not_isSome_iff_eq_none, h.isSome_lookup_iff]
  rintro ⟨j, hj, hname'⟩
  exact hj.ne (eq_of_getElem?_eq_some hnames hname' hname)

theorem closed (hnames : names.Nodup) (h : Builds names texts scope) : Pattern.Closed scope := by
  induction h with
  | nil => exact Pattern.closed_nil
  | cons h hname _ hparse ih =>
    exact ih.cons (h.lookup_eq_none hnames hname) (Pattern.parse_eq_ok_iff.1 hparse)

theorem lookup_of_mem (hnames : names.Nodup) {target : Expr} (h : Builds names texts scope)
    (hmem : (name, target) ∈ scope) : scope.lookup name = some target := by
  induction h with
  | nil => cases hmem
  | cons h hname _ _ ih =>
    rcases List.mem_cons.1 hmem with hmem | hmem
    · cases hmem
      exact List.lookup_cons_self
    · exact Pattern.lookup_cons_of_lookup (h.lookup_eq_none hnames hname) (ih hmem)

theorem unique {scope' : Pattern.Scope} (h : Builds names texts scope)
    (h' : Builds names texts scope') (hlength : scope.length = scope'.length) : scope = scope' := by
  induction h generalizing scope' with
  | nil => exact (List.length_eq_zero_iff.1 hlength.symm).symm
  | cons h hname htokens hparse ih =>
    cases h' with
    | nil => cases hlength
    | cons h' hname' htokens' hparse' =>
      obtain rfl := ih h' (Nat.succ.inj hlength)
      cases hname.symm.trans hname'
      cases htokens.symm.trans htokens'
      cases hparse.symm.trans hparse'
      rfl

end Builds

/-! ### Bindings in order -/

theorem exists_of_cons_eq_drop {α : Type} {x : α} {l l' : List α} {n : Nat}
    (h : x :: l = l'.drop n) :
    l'[n]? = some x ∧ l = l'.drop (n + 1) :=
  ⟨by rw [← List.head?_drop, ← h, List.head?_cons], by rw [← List.tail_drop, ← h, List.tail_cons]⟩

namespace Tokenized

variable (h : Tokenized names texts)
include h

theorem not_faulty_iff (hscope : Builds names texts scope)
    (htokens : texts[scope.length]? = some tokens) :
    ¬Faulty names texts scope.length ↔ ∃ e, Pattern.parse scope tokens = .ok e := by
  rw [Pattern.exists_parse_iff]
  constructor
  · intro hfaulty
    constructor
    · intro name hname
      obtain ⟨t, ht, hkind⟩ := List.mem_map.1 hname
      have hfindable := h.isFindable tokens (List.mem_of_getElem? htokens) name hname
      obtain ⟨j, hj⟩ := List.mem_iff_getElem?.1 hfindable.1
      refine hscope.isSome_lookup_iff.2 ⟨j, Nat.lt_of_not_le fun hle => ?_, hj⟩
      exact hfaulty ⟨tokens, htokens, .inl ⟨t, ht, j, hle, name, hkind, hj⟩⟩
    · by_contra hsyntax
      exact hfaulty ⟨tokens, htokens, .inr hsyntax⟩
  · rintro ⟨hdefined, hsyntax⟩ ⟨_, htokens', hfault⟩
    cases htokens.symm.trans htokens'
    rcases hfault with ⟨t, ht, j, hle, name, hkind, hname⟩ | hfault
    · obtain ⟨k, hk, hname'⟩ :=
        hscope.isSome_lookup_iff.1 (hdefined name (hkind ▸ List.mem_map_of_mem ht))
      exact absurd hk (Nat.not_lt_of_le (eq_of_getElem?_eq_some h.nodup hname hname' ▸ hle))
    · exact hfault hsyntax

theorem not_faulty_of_lt (hscope : Builds names texts scope) :
    ∀ k < scope.length, ¬Faulty names texts k := by
  induction hscope with
  | nil => exact fun k hk => absurd hk (Nat.not_lt_zero k)
  | cons hscope _ htokens hparse ih =>
    intro k hk
    rcases Nat.lt_succ_iff_lt_or_eq.1 hk with hk | rfl
    · exact ih k hk
    · exact (h.not_faulty_iff hscope htokens).2 ⟨_, hparse⟩

theorem lt_of_faulty (hfaulty : Faulty names texts i) : i < names.length := by
  obtain ⟨tokens, htokens, -⟩ := hfaulty
  rw [← h.length_eq]
  exact (List.getElem?_eq_some_iff.1 htokens).1

theorem resolve_cons {line : PatternLine} (hscope : Builds names texts scope)
    (htokens : texts[scope.length]? = some tokens)
    (lines : List (String × PatternLine × List Token)) :
    (∃ e, Pattern.parse scope tokens = .ok e ∧ resolve names (graphOf names texts) scope
        ((name, line, tokens) :: lines) = resolve names (graphOf names texts)
        ((name, e) :: scope) lines) ∨
    ∃ fault, FirstFault names texts scope.length tokens fault ∧
    resolve names (graphOf names texts) scope
        ((name, line, tokens) :: lines) = .error (line.error name fault) := by
  cases hcircular : circular? names (graphOf names texts) scope.length tokens with
  | some fault =>
    obtain ⟨hreports, hfaulty⟩ := h.reports_of_circular? htokens hcircular
    refine .inr ⟨fault, ⟨htokens, hfaulty, h.not_faulty_of_lt hscope, scope, rfl, hscope, hreports⟩,
      ?_⟩
    rw [resolve, hcircular]
  | none =>
    cases hparse : Pattern.parse scope tokens with
    | ok e => exact .inl ⟨e, rfl, by rw [resolve, hcircular, hparse]⟩
    | error fault =>
      have hfaulty : Faulty names texts scope.length := by
        by_contra hfaulty
        obtain ⟨e, he⟩ := (h.not_faulty_iff hscope htokens).1 hfaulty
        cases hparse.symm.trans he
      have hreports : Reports names texts scope tokens fault :=
        .unread ((h.circular?_eq_none_iff htokens).1 hcircular) hparse
          (Pattern.blames_of_parse hparse)
      refine .inr ⟨fault, ⟨htokens, hfaulty, h.not_faulty_of_lt hscope, scope, rfl, hscope,
        hreports⟩, ?_⟩
      rw [resolve, hcircular, hparse]

theorem resolve_spec {lines : List (String × PatternLine × List Token)}
    (hscope : Builds names texts scope) (hnames : lines.map Prod.fst = names.drop scope.length)
    (htexts : lines.map (fun l => l.2.2) = texts.drop scope.length) :
    (∃ full, resolve names (graphOf names texts) scope lines = .ok full ∧
      Builds names texts full ∧ full.length = names.length) ∨
    ∃ k name line tokens fault, lines[k]? = some (name, line, tokens) ∧
      FirstFault names texts (scope.length + k) tokens fault ∧
      resolve names (graphOf names texts) scope lines = .error (line.error name fault) := by
  induction lines generalizing scope with
  | nil =>
    have hlength : scope.length = names.length :=
      hscope.length_le.antisymm (List.drop_eq_nil_iff.1 hnames.symm)
    exact .inl ⟨scope, rfl, hscope, hlength⟩
  | cons first lines ih =>
    obtain ⟨name, line, tokens⟩ := first
    obtain ⟨hname, hnames⟩ := exists_of_cons_eq_drop hnames
    obtain ⟨htokens, htexts⟩ := exists_of_cons_eq_drop htexts
    rcases h.resolve_cons hscope htokens lines with ⟨e, hparse, hresolve⟩ | ⟨fault, hfault, herror⟩
    · rw [hresolve]
      rcases ih (hscope.cons hname htokens hparse) hnames htexts with
        hfull | ⟨k, name, line, tokens, fault, hline, hfault, herror⟩
      · exact .inl hfull
      · rw [List.length_cons, Nat.add_assoc, Nat.add_comm 1] at hfault
        exact .inr ⟨k + 1, name, line, tokens, fault, hline, hfault, herror⟩
    · exact .inr ⟨0, name, line, tokens, fault, rfl, hfault, herror⟩

end Tokenized

end Definition

end Acceptors.Regex
