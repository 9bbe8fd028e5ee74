import Acceptors.Proofs.Regex.Build
import Acceptors.Proofs.Regex.Display

/-! Definitions written out again. What each binding and the pattern of a built definition are
printed as makes a definition of its own. Where no name takes a part of these texts that was meant
as something else, it is built, and matches the same words. -/

namespace Acceptors.Regex

open Token (Kind)

def redisplayed (r : Regex) : Definition :=
  ⟨r.bindings.map fun (name, e) => (name, .ofText e.display), .ofText r.expr.display⟩

theorem names_redisplayed (r : Regex) : r.redisplayed.names = r.bindings.map Prod.fst := by
  rw [redisplayed, Definition.names, List.map_map]
  rfl

namespace Pattern

variable {names : List String} {scope scope' : Scope} {ks : List Kind} {e p : Expr} {name : String}
  {target : Expr}

def Findable (names : List String) (p : Expr) : Prop :=
  ∀ name target, p = .reference name target → Token.IsFindable names name

theorem Union.findable (h : Union scope ks e)
    (hks : ∀ name, .name name ∈ ks → Token.IsFindable names name)
    (hscope : ∀ b ∈ scope, ∀ p ∈ b.2.parts, Findable names p) :
    ∀ p ∈ e.parts, Findable names p := by
  refine h.forall_parts ?_ fun name target hname hlookup => ?_
  · rintro _ _ hreference name target rfl
    cases hreference
  · obtain ⟨l₁, l₂, rfl, -⟩ := List.lookup_eq_some_iff.1 hlookup
    rw [Expr.parts, List.forall_mem_cons]
    refine ⟨?_, hscope (name, target) (List.mem_append_right l₁ List.mem_cons_self)⟩
    rintro _ _ ⟨⟩
    exact hks name hname

def SameLanguages (scope scope' : Scope) : Prop :=
  List.Forall₂ (fun b b' => b'.1 = b.1 ∧ b'.2.language = b.2.language) scope scope'

theorem SameLanguages.lookup (h : SameLanguages scope scope')
    (hlookup : scope.lookup name = some target) :
    ∃ given, scope'.lookup name = some given ∧ given.language = target.language := by
  induction h with
  | nil => cases hlookup
  | @cons b b' scope scope' hb _ ih =>
    obtain ⟨name', e⟩ := b
    obtain ⟨fst, e'⟩ := b'
    obtain rfl : name' = fst := hb.1.symm
    rw [List.lookup_cons] at hlookup ⊢
    cases hname : name == name' with
    | true =>
      rw [hname] at hlookup
      cases hlookup
      exact ⟨e', rfl, hb.2⟩
    | false =>
      rw [hname] at hlookup
      exact ih hlookup

theorem Agrees.renders (h : Agrees scope p) (hsame : SameLanguages scope scope') :
    Renders scope' p :=
  ⟨h.1, fun name target hp => hsame.lookup (h.2 name target hp)⟩

end Pattern

namespace Definition

variable {names : List String} {texts : List (List Token)} {scope scope' : Pattern.Scope}
    {tokens : List Token} {e : Expr}

theorem Builds.append (h : Builds names texts scope) (more : List (List Token)) :
    Builds names (texts ++ more) scope := by
  induction h with
  | nil => exact .nil
  | cons _ hname htokens hparse ih =>
    have hlt := (List.getElem?_eq_some_iff.1 htokens).1
    exact ih.cons hname ((List.getElem?_append_left hlt).trans htokens) hparse

theorem Builds.findable (h : Tokenized names texts) (hscope : Builds names texts scope) :
    ∀ b ∈ scope, ∀ p ∈ b.2.parts, Pattern.Findable names p := by
  induction hscope with
  | nil => exact List.forall_mem_nil _
  | cons _ _ htokens hparse ih =>
    rw [List.forall_mem_cons]
    have hnames := h.isFindable _ (List.mem_of_getElem? htokens)
    exact ⟨(Pattern.parse_eq_ok_iff.1 hparse).findable hnames ih, ih⟩

theorem Builds.exists_read_display (h : Tokenized names texts) (hscope : Builds names texts scope)
    (hsame : Pattern.SameLanguages scope scope')
    (hnames : ∀ name, .name name ∈ tokens.map Token.kind → Token.IsFindable names name)
    (hparse : Pattern.parse scope tokens = .ok e) (hlegible : Legible names e.printed) :
    ∃ tokens' e', Token.tokenize names e.display.toList = .ok tokens' ∧
      Pattern.parse scope' tokens' = .ok e' ∧ e'.language = e.language := by
  have hunion := Pattern.parse_eq_ok_iff.1 hparse
  have hfindable := hunion.findable hnames (hscope.findable h)
  have hagrees := hunion.agrees (hscope.closed h.nodup)
  obtain ⟨tokens', htokens', hkinds⟩ := Pattern.exists_tokenize_display hlegible
    fun name target hreference => hfindable _ hreference name target rfl
  obtain ⟨e', hparse', hlanguage⟩ :=
    Pattern.exists_parse_of_printed hkinds fun p hp => (hagrees p hp).renders hsame
  exact ⟨tokens', e', htokens', hparse', hlanguage⟩

theorem Builds.exists_redisplayed (h : Tokenized names texts) (hscope : Builds names texts scope)
    (hlegible : ∀ b ∈ scope, Legible names b.2.printed) :
    ∃ texts' scope', List.Forall₂ (fun b tokens =>
      Token.tokenize names b.2.display.toList = .ok tokens)
      scope.reverse texts' ∧ Builds names texts' scope' ∧ Pattern.SameLanguages scope scope' := by
  induction hscope with
  | nil => exact ⟨[], [], .nil, .nil, .nil⟩
  | @cons scope name tokens e hscope hname htokens hparse ih =>
    rw [List.forall_mem_cons] at hlegible
    obtain ⟨texts', scope', htexts', hscope', hsame⟩ := ih hlegible.2
    obtain ⟨tokens', e', htokens', hparse', hlanguage⟩ := hscope.exists_read_display h hsame
      (h.isFindable _ (List.mem_of_getElem? htokens)) hparse hlegible.1
    have hlength : scope'.length = scope.length := hsame.length_eq.symm
    have hplace : (texts' ++ [tokens'])[scope'.length]? = some tokens' := by
      rw [hlength, ← List.length_reverse, htexts'.length_eq, List.getElem?_concat_length]
    refine ⟨texts' ++ [tokens'], (name, e') :: scope', ?_, ?_, .cons ⟨rfl, hlanguage⟩ hsame⟩
    · rw [List.reverse_cons]
      exact List.rel_append htexts' (.cons htokens' .nil)
    · exact (hscope'.append [tokens']).cons (hlength ▸ hname) hplace hparse'

end Definition

/-- A definition that is built matches the same words as the one that it is printed as, as long as
no name is found in the printed texts where another token was meant. -/
theorem redisplayed_accepts (d : Definition) (r : Regex) (hr : d.build = .ok r)
    (hlegible : ∀ e ∈ r.expr :: r.bindings.map Prod.snd, Legible d.names e.printed) :
    ∃ r', r.redisplayed.build = .ok r' ∧ r'.bindings.map Prod.fst = r.bindings.map Prod.fst ∧
      ∀ w, r'.accepts w = r.accepts w := by
  obtain ⟨hnames, texts, htexts, scope, hscope, hlength, hfinish⟩ := Definition.build_eq_ok_iff.1 hr
  have htokenized := htexts.tokenized hnames
  have hsameNames : r.redisplayed.names = d.names :=
    (names_redisplayed r).trans (Definition.map_fst_of_finish hscope hlength hfinish)
  obtain ⟨tokens, htokens, e, hparse, rfl⟩ := Definition.finish_eq_ok_iff.1 hfinish
  rw [List.forall_mem_cons] at hlegible
  obtain ⟨texts', scope', htexts', hscope', hsame⟩ :=
    hscope.exists_redisplayed htokenized fun b hb =>
    hlegible.2 b.2 (List.mem_map_of_mem (List.mem_reverse.2 hb))
  obtain ⟨tokens', e', htokens', hparse', hlanguage⟩ := hscope.exists_read_display htokenized hsame
    (fun name => (Token.tokenize_eq_ok_iff.1 htokens).isFindable) hparse hlegible.1
  have hread : (redisplayed (ofExpr scope.reverse e)).Tokenizes texts' := by
    rw [Definition.Tokenizes, hsameNames, redisplayed, List.forall₂_map_left_iff]
    exact htexts'
  have hbuilds : Definition.Builds (redisplayed (ofExpr scope.reverse e)).names texts' scope' :=
    hsameNames ▸ hscope'
  have hall : scope'.length = (redisplayed (ofExpr scope.reverse e)).names.length := by
    rw [hsameNames, ← hlength]
    exact hsame.length_eq.symm
  have hfinish' : (redisplayed (ofExpr scope.reverse e)).finish scope' =
      .ok (ofExpr scope'.reverse e') := by
    refine Definition.finish_eq_ok_iff.2 ⟨tokens', ?_, e', hparse', rfl⟩
    rw [hsameNames]
    exact htokens'
  refine ⟨_, Definition.build_eq_ok_iff.2 ⟨hsameNames ▸ hnames, texts', hread, scope', hbuilds,
    hall, hfinish'⟩, ?_,
    accepts_congr hlanguage _ _⟩
  exact (Definition.map_fst_of_finish hbuilds hall hfinish').trans (names_redisplayed _)

theorem redisplayed_accepts_starredGroup :
    let d : Definition := ⟨[("X", .ofText "a | b"), ("Y", .ofText "(X c)*")], .ofText "d(Y\\ )X*"⟩
    ∃ r r', d.build = .ok r ∧ r.expr.display = "dY \\ X*" ∧ r.redisplayed.build = .ok r' ∧
      r'.accepts "dbc ab".toList = true ∧ r'.accepts "dbab".toList = false := by
  intro d
  have hbuild : d.build.map (fun r =>
      (decide (∀ e ∈ r.expr :: r.bindings.map Prod.snd, Legible d.names e.printed), r.expr.display,
        r.accepts "dbc ab".toList, r.accepts "dbab".toList)) = .ok (true, "dY \\ X*",
        true, false) := by
    decide +kernel
  obtain ⟨r, hr, hparts⟩ := map_eq_ok_iff.1 hbuild
  obtain ⟨hlegible, hdisplay, haccepted, hrejected⟩ := by simpa only [Prod.mk.injEq] using hparts
  obtain ⟨r', hr', -, haccepts⟩ := redisplayed_accepts d r hr (of_decide_eq_true hlegible)
  exact ⟨r, r', hr, hdisplay, hr', (haccepts _).trans haccepted, (haccepts _).trans hrejected⟩

/-- A name at the end of a group runs together with the symbol after it, as the group is printed
without parentheses, and another name is read. -/
theorem exists_redisplayed_differs :
    let d : Definition := ⟨[("X", .ofText "a"), ("Xb", .ofText "c")], .ofText "(d X) b"⟩
    ∃ r r', d.build = .ok r ∧ r.expr.display = "d Xb" ∧ r.redisplayed.build = .ok r' ∧
      r.accepts "dab".toList = true ∧ r'.accepts "dab".toList = false := by
  intro d
  have hbuild : d.build.map (fun r => (r.expr.display, r.accepts "dab".toList,
      r.redisplayed.build.map fun r' => r'.accepts "dab".toList)) = .ok ("d Xb", true,
      .ok false) := by
    decide +kernel
  obtain ⟨r, hr, hparts⟩ := map_eq_ok_iff.1 hbuild
  obtain ⟨hdisplay, haccepted, hagain⟩ := by simpa only [Prod.mk.injEq] using hparts
  obtain ⟨r', hr', hrejected⟩ := map_eq_ok_iff.1 hagain
  exact ⟨r, r', hr, hdisplay, hr', haccepted, hrejected⟩

end Acceptors.Regex
