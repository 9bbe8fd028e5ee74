import Acceptors.Proofs.Regex.Characters
import Acceptors.Proofs.Regex.Syntax
import Acceptors.Regex.Definition

/-! The patterns that are read, and what they are read as. Frames on the stack are groups that are
open, and a star finds something to repeat after the end of an item, so tokens are read as an
expression exactly when parentheses match and every star has an item before it. -/

namespace Acceptors.Regex

open Token (Kind)

namespace Pattern

/-- A token that an item ends with, so that a star can come after it. -/
def IsItemEnd : Kind → Prop
  | .symbol _ | .name _ | .closing | .star => True
  | .opening | .bar => False

def EndsInItem (ks : List Kind) : Prop := ∃ k ∈ ks.getLast?, IsItemEnd k

/-- What has to hold of the tokens of a pattern from a place on; `before` are those in front of
it. -/
structure Readable (scope : Scope) (before rest : List Kind) : Prop where
  defined : ∀ text, .name text ∈ rest → (scope.lookup text).isSome
  nested : ∀ ks₁ ks₂, rest = ks₁ ++ ks₂ →
    (before ++ ks₁).count .closing ≤ (before ++ ks₁).count .opening
  matched : (before ++ rest).count .closing = (before ++ rest).count .opening
  repeated : ∀ ks₁ ks₂, rest = ks₁ ++ .star :: ks₂ → EndsInItem (before ++ ks₁)

variable {scope : Scope} {before rest : List Kind} {k : Kind} {tokens : List Token} {f : Frame}
  {stack : List (Nat × Frame)}

theorem endsInItem_concat : EndsInItem (before ++ [k]) ↔ IsItemEnd k := by
  simp [EndsInItem]

theorem readable_nil :
    Readable scope before [] ↔ before.count .closing = before.count .opening := by
  constructor
  · intro h
    have hmatched := h.matched
    rwa [List.append_nil] at hmatched
  · intro h
    refine ⟨fun _ hmem => absurd hmem List.not_mem_nil, ?_, ?_, ?_⟩
    · intro ks₁ ks₂ hnil
      obtain ⟨rfl, -⟩ := List.append_eq_nil_iff.1 hnil.symm
      rw [List.append_nil]
      exact h.le
    · rwa [List.append_nil]
    · intro ks₁ ks₂ hnil
      cases (List.append_eq_nil_iff.1 hnil.symm).2

theorem readable_cons (hbefore : before.count .closing ≤ before.count .opening) :
    Readable scope before (k :: rest) ↔ (∀ text, k = .name text → (scope.lookup text).isSome) ∧
      (k = .star → EndsInItem before) ∧ Readable scope (before ++ [k]) rest := by
  constructor
  · intro h
    refine ⟨fun text hk => h.defined text (hk ▸ List.mem_cons_self), ?_, ?_, ?_, ?_, ?_⟩
    · rintro rfl
      have hrepeated := h.repeated [] rest rfl
      rwa [List.append_nil] at hrepeated
    · exact fun text hmem => h.defined text (List.mem_cons_of_mem k hmem)
    · rintro ks₁ ks₂ rfl
      rw [← List.append_cons]
      exact h.nested (k :: ks₁) ks₂ rfl
    · rw [← List.append_cons]
      exact h.matched
    · rintro ks₁ ks₂ rfl
      rw [← List.append_cons]
      exact h.repeated (k :: ks₁) ks₂ rfl
  · rintro ⟨hname, hstar, h⟩
    refine ⟨?_, ?_, ?_, ?_⟩
    · intro text hmem
      rcases List.mem_cons.1 hmem with hk | hmem
      · exact hname text hk.symm
      · exact h.defined text hmem
    · intro ks₁ ks₂ hks
      rcases List.cons_eq_append_iff.1 hks with ⟨rfl, -⟩ | ⟨ks₁, rfl, rfl⟩
      · rwa [List.append_nil]
      · rw [List.append_cons]
        exact h.nested ks₁ ks₂ rfl
    · rw [List.append_cons]
      exact h.matched
    · intro ks₁ ks₂ hks
      rcases List.cons_eq_append_iff.1 hks with ⟨rfl, hk⟩ | ⟨ks₁, rfl, rfl⟩
      · rw [List.append_nil]
        exact hstar (List.cons.inj hk).1.symm
      · rw [List.append_cons]
        exact h.repeated ks₁ ks₂ rfl

/-- The frames after the tokens `before`: one on the stack for each group that is open, and
something to repeat in the current one exactly after the end of an item. -/
structure Tracks (before : List Kind) (f : Frame) (stack : List (Nat × Frame)) : Prop where
  depth : before.count .closing + stack.length = before.count .opening
  items : f.items ≠ [] ↔ EndsInItem before

namespace Tracks

theorem start : Tracks [] .empty [] where
  depth := rfl
  items := by simp [Frame.empty, EndsInItem]

theorem next {g : Frame} {stack' : List (Nat × Frame)} (h : Tracks before f stack) (k : Kind)
    (hdepth : stack'.length + [k].count .closing = stack.length + [k].count .opening)
    (hitems : g.items ≠ [] ↔ IsItemEnd k) : Tracks (before ++ [k]) g stack' where
  depth := by
    have hbefore := h.depth
    rw [List.count_append, List.count_append]
    omega
  items := hitems.trans endsInItem_concat.symm

theorem nested (h : Tracks before f stack) : before.count .closing ≤ before.count .opening := by
  have hdepth := h.depth
  omega

/-- Reading succeeds exactly where the rest of the tokens fits what was in front of it. -/
theorem read_ok_iff (h : Tracks before f stack) :
    (∃ e, read scope tokens f stack = .ok e) ↔ Readable scope before (tokens.map Token.kind) := by
  have hitem : ∀ {g : Frame} {e : Expr} {items : List Expr} {k : Kind}, g.items = e :: items →
      IsItemEnd k → (g.items ≠ [] ↔ IsItemEnd k) := by
    intro g e items k hg hk
    exact iff_of_true (hg ▸ List.cons_ne_nil e items) hk
  -- A token that is read belongs to `before` from then on; one that is not breaks what `Readable`
  -- asks of it.
  fun_induction read scope tokens f stack generalizing before with
  | case1 f => exact iff_of_true ⟨f.close, rfl⟩ (readable_nil.2 h.depth)
  | case2 f offset outer stack =>
    refine iff_of_false (not_exists_error_eq_ok _) fun hread => ?_
    have hmatched := readable_nil.1 hread
    have hdepth := h.depth
    rw [List.length_cons] at hdepth
    omega
  | case3 offset tokens f stack c ih =>
    refine (ih (h.next (.symbol c) rfl (hitem rfl trivial))).trans ?_
    rw [List.map_cons, readable_cons h.nested]
    simp
  | case4 offset tokens f stack text target htext ih =>
    refine (ih (h.next (.name text) rfl (hitem rfl trivial))).trans ?_
    rw [List.map_cons, readable_cons h.nested]
    have hdefined : ∀ name, Kind.name text = .name name → (scope.lookup name).isSome := by
      intro name hname
      cases hname
      rw [htext]
      rfl
    simp only [reduceCtorEq, false_implies, true_and]
    exact (and_iff_right hdefined).symm
  | case5 offset tokens f stack text htext =>
    refine iff_of_false (not_exists_error_eq_ok _) fun hread => ?_
    have hdefined := hread.defined text List.mem_cons_self
    rw [htext] at hdefined
    cases hdefined
  | case6 offset tokens f stack ih =>
    refine (ih (h.next .opening rfl (by simp [Frame.empty, IsItemEnd]))).trans ?_
    rw [List.map_cons, readable_cons h.nested]
    simp
  | case7 offset tokens f =>
    refine iff_of_false (not_exists_error_eq_ok _) fun hread => ?_
    have hnested := hread.nested [.closing] (tokens.map Token.kind) rfl
    rw [List.count_append, List.count_append] at hnested
    have hone : [Kind.closing].count .closing = 1 ∧ [Kind.closing].count .opening = 0 := ⟨rfl, rfl⟩
    have hdepth := h.depth
    rw [List.length_nil] at hdepth
    omega
  | case8 offset tokens f _ outer stack ih =>
    refine (ih (h.next .closing rfl (hitem rfl trivial))).trans ?_
    rw [List.map_cons, readable_cons h.nested]
    simp
  | case9 offset tokens f stack ih =>
    refine (ih (h.next .bar rfl (by simp [Frame.branch, IsItemEnd]))).trans ?_
    rw [List.map_cons, readable_cons h.nested]
    simp
  | case10 offset tokens f stack hnil =>
    refine iff_of_false (not_exists_error_eq_ok _) fun hread => ?_
    have hends := hread.repeated [] (tokens.map Token.kind) rfl
    rw [List.append_nil] at hends
    exact h.items.2 hends hnil
  | case11 offset tokens f stack e items hcons ih =>
    refine (ih (h.next .star rfl (hitem rfl trivial))).trans ?_
    rw [List.map_cons, readable_cons h.nested]
    have hends : EndsInItem before := h.items.1 (hcons ▸ List.cons_ne_nil e items)
    simp [hends]

end Tracks

theorem exists_union_iff {ks : List Kind} : (∃ e, Union scope ks e) ↔ Readable scope [] ks := by
  obtain ⟨tokens, rfl⟩ := exists_tokens ks
  exact (exists_congr fun e => parse_eq_ok_iff.symm).trans Tracks.start.read_ok_iff

/-- The run of backslashes at the end is even, parentheses that are not escaped are balanced, and
what comes before a star that is not escaped, blanks aside, is a symbol, a closing parenthesis or a
star. -/
structure WellFormed (text : List Char) : Prop where
  complete : backslashes text % 2 = 0
  nested : ∀ before after, text = before ++ after →
    (kinds [] before).count .closing ≤ (kinds [] before).count .opening
  matched : (kinds [] text).count .closing = (kinds [] text).count .opening
  repeated : ∀ before after, text = before ++ '*' :: after → ¬Escapes before →
    EndsInItem (kinds [] before)

theorem not_escapes_iff {text : List Char} : ¬Escapes text ↔ backslashes text % 2 = 0 :=
  Nat.mod_two_ne_one

theorem wellFormed_iff {text : List Char} :
    WellFormed text ↔ ¬Escapes text ∧ Readable [] [] (kinds [] text) := by
  constructor
  · intro h
    refine ⟨not_escapes_iff.2 h.complete, ?_, ?_, h.matched, ?_⟩
    · exact fun name hmem => absurd hmem (name_notMem_kinds [] text name)
    · intro ks₁ ks₂ hks
      cases ks₂ with
      | nil =>
        rw [List.append_nil] at hks
        rw [List.nil_append, ← hks]
        exact h.matched.le
      | cons k ks₂ =>
        obtain ⟨before, c, after, htext, -, rfl⟩ := exists_of_kinds_eq hks
        exact h.nested before (c :: after) htext
    · intro ks₁ ks₂ hks
      obtain ⟨before, c, after, htext, hstar, rfl⟩ := exists_of_kinds_eq hks
      obtain ⟨hbefore, rfl⟩ := kindAt_eq_star_iff.1 hstar
      exact h.repeated before after htext hbefore
  · rintro ⟨hescapes, h⟩
    refine ⟨not_escapes_iff.1 hescapes, ?_, h.matched, ?_⟩
    · rintro before after rfl
      exact h.nested (kinds [] before) (kinds before after) (kinds_append [] before after)
    · rintro before after rfl hbefore
      refine h.repeated (kinds [] before) (kinds (before ++ ['*']) after) ?_
      have hstar := kindAt_eq_star_iff.2 ⟨hbefore, rfl⟩
      rw [kinds_append, kinds, List.nil_append, hstar]
      rfl

end Pattern

theorem ofPattern_eq_ok_iff {p : String} {r : Regex} : ofPattern p = .ok r ↔
    ¬Pattern.Escapes p.toList ∧ ∃ e, Pattern.Union [] (Pattern.kinds [] p.toList) e ∧
    ofExpr [] e = r := by
  have hbuild : ofPattern p =
      (do
        let tokens ← Definition.tokensOf [] "pattern" (.ofText p)
        let e ← (Pattern.parse [] tokens).mapError ((PatternLine.ofText p).error "pattern")
        return ofExpr [] e) := rfl
  have hsteps : ofPattern p = .ok r ↔ ∃ tokens, Token.tokenize [] p.toList = .ok tokens ∧
      ∃ e, Pattern.parse [] tokens = .ok e ∧ ofExpr [] e = r := by
    rw [hbuild, bind_eq_ok_iff]
    refine exists_congr fun tokens => and_congr mapError_eq_ok_iff ?_
    rw [bind_eq_ok_iff]
    exact exists_congr fun e => and_congr mapError_eq_ok_iff ⟨Except.ok.inj, congrArg Except.ok⟩
  rw [hsteps]
  rcases Token.tokenize_spec p.toList with ⟨hescapes, fault, hfault⟩ | ⟨hescapes, tokens,
    htokens, hkinds⟩
  · simp [hfault, hescapes]
  · simp [htokens, hescapes, ← hkinds, Pattern.parse_eq_ok_iff]

/-- A pattern is read exactly when it is well-formed, as the one expression that the grammar derives
from its tokens, and with its symbols for literals. -/
theorem ofPattern_reads_grammar (p : String) :
    ((∃ r, ofPattern p = .ok r) ↔ Pattern.WellFormed p.toList) ∧
    ∀ r, ofPattern p = .ok r →
      (∀ e, Pattern.Union [] (Pattern.kinds [] p.toList) e ↔ e = r.expr) ∧
      r.expr.literals = Pattern.symbolsOf (Pattern.kinds [] p.toList) := by
  constructor
  · rw [Pattern.wellFormed_iff, ← Pattern.exists_union_iff]
    constructor
    · rintro ⟨r, hr⟩
      obtain ⟨hescapes, e, he, -⟩ := ofPattern_eq_ok_iff.1 hr
      exact ⟨hescapes, e, he⟩
    · rintro ⟨hescapes, e, he⟩
      exact ⟨_, ofPattern_eq_ok_iff.2 ⟨hescapes, e, he, rfl⟩⟩
  · intro r hr
    obtain ⟨-, e, he, rfl⟩ := ofPattern_eq_ok_iff.1 hr
    refine ⟨fun e' => ⟨fun he' => he'.unique he, ?_⟩, he.literals⟩
    rintro rfl
    exact he

theorem ofPattern_reads_grammar_starredGroup :
    ∃ r, ofPattern "a\\*(b| )* *|()" = .ok r ∧ Pattern.WellFormed "a\\*(b| )* *|()".toList ∧
      r.expr = .union
        [.concat [.literal 'a', .literal '*', .star (.star (.union [.literal 'b', .empty]))],
          .empty] ∧
      Pattern.Union [] (Pattern.kinds [] "a\\*(b| )* *|()".toList) r.expr ∧
      r.expr.literals = ['a', '*', 'b'] := by
  have hread : (ofPattern "a\\*(b| )* *|()").map Regex.expr = .ok (.union
      [.concat [.literal 'a', .literal '*', .star (.star (.union [.literal 'b', .empty]))],
        .empty]) := by
    decide +kernel
  have hsymbols : Pattern.symbolsOf (Pattern.kinds [] "a\\*(b| )* *|()".toList) =
      ['a', '*', 'b'] := by
    decide +kernel
  obtain ⟨r, hr, hexpr⟩ := map_eq_ok_iff.1 hread
  obtain ⟨hreads, hgrammar⟩ := ofPattern_reads_grammar "a\\*(b| )* *|()"
  obtain ⟨hunion, hliterals⟩ := hgrammar r hr
  exact ⟨r, hr, hreads.1 ⟨r, hr⟩, hexpr, (hunion r.expr).2 rfl, hliterals.trans hsymbols⟩

end Acceptors.Regex
