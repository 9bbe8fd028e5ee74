import Mathlib.Tactic.Common
import Acceptors.Regex.Pattern

/-! The grammar of patterns. A sequence of tokens is read as an expression exactly when the grammar
derives it, and there is one such expression at most.

union  ::= concat ("|" concat)* concat ::= repeat* repeat ::= atom "*"* atom   ::= SYMBOL | NAME |
"(" union ")" -/

namespace Acceptors.Regex.Pattern

open Token (Kind)

mutual

inductive Atom (scope : Scope) : List Kind → Expr → Prop
  | symbol (c : Char) : Atom scope [.symbol c] (.literal c)
  | name {text : String} {target : Expr} (h : scope.lookup text = some target) :
    Atom scope [.name text] (.reference text target)
  | group {ks : List Kind} {e : Expr} (h : Union scope ks e) :
    Atom scope (.opening :: (ks ++ [.closing])) e

inductive Repeat (scope : Scope) : List Kind → Expr → Prop
  | atom {ks : List Kind} {e : Expr} (h : Atom scope ks e) : Repeat scope ks e
  | star {ks : List Kind} {e : Expr} (h : Repeat scope ks e) :
    Repeat scope (ks ++ [.star]) (.star e)

inductive Items (scope : Scope) : List Kind → List Expr → Prop
  | nil : Items scope [] []
  | snoc {ks ks' : List Kind} {items : List Expr} {e : Expr} (h : Items scope ks items)
    (he : Repeat scope ks' e) : Items scope (ks ++ ks') (items ++ [e])

inductive Concat (scope : Scope) : List Kind → Expr → Prop
  | empty : Concat scope [] .empty
  | single {ks : List Kind} {e : Expr} (h : Repeat scope ks e) : Concat scope ks e
  | items {ks : List Kind} {items : List Expr} (h : Items scope ks items)
    (hmany : 2 ≤ items.length) : Concat scope ks (.concat items)

inductive Branches (scope : Scope) : List Kind → List Expr → Prop
  | single {ks : List Kind} {e : Expr} (h : Concat scope ks e) : Branches scope ks [e]
  | snoc {ks ks' : List Kind} {branches : List Expr} {e : Expr} (h : Branches scope ks branches)
    (he : Concat scope ks' e) : Branches scope (ks ++ .bar :: ks') (branches ++ [e])

inductive Union (scope : Scope) : List Kind → Expr → Prop
  | single {ks : List Kind} {e : Expr} (h : Concat scope ks e) : Union scope ks e
  | branches {ks : List Kind} {branches : List Expr} (h : Branches scope ks branches)
    (hmany : 2 ≤ branches.length) : Union scope ks (.union branches)

end

variable {scope : Scope} {ks ks' : List Kind} {e : Expr} {items branches : List Expr} {f g : Frame}
  {tokens : List Token} {stack : List (Nat × Frame)}

/-! ### What the grammar derives is read -/

/-- Reading takes one frame to another, whatever follows and whatever is around it. -/
def Reads (scope : Scope) (ks : List Kind) (f g : Frame) : Prop :=
  ∀ tokens : List Token, tokens.map Token.kind = ks → ∀ rest stack,
    read scope (tokens ++ rest) f stack = read scope rest g stack

namespace Reads

theorem nil (f : Frame) : Reads scope [] f f := by
  intro tokens htokens rest stack
  rw [List.map_eq_nil_iff.1 htokens]
  rfl

theorem append {m : Frame} (h : Reads scope ks f m) (h' : Reads scope ks' m g) :
    Reads scope (ks ++ ks') f g := by
  intro tokens htokens rest stack
  obtain ⟨left, right, rfl, hleft, hright⟩ := List.map_eq_append_iff.1 htokens
  rw [List.append_assoc, h left hleft, h' right hright]

theorem of_token {k : Kind} (h : ∀ offset rest stack,
    read scope (⟨k, offset⟩ :: rest) f stack = read scope rest g stack) : Reads scope [k] f g := by
  intro tokens htokens rest stack
  obtain ⟨⟨k, offset⟩, rfl, rfl⟩ := List.map_eq_singleton_iff.1 htokens
  exact h offset rest stack

theorem symbol (c : Char) (f : Frame) : Reads scope [.symbol c] f (f.push (.literal c)) :=
  of_token fun _ _ _ => by rw [read]

theorem name {text : String} {target : Expr} (h : scope.lookup text = some target) (f : Frame) :
    Reads scope [.name text] f (f.push (.reference text target)) :=
  of_token fun _ _ _ => by rw [read, h]

theorem bar (f : Frame) : Reads scope [.bar] f f.branch :=
  of_token fun _ _ _ => by rw [read]

theorem star (e : Expr) (f : Frame) : Reads scope [.star] (f.push e) (f.push (.star e)) :=
  of_token fun _ _ _ => by rw [read]; rfl

theorem group (h : Reads scope ks .empty g) (f : Frame) :
    Reads scope (.opening :: (ks ++ [.closing])) f (f.push g.close) := by
  intro tokens htokens rest stack
  obtain ⟨⟨_, offset⟩, inner, rfl, rfl, hinner⟩ := List.map_eq_cons_iff.1 htokens
  obtain ⟨body, last, rfl, hbody, hlast⟩ := List.map_eq_append_iff.1 hinner
  obtain ⟨⟨_, offset'⟩, rfl, rfl⟩ := List.map_eq_singleton_iff.1 hlast
  rw [List.cons_append, read, List.append_assoc, h body hbody, List.singleton_append, read]

end Reads

theorem concatOf_of_two_le (h : 2 ≤ items.length) : concatOf items = .concat items := by
  match items with
  | _ :: _ :: _ => rfl

theorem unionOf_of_two_le (h : 2 ≤ branches.length) : unionOf branches = .union branches := by
  match branches with
  | _ :: _ :: _ => rfl

mutual

theorem Atom.reads : ∀ {ks e}, Atom scope ks e → ∀ f, Reads scope ks f (f.push e)
  | _, _, .symbol c, f => .symbol c f
  | _, _, .name h, f => .name h f
  | _, _, .group h, f => by
    obtain ⟨g, hg, rfl⟩ := h.reads
    exact hg.group f

theorem Repeat.reads : ∀ {ks e}, Repeat scope ks e → ∀ f, Reads scope ks f (f.push e)
  | _, _, .atom h, f => h.reads f
  | _, _, .star h, f => (h.reads f).append (.star _ f)

theorem Items.reads : ∀ {ks items}, Items scope ks items → ∀ branches,
    Reads scope ks ⟨branches, []⟩ ⟨branches, items.reverse⟩
  | _, _, .nil, _ => .nil _
  | _, _, .snoc h he, branches => by
    rw [List.reverse_append]
    exact (h.reads branches).append (he.reads _)

theorem Concat.reads : ∀ {ks e}, Concat scope ks e → ∀ branches,
    ∃ items, Reads scope ks ⟨branches, []⟩ ⟨branches, items⟩ ∧ concatOf items.reverse = e
  | _, _, .empty, _ => ⟨[], .nil _, rfl⟩
  | _, _, .single h, branches => ⟨_, h.reads ⟨branches, []⟩, rfl⟩
  | _, _, .items h hmany, branches =>
    ⟨_, h.reads branches, by rw [List.reverse_reverse, concatOf_of_two_le hmany]⟩

theorem Branches.reads : ∀ {ks branches}, Branches scope ks branches →
    ∃ g, Reads scope ks .empty g ∧ g.branch.branches.reverse = branches
  | _, _, .single h => by
    obtain ⟨items, hitems, rfl⟩ := h.reads []
    exact ⟨_, hitems, rfl⟩
  | _, _, .snoc h he => by
    obtain ⟨g, hg, rfl⟩ := h.reads
    obtain ⟨items, hitems, rfl⟩ := he.reads g.branch.branches
    have hreads := (hg.append (.bar g)).append hitems
    rw [List.append_assoc] at hreads
    refine ⟨_, hreads, ?_⟩
    simp only [Frame.branch, List.reverse_cons]

theorem Union.reads : ∀ {ks e}, Union scope ks e → ∃ g, Reads scope ks .empty g ∧ g.close = e
  | _, _, .single h => by
    obtain ⟨items, hitems, rfl⟩ := h.reads []
    exact ⟨_, hitems, rfl⟩
  | _, _, .branches h hmany => by
    obtain ⟨g, hg, rfl⟩ := h.reads
    exact ⟨g, hg, unionOf_of_two_le hmany⟩

end

theorem parse_of_union (h : Union scope (tokens.map Token.kind) e) :
    parse scope tokens = .ok e := by
  obtain ⟨g, hg, rfl⟩ := h.reads
  have hread := hg tokens rfl [] []
  rw [List.append_nil] at hread
  rw [parse, hread, read]

/-! ### What is read, the grammar derives -/

theorem Items.of_nil (h : Items scope ks items) (hitems : items = []) : ks = [] := by
  cases h with
  | nil => rfl
  | snoc _ _ => simp at hitems

theorem Items.of_snoc (h : Items scope ks items) {front : List Expr}
    (hitems : items = front ++ [e]) :
    ∃ ks₁ ks₂, ks = ks₁ ++ ks₂ ∧ Items scope ks₁ front ∧ Repeat scope ks₂ e := by
  cases h with
  | nil => simp at hitems
  | snoc h he =>
    obtain ⟨rfl, rfl⟩ := List.append_singleton_inj.1 hitems
    exact ⟨_, _, rfl, h, he⟩

theorem Items.concat (h : Items scope ks items) : Concat scope ks (concatOf items) := by
  match items, h with
  | [], h =>
    rw [h.of_nil rfl]
    exact .empty
  | [e], h =>
    obtain ⟨_, ks, rfl, hnil, he⟩ := h.of_snoc (List.nil_append [e]).symm
    rw [hnil.of_nil rfl]
    exact .single he
  | first :: second :: items, h =>
    exact .items h (by simp)

theorem Items.star_last {front : List Expr} (h : Items scope ks front)
    (hfront : front.reverse = e :: items) :
    Items scope (ks ++ [.star]) (items.reverse ++ [.star e]) := by
  obtain ⟨ks₁, ks₂, rfl, hitems, he⟩ := h.of_snoc (List.reverse_eq_cons_iff.1 hfront)
  rw [List.append_assoc]
  exact hitems.snoc he.star

theorem Branches.ne_nil (h : Branches scope ks branches) : branches ≠ [] := by
  cases h <;> simp

theorem Branches.of_single (h : Branches scope ks branches) (hbranches : branches = [e]) :
    Concat scope ks e := by
  cases h with
  | single h =>
    obtain rfl := List.singleton_inj.1 hbranches
    exact h
  | snoc h _ =>
    obtain ⟨hnil, -⟩ := List.append_singleton_inj.1 (hbranches.trans (List.nil_append [e]).symm)
    exact absurd hnil h.ne_nil

theorem Branches.union (h : Branches scope ks branches) : Union scope ks (unionOf branches) := by
  match branches, h with
  | [], h => exact absurd rfl h.ne_nil
  | [e], h => exact .single (h.of_single rfl)
  | first :: second :: branches, h => exact .branches h (by simp)

/-- A frame holds what the grammar makes of a part of one union. -/
inductive Begun (scope : Scope) : List Kind → Frame → Prop
  | first {ks : List Kind} {items : List Expr} (h : Items scope ks items) :
    Begun scope ks ⟨[], items.reverse⟩
  | later {ks ks' : List Kind} {branches items : List Expr} (h : Branches scope ks branches)
    (hitems : Items scope ks' items) :
    Begun scope (ks ++ .bar :: ks') ⟨branches.reverse, items.reverse⟩

namespace Begun

theorem empty : Begun scope [] .empty := .first .nil

theorem push (h : Begun scope ks f) (he : Repeat scope ks' e) :
    Begun scope (ks ++ ks') (f.push e) := by
  cases h with
  | first h =>
    have hfirst := Begun.first (h.snoc he)
    rwa [List.reverse_concat] at hfirst
  | later h hitems =>
    have hlater := Begun.later h (hitems.snoc he)
    rwa [List.reverse_concat, ← List.cons_append, ← List.append_assoc] at hlater

theorem star (h : Begun scope ks f) (hf : f.items = e :: items) :
    Begun scope (ks ++ [.star]) ⟨f.branches, .star e :: items⟩ := by
  cases h with
  | first h =>
    have hfirst := Begun.first (h.star_last hf)
    rwa [List.reverse_concat, List.reverse_reverse] at hfirst
  | later h hlast =>
    have hlater := Begun.later h (hlast.star_last hf)
    rwa [List.reverse_concat, List.reverse_reverse, ← List.cons_append, ← List.append_assoc]
      at hlater

theorem branches_reverse (h : Begun scope ks f) : Branches scope ks f.branch.branches.reverse := by
  cases h with
  | first h =>
    rw [Frame.branch, List.reverse_reverse]
    exact .single h.concat
  | later h hitems =>
    rw [Frame.branch, List.reverse_reverse, List.reverse_cons, List.reverse_reverse]
    exact h.snoc hitems.concat

theorem bar (h : Begun scope ks f) : Begun scope (ks ++ [.bar]) f.branch := by
  have hbar := Begun.later h.branches_reverse .nil
  rwa [List.reverse_reverse] at hbar

theorem close (h : Begun scope ks f) : Union scope ks f.close := h.branches_reverse.union

end Begun

/-- A frame and the frames around it hold what the grammar makes of all tokens before a place. -/
inductive Progress (scope : Scope) : List Kind → Frame → List (Nat × Frame) → Prop
  | outer {ks : List Kind} {f : Frame} (h : Begun scope ks f) : Progress scope ks f []
  | inner {ks ks' : List Kind} {f outer : Frame} {offset : Nat} {stack : List (Nat × Frame)}
    (hstack : Progress scope ks outer stack) (h : Begun scope ks' f) :
    Progress scope (ks ++ .opening :: ks') f ((offset, outer) :: stack)

namespace Progress

theorem within (h : Progress scope ks f stack)
    (hstep : ∀ ks, Begun scope ks f → Begun scope (ks ++ ks') g) :
    Progress scope (ks ++ ks') g stack := by
  cases h with
  | outer h => exact .outer (hstep _ h)
  | inner hstack h =>
    rw [List.append_assoc, List.cons_append]
    exact .inner hstack (hstep _ h)

theorem opening (h : Progress scope ks f stack) (offset : Nat) :
    Progress scope (ks ++ [.opening]) .empty ((offset, f) :: stack) :=
  .inner h .empty

theorem closing {offset : Nat} (h : Progress scope ks f ((offset, g) :: stack)) :
    Progress scope (ks ++ [.closing]) (g.push f.close) stack := by
  cases h with
  | inner hstack h =>
    rw [List.append_assoc, List.cons_append]
    exact hstack.within fun _ hg => hg.push (.atom (.group h.close))

theorem union_of_read (h : Progress scope ks f stack) (hread : read scope tokens f stack = .ok e) :
    Union scope (ks ++ tokens.map Token.kind) e := by
  -- Each token moves from the front of `tokens` to the end of `ks`.
  fun_induction read scope tokens f stack generalizing ks with
  | case1 f =>
    cases hread
    cases h with
    | outer h =>
      rw [List.map_nil, List.append_nil]
      exact h.close
  | case3 offset tokens f stack c ih =>
    rw [List.map_cons, List.append_cons]
    exact ih (h.within fun _ hf => hf.push (.atom (.symbol c))) hread
  | case4 offset tokens f stack text target htext ih =>
    rw [List.map_cons, List.append_cons]
    exact ih (h.within fun _ hf => hf.push (.atom (.name htext))) hread
  | case6 offset tokens f stack ih =>
    rw [List.map_cons, List.append_cons]
    exact ih (h.opening offset) hread
  | case8 offset tokens f _ outer stack ih =>
    rw [List.map_cons, List.append_cons]
    exact ih h.closing hread
  | case9 offset tokens f stack ih =>
    rw [List.map_cons, List.append_cons]
    exact ih (h.within fun _ hf => hf.bar) hread
  | case11 offset tokens f stack e items hitems ih =>
    rw [List.map_cons, List.append_cons]
    exact ih (h.within fun _ hf => hf.star hitems) hread
  | case2 | case5 | case7 | case10 => cases hread

end Progress

theorem parse_eq_ok_iff : parse scope tokens = .ok e ↔ Union scope (tokens.map Token.kind) e :=
  ⟨(Progress.outer Begun.empty).union_of_read, parse_of_union⟩

theorem exists_tokens (ks : List Kind) : ∃ tokens : List Token, tokens.map Token.kind = ks :=
  ⟨ks.map fun k => ⟨k, 0⟩, by rw [List.map_map]; exact List.map_id ks⟩

theorem Union.unique {e' : Expr} (h : Union scope ks e) (h' : Union scope ks e') : e = e' := by
  obtain ⟨tokens, rfl⟩ := exists_tokens ks
  exact Except.ok.inj ((parse_of_union h).symm.trans (parse_of_union h'))

/-! ### Literals of an expression without names -/

theorem literalsOf_concat (items : List Expr) (e : Expr) :
    Expr.literalsOf (items ++ [e]) = Expr.literalsOf items ++ e.literals := by
  induction items with
  | nil => simp [Expr.literalsOf]
  | cons first items ih => simp [Expr.literalsOf, ih]

def symbolsOf (ks : List Kind) : List Char :=
  ks.filterMap fun
    | .symbol c => some c
    | _ => none

theorem symbolsOf_append : symbolsOf (ks ++ ks') = symbolsOf ks ++ symbolsOf ks' :=
  List.filterMap_append

mutual

theorem Atom.literals : ∀ {ks e}, Atom [] ks e → e.literals = symbolsOf ks
  | _, _, .symbol _ => by rw [Expr.literals]; rfl
  | _, _, .group h => by
    rw [h.literals]
    exact (symbolsOf_append.trans (List.append_nil _)).symm

theorem Repeat.literals : ∀ {ks e}, Repeat [] ks e → e.literals = symbolsOf ks
  | _, _, .atom h => h.literals
  | _, _, .star h => by
    rw [Expr.literals, h.literals, symbolsOf_append]
    exact (List.append_nil _).symm

theorem Items.literals : ∀ {ks items}, Items [] ks items → Expr.literalsOf items = symbolsOf ks
  | _, _, .nil => rfl
  | _, _, .snoc h he => by rw [literalsOf_concat, h.literals, he.literals, symbolsOf_append]

theorem Concat.literals : ∀ {ks e}, Concat [] ks e → e.literals = symbolsOf ks
  | _, _, .empty => by rw [Expr.literals]; rfl
  | _, _, .single h => h.literals
  | _, _, .items h _ => by rw [Expr.literals, h.literals]

theorem Branches.literals : ∀ {ks branches}, Branches [] ks branches →
    Expr.literalsOf branches = symbolsOf ks
  | _, _, .single h => by rw [Expr.literalsOf, h.literals, Expr.literalsOf, List.append_nil]
  | _, _, .snoc h he => by
    rw [literalsOf_concat, h.literals, he.literals, symbolsOf_append]
    rfl

theorem Union.literals : ∀ {ks e}, Union [] ks e → e.literals = symbolsOf ks
  | _, _, .single h => h.literals
  | _, _, .branches h _ => by rw [Expr.literals, h.literals]

end

end Acceptors.Regex.Pattern
