import Acceptors.Proofs.Regex.Fragment
import Acceptors.Proofs.Regex.Pattern
import Acceptors.Proofs.Regex.Printed

/-! Patterns of expressions, read back. Nested concatenations and unions are flattened on the way,
so what is read need not be the expression that was printed, but it has the same language. -/

namespace Acceptors.Regex

open Token (Kind)
open scoped Computability

namespace Expr

theorem productOf_append (items items' : List Expr) :
    productOf (items ++ items') = productOf items * productOf items' := by
  induction items with
  | nil => exact (one_mul _).symm
  | cons e items ih => rw [List.cons_append, productOf, ih, productOf, mul_assoc]

theorem sumOf_append (branches branches' : List Expr) :
    sumOf (branches ++ branches') = sumOf branches + sumOf branches' := by
  induction branches with
  | nil => exact (zero_add _).symm
  | cons e branches ih => rw [List.cons_append, sumOf, ih, sumOf, add_assoc]

end Expr

namespace Pattern

open Regex.Expr (productOf sumOf)

variable {names : List String} {scope : Scope} {ks ks' : List Kind} {tokens : List Token} {e : Expr}
  {L L' : Language Char}

theorem language_concatOf (items : List Expr) : (concatOf items).language = productOf items := by
  rcases items with - | ⟨e, - | ⟨f, items⟩⟩
  · rfl
  · exact (mul_one _).symm
  · rfl

theorem language_unionOf (branches : List Expr) : (unionOf branches).language = sumOf branches := by
  rcases branches with - | ⟨e, - | ⟨f, branches⟩⟩
  · rfl
  · exact (add_zero _).symm
  · rfl

theorem Items.append {items : List Expr} (h : Items scope ks items) :
    ∀ {ks' items'}, Items scope ks' items' → Items scope (ks ++ ks') (items ++ items')
  | _, _, .nil => by rwa [List.append_nil, List.append_nil]
  | _, _, .snoc h' he => by
    rw [← List.append_assoc, ← List.append_assoc]
    exact (h.append h').snoc he

theorem Branches.append {branches : List Expr} : ∀ {ks' branches'}, Branches scope ks branches →
    Branches scope ks' branches' → Branches scope (ks ++ .bar :: ks') (branches ++ branches')
  | _, _, h, .single he => h.snoc he
  | _, _, h, .snoc h' he => by
    rw [← List.cons_append, ← List.append_assoc, ← List.append_assoc]
    exact (h.append h').snoc he

/-! ### Languages of token rows -/

def ItemDenotes (scope : Scope) (ks : List Kind) (L : Language Char) : Prop :=
  ∃ e, Repeat scope ks e ∧ e.language = L

def ItemsDenote (scope : Scope) (ks : List Kind) (L : Language Char) : Prop :=
  ∃ items, Items scope ks items ∧ productOf items = L

def BranchesDenote (scope : Scope) (ks : List Kind) (L : Language Char) : Prop :=
  ∃ branches, Branches scope ks branches ∧ sumOf branches = L

theorem ItemDenotes.toItems (h : ItemDenotes scope ks L) : ItemsDenote scope ks L := by
  obtain ⟨e, he, rfl⟩ := h
  exact ⟨[e], Items.nil.snoc he, mul_one _⟩

theorem ItemDenotes.star (h : ItemDenotes scope ks L) : ItemDenotes scope (ks ++ [.star]) L∗ := by
  obtain ⟨e, he, rfl⟩ := h
  exact ⟨_, he.star, rfl⟩

theorem ItemsDenote.nil (scope : Scope) : ItemsDenote scope [] 1 := ⟨[], .nil, rfl⟩

theorem ItemsDenote.append (h : ItemsDenote scope ks L) (h' : ItemsDenote scope ks' L') :
    ItemsDenote scope (ks ++ ks') (L * L') := by
  obtain ⟨items, hitems, rfl⟩ := h
  obtain ⟨items', hitems', rfl⟩ := h'
  exact ⟨_, hitems.append hitems', Expr.productOf_append items items'⟩

theorem ItemsDenote.toBranches (h : ItemsDenote scope ks L) : BranchesDenote scope ks L := by
  obtain ⟨items, hitems, rfl⟩ := h
  exact ⟨[concatOf items], .single hitems.concat, (add_zero _).trans (language_concatOf items)⟩

theorem BranchesDenote.append (h : BranchesDenote scope ks L) (h' : BranchesDenote scope ks' L') :
    BranchesDenote scope (ks ++ .bar :: ks') (L + L') := by
  obtain ⟨branches, hbranches, rfl⟩ := h
  obtain ⟨branches', hbranches', rfl⟩ := h'
  exact ⟨_, hbranches.append hbranches', Expr.sumOf_append branches branches'⟩

theorem BranchesDenote.exists_union (h : BranchesDenote scope ks L) :
    ∃ e, Union scope ks e ∧ e.language = L := by
  obtain ⟨branches, hbranches, rfl⟩ := h
  exact ⟨_, hbranches.union, language_unionOf branches⟩

theorem BranchesDenote.group (h : BranchesDenote scope ks L) :
    ItemDenotes scope (.opening :: (ks ++ [.closing])) L := by
  obtain ⟨e, he, hlanguage⟩ := h.exists_union
  exact ⟨e, .atom (.group he), hlanguage⟩

/-! ### What an expression is printed as -/

/-- A union has branches, and the name of a reference stands for what the reference carries, or for
something with the same language. -/
def Renders (scope : Scope) (p : Expr) : Prop :=
  p ≠ .union [] ∧ ∀ name target, p = .reference name target →
    ∃ given, scope.lookup name = some given ∧ given.language = target.language

/-- An expression is printed as branches, as items where it is no union, and as one item where a
star may follow it. -/
structure Denoted (scope : Scope) (e : Expr) : Prop where
  item : e.isLoose = false → ItemDenotes scope e.printed.reduceOption e.language
  items : e.isUnion = false → ItemsDenote scope e.printed.reduceOption e.language
  branches : BranchesDenote scope e.printed.reduceOption e.language

namespace Denoted

theorem of_item (h : ItemDenotes scope e.printed.reduceOption e.language) : Denoted scope e :=
  ⟨fun _ => h, fun _ => h.toItems, h.toItems.toBranches⟩

theorem reduceOption_grouped (ks : List (Option Kind)) :
    (Expr.grouped true ks).reduceOption = .opening :: (ks.reduceOption ++ [.closing]) := by
  rw [Expr.grouped, if_pos rfl, List.reduceOption_cons_of_some, List.reduceOption_append]
  rfl

theorem items_grouped (h : Denoted scope e) :
    ItemsDenote scope (Expr.grouped e.isUnion e.printed).reduceOption e.language := by
  cases hunion : e.isUnion with
  | false => exact h.items hunion
  | true =>
    rw [reduceOption_grouped]
    exact h.branches.group.toItems

theorem item_grouped (h : Denoted scope e) :
    ItemDenotes scope (Expr.grouped e.isLoose e.printed).reduceOption e.language := by
  cases hloose : e.isLoose with
  | false => exact h.item hloose
  | true =>
    rw [reduceOption_grouped]
    exact h.branches.group

end Denoted

mutual

theorem denoted : ∀ e : Expr, (∀ p ∈ e.parts, Renders scope p) → Denoted scope e
  | .empty, _ => .of_item (ItemsDenote.nil scope).toBranches.group
  | .literal c, _ => .of_item ⟨.literal c, .atom (.symbol c), rfl⟩
  | .reference name target, h => by
    obtain ⟨given, hgiven, hlanguage⟩ := (h _ (Expr.mem_parts_self _)).2 name target rfl
    exact .of_item ⟨.reference name given, .atom (.name hgiven), hlanguage⟩
  | .concat items, h => by
    rw [Expr.parts, List.forall_mem_cons] at h
    have hitems := items_printedConcat false items h.2
    exact ⟨nofun, fun _ => hitems, hitems.toBranches⟩
  | .union branches, h => by
    rw [Expr.parts, List.forall_mem_cons] at h
    refine ⟨nofun, nofun, branches_printedUnion branches ?_ h.2⟩
    rintro rfl
    exact h.1.1 rfl
  | .star body, h => by
    rw [Expr.parts, List.forall_mem_cons] at h
    refine .of_item ?_
    rw [Expr.printed, List.reduceOption_append]
    exact (denoted body h.2).item_grouped.star

theorem items_printedConcat (blank : Bool) : ∀ items : List Expr,
    (∀ p ∈ Expr.partsOf items, Renders scope p) →
      ItemsDenote scope (Expr.printedConcat blank items).reduceOption (productOf items)
  | [], _ => .nil scope
  | e :: items, h => by
    rw [Expr.partsOf, List.forall_mem_append] at h
    have hblank : (if blank then [none] else [] : List (Option Kind)).reduceOption = [] := by
      cases blank <;> rfl
    rw [Expr.printedConcat, List.reduceOption_append, List.reduceOption_append, hblank,
      List.nil_append]
    exact (denoted e h.1).items_grouped.append (items_printedConcat _ items h.2)

theorem branches_printedUnion : ∀ branches : List Expr, branches ≠ [] →
    (∀ p ∈ Expr.partsOf branches, Renders scope p) →
      BranchesDenote scope (Expr.printedUnion branches).reduceOption (sumOf branches)
  | [], hne, _ => absurd rfl hne
  | [e], _, h => by
    rw [Expr.partsOf, List.forall_mem_append] at h
    have hsum : sumOf [e] = e.language := add_zero _
    rw [hsum]
    exact (denoted e h.1).branches
  | e :: f :: branches, _, h => by
    rw [Expr.partsOf, List.forall_mem_append] at h
    rw [Expr.printedUnion, List.reduceOption_append, List.reduceOption_cons_of_some]
    exact (denoted e h.1).branches.append (branches_printedUnion (f :: branches)
      (List.cons_ne_nil f branches) h.2)

end

theorem exists_parse_of_printed (hkinds : tokens.map Token.kind = e.printed.reduceOption)
    (h : ∀ p ∈ e.parts, Renders scope p) :
    ∃ e', parse scope tokens = .ok e' ∧ e'.language = e.language := by
  obtain ⟨e', hunion, hlanguage⟩ := (denoted e h).branches.exists_union
  rw [← hkinds] at hunion
  exact ⟨e', parse_of_union hunion, hlanguage⟩

theorem exists_tokenize_display (hlegible : Legible names e.printed)
    (hnames : ∀ name target, .reference name target ∈ e.parts → Token.IsFindable names name) :
    ∃ tokens, Token.tokenize names e.display.toList = .ok tokens ∧
      tokens.map Token.kind = e.printed.reduceOption := by
  have hprinted : ∀ name, some (.name name) ∈ e.printed → Token.IsFindable names name := by
    intro name hname
    obtain ⟨target, htarget⟩ := exists_of_name_mem_printed hname
    exact hnames name target htarget
  obtain ⟨tokens, hfound, hkinds⟩ := exists_found hlegible hprinted 0
  rw [← toList_display, ← Token.tokenize_eq_ok_iff] at hfound
  exact ⟨tokens, hfound, hkinds⟩

end Pattern

theorem accepts_congr {e e' : Expr} (h : e.language = e'.language)
    (bindings bindings' : List (String × Expr)) (w : List Char) :
    (ofExpr bindings e).accepts w = (ofExpr bindings' e').accepts w := by
  rw [accepts_eq, accepts_eq, Bool.eq_iff_iff]
  exact e.recognizes_toNfa_iff.trans (h ▸ e'.recognizes_toNfa_iff.symm)

/-- The pattern that an expression without names is printed as is read, and matches the same
words. -/
theorem ofPattern_display (e : Expr) (hreferences : ∀ p ∈ e.parts, p.isReference = false)
    (hunions : .union [] ∉ e.parts) :
    ∃ r, ofPattern e.display = .ok r ∧ ∀ w, r.accepts w = (ofExpr [] e).accepts w := by
  have hrenders : ∀ p ∈ e.parts, Pattern.Renders [] p := by
    intro p hp
    refine ⟨fun hunion => hunions (hunion ▸ hp), ?_⟩
    rintro name target rfl
    cases hreferences _ hp
  obtain ⟨tokens, htokens, hkinds⟩ := Pattern.exists_tokenize_display (legible_nil e.printed)
    fun name target hp => nomatch hreferences _ hp
  obtain ⟨e', hparse, hlanguage⟩ := Pattern.exists_parse_of_printed hkinds hrenders
  rcases Token.tokenize_spec e.display.toList with ⟨-, fault, hfault⟩ | ⟨hescapes, found,
    hfound, hfoundKinds⟩
  · cases htokens.symm.trans hfault
  · cases htokens.symm.trans hfound
    have hunion := Pattern.parse_eq_ok_iff.1 hparse
    rw [hfoundKinds] at hunion
    exact ⟨_, ofPattern_eq_ok_iff.2 ⟨hescapes, e', hunion, rfl⟩, accepts_congr hlanguage [] []⟩

theorem ofPattern_display_escaped :
    let e : Expr :=
      .concat [.union [.literal '|', .concat []], .star (.star (.union [.literal ' '])),
      .star (.concat [.literal 'a', .literal '\\'])]
    e.display = "(\\||)(\\ )**(a\\\\)*" ∧ ∃ r, ofPattern e.display = .ok r ∧
      r.accepts ['|', ' ', ' ', 'a', '\\'] = true ∧ r.accepts ['|', 'a'] = false := by
  intro e
  obtain ⟨r, hr, haccepts⟩ := ofPattern_display e (by decide) (by decide)
  refine ⟨by decide +kernel, r, hr, ?_, ?_⟩
  · rw [haccepts]
    decide +kernel
  · rw [haccepts]
    decide +kernel

end Acceptors.Regex
