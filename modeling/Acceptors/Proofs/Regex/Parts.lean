import Acceptors.Proofs.Regex.Syntax

/-! What an expression is made of. A pattern is read as an expression in which every union has
branches and every reference carries what its name was given to, also deep inside of what names
stand for. -/

namespace Acceptors.Regex

namespace Expr

mutual

/-- The expression and all expressions inside of it, those that names stand for included. -/
def parts : Expr → List Expr
  | empty => [empty]
  | literal c => [literal c]
  | reference name target => reference name target :: parts target
  | concat items => concat items :: partsOf items
  | union items => union items :: partsOf items
  | star body => star body :: parts body

def partsOf : List Expr → List Expr
  | [] => []
  | e :: items => parts e ++ partsOf items

end

theorem mem_parts_self (e : Expr) : e ∈ e.parts := by
  cases e <;> simp [parts]

theorem mem_partsOf_iff {p : Expr} {items : List Expr} :
    p ∈ partsOf items ↔ ∃ e ∈ items, p ∈ e.parts := by
  induction items with
  | nil => simp [partsOf]
  | cons e items ih => simp [partsOf, ih]

end Expr

namespace Pattern

open Token (Kind)

variable {scope : Scope} {ks ks' : List Kind} {P : Expr → Prop} {p : Expr}

def NamesHave (P : Expr → Prop) (scope : Scope) (ks : List Kind) : Prop :=
  ∀ name target, .name name ∈ ks → scope.lookup name = some target →
    ∀ p ∈ (Expr.reference name target).parts, P p

theorem NamesHave.mono (h : NamesHave P scope ks') (hks : ks ⊆ ks') : NamesHave P scope ks :=
  fun name target hname => h name target (hks hname)

/-- What holds of all expressions but references. Nothing is asked of the union without branches, as
no pattern is read as one. -/
def OthersHave (P : Expr → Prop) : Prop := ∀ p, p ≠ .union [] → p.isReference = false → P p

theorem forall_parts_cons (hP : OthersHave P) {e : Expr} {items : List Expr}
    (hparts : e.parts = e :: Expr.partsOf items) (hunion : e ≠ .union [])
    (hreference : e.isReference = false) (h : ∀ e ∈ items, ∀ p ∈ e.parts, P p) :
    ∀ p ∈ e.parts, P p := by
  rw [hparts, List.forall_mem_cons]
  refine ⟨hP e hunion hreference, fun p hp => ?_⟩
  obtain ⟨e, he, hp⟩ := Expr.mem_partsOf_iff.1 hp
  exact h e he p hp

mutual

theorem Atom.forall_parts (hP : OthersHave P) : ∀ {ks e}, Atom scope ks e → NamesHave P scope ks →
    ∀ p ∈ e.parts, P p
  | _, _, .symbol _, _ => forall_parts_cons hP rfl nofun rfl (List.forall_mem_nil _)
  | _, _, .name h, hnames => hnames _ _ List.mem_cons_self h
  | _, _, .group h, hnames =>
    h.forall_parts hP (hnames.mono (List.subset_cons_of_subset _ (List.subset_append_left _ _)))

theorem Repeat.forall_parts (hP : OthersHave P) : ∀ {ks e}, Repeat scope ks e →
    NamesHave P scope ks →
    ∀ p ∈ e.parts, P p
  | _, _, .atom h, hnames => h.forall_parts hP hnames
  | _, _, .star h, hnames => by
    rw [Expr.parts, List.forall_mem_cons]
    exact ⟨hP _ nofun rfl, h.forall_parts hP (hnames.mono (List.subset_append_left _ _))⟩

theorem Items.forall_parts (hP : OthersHave P) : ∀ {ks items}, Items scope ks items →
    NamesHave P scope ks →
    ∀ e ∈ items, ∀ p ∈ e.parts, P p
  | _, _, .nil, _ => List.forall_mem_nil _
  | _, _, .snoc h he, hnames => by
    rw [List.forall_mem_append, List.forall_mem_singleton]
    exact ⟨h.forall_parts hP (hnames.mono (List.subset_append_left _ _)),
      he.forall_parts hP (hnames.mono (List.subset_append_right _ _))⟩

theorem Concat.forall_parts (hP : OthersHave P) : ∀ {ks e}, Concat scope ks e →
    NamesHave P scope ks →
    ∀ p ∈ e.parts, P p
  | _, _, .empty, _ => forall_parts_cons hP rfl nofun rfl (List.forall_mem_nil _)
  | _, _, .single h, hnames => h.forall_parts hP hnames
  | _, _, .items h _, hnames => forall_parts_cons hP rfl nofun rfl (h.forall_parts hP hnames)

theorem Branches.forall_parts (hP : OthersHave P) : ∀ {ks branches}, Branches scope ks branches →
    NamesHave P scope ks → ∀ e ∈ branches, ∀ p ∈ e.parts, P p
  | _, _, .single h, hnames => by
    rw [List.forall_mem_singleton]
    exact h.forall_parts hP hnames
  | _, _, .snoc h he, hnames => by
    rw [List.forall_mem_append, List.forall_mem_singleton]
    exact ⟨h.forall_parts hP (hnames.mono (List.subset_append_left _ _)),
      he.forall_parts hP (hnames.mono (List.subset_append_of_subset_right _
        (List.subset_cons_self _ _)))⟩

theorem Union.forall_parts (hP : OthersHave P) : ∀ {ks e}, Union scope ks e → NamesHave P scope ks →
    ∀ p ∈ e.parts, P p
  | _, _, .single h, hnames => h.forall_parts hP hnames
  | _, _, .branches h _, hnames =>
    forall_parts_cons hP rfl (fun hunion => h.ne_nil (Expr.union.inj hunion))
      rfl (h.forall_parts hP hnames)

end

def Agrees (scope : Scope) (p : Expr) : Prop :=
  p ≠ .union [] ∧ ∀ name target, p = .reference name target → scope.lookup name = some target

def Closed (scope : Scope) : Prop :=
  ∀ name target, scope.lookup name = some target → ∀ p ∈ target.parts, Agrees scope p

theorem closed_nil : Closed [] := fun _ _ h => nomatch h

theorem agrees_of_not_reference (hunion : p ≠ .union []) (hreference : p.isReference = false) :
    Agrees scope p := by
  refine ⟨hunion, ?_⟩
  rintro name target rfl
  cases hreference

theorem agrees_reference {name : String} {target : Expr} (h : scope.lookup name = some target) :
    Agrees scope (.reference name target) := by
  refine ⟨nofun, ?_⟩
  rintro _ _ ⟨⟩
  exact h

theorem Union.agrees {e : Expr} (h : Union scope ks e) (hscope : Closed scope) :
    ∀ p ∈ e.parts, Agrees scope p := by
  refine h.forall_parts (fun p => agrees_of_not_reference) fun name target _ hlookup => ?_
  rw [Expr.parts, List.forall_mem_cons]
  exact ⟨agrees_reference hlookup, hscope name target hlookup⟩

section Cons

variable {name : String} {e : Expr} (hname : scope.lookup name = none)
include hname

theorem lookup_cons_of_lookup {name' : String} {target : Expr}
    (h : scope.lookup name' = some target) :
    List.lookup name' ((name, e) :: scope) = some target := by
  have hne : (name' == name) = false := by
    rw [beq_eq_false_iff_ne]
    rintro rfl
    cases hname.symm.trans h
  rw [List.lookup_cons, hne]
  exact h

theorem Agrees.cons (h : Agrees scope p) : Agrees ((name, e) :: scope) p :=
  ⟨h.1, fun name target hp => lookup_cons_of_lookup hname (h.2 name target hp)⟩

theorem Closed.cons (hscope : Closed scope) (h : Union scope ks e) :
    Closed ((name, e) :: scope) := by
  intro name' target hlookup p hp
  rw [List.lookup_cons] at hlookup
  split at hlookup
  · cases hlookup
    exact (h.agrees hscope p hp).cons hname
  · exact (hscope name' target hlookup p hp).cons hname

end Cons

end Pattern

end Acceptors.Regex
