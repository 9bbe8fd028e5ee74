import Mathlib.Data.List.Infix
import Mathlib.Data.List.Nodup
import Mathlib.Tactic.Common
import Acceptors.Document.Block

/-! The blocks that lines make up. Every entry and every item has its line, what belongs to it
stands on the lines below, and the lines of a block follow each other. -/

namespace Acceptors

/-- What lines at an indent can make up. -/
inductive Piece
  | value (f : Field) (n : Node)
  | entries (es : List Entry)
  | item (n : Node)
  | items (ns : List Node)
  | block (n : Node)

namespace Block

def innerIndent (f : Field) : Nat := f.location.column - 1

/-- The lines, one after another, hold a piece of a document at an indent. -/
inductive Arranged : Nat → Piece → List Line → Prop
  | beside {i : Nat} {f : Field} {n : Node} (h : f.value = some n) : Arranged i (.value f n) []
  | missing {i : Nat} {f : Field} (h : f.value = none) : Arranged i (.value f (.null f.location)) []
  | valueBelow {i : Nat} {f : Field} {n : Node} {l : Line} {ls : List Line} (h : f.value = none)
      (hl : belongsToKey i l = true) (hblock : Arranged l.indent (.block n) (l :: ls)) :
      Arranged i (.value f n) (l :: ls)
  | noEntries {i : Nat} : Arranged i (.entries []) []
  | entry {i : Nat} {l : Line} {f : Field} {n : Node} {es : List Entry} {ls ls' : List Line}
      (hi : l.indent = i) (h : l.content = .entry f) (hvalue : Arranged i (.value f n) ls)
      (hrest : Arranged i (.entries es) ls') :
      Arranged i (.entries (.mk f.key f.location n :: es)) (l :: (ls ++ ls'))
  | noContent {i : Nat} {l : Line} (hi : l.indent = i) (h : l.content = .item) :
      Arranged i (.item (.null l.location)) [l]
  | itemBelow {i : Nat} {l l' : Line} {n : Node} {ls : List Line}
      (hi : l.indent = i) (h : l.content = .item) (hl : i < l'.indent)
      (hblock : Arranged l'.indent (.block n) (l' :: ls)) :
      Arranged i (.item n) (l :: l' :: ls)
  | itemValue {i : Nat} {l : Line} {n : Node} (hi : l.indent = i) (h : l.content = .itemValue n) :
      Arranged i (.item n) [l]
  | itemEntry {i : Nat} {l : Line} {f : Field} {n : Node} {es : List Entry} {ls ls' : List Line}
      (hi : l.indent = i) (h : l.content = .itemEntry f)
      (hvalue : Arranged (innerIndent f) (.value f n) ls)
      (hrest : Arranged (innerIndent f) (.entries es) ls')
      (hkeys : (f.key :: es.map Entry.key).Nodup) :
      Arranged i (.item (.mapping f.location (.mk f.key f.location n :: es))) (l :: (ls ++ ls'))
  | noItems {i : Nat} : Arranged i (.items []) []
  | items {i : Nat} {n : Node} {ns : List Node} {ls ls' : List Line}
      (hitem : Arranged i (.item n) ls) (hrest : Arranged i (.items ns) ls') :
      Arranged i (.items (n :: ns)) (ls ++ ls')
  | list {i : Nat} {l : Line} {ns : List Node} {ls : List Line}
      (h : Arranged i (.items ns) (l :: ls)) :
      Arranged i (.block (.list l.location ns)) (l :: ls)
  | mapping {i : Nat} {l : Line} {es : List Entry} {ls : List Line}
      (h : Arranged i (.entries es) (l :: ls)) (hkeys : (es.map Entry.key).Nodup) :
      Arranged i (.block (.mapping l.location es)) (l :: ls)

/-- The lines hold the fields of one mapping, which may begin on the line of a list item. -/
inductive Fields : List Entry → List Line → Prop
  | block {i : Nat} {es : List Entry} {ls : List Line}
      (h : Arranged i (.entries es) ls) : Fields es ls
  | compact {l : Line} {f : Field} {n : Node} {es : List Entry} {ls ls' : List Line}
      (h : l.content = .itemEntry f) (hvalue : Arranged (innerIndent f) (.value f n) ls)
      (hrest : Arranged (innerIndent f) (.entries es) ls') :
      Fields (.mk f.key f.location n :: es) (l :: (ls ++ ls'))

/-- A mapping among the lines has a key for the second time, at the place that the error reports. -/
def Repeats (ls : List Line) (e : ParseError) : Prop :=
  ∃ taken es x, taken <:+: ls ∧ Fields (es ++ [x]) taken ∧ x.key ∈ es.map Entry.key ∧
    e = Entry.duplicate x.key x.location

inductive Holds : List Line → Node → Prop
  | nothing : Holds [] (.null .start)
  | block {l : Line} {ls : List Line} {n : Node} (h : Arranged l.indent (.block n) (l :: ls)) :
      Holds (l :: ls) n

variable {i : Nat} {f : Field} {n : Node} {l : Line} {ls ls' rest : List Line} {e : ParseError}
    {found : List Entry}

theorem Arranged.exists_cons (h : Arranged i (.block n) ls) : ∃ l ls', ls = l :: ls' := by
  cases h with
  | list _ => exact ⟨_, _, rfl⟩
  | mapping _ _ => exact ⟨_, _, rfl⟩

theorem Repeats.mono (h : Repeats ls e) (hls : ls <:+: ls') : Repeats ls' e := by
  obtain ⟨taken, es, x, htaken, hfields, hkey, he⟩ := h
  exact ⟨taken, es, x, htaken.trans hls, hfields, hkey, he⟩

/-- The lines go on with entries of a mapping whose last one has a key that came before, among those
found or those on the lines. -/
def RepeatsAfter (i : Nat) (found : List Entry) (ls : List Line) (e : ParseError) : Prop :=
  ∃ taken es x, taken <+: ls ∧ Arranged i (.entries (es ++ [x])) taken ∧
    x.key ∈ (found ++ es).map Entry.key ∧
    e = Entry.duplicate x.key x.location

theorem RepeatsAfter.repeats (h : RepeatsAfter i [] ls e) : Repeats ls e := by
  obtain ⟨taken, es, x, htaken, hentries, hkey, he⟩ := h
  exact ⟨taken, es, x, htaken.isInfix, .block hentries, hkey, he⟩

theorem RepeatsAfter.cons (h : RepeatsAfter i (.mk f.key f.location n :: found) rest e)
    (hi : l.indent = i) (hl : l.content = .entry f) (hvalue : Arranged i (.value f n) ls) :
    RepeatsAfter i found (l :: (ls ++ rest)) e := by
  obtain ⟨taken, es, x, ⟨after, rfl⟩, hentries, hkey, he⟩ := h
  refine ⟨l :: (ls ++ taken), .mk f.key f.location n :: es, x, ⟨after, ?_⟩,
    .entry hi hl hvalue hentries, ?_, he⟩
  · rw [List.cons_append, List.append_assoc]
  · simp only [List.map_append, List.map_cons, List.mem_append, List.mem_cons,
      List.cons_append] at hkey ⊢
    tauto

theorem RepeatsAfter.compact (h : RepeatsAfter (innerIndent f) [.mk f.key f.location n] rest e)
    (hl : l.content = .itemEntry f) (hvalue : Arranged (innerIndent f) (.value f n) ls) :
    Repeats (l :: (ls ++ rest)) e := by
  obtain ⟨taken, es, x, ⟨after, rfl⟩, hentries, hkey, he⟩ := h
  refine ⟨l :: (ls ++ taken), .mk f.key f.location n :: es, x, ⟨[], after, ?_⟩,
    .compact hl hvalue hentries, hkey, he⟩
  rw [List.nil_append, List.cons_append, List.append_assoc]

end Block

end Acceptors
