import Mathlib.Data.List.Chain
import Mathlib.Data.String.Basic
import Mathlib.Tactic.Common
import Acceptors.Proofs.Document.Keys
import Acceptors.Proofs.Document.LineLayout

/-! Documents in other layouts. Windows line ends change nothing about a document, and blanks in
front of every line only move it to the right. Carriage returns alone do change it: they end lines,
but the column of a key is counted from the last line feed, and from this column the fields below a
key beside a dash are told. -/

namespace Acceptors

open Block (innerIndent SameIndent Paired)

namespace Layout

def windows : Layout := ⟨.both, 0⟩

def carriageReturns : Layout := ⟨.carriageReturn, 0⟩

def indented (k : Nat) : Layout := ⟨.lineFeed, k⟩

end Layout

/-- A mapping that begins beside a dash leaves the next line to others, unless it begins on the
first line. -/
def Line.EndsBefore (l next : Line) : Prop :=
  match l.content with
  | .itemEntry f => f.location.line = 1 ∨ next.indent < innerIndent f
  | _ => True

/-- The tree of an indented text. Nothing has no indent. -/
def Node.indented (k : Nat) : Node → Node
  | .null l => .null l
  | n => n.relocate fun l => ⟨l.line, l.column + k⟩

variable {y : Layout} {f f' : Field} {l l' : Line} {ls ls' : List Line} {n n' : Node}
    {text : String} {k : Nat}

namespace Layout

theorem utf8Len_within_le (t : List Char) : String.utf8Len t ≤ String.utf8Len (y.within t) := by
  induction t with
  | nil => exact Nat.le_refl 0
  | cons c t ih =>
    by_cases hc : c = '\n'
    · obtain ⟨x, xs, hend, hx⟩ := exists_lineEnd_eq_cons y.lineEnd
      have hsize : 1 ≤ x.utf8Size := x.utf8Size_pos
      have hnewline : '\n'.utf8Size = 1 := rfl
      rw [hc, within_newline, hend, List.cons_append, String.utf8Len_cons, String.utf8Len_cons,
        String.utf8Len_append, String.utf8Len_append]
      omega
    · rw [within_cons hc, String.utf8Len_cons, String.utf8Len_cons]
      exact Nat.add_le_add_right ih _

theorem utf8ByteSize_le_apply (y : Layout) (text : String) :
    text.utf8ByteSize ≤ (y.apply text).utf8ByteSize := by
  rw [apply, String.utf8ByteSize_ofList, String.utf8Len_append, ← String.utf8Len_toList]
  exact (utf8Len_within_le text.toList).trans (Nat.le_add_left _ _)

theorem utf8ByteSize_carriageReturns (text : String) :
    (carriageReturns.apply text).utf8ByteSize = text.utf8ByteSize := by
  have hblanks : carriageReturns.blanks = [] := rfl
  rw [apply, String.utf8ByteSize_ofList, hblanks, List.nil_append, ← String.utf8Len_toList]
  induction text.toList with
  | nil => rfl
  | cons c t ih =>
    by_cases hc : c = '\n'
    · have hnewline : '\n'.utf8Size = 1 := rfl
      have hreturn : '\r'.utf8Size = 1 := rfl
      rw [hc, within_newline, hblanks, List.nil_append, String.utf8Len_append, ih,
        String.utf8Len_cons, hnewline]
      exact Nat.add_comm _ _
    · rw [within_cons hc, String.utf8Len_cons, String.utf8Len_cons, ih]

/-- The key beside a dash moves with its line, but with carriage returns it is further right by all
of the text before. -/
theorem sameIndent (hf : f.Alike y.Places f')
    (h : y.lineEnd = .carriageReturn → f.location.line = 1 ∨
      ∀ next ∈ ls.head?, next.indent < innerIndent f) :
    SameIndent y.margin (innerIndent f) (innerIndent f') ls := by
  obtain ⟨-, hcolumn, hplace⟩ := hf.place
  rw [innerIndent] at h
  rw [innerIndent, innerIndent]
  split at hplace
  · rename_i hend
    obtain ⟨hle, hfirst⟩ := hplace
    rcases h hend with hline | hnext
    · have hcolumn' := hfirst hline
      exact .inl (by omega)
    · exact .inr ⟨by omega, hnext⟩
  · rw [hplace]
    exact .inl (by simp only []; omega)

theorem paired (h : List.Forall₂ (Line.Alike y.Places y.margin) ls ls')
    (hends : y.lineEnd = .carriageReturn → ls.IsChain Line.EndsBefore) :
    Paired y.Places y.margin ls ls' := by
  induction h with
  | nil => exact .nil
  | @cons l l' ls ls' hl hrest ih =>
    refine .cons hl (fun f f' hf hf' => ?_) (ih fun hreturn => (hends hreturn).tail)
    have hcontent := hl.content
    rw [hf, hf'] at hcontent
    cases hcontent with
    | itemEntry hfield =>
      refine sameIndent hfield fun hreturn => ?_
      have hchain := hends hreturn
      cases ls with
      | nil => exact .inr fun next hnext => nomatch hnext
      | cons next ls =>
        have hnext : l.EndsBefore next := (List.isChain_cons_cons.1 hchain).1
        rw [Line.EndsBefore, hf] at hnext
        refine hnext.imp_right fun hlt => ?_
        rintro _ ⟨⟩
        exact hlt

theorem checkLines_eq_ok_iff_of_alike {L : Location → Location → Prop}
    (h : List.Forall₂ (Line.Alike L k) ls ls') : checkLines ls' = .ok () ↔
    checkLines ls = .ok () := by
  rw [checkLines_eq_ok_iff, checkLines_eq_ok_iff]
  induction h with
  | nil => exact Iff.rfl
  | @cons l l' ls ls' hl _ ih =>
    rw [List.forall_mem_cons, List.forall_mem_cons, ih]
    refine and_congr_left' ?_
    have hvalue := hl.inlineValue?
    generalize l.inlineValue? = value at hvalue ⊢
    generalize l'.inlineValue? = value' at hvalue ⊢
    cases hvalue with
    | none => exact Iff.rfl
    | some hn => simp only [Option.mem_some_iff, forall_eq', hn.keysDistinct_iff]

inductive SameDocument (y : Layout) : Node → Node → Prop
  | nothing : SameDocument y (.null .start) (.null .start)
  | tree {n n' : Node} (hn : n.isNull = false) (h : n.Alike y.Places n') : SameDocument y n n'

theorem isNull_of_ofLines (h : Block.ofLines (l :: ls) = .ok n) : n.isNull = false := by
  cases Block.holds_of_ofLines h with
  | block harranged =>
    cases harranged with
    | list _ => rfl
    | mapping _ _ => rfl

theorem ofLines_sameDocument (h : Paired y.Places y.margin ls ls') :
    SameResult (fun _ _ => True) y.SameDocument (Block.ofLines ls) (Block.ofLines ls') := by
  cases h with
  | nil => exact .found .nothing
  | @cons l l' ls ls' hl hinner hrest =>
    have hread := Block.ofLines_alike (.cons hl hinner hrest)
    have hnull : ∀ n, Block.ofLines (l :: ls) = .ok n → n.isNull = false :=
      fun n => isNull_of_ofLines
    generalize Block.ofLines (l :: ls) = r at hread hnull ⊢
    generalize Block.ofLines (l' :: ls') = r' at hread ⊢
    cases hread with
    | failed _ => exact .failed trivial
    | found h => exact .found (.tree (hnull _ rfl) h)

/-- A text is read in any layout. With carriage returns this takes that no mapping beside a dash
goes on below it. -/
theorem ofText_apply (hplain : PlainLines text.toList)
    (hsize : (y.apply text).utf8ByteSize ≤ maxSourceBytes ↔ text.utf8ByteSize ≤ maxSourceBytes)
    (hends : y.lineEnd = .carriageReturn → ∀ ls, Syntax.lines text.toList = .ok ls →
      ls.IsChain Line.EndsBefore) :
    SameResult (fun _ _ => True) y.SameDocument (Node.ofText text)
    (Node.ofText (y.apply text)) := by
  have hcheck : checkSize (y.apply text) = .ok () ↔ checkSize text = .ok () := by
    rw [checkSize_eq_ok_iff, checkSize_eq_ok_iff, hsize]
  refine (SameResult.of_iff hcheck).bind fun _ _ _ _ =>
    (lines_alike hplain).bind fun ls ls' hls halike => ?_
  have hkeys := SameResult.of_iff (checkLines_eq_ok_iff_of_alike halike)
  exact hkeys.bind fun _ _ _ _ => ofLines_sameDocument (paired halike fun hreturn =>
    hends hreturn ls hls)

theorem SameDocument.bare_eq (h : y.SameDocument n n') : n'.bare = n.bare := by
  cases h with
  | nothing => rfl
  | tree _ h => exact h.bare_eq

theorem SameDocument.eq_indented (h : y.SameDocument n n') (hend : y.lineEnd ≠ .carriageReturn) :
    n' = n.indented y.margin := by
  cases h with
  | nothing => rfl
  | tree hn h =>
    have hplaces : ∀ l l', y.Places l l' → l' = ⟨l.line, l.column + y.margin⟩ := by
      rintro l l' ⟨-, -, hplace⟩
      split at hplace
      · rename_i hreturn
        exact absurd hreturn hend
      · exact hplace
    rw [h.eq_relocate hplaces]
    cases n with
    | null l => cases hn
    | scalar l text => rfl
    | list l items => rfl
    | mapping l entries => rfl

theorem ofText_apply_eq_indented (hend : y.lineEnd ≠ .carriageReturn)
    (hplain : PlainLines text.toList) (hsize : (y.apply text).utf8ByteSize ≤ maxSourceBytes) :
    (Node.ofText (y.apply text)).toOption =
    (Node.ofText text).toOption.map (Node.indented y.margin) := by
  have hsize' : text.utf8ByteSize ≤ maxSourceBytes := (utf8ByteSize_le_apply y text).trans hsize
  have hread := ofText_apply hplain (iff_of_true hsize hsize') fun hreturn => absurd hreturn hend
  have hsame : ∀ n n', y.SameDocument n n' → id n' = n.indented y.margin :=
    fun n n' h => h.eq_indented hend
  rw [← hread.toOption_map_eq hsame, Option.map_id_fun, id]

end Layout

theorem Node.indented_zero (n : Node) : n.indented 0 = n := by
  cases n with
  | null l => rfl
  | scalar l text => exact Node.relocate_id _
  | list l items => exact Node.relocate_id _
  | mapping l entries => exact Node.relocate_id _

theorem Node.ofText_eq_null (h : ofText text = .ok n) (hn : n.isNull = true) :
    n = .null .start := by
  obtain ⟨-, ls, -, -, hlines⟩ := ofText_eq_ok_iff_exists_lines.1 h
  cases ls with
  | nil =>
    cases hlines
    rfl
  | cons l ls =>
    rw [Layout.isNull_of_ofLines hlines] at hn
    cases hn

namespace Node

def laidText : String :=
  "- a: [1,\n" ++
  "  2] # one\n" ++
  "  b:\n" ++
  "  - 'd'\n" ++
  "- c: \"e\"\n" ++
  "-\n" ++
  "\n" ++
  "  f: \x7bg: h\x7d"

def laid : Node :=
  .list ⟨1, 1⟩ [
    .mapping ⟨1, 3⟩ [
      .mk "a" ⟨1, 3⟩ (.list ⟨1, 6⟩ [.scalar ⟨1, 7⟩ "1", .scalar ⟨2, 3⟩ "2"]),
      .mk "b" ⟨3, 3⟩ (.list ⟨4, 3⟩ [.scalar ⟨4, 5⟩ "d"])],
    .mapping ⟨5, 3⟩ [.mk "c" ⟨5, 3⟩ (.scalar ⟨5, 6⟩ "e")],
    .mapping ⟨8, 3⟩ [.mk "f" ⟨8, 3⟩ (.mapping ⟨8, 6⟩ [.mk "g" ⟨8, 7⟩ (.scalar ⟨8, 10⟩ "h")])]]

theorem ofText_laidText : ofText laidText = .ok laid := by decide +kernel

/-- A text with Windows line ends is read as the text with line feeds, at the same places. -/
theorem ofText_windows (hplain : PlainLines text.toList)
    (hsize : (Layout.windows.apply text).utf8ByteSize ≤ maxSourceBytes) :
    (ofText (Layout.windows.apply text)).toOption = (ofText text).toOption := by
  have hread := Layout.ofText_apply_eq_indented (y := Layout.windows) nofun hplain hsize
  have hzero : indented Layout.windows.margin = id := funext indented_zero
  rw [hread, hzero, Option.map_id, id]

theorem ofText_windows_laid : PlainLines laidText.toList ∧
    (ofText (Layout.windows.apply laidText)).toOption = some laid := by
  refine ⟨by decide, ?_⟩
  rw [ofText_windows (by decide) (by decide), ofText_laidText]
  rfl

/-- Blanks in front of every line move the tree to the right. An empty document stays at the
start. -/
theorem ofText_indented (k : Nat) (hplain : PlainLines text.toList)
    (hsize : ((Layout.indented k).apply text).utf8ByteSize ≤ maxSourceBytes) :
    (ofText ((Layout.indented k).apply text)).toOption = (ofText text).toOption.map (indented k) ∧
      ∀ n, ofText text = .ok n → n.isNull = true → n = .null .start :=
  ⟨Layout.ofText_apply_eq_indented nofun hplain hsize, fun _ => ofText_eq_null⟩

theorem ofText_indented_laid : PlainLines laidText.toList ∧
    (ofText ((Layout.indented 3).apply laidText)).toOption = some (indented 3 laid) := by
  refine ⟨by decide, ?_⟩
  rw [(ofText_indented 3 (by decide) (by decide)).1, ofText_laidText]
  rfl

/-- With carriage returns in place of line feeds a text has the same lines. They make up the same
tree as long as no mapping that begins beside a dash, other than on the first line, goes on below
it. -/
theorem ofText_carriageReturns (hplain : PlainLines text.toList) :
    (Syntax.lines (Layout.carriageReturns.apply text).toList).toOption.map (List.map Line.bare) =
      (Syntax.lines text.toList).toOption.map (List.map Line.bare) ∧
    ((∀ ls, Syntax.lines text.toList = .ok ls → ls.IsChain Line.EndsBefore) →
      (ofText (Layout.carriageReturns.apply text)).toOption.map bare =
      (ofText text).toOption.map bare) := by
  refine ⟨(Layout.lines_alike hplain).toOption_map_eq fun ls ls' h => ?_, fun hends => ?_⟩
  · induction h with
    | nil => rfl
    | cons hl _ ih => rw [List.map_cons, List.map_cons, hl.bare_eq, ih]
  · have hread := Layout.ofText_apply (y := Layout.carriageReturns) hplain
      (by rw [Layout.utf8ByteSize_carriageReturns]) fun _ => hends
    exact hread.toOption_map_eq fun n n' h => h.bare_eq

theorem ofText_carriageReturns_laid : PlainLines laidText.toList ∧
    (ofText (Layout.carriageReturns.apply laidText)).toOption.map bare = some laid.bare := by
  have hlines : Syntax.lines laidText.toList = .ok [
      ⟨0, ⟨1, 1⟩, .itemEntry ⟨"a", ⟨1, 3⟩,
        some (.list ⟨1, 6⟩ [.scalar ⟨1, 7⟩ "1", .scalar ⟨2, 3⟩ "2"])⟩⟩,
      ⟨2, ⟨3, 3⟩, .entry ⟨"b", ⟨3, 3⟩, none⟩⟩,
      ⟨2, ⟨4, 3⟩, .itemValue (.scalar ⟨4, 5⟩ "d")⟩,
      ⟨0, ⟨5, 1⟩, .itemEntry ⟨"c", ⟨5, 3⟩, some (.scalar ⟨5, 6⟩ "e")⟩⟩,
      ⟨0, ⟨6, 1⟩, .item⟩,
      ⟨2, ⟨8, 3⟩, .entry ⟨"f", ⟨8, 3⟩,
        some (.mapping ⟨8, 6⟩ [.mk "g" ⟨8, 7⟩ (.scalar ⟨8, 10⟩ "h")])⟩⟩] := by
    decide +kernel
  have hends : ∀ ls, Syntax.lines laidText.toList = .ok ls → ls.IsChain Line.EndsBefore := by
    intro ls hls
    cases hlines.symm.trans hls
    simp [Line.EndsBefore, innerIndent]
  refine ⟨by decide, ?_⟩
  rw [(ofText_carriageReturns (by decide)).2 hends, ofText_laidText]
  rfl

def rulesText : String := "rules:\n- a: 1\n  b: 2\n"

def rules : Node :=
  .mapping ⟨1, 1⟩ [
    .mk "rules" ⟨1, 1⟩ (.list ⟨2, 1⟩ [
      .mapping ⟨2, 3⟩ [.mk "a" ⟨2, 3⟩ (.scalar ⟨2, 6⟩ "1"), .mk "b" ⟨3, 3⟩ (.scalar ⟨3, 6⟩ "2")]])]

theorem carriageReturns_rulesText_refused :
    PlainLines rulesText.toList ∧ ofText rulesText = .ok rules ∧
    ofText (Layout.carriageReturns.apply rulesText) =
      .error ((ParseError.ofReason .inconsistentIndentation).withLocation ⟨1, 17⟩) := by
  refine ⟨by decide, ?_, ?_⟩
  · decide +kernel
  · decide +kernel

end Node

end Acceptors
