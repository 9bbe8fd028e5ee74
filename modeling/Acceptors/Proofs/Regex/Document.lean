import Acceptors.Proofs.Document.Keys
import Acceptors.Proofs.Document.Layout
import Acceptors.Proofs.Document.Scan
import Acceptors.Proofs.Regex.Placement
import Acceptors.Source.Regex

/-! Documents with a line for each binding of a definition and one for its pattern. Whatever else
stands between these lines does not count, and each of them is taken for what it is, so the document
is read as what the definition is built as. -/

namespace Acceptors.Regex

open Syntax (isBlank isLineEnd)

/-- The lines of a text. A carriage return and a line feed after it end one line. -/
inductive HasLines : List Char → List (List Char) → Prop
  | last {line : List Char} (h : ∀ c ∈ line, isLineEnd c = false) : HasLines line [line]
  | cons {line rest : List Char} {lines : List (List Char)} (h : ∀ c ∈ line, isLineEnd c = false)
      (e : LineEnd) (hend : e = .carriageReturn → rest.head? ≠ some '\n')
      (hrest : HasLines rest lines) :
    HasLines (line ++ (e.text ++ rest)) (line :: lines)

theorem head?_intercalate_ne_newline {line : List Char} (lines : List (List Char))
    (h : ∀ c ∈ line, isLineEnd c = false) :
    (List.intercalate ['\r'] (line :: lines)).head? ≠ some '\n' := by
  cases line with
  | nil => cases lines <;> simp [List.intercalate]
  | cons c line =>
    have hhead : (List.intercalate ['\r'] ((c :: line) :: lines)).head? = some c := by
      cases lines <;> simp [List.intercalate]
    rw [hhead]
    rintro ⟨⟩
    cases h '\n' List.mem_cons_self

theorem hasLines_intercalate (e : LineEnd) {lines : List (List Char)} (hne : lines ≠ [])
    (h : ∀ line ∈ lines, ∀ c ∈ line, isLineEnd c = false) :
    HasLines (List.intercalate e.text lines) lines := by
  induction lines with
  | nil => exact absurd rfl hne
  | cons line lines ih =>
    obtain ⟨hline, hlines⟩ := List.forall_mem_cons.1 h
    cases lines with
    | nil =>
      rw [List.intercalate_singleton]
      exact .last hline
    | cons next lines =>
      rw [List.intercalate_cons_cons, List.append_assoc]
      refine .cons hline e ?_ (ih (List.cons_ne_nil next lines) hlines)
      rintro rfl
      exact head?_intercalate_ne_newline lines (hlines next List.mem_cons_self)

namespace SourceLine

variable {found : List (Location × List Char)} {start here l : Location}
    {pre line text rest body : List Char} {lines : List (List Char)}
    {name gap : List Char} {c : Char}

/-! ### Lines -/

theorem split_cons (h : isLineEnd c = false) : split found start here pre (c :: rest) =
    split found start (here.next c) (c :: pre) rest := by
  simp only [isLineEnd, Bool.or_eq_false_iff, beq_eq_false_iff_ne] at h
  obtain ⟨hfeed, hreturn⟩ := h
  rw [split]
  · exact hfeed
  · exact fun _ hc _ => hreturn hc
  · exact hreturn

theorem split_line (h : ∀ c ∈ line, isLineEnd c = false) :
    split found start here pre (line ++ rest) =
    split found start (here.after line) (line.reverse ++ pre) rest := by
  induction line generalizing here pre with
  | nil => rfl
  | cons c line ih =>
    obtain ⟨hc, hline⟩ := List.forall_mem_cons.1 h
    rw [List.cons_append, split_cons hc, ih hline, List.reverse_cons, List.append_assoc]
    rfl

theorem split_lineEnd (e : LineEnd) (hend : e = .carriageReturn → rest.head? ≠ some '\n') :
    split found start here pre (e.text ++ rest) =
      split ((start, pre.reverse) :: found) (here.after e.text) (here.after e.text) [] rest := by
  cases e with
  | lineFeed => rfl
  | both => rfl
  | carriageReturn =>
    cases rest with
    | nil => rfl
    | cons c rest =>
      have hc : c ≠ '\n' := fun hc => hend rfl (congrArg some hc)
      simp [LineEnd.text, split, hc]

theorem split_eq_of_hasLines (h : HasLines text lines) (found : List (Location × List Char))
    (start here : Location) :
    (split found start here [] text).map Prod.snd = found.reverse.map Prod.snd ++ lines := by
  induction h generalizing found start here with
  | @last line h =>
    have hsplit : split found start here [] (line ++ []) =
      split found start (here.after line) (line.reverse ++ []) [] := split_line h
    rw [List.append_nil, List.append_nil] at hsplit
    simp [hsplit, split]
  | cons h e hend _ ih =>
    rw [split_line h, split_lineEnd e hend, ih]
    simp

/-! ### What a line holds -/

def isIdle (line : List Char) : Bool := (line.dropWhile isBlank).head?.all (· == '#')

def isName (name : List Char) : Bool := name.head?.any isNameStart && name.all isNameRest

def BeginsBinding (text : List Char) : Prop :=
  ∃ name gap rest, isName name = true ∧ (∀ c ∈ gap, isBlank c = true) ∧
    text = name ++ (gap ++ '=' :: rest)

structure IsPattern (line : List Char) : Prop where
  counts : isIdle line = false
  not_binding : ¬BeginsBinding (line.dropWhile isBlank)

theorem isBlank_of_isBlank (h : isBlank c = true) : Text.isBlank c = true := by
  simp only [isBlank, Bool.or_eq_true, beq_iff_eq] at h
  rcases h with rfl | rfl <;> rfl

theorem isNameRest_of_isNameStart (h : isNameStart c = true) : isNameRest c = true := by
  rw [isNameStart, Bool.or_eq_true] at h
  rw [isNameRest, Bool.or_eq_true, Char.isAlphanum, Bool.or_eq_true]
  exact h.imp_left .inl

theorem not_isNameRest_of_isBlank (h : isBlank c = true) : isNameRest c = false := by
  simp only [isBlank, Bool.or_eq_true, beq_iff_eq] at h
  rcases h with rfl | rfl <;> rfl

theorem exists_of_isName (h : isName name = true) :
    ∃ c rest, name = c :: rest ∧ isNameStart c = true ∧ ∀ x ∈ name, isNameRest x = true := by
  rw [isName, Bool.and_eq_true, List.all_eq_true] at h
  cases name with
  | nil => cases h.1
  | cons c rest => exact ⟨c, rest, rfl, h.1, h.2⟩

theorem isBlank_of_isNameStart (h : isNameStart c = true) : isBlank c = false :=
  Bool.eq_false_iff.2 fun hblank => by
    cases (not_isNameRest_of_isBlank hblank).symm.trans (isNameRest_of_isNameStart h)

theorem exists_binding?_eq_some (hname : isName name = true) (hgap : ∀ c ∈ gap, isBlank c = true)
    (body : List Char) :
    ∃ line : PatternLine, line.text = .ofList body ∧
      binding? l (name ++ (gap ++ '=' :: body)) = some (.binding l (.ofList name) line) := by
  obtain ⟨c, rest, hcons, hc, hchars⟩ := exists_of_isName hname
  have hhead : (name ++ (gap ++ '=' :: body)).head?.any isNameStart = true := by
    rw [hcons]
    exact hc
  have hname : (name ++ (gap ++ '=' :: body)).span isNameRest = (name, gap ++ '=' :: body) := by
    cases gap with
    | nil => exact Scan.span_append_cons hchars rfl
    | cons c gap =>
      exact Scan.span_append_cons hchars (not_isNameRest_of_isBlank (hgap c List.mem_cons_self))
  have hgap : (gap ++ '=' :: body).span isBlank = (gap, '=' :: body) :=
    Scan.span_append_cons hgap rfl
  refine ⟨if body.isEmpty then .ofText "" else ⟨.ofList body,
    some (l.after (name ++ gap ++ ['=']))⟩, ?_, ?_⟩
  · cases body <;> rfl
  · rw [binding?, if_pos hhead, hname]
    simp only [hgap]

theorem beginsBinding_of_binding? {item : SourceLine}
    (h : binding? l text = some item) : BeginsBinding text := by
  cases text with
  | nil => cases h
  | cons c text =>
    rw [binding?] at h
    split at h
    · rename_i hstart
      simp only [List.span_eq_takeWhile_dropWhile] at h
      split at h
      · rename_i body hbody
        refine ⟨(c :: text).takeWhile isNameRest,
          ((c :: text).dropWhile isNameRest).takeWhile isBlank, body, ?_,
          fun _ => List.mem_takeWhile_imp, ?_⟩
        · rw [isName, Bool.and_eq_true, List.all_eq_true]
          refine ⟨?_, fun _ => List.mem_takeWhile_imp⟩
          rw [List.takeWhile_cons_of_pos (isNameRest_of_isNameStart hstart)]
          exact hstart
        · rw [← hbody, List.takeWhile_append_dropWhile, List.takeWhile_append_dropWhile]
      · cases h
    · cases h

theorem binding?_eq_none_iff : binding? l text = none ↔ ¬BeginsBinding text := by
  constructor
  · rintro h ⟨name, gap, body, hname, hgap, rfl⟩
    obtain ⟨line, -, hline⟩ := exists_binding?_eq_some (l := l) hname hgap body
    cases h.symm.trans hline
  · intro h
    cases hitem : binding? l text with
    | none => rfl
    | some item => exact absurd (beginsBinding_of_binding? hitem) h

theorem ofLine?_eq : ofLine? start line = if isIdle line then none else
    (binding? (start.after (line.takeWhile isBlank)) (line.dropWhile isBlank)).orElse fun _ =>
      some (.pattern (start.after (line.takeWhile isBlank))
        ⟨.ofList (line.dropWhile isBlank), some (start.after (line.takeWhile isBlank))⟩) := by
  rw [ofLine?, List.span_eq_takeWhile_dropWhile, isIdle]
  generalize line.dropWhile isBlank = text
  match text with
  | [] => rfl
  | c :: rest =>
    by_cases hc : c = '#'
    · subst hc
      rfl
    · simp [hc]

theorem ofLine?_of_isIdle (h : isIdle line = true) : ofLine? start line = none :=
  ofLine?_eq.trans (if_pos h)

theorem ofLine?_of_isPattern (h : IsPattern line) (start : Location) :
    ∃ l p, ofLine? start line = some (.pattern l p) ∧
    p.text = .ofList (line.dropWhile isBlank) := by
  rw [ofLine?_eq, if_neg (by simp [h.counts]), binding?_eq_none_iff.2 h.not_binding]
  exact ⟨_, _, rfl, rfl⟩

end SourceLine

namespace Definition

open SourceLine (isIdle isName IsPattern ofLine? ofLine?_eq ofLine?_of_isIdle ofLine?_of_isPattern)

def bindingLine (b : String × PatternLine) : List Char :=
  b.1.toList ++ ' ' :: '=' :: b.2.text.toList

variable {b : String × PatternLine} {bindings found found' : List (String × PatternLine)}
    {start : Location} {pattern : List Char} {places : List (Location × List Char)}

theorem dropWhile_bindingLine (h : isName b.1.toList = true) :
    (bindingLine b).dropWhile isBlank = bindingLine b := by
  obtain ⟨c, rest, hname, hc, -⟩ := SourceLine.exists_of_isName h
  rw [bindingLine, hname, List.cons_append,
    List.dropWhile_cons_of_neg (by simp [SourceLine.isBlank_of_isNameStart hc])]

theorem isIdle_bindingLine (h : isName b.1.toList = true) : isIdle (bindingLine b) = false := by
  rw [isIdle, dropWhile_bindingLine h]
  obtain ⟨c, rest, hname, hc, -⟩ := SourceLine.exists_of_isName h
  have hne : c ≠ '#' := by
    rintro rfl
    cases hc
  simp [bindingLine, hname, hne]

theorem ofLine?_bindingLine (h : isName b.1.toList = true) (start : Location) :
    ∃ l line, ofLine? start (bindingLine b) = some (.binding l b.1 line) ∧
    line.text = b.2.text := by
  have hgap : ∀ c ∈ [' '], isBlank c = true := List.forall_mem_singleton.2 rfl
  obtain ⟨line, htext, hline⟩ := SourceLine.exists_binding?_eq_some
    (l := start.after ((bindingLine b).takeWhile isBlank)) h hgap b.2.text.toList
  rw [String.ofList_toList] at htext hline
  refine ⟨start.after ((bindingLine b).takeWhile isBlank), line, ?_, htext⟩
  rw [ofLine?_eq, if_neg (by simp [isIdle_bindingLine h]), dropWhile_bindingLine h]
  exact congrArg (Option.orElse · _) hline

theorem filterMap_ofLine?_of_isIdle (h : (places.map Prod.snd).filter (!isIdle ·) = []) :
    (places.filterMap fun (l, line) => ofLine? l line) = [] := by
  rw [List.filter_eq_nil_iff, List.forall_mem_map] at h
  exact List.filterMap_eq_nil_iff.2 fun place hplace =>
    ofLine?_of_isIdle (by simpa using h place hplace)

theorem exists_collect_eq_ok (hpattern : IsPattern pattern)
    (hnames : ∀ b ∈ bindings, isName b.1.toList = true)
    (hlines : (places.map Prod.snd).filter (!isIdle ·) = bindings.map bindingLine ++ [pattern])
    (hfound : List.Forall₂ SameBinding found found') :
    ∃ d, collect found none (places.filterMap fun (l, line) => ofLine? l line) = .ok d ∧
      List.Forall₂ SameBinding d.bindings (found'.reverse ++ bindings) ∧
      d.pattern.text = .ofList (pattern.dropWhile isBlank) := by
  induction places generalizing bindings found found' with
  | nil => cases bindings <;> cases hlines
  | cons place places ih =>
    obtain ⟨start, line⟩ := place
    rw [List.map_cons] at hlines
    cases hidle : isIdle line with
    | true =>
      rw [List.filter_cons_of_neg (by simp [hidle])] at hlines
      simp only [List.filterMap_cons, ofLine?_of_isIdle hidle]
      exact ih hnames hlines hfound
    | false =>
      rw [List.filter_cons_of_pos (by simp [hidle])] at hlines
      cases bindings with
      | nil =>
        obtain ⟨rfl, hrest⟩ := List.cons.inj hlines
        obtain ⟨l, p, hline, htext⟩ := ofLine?_of_isPattern hpattern start
        simp only [List.filterMap_cons, hline, filterMap_ofLine?_of_isIdle hrest, List.append_nil]
        exact ⟨⟨found.reverse, p⟩, rfl, List.forall₂_reverse_iff.2 hfound, htext⟩
      | cons b bindings =>
        obtain ⟨rfl, hrest⟩ := List.cons.inj hlines
        obtain ⟨hb, hnames⟩ := List.forall_mem_cons.1 hnames
        obtain ⟨l, p, hline, htext⟩ := ofLine?_bindingLine hb start
        have hfound : List.Forall₂ SameBinding ((b.1, p) :: found) (b :: found') :=
          .cons ⟨rfl, htext.symm⟩ hfound
        obtain ⟨d, hd, hbindings, hpattern⟩ := ih hnames hrest hfound
        rw [List.reverse_cons, List.append_assoc] at hbindings
        simp only [List.filterMap_cons, hline]
        exact ⟨d, hd, hbindings, hpattern⟩

end Definition

open Definition (bindingLine)

/-- A document whose lines that count are those of the bindings and of the pattern of a definition
holds what the definition is built as, or fails like it. -/
theorem sameResult_ofText_build (d : Definition) (text : String) (lines : List (List Char))
    (hsize : text.utf8ByteSize ≤ maxSourceBytes) (htext : HasLines text.toList lines)
    (hlines : lines.filter (!SourceLine.isIdle ·) =
      d.bindings.map bindingLine ++ [d.pattern.text.toList])
    (hnames : ∀ name ∈ d.names, SourceLine.isName name.toList = true)
    (hpattern : SourceLine.IsPattern d.pattern.text.toList) :
    SameResult ParseError.SameFault Eq (ofText text) d.build := by
  have hplaces := SourceLine.split_eq_of_hasLines htext [] .start .start
  rw [List.reverse_nil, List.map_nil, List.nil_append] at hplaces
  have hbindings : ∀ b ∈ d.bindings, SourceLine.isName b.1.toList = true := fun b hb =>
    hnames b.1 (List.mem_map_of_mem hb)
  rw [← hplaces] at hlines
  obtain ⟨d', hd', hbindings, hread⟩ :=
    Definition.exists_collect_eq_ok hpattern hbindings hlines .nil
  have hsame : d'.SameTexts d := by
    refine ⟨hbindings, d.pattern.text.toList.takeWhile isBlank,
      fun c hc => SourceLine.isBlank_of_isBlank (List.mem_takeWhile_imp hc), ?_⟩
    rw [hread, String.toList_ofList, List.takeWhile_append_dropWhile]
  rw [ofText, bind_of_eq_ok (checkSize_eq_ok_iff.2 hsize), SourceLine.ofText, bind_of_eq_ok hd']
  exact hsame.build

/-- One binding is empty, and the pattern is not closed, which is reported in the document at its
own place. -/
theorem sameResult_ofText_build_unclosed :
    let d : Definition := ⟨[("A", .ofText "0|1"), ("_b2", .ofText "")], .ofText " \t(A* _b2"⟩
    let lines := ["# words", "A =0|1", "", "  # A = no binding", "_b2 =", " \t(A* _b2",
      "\t"].map String.toList
    let text := String.ofList (List.intercalate LineEnd.both.text lines)
    text.utf8ByteSize ≤ maxSourceBytes ∧ HasLines text.toList lines ∧
      lines.filter (!SourceLine.isIdle ·) = d.bindings.map bindingLine ++ [d.pattern.text.toList] ∧
      (∀ name ∈ d.names, SourceLine.isName name.toList = true) ∧
      SourceLine.IsPattern d.pattern.text.toList ∧
      SameResult ParseError.SameFault Eq (ofText text) d.build ∧
      ofText text = .error ⟨.unmatchedOpen, some "pattern", some ⟨6, 3⟩⟩ := by
  intro d lines text
  have hsize : text.utf8ByteSize ≤ maxSourceBytes := by decide
  have htext : HasLines text.toList lines := by
    rw [String.toList_ofList]
    have hplain : lines.all (·.all (!isLineEnd ·)) = true := by decide
    exact hasLines_intercalate .both (by decide) (by simpa using hplain)
  have hlines : lines.filter (!SourceLine.isIdle ·) = d.bindings.map bindingLine ++
      [d.pattern.text.toList] := by
    decide
  have hnames : ∀ name ∈ d.names, SourceLine.isName name.toList = true := by decide
  have hpattern : SourceLine.IsPattern d.pattern.text.toList :=
    ⟨by decide, SourceLine.binding?_eq_none_iff.1 (by decide : SourceLine.binding? .start _ = none)⟩
  exact ⟨hsize, htext, hlines, hnames, hpattern,
    sameResult_ofText_build d text lines hsize htext hlines hnames hpattern, by decide +kernel⟩

end Acceptors.Regex
