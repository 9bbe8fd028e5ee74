import Mathlib.Data.List.Forall2
import Mathlib.Tactic.Common
import Acceptors.Proofs.Document.Node
import Acceptors.Proofs.Document.Quoted

/-! Documents in block form. Every entry and every item has a line of its own, and what does not go
on this line stands below it, two columns further in. Written with quotes, each line is read back as
it was. -/

namespace Acceptors

/-- What of a value stands on the line of its key or its dash. -/
def Node.beside? : Node → Option Node
  | .null _ => none
  | .scalar _ text => some (.scalar .start text)
  | .list _ [] => some (.list .start [])
  | .list _ (_ :: _) => none
  | .mapping _ [] => some (.mapping .start [])
  | .mapping _ (_ :: _) => none

def Line.Content.ofItem : Option Node → Line.Content
  | none => .item
  | some n => .itemValue n

mutual

def Node.lines (indent : Nat) : Node → List Line
  | .null _ => []
  | .scalar _ _ => []
  | .list _ items => itemLines indent items
  | .mapping _ entries => entryLines indent entries

def itemLines (indent : Nat) : List Node → List Line
  | [] => []
  | n :: items =>
    ⟨indent, .start, .ofItem n.beside?⟩ :: (n.lines (indent + 2) ++ itemLines indent items)

def entryLines (indent : Nat) : List Entry → List Line
  | [] => []
  | .mk key _ value :: entries =>
    ⟨indent, .start, .entry ⟨key, .start, value.beside?⟩⟩ ::
      (value.lines (indent + 2) ++ entryLines indent entries)

end

inductive Node.Inline : Node → List Char → Prop
  | scalar {text : String} {t : List Char} (h : Syntax.Quoted text t) :
      Inline (.scalar .start text) t
  | noItems : Inline (.list .start []) ['[', ']']
  | noEntries : Inline (.mapping .start []) ['\x7b', '\x7d']

inductive Node.Beside : Option Node → List Char → Prop
  | nothing : Beside none []
  | value {n : Node} {t : List Char} (h : n.Inline t) : Beside (some n) (' ' :: t)

inductive Line.Written : Line → List Char → Prop
  | entry (indent : Nat) {key : String} {k : List Char} {value : Option Node} {t : List Char}
    (hk : Syntax.Quoted key k) (hv : Node.Beside value t) :
    Written ⟨indent, .start, .entry ⟨key, .start, value⟩⟩
    (List.replicate indent ' ' ++ (k ++ ':' :: t))
  | item (indent : Nat) {value : Option Node} {t : List Char} (hv : Node.Beside value t) :
    Written ⟨indent, .start, .ofItem value⟩ (List.replicate indent ' ' ++ '-' :: t)

def joinLines (lines : List (List Char)) : List Char := lines.flatMap (· ++ ['\n'])

def Node.Written (n : Node) (text : List Char) : Prop :=
  ∃ lines, List.Forall₂ Line.Written (n.lines 0) lines ∧ text = joinLines lines

def Node.inlineText : Node → List Char
  | .null _ => []
  | .scalar _ text => '"' :: text.toList.flatMap Syntax.escape ++ ['"']
  | .list _ _ => ['[', ']']
  | .mapping _ _ => ['\x7b', '\x7d']

def Node.besideText : Option Node → List Char
  | none => []
  | some n => ' ' :: n.inlineText

def Line.text (l : Line) : List Char :=
  List.replicate l.indent ' ' ++
    match l.content with
    | .entry f => '"' :: f.key.toList.flatMap Syntax.escape ++ ['"'] ++ ':' ::
      Node.besideText f.value
    | .item => ['-']
    | .itemValue n => '-' :: Node.besideText (some n)
    | .itemEntry f =>
      '-' :: ' ' :: '"' :: f.key.toList.flatMap Syntax.escape ++ ['"'] ++ ':' ::
        Node.besideText f.value

/-- A tree in block form with all texts between double quotes. -/
def Node.text (n : Node) : String := .ofList (joinLines ((n.lines 0).map Line.text))

theorem Node.beside_besideText (n : Node) : Beside n.beside? (besideText n.beside?) := by
  cases n with
  | null _ => exact .nothing
  | scalar _ text => exact .value (.scalar .double)
  | list _ items =>
    cases items with
    | nil => exact .value .noItems
    | cons n items => exact .nothing
  | mapping _ entries =>
    cases entries with
    | nil => exact .value .noEntries
    | cons e entries => exact .nothing

mutual

theorem Node.written_lines (indent : Nat) (n : Node) : ∀ l ∈ n.lines indent, l.Written l.text := by
  cases n with
  | null _ => exact fun l hl => absurd hl List.not_mem_nil
  | scalar _ _ => exact fun l hl => absurd hl List.not_mem_nil
  | list _ items => exact written_itemLines indent items
  | mapping _ entries => exact written_entryLines indent entries

theorem written_itemLines (indent : Nat) (items : List Node) :
    ∀ l ∈ itemLines indent items, l.Written l.text := by
  cases items with
  | nil => exact fun l hl => absurd hl List.not_mem_nil
  | cons n items =>
    have hline : Line.Written ⟨indent, .start, .ofItem n.beside?⟩
        (Line.text ⟨indent, .start, .ofItem n.beside?⟩) := by
      have hwritten := Line.Written.item indent n.beside_besideText
      cases hbeside : n.beside? <;> rw [hbeside] at hwritten <;> exact hwritten
    rw [itemLines, List.forall_mem_cons, List.forall_mem_append]
    exact ⟨hline, n.written_lines (indent + 2), written_itemLines indent items⟩

theorem written_entryLines (indent : Nat) (entries : List Entry) :
    ∀ l ∈ entryLines indent entries, l.Written l.text := by
  cases entries with
  | nil => exact fun l hl => absurd hl List.not_mem_nil
  | cons e entries =>
    obtain ⟨key, location, value⟩ := e
    rw [entryLines, List.forall_mem_cons, List.forall_mem_append]
    exact ⟨.entry indent .double value.beside_besideText, value.written_lines (indent + 2),
      written_entryLines indent entries⟩

end

theorem Node.written_text (n : Node) : n.Written n.text.toList :=
  ⟨_, List.forall₂_map_right_iff.2 (List.forall₂_same.2 (n.written_lines 0)), String.toList_ofList⟩

namespace Syntax

open Scan (Reads Fails reads_char fails_char reads_pure)

variable {t rest : List Char} {n : Node} {text : String} {k limit : Nat}

theorem Quoted.head (h : Quoted text t) : ∃ x t', t = x :: t' ∧ (x = '"' ∨ x = '\'') := by
  cases h with
  | double => exact ⟨_, _, rfl, .inl rfl⟩
  | single _ => exact ⟨_, _, rfl, .inr rfl⟩

theorem fails_scalar (h : ∀ x ∈ t.head?, x ≠ '\'' ∧ x ≠ '"' ∧ isPlain x = false) :
    Fails scalar t := by
  have hhead (y : Char) (hy : ∀ x ∈ t.head?, x ≠ y) : Fails (Scan.char y) t :=
    fails_char fun hx => hy y hx rfl
  have hsingle : Fails singleQuoted t := ((hhead '\'' fun x hx => (h x hx).1).bind).named _
  have hdouble : Fails doubleQuoted t := ((hhead '"' fun x hx => (h x hx).2.1).bind).named _
  have hplain : Fails plain t := ((Scan.fails_next fun x hx => (h x hx).2.2).bind).named _
  exact (hsingle.orElse (hdouble.orElse hplain)).named _

theorem fails_flowSequence (h : t.head? ≠ some '[') (p : Scan Node) : Fails (flowSequence k p) t :=
  ((fails_char h).bind).named _

theorem fails_flowMapping (h : t.head? ≠ some '\x7b') (p : Scan Node) : Fails (flowMapping k p) t :=
  ((fails_char h).bind).named _

theorem fails_value (h : ∀ x ∈ t.head?, x ≠ '\'' ∧ x ≠ '"' ∧ isPlain x = false)
    (hopen : t.head? ≠ some '[' ∧ t.head? ≠ some '\x7b') (limit : Nat) : Fails (value limit) t := by
  cases limit with
  | zero => exact Scan.fails_fail
  | succ limit =>
    refine Scan.reads_location.bind_fails fun _ _ => ?_
    exact ((fails_flowSequence hopen.1 _).map _).orElse
      (((fails_flowMapping hopen.2 _).map _).orElse ((fails_scalar h).map _))

theorem reads_bracketed_nil {α : Type} {opening closing : Char} {p : Scan α}
    (hp : Fails p (closing :: t)) (hclosing : isSpace closing = false) :
    Reads (bracketed opening closing k p) (opening :: closing :: t) t (· = []) := by
  refine (reads_char _).bind fun _ _ => ?_
  refine (Scan.reads_skip_nothing hclosing).bind fun _ _ => ?_
  have hnothing : Reads (separated k p) (closing :: t) (closing :: t) (· = []) :=
    (hp.bind.optional).bind fun items hitems => (reads_pure _).imp fun _ h => by rw [h, hitems]; rfl
  refine hnothing.bind fun items hitems => ?_
  refine (Scan.reads_skip_nothing hclosing).bind fun _ _ => ?_
  exact (reads_char _).bind fun _ _ => hitems ▸ reads_pure items

theorem Quoted.reads_value (h : Quoted text t) (hrest : rest.head? ≠ some '\'') (limit : Nat) :
    Reads (value (limit + 1)) (t ++ rest) rest fun m => m.bare = .scalar .start text := by
  refine Scan.reads_location.bind fun l _ => ?_
  obtain ⟨x, t', rfl, hx⟩ := h.head
  have hsequence : Fails (flowSequence limit (value limit)) (x :: t' ++ rest) :=
    fails_flowSequence (by rcases hx with rfl | rfl <;> simp) _
  have hmapping : Fails (flowMapping limit (value limit)) (x :: t' ++ rest) :=
    fails_flowMapping (by rcases hx with rfl | rfl <;> simp) _
  refine (hsequence.map _).orElse_reads ((hmapping.map _).orElse_reads ?_)
  refine ((h.reads hrest).map _).imp fun m hm => ?_
  obtain ⟨s, rfl, rfl⟩ := hm
  rfl

theorem fails_flowPair (rest : List Char) (p : Scan Node) :
    Fails (flowPair p) ('\x7d' :: rest) := by
  refine Fails.named _ (Scan.reads_location.bind_fails fun _ _ => Fails.bind ?_)
  exact fails_scalar (by simp; decide)

theorem reads_inline (h : n.Inline t) (rest : List Char) (limit : Nat) :
    Reads (value (limit + 1)) (t ++ '\n' :: rest) ('\n' :: rest) fun m => m.bare = n := by
  cases h with
  | scalar hq => exact hq.reads_value (by simp) limit
  | noItems =>
    have hvalue : Fails (value limit) (']' :: '\n' :: rest) :=
      fails_value (by simp; decide) (by simp) limit
    refine Scan.reads_location.bind fun l _ => ?_
    refine (((reads_bracketed_nil hvalue (by decide)).named _).map _).orElse.imp fun m hm => ?_
    obtain ⟨items, rfl, rfl⟩ := hm
    rfl
  | noEntries =>
    have hsequence : Fails (flowSequence limit (value limit)) ('\x7b' :: '\x7d' :: '\n' :: rest) :=
      fails_flowSequence (by simp) _
    have hpair := fails_flowPair ('\n' :: rest) (value limit)
    refine Scan.reads_location.bind fun l _ => (hsequence.map _).orElse_reads ?_
    refine (((reads_bracketed_nil hpair (by decide)).named _).map _).orElse.imp fun m hm => ?_
    obtain ⟨entries, rfl, rfl⟩ := hm
    rfl

theorem inline_head (h : n.Inline t) : ∃ x t', t = x :: t' ∧ isBlank x = false := by
  cases h with
  | scalar hq =>
    obtain ⟨x, t', rfl, hx⟩ := hq.head
    exact ⟨x, t', rfl, by rcases hx with rfl | rfl <;> decide⟩
  | noItems => exact ⟨_, _, rfl, by decide⟩
  | noEntries => exact ⟨_, _, rfl, by decide⟩

theorem reads_blank (h : n.Inline t) (rest : List Char) :
    Reads (Scan.skip1 isBlank) (' ' :: t ++ '\n' :: rest) (t ++ '\n' :: rest) fun _ => True := by
  obtain ⟨x, t', rfl, hx⟩ := inline_head h
  exact Scan.reads_skip1_single (by decide) hx

theorem fails_entry_inline (h : n.Inline t) (rest : List Char) (limit : Nat) :
    Fails (entry limit) (t ++ '\n' :: rest) := by
  refine Fails.named _ (Scan.reads_location.bind_fails fun _ _ => ?_)
  cases h with
  | scalar hq =>
    -- The scalar itself would be a key, but no colon follows it.
    refine (hq.reads (by simp)).bind_fails fun _ _ => ?_
    refine (Scan.reads_skip_nothing (by decide)).bind_fails fun _ _ => ?_
    exact (fails_char (by simp)).bind
  | noItems => exact (fails_scalar (by simp; decide)).bind
  | noEntries => exact (fails_scalar (by simp; decide)).bind

theorem reads_beside {value' : Option Node} (h : Node.Beside value' t) (rest : List Char)
    (limit : Nat) :
    Reads (Scan.optional do let _ ← Scan.skip1 isBlank; value (limit + 1)) (t ++ '\n' :: rest)
      ('\n' :: rest) fun found => found.map Node.bare = value' := by
  cases h with
  | nothing =>
    have hblank : Fails (Scan.skip1 isBlank) ('\n' :: rest) := Scan.fails_skip1 (by decide)
    exact hblank.bind.optional.imp fun _ h => by rw [h, Option.map_none]
  | value h =>
    refine ((reads_blank h rest).bind fun _ _ => reads_inline h rest limit).optional.imp fun _ h =>
      ?_
    obtain ⟨m, rfl, rfl⟩ := h
    rfl

theorem reads_entry {key : String} {k : List Char} {value' : Option Node} (hk : Quoted key k)
    (hv : Node.Beside value' t) (rest : List Char) (limit : Nat) :
    Reads (entry (limit + 1)) (k ++ ':' :: t ++ '\n' :: rest) ('\n' :: rest)
      fun f => f.bare = ⟨key, .start, value'⟩ := by
  refine Reads.named _ (Scan.reads_location.bind fun l _ => ?_)
  rw [List.append_assoc]
  refine (hk.reads (by simp)).bind fun read hread => ?_
  refine (Scan.reads_skip_nothing (by decide)).bind fun _ _ => ?_
  refine (reads_char _).bind fun _ _ => (reads_beside hv rest limit).bind fun found hfound => ?_
  refine (reads_pure _).imp fun f hf => ?_
  rw [hf, hread, Field.bare, hfound]

theorem reads_item_value {P : Node → Prop} (hhead : ∃ x t', t = x :: t' ∧ isBlank x = false)
    (hentry : Fails (entry limit) (t ++ rest)) (hvalue : Reads (value limit) (t ++ rest) rest P) :
    Reads (item limit) ('-' :: ' ' :: (t ++ rest)) rest fun content =>
        ∃ m, content = .itemValue m ∧ P m := by
  obtain ⟨x, t', rfl, hx⟩ := hhead
  have hblank : Reads (Scan.skip1 isBlank) (' ' :: (x :: t' ++ rest)) (x :: t' ++ rest) fun _ =>
    True :=
    Scan.reads_skip1_single (by decide) hx
  have hdash : Reads afterDash (' ' :: (x :: t' ++ rest)) (x :: t' ++ rest) fun _ => True :=
    (hblank.bind fun _ _ => (reads_pure _).imp fun _ _ => trivial).orElse
  have hcontent :=
    (hentry.map Line.Content.itemEntry).orElse_reads (hvalue.map Line.Content.itemValue)
  refine Reads.named _ ((reads_char _).bind fun _ _ => hdash.ahead.bind fun _ _ => ?_)
  refine (hblank.bind fun _ _ => hcontent).optional.bind fun content hcontent => ?_
  obtain ⟨_, rfl, m, hm, rfl⟩ := hcontent
  exact (reads_pure _).imp fun _ h => ⟨m, h, hm⟩

theorem reads_item {value' : Option Node} (hv : Node.Beside value' t) (rest : List Char)
    (limit : Nat) :
    Reads (item (limit + 1)) ('-' :: t ++ '\n' :: rest) ('\n' :: rest)
      fun content => content.bare = .ofItem value' := by
  cases hv with
  | nothing =>
    have hblank : Fails (Scan.skip1 isBlank) ('\n' :: rest) := Scan.fails_skip1 (by decide)
    have hdash : Reads afterDash ('\n' :: rest) rest fun _ => True :=
      hblank.bind.orElse_reads (Scan.reads_newline.orElse)
    refine Reads.named _ ((reads_char _).bind fun _ _ => ?_)
    refine hdash.ahead.bind fun _ _ => hblank.bind.optional.bind fun content hcontent => ?_
    refine (reads_pure _).imp fun _ h => ?_
    rw [h, hcontent]
    rfl
  | value h =>
    have hread := reads_item_value (inline_head h) (fails_entry_inline h rest (limit + 1))
      (reads_inline h rest limit)
    refine hread.imp fun content hcontent => ?_
    obtain ⟨m, rfl, rfl⟩ := hcontent
    rfl

theorem fails_item (h : t.head? ≠ some '-') (limit : Nat) : Fails (item limit) t :=
  (fails_char h).bind.named _

theorem reads_line_end (l : Option Line) (hrest : ∀ c ∈ rest.head?, c = '\n') :
    Reads (do
      let _ ← skipBlanks
      let _ ← Scan.optional skipComment
      return l) rest rest (· = l) := by
  have hcomment : Fails skipComment rest :=
    (fails_char fun h => absurd (hrest _ h) (by decide)).bind
  have hblanks : Reads skipBlanks rest rest (· = []) := by
    cases rest with
    | nil => exact Scan.reads_skip_nil _
    | cons c rest => exact Scan.reads_skip_nothing (hrest c rfl ▸ rfl)
  exact hblanks.bind fun _ _ => hcomment.optional.bind fun _ _ => reads_pure l

theorem reads_indent (indent : Nat) {x : Char} (hx : (x == ' ') = false) :
    Reads (Scan.named .indent (Scan.skip (· == ' '))) (List.replicate indent ' ' ++ x :: t) (x :: t)
      (· = List.replicate indent ' ') := by
  refine (Scan.reads_skip_append (· == ' ') (fun y hy => ?_) hx).named _
  rw [List.eq_of_mem_replicate hy]
  rfl

theorem reads_line_of_content {P : Line.Content → Prop}
    (indent : Nat) {x : Char} (hx : (x == ' ') = false)
    (hcontent : Reads (item limit <|> Line.Content.entry <$> entry limit) (x :: t) rest P)
    (hrest : ∀ c ∈ rest.head?, c = '\n') :
    Reads (line limit) (List.replicate indent ' ' ++ x :: t) rest
      fun found => ∃ l, found = some l ∧ l.indent = indent ∧ P l.content := by
  refine Reads.named _ ((reads_indent indent hx).bind fun i hi =>
    Scan.reads_location.bind fun _ _ => ?_)
  refine hcontent.optional.bind fun content hc => ?_
  obtain ⟨content, rfl, hP⟩ := hc
  refine (reads_line_end _ hrest).imp fun _ h => ⟨_, h, ?_, hP⟩
  rw [hi, List.length_replicate]

theorem reads_line {l : Line} (h : l.Written t) (rest : List Char) (limit : Nat) :
    Reads (line (limit + 1)) (t ++ '\n' :: rest) ('\n' :: rest)
      fun found => found.map Line.bare = some l := by
  have hend : ∀ c ∈ ('\n' :: rest).head?, c = '\n' := fun c hc => (Option.some.inj hc).symm
  cases h with
  | entry indent hk hv =>
    have hentry := reads_entry hk hv rest limit
    obtain ⟨x, k', rfl, hx⟩ := hk.head
    have hspace : (x == ' ') = false := by rcases hx with rfl | rfl <;> decide
    have hitem (u : List Char) : Fails (item (limit + 1)) (x :: u) :=
      fails_item (by rcases hx with rfl | rfl <;> simp) _
    rw [List.append_assoc]
    refine (reads_line_of_content indent hspace ((hitem _).orElse_reads (hentry.map _)) hend).imp
      fun found hl => ?_
    obtain ⟨l, rfl, rfl, f, hf, hcontent⟩ := hl
    rw [Option.map_some, Line.bare, hcontent, Line.Content.bare, hf]
  | item indent hv =>
    rw [List.append_assoc]
    refine (reads_line_of_content indent (by decide) (reads_item hv rest limit).orElse hend).imp
      fun found hl => ?_
    obtain ⟨l, rfl, rfl, hcontent⟩ := hl
    rw [Option.map_some, Line.bare, hcontent]

theorem reads_line_nil (limit : Nat) : Reads (line limit) [] [] (· = none) := by
  have hentry : Fails (entry limit) [] :=
    (Scan.reads_location.bind_fails fun _ _ => (fails_scalar (by simp)).bind).named _
  refine Reads.named _ (((Scan.reads_skip_nil _).named _).bind fun _ _ => ?_)
  refine Scan.reads_location.bind fun _ _ => ?_
  refine ((fails_item (by simp) limit).orElse (hentry.map _)).optional.bind fun content hcontent =>
    ?_
  exact (reads_line_end _ (by simp)).imp fun _ h => by rw [h, hcontent, Option.map_none]

theorem reads_many_lines {ls : List Line} {texts : List (List Char)}
    (h : List.Forall₂ Line.Written ls texts) (hk : ls.length < k) (before : List (Option Line)) :
    Reads (Scan.manyAfter (do Scan.newline; line (limit + 1)) k before) ('\n' :: joinLines texts) []
      fun found => ∃ read : List Line, found = before.reverse ++ (read.map some ++ [none]) ∧
        read.map Line.bare = ls := by
  obtain ⟨k, rfl⟩ : ∃ k', k = k' + 1 := ⟨k - 1, by omega⟩
  induction h generalizing k before with
  | nil =>
    have hempty : Reads (do Scan.newline; line (limit + 1)) ['\n'] [] (· = none) :=
      Scan.reads_newline.bind fun _ _ => reads_line_nil (limit + 1)
    refine Reads.manyAfter (t := ['\n']) hempty fun last hlast => ?_
    refine (Scan.fails_newline_nil.bind.manyAfter _ _).imp fun found hfound => ⟨[], ?_, rfl⟩
    rw [hfound, hlast, List.reverse_cons]
    rfl
  | @cons l text ls texts hl _ ih =>
    have hfirst : Reads (do Scan.newline; line (limit + 1))
        ('\n' :: (text ++ '\n' :: joinLines texts)) ('\n' :: joinLines texts)
        fun found => found.map Line.bare = some l :=
      Scan.reads_newline.bind fun _ _ => reads_line hl (joinLines texts) limit
    rw [joinLines, List.flatMap_cons, List.append_assoc]
    refine hfirst.manyAfter fun first hfirst => ?_
    obtain ⟨k, rfl⟩ : ∃ k', k = k' + 1 := ⟨k - 1, by rw [List.length_cons] at hk; omega⟩
    refine (ih (first :: before) k (Nat.lt_of_succ_lt_succ hk)).imp fun found hfound => ?_
    obtain ⟨read, hread, hbare⟩ := hfound
    obtain ⟨l', rfl, hl'⟩ := Option.map_eq_some_iff.1 hfirst
    refine ⟨l' :: read, ?_, by rw [List.map_cons, hl', hbare]⟩
    rw [hread, List.reverse_cons, List.append_assoc]
    rfl

theorem length_le_joinLines (texts : List (List Char)) :
    texts.length ≤ (joinLines texts).length := by
  induction texts with
  | nil => exact Nat.le_refl 0
  | cons text texts ih =>
    rw [joinLines, List.flatMap_cons, List.length_append, List.length_append, List.length_cons,
      List.length_singleton]
    rw [joinLines] at ih
    omega

theorem reads_document {ls : List Line} {texts : List (List Char)}
    (h : List.Forall₂ Line.Written ls texts) (hlimit : ls.length ≤ limit) :
    Reads (document (limit + 1)) (joinLines texts) [] fun read => read.map Line.bare = ls := by
  refine Reads.named _ ?_
  cases h with
  | nil =>
    have hnone : Fails (do Scan.newline; line (limit + 1)) [] := Scan.fails_newline_nil.bind
    refine (reads_line_nil _).bind fun first hfirst =>
      (hnone.manyAfter _ _).bind fun others hothers => ?_
    refine Scan.reads_endOfText.bind fun _ _ => (reads_pure _).imp fun read hread => ?_
    rw [hread, hfirst, hothers]
    rfl
  | @cons l text ls texts hl h =>
    rw [joinLines, List.flatMap_cons, List.append_assoc]
    refine (reads_line hl (joinLines texts) limit).bind fun first hfirst => ?_
    obtain ⟨l', rfl, hl'⟩ := Option.map_eq_some_iff.1 hfirst
    rw [List.length_cons] at hlimit
    refine (reads_many_lines h (by omega) []).bind fun others hothers => ?_
    obtain ⟨read, rfl, hbare⟩ := hothers
    refine Scan.reads_endOfText.bind fun _ _ => (reads_pure _).imp fun found hfound => ?_
    have hall : found = l' :: read := by
      rw [hfound]
      simp
    rw [hall, List.map_cons, hl', hbare]

theorem lines_eq_ok {ls : List Line} {texts : List (List Char)}
    (h : List.Forall₂ Line.Written ls texts) :
    ∃ read, lines (joinLines texts) = .ok read ∧ read.map Line.bare = ls := by
  have hlimit : ls.length ≤ (joinLines texts).length :=
    h.length_eq ▸ length_le_joinLines texts
  obtain ⟨read, c, a, hread, -, hbare⟩ :=
    reads_document h hlimit (.ofText (joinLines texts)) .initial rfl
  refine ⟨read, ?_, hbare⟩
  rw [lines, hread]

end Syntax

end Acceptors
