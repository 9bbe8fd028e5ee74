import Mathlib.Tactic.Common
import Acceptors.Proofs.Document.Block
import Acceptors.Proofs.Document.Keys

/-! Documents in block form are read as what they were made from. -/

namespace Acceptors

variable {n : Node} {ls read : List Line} {texts : List (List Char)} {l w : Line} {t : List Char}
  {text : String}

namespace Node

def IsBlock : Node → Prop
  | .null _ => False
  | .scalar _ _ => False
  | .list _ items => items ≠ []
  | .mapping _ entries => entries ≠ []

theorem IsBlock.lines_ne_nil (h : n.IsBlock) (indent : Nat) : n.lines indent ≠ [] := by
  cases n with
  | null _ => exact h.elim
  | scalar _ _ => exact h.elim
  | list _ items =>
    cases items with
    | nil => exact absurd rfl h
    | cons n items => exact List.cons_ne_nil _ _
  | mapping _ entries =>
    cases entries with
    | nil => exact absurd rfl h
    | cons e entries =>
      obtain ⟨key, location, value⟩ := e
      exact List.cons_ne_nil _ _

theorem Inline.keysDistinct (h : n.Inline t) : n.KeysDistinct := by
  cases h with
  | scalar _ => trivial
  | noItems => trivial
  | noEntries => exact ⟨List.nodup_nil, trivial⟩

theorem Beside.keysDistinct {value : Option Node} (h : Beside value t) :
    ∀ n ∈ value, n.KeysDistinct := by
  rintro n rfl
  cases h with
  | value h => exact h.keysDistinct

end Node

theorem Line.Written.keysDistinct (h : w.Written t) : ∀ n ∈ w.inlineValue?, n.KeysDistinct := by
  cases h with
  | entry _ _ hv => exact hv.keysDistinct
  | item _ hv =>
    cases hv with
    | nothing => exact fun n hn => absurd hn (Option.not_mem_none n)
    | value hv => exact (Node.Beside.value hv).keysDistinct

theorem Line.inlineValue?_bare (l : Line) : l.bare.inlineValue? = l.inlineValue?.map Node.bare := by
  obtain ⟨indent, location, content⟩ := l
  cases content <;> rfl

theorem keysDistinct_of_written (h : List.Forall₂ Line.Written ls texts)
    (hread : read.map Line.bare = ls) :
    ∀ l ∈ read, ∀ n ∈ l.inlineValue?, n.KeysDistinct := by
  induction h generalizing read with
  | nil =>
    rw [List.map_eq_nil_iff.1 hread]
    exact List.forall_mem_nil _
  | cons hw _ ih =>
    obtain ⟨l, read, rfl, rfl, hrest⟩ := List.map_eq_cons_iff.1 hread
    refine List.forall_mem_cons.2 ⟨fun n hn => ?_, ih hrest⟩
    have hbare : n.bare ∈ l.bare.inlineValue? := by
      rw [Line.inlineValue?_bare, Option.mem_def.1 hn]
      rfl
    exact n.keysDistinct_bare_iff.1 (hw.keysDistinct _ hbare)

namespace Node

theorem ofLines_of_lines (hk : n.KeysDistinct) (hn : n.IsBlock)
    (hread : read.map Line.bare = n.lines 0) :
    ∃ m, Block.ofLines read = .ok m ∧ m.bare = n.bare := by
  have hne := hn.lines_ne_nil 0
  obtain ⟨l, read, rfl⟩ := List.exists_cons_of_ne_nil fun h : read = [] =>
    hne (by rw [← hread, h]; rfl)
  have hindent : l.indent = 0 := by
    rcases Block.beside_cases n 0 with ⟨-, -, hlines⟩ | ⟨-, hlines⟩ | ⟨-, content, tail, hlines⟩
    · exact absurd hlines hne
    · exact absurd hlines hne
    · rw [hlines] at hread
      exact Block.indent_eq_of_bare (List.cons.inj hread).1
  have hends : Block.Ends 0 [] := fun l hl => nomatch hl
  have hfuel : 2 * (l :: read).length + 2 ≤ 3 * (read.length + 1) + 2 := by
    rw [List.length_cons]
    omega
  obtain ⟨m, hm, hbare⟩ := Block.block_of_lines n hk hne hread hends hfuel
  rw [List.append_nil] at hm
  refine ⟨m, ?_, hbare⟩
  rw [Block.ofLines, hindent, hm]

theorem exists_ofText_of_lines (hk : n.KeysDistinct) (hn : n.IsBlock)
    (hlines : List.Forall₂ Line.Written (n.lines 0) texts) (htext : text.toList = joinLines texts)
    (hsize : text.utf8ByteSize ≤ maxSourceBytes) : ∃ m, ofText text = .ok m ∧ m.bare = n.bare := by
  obtain ⟨read, hread, hbare⟩ := Syntax.lines_eq_ok hlines
  obtain ⟨m, hm, hmbare⟩ := ofLines_of_lines hk hn hbare
  refine ⟨m, ?_, hmbare⟩
  rw [ofText_eq_ok_iff_exists_lines, htext]
  exact ⟨hsize, read, hread, keysDistinct_of_written hlines hbare, hm⟩

/-- A tree that is written in block form, with whatever quotes, is read back. -/
theorem ofText_written (hk : n.KeysDistinct) (hn : n.IsBlock) (hw : n.Written text.toList)
    (hsize : text.utf8ByteSize ≤ maxSourceBytes) : ∃ m, ofText text = .ok m ∧ m.bare = n.bare := by
  obtain ⟨texts, hlines, htext⟩ := hw
  exact exists_ofText_of_lines hk hn hlines htext hsize

def nested : Node :=
  .mapping .start [
    .mk "a" .start (.null .start),
    .mk "b:" .start (.list .start [
      .null .start,
      .scalar .start "it's \\",
      .list .start [],
      .mapping .start [.mk "k" .start (.scalar .start "1\n\"\r")]]),
    .mk "" .start (.mapping .start [])]

def nestedText : String :=
  "\"a\":\n" ++
  "'b:':\n" ++
  "  -\n" ++
  "  - 'it''s \\'\n" ++
  "  - []\n" ++
  "  -\n" ++
  "    \"k\": \"1\\n\\\"\\\r\"\n" ++
  "\"\": \x7b\x7d\n"

theorem nestedText_read : ∃ m, ofText nestedText = .ok m ∧ m.bare = nested.bare := by
  have hkey : Syntax.Quoted "b:" ['\'', 'b', ':', '\''] := .single (by simp [Syntax.isLineEnd])
  have hitem : Syntax.Quoted "it's \\" ['\'', 'i', 't', '\'', '\'', 's', ' ', '\\', '\''] :=
    .single (by simp [Syntax.isLineEnd])
  refine ofText_written ?_ (List.cons_ne_nil _ _) ?_ (by decide)
  · simp [nested, KeysDistinct, EntryKeysDistinct, ItemKeysDistinct, Entry.key]
  · refine ⟨_, .cons (.entry 0 .double .nothing) (.cons (.entry 0 hkey .nothing)
      (.cons (.item 2 .nothing) (.cons (.item 2 (.value (.scalar hitem)))
      (.cons (.item 2 (.value .noItems)) (.cons (.item 2 .nothing)
      (.cons (.entry 4 .double (.value (.scalar .double)))
      (.cons (.entry 0 .double (.value .noEntries)) .nil))))))), ?_⟩
    decide

end Node

end Acceptors
