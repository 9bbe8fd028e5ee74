import Mathlib.Tactic.Common
import Acceptors.Proofs.Document.Flow
import Acceptors.Proofs.Document.Keys

/-! Documents of one item in flow form. -/

namespace Acceptors

variable {n : Node} {t : List Char} {text : String} {limit : Nat}

namespace Syntax

open Scan (Reads Fails fails_char)

theorem fails_entry_flow (h : n.Flow t) (limit : Nat) : Fails (entry limit) t := by
  refine Fails.named _ (Scan.reads_location.bind_fails fun _ _ => ?_)
  cases h with
  | scalar hq =>
    -- The scalar itself would be a key, but no colon follows it.
    have hread : Reads scalar (t ++ []) [] (· = _) := hq.reads (by simp)
    rw [List.append_nil] at hread
    refine hread.bind_fails fun _ _ => (Scan.reads_skip_nil isBlank).bind_fails fun _ _ => ?_
    exact (fails_char (by simp)).bind
  | list _ => exact (fails_scalar (by simp; decide)).bind
  | mapping _ => exact (fails_scalar (by simp; decide)).bind

theorem reads_flow_line (h : n.Flow t) (hlimit : t.length ≤ limit) :
    Reads (line limit) ('-' :: ' ' :: t) [] fun found =>
      ∃ l, found = some l ∧ l.indent = 0 ∧ ∃ m, l.content = .itemValue m ∧ m.bare = n.bare := by
  have hread := reads_flow n h hlimit
  have hhead : ∃ x t', t = x :: t' ∧ isBlank x = false := by
    obtain ⟨x, t', rfl, hx⟩ := hread.head
    exact ⟨x, t', rfl, (Bool.or_eq_false_iff.1 hx).1⟩
  have hentry : Fails (entry limit) (t ++ []) := (List.append_nil t).symm ▸ fails_entry_flow h limit
  have hitem := reads_item_value hhead hentry (hread.reads [] (by simp))
  rw [List.append_nil] at hitem
  exact reads_line_of_content 0 rfl hitem.orElse (by simp)

theorem lines_flow (h : n.Flow t) :
    ∃ l m, lines ('-' :: ' ' :: t) = .ok [l] ∧ l.content = .itemValue m ∧ m.bare = n.bare := by
  have hnone : Fails (do Scan.newline; line (t.length + 3)) [] := Scan.fails_newline_nil.bind
  have hread : Reads (document (t.length + 3)) ('-' :: ' ' :: t) [] fun ls =>
      ∃ l m, ls = [l] ∧ l.content = .itemValue m ∧ m.bare = n.bare := by
    refine Reads.named _ ((reads_flow_line h (by omega)).bind fun first hfirst => ?_)
    obtain ⟨l, rfl, -, m, hcontent, hm⟩ := hfirst
    refine (hnone.manyAfter _ _).bind fun others hothers => Scan.reads_endOfText.bind fun _ _ => ?_
    refine (Scan.reads_pure _).imp fun ls hls => ⟨l, m, ?_, hcontent, hm⟩
    rw [hls, hothers]
    rfl
  obtain ⟨ls, c, a, hdocument, -, l, m, rfl, hcontent, hm⟩ :=
    hread (.ofText ('-' :: ' ' :: t)) .initial rfl
  refine ⟨l, m, ?_, hcontent, hm⟩
  rw [lines, List.length_cons, List.length_cons, hdocument]

end Syntax

theorem Block.ofLines_itemValue {l : Line} (h : l.content = .itemValue n) :
    ofLines [l] = .ok (.list l.location [n]) := by
  have hitem : l.isItem = true := by rw [Line.isItem, h]
  have hitems : items 4 l.indent [] [l] = .ok ([n], []) := by
    rw [items]
    simp only [if_true, h]
    rfl
  rw [ofLines]
  simp only [List.length_nil, block, hitem, if_true, hitems]
  rfl

namespace Node

/-- A tree without missing values has a text in flow form, and as the one item of a document each of
its texts is read back as the tree. -/
theorem ofText_flow (hk : n.KeysDistinct) (hn : n.NullFree) :
    n.Flow n.flowText ∧ ∀ t text, n.Flow t → text.toList = '-' :: ' ' :: t →
    text.utf8ByteSize ≤ maxSourceBytes →
      ∃ m, ofText text = .ok m ∧ m.bare = .list .start [n.bare] := by
  refine ⟨n.flow_flowText hn, fun t text ht htext hsize => ?_⟩
  obtain ⟨l, m, hlines, hl, hm⟩ := Syntax.lines_flow ht
  have hkeys : m.KeysDistinct := m.keysDistinct_bare_iff.1 (hm ▸ n.keysDistinct_bare_iff.2 hk)
  have hinline : ∀ l' ∈ [l], ∀ n ∈ l'.inlineValue?, n.KeysDistinct := by
    rw [List.forall_mem_singleton, Line.inlineValue?, hl]
    rintro _ ⟨⟩
    exact hkeys
  refine ⟨.list l.location [m], ?_, by rw [bare_list, List.map_singleton, hm]⟩
  rw [ofText_eq_ok_iff_exists_lines, htext]
  exact ⟨hsize, [l], hlines, hinline, Block.ofLines_itemValue hl⟩

def folded : Node :=
  .mapping .start [
    .mk "it's" .start (.list .start [.scalar .start "\\\"\n\r", .scalar .start "",
      .list .start []]),
    .mk "\x7b:,\x7d" .start (.mapping .start [])]

def foldedText : String :=
  "- \x7b\n\t'it''s' : [\"\\\\\\\"\\n\\\r\",'' , [ ],\r\n]\n, \"\x7b:,\x7d\":\n\x7b\x7d ,\x7d"

theorem foldedText_read : folded.Flow folded.flowText ∧ ∃ m, ofText foldedText = .ok m ∧
    m.bare = .list .start [folded.bare] := by
  have hk : folded.KeysDistinct := by
    simp [folded, KeysDistinct, EntryKeysDistinct, ItemKeysDistinct, Entry.key]
  have hn : folded.NullFree := by simp [folded, NullFree, EntriesNullFree, ItemsNullFree]
  have hkey : Syntax.Quoted "it's" ['\'', 'i', 't', '\'', '\'', 's', '\''] :=
    .single (by simp [Syntax.isLineEnd])
  have hempty : Syntax.Quoted "" ['\'', '\''] := .single (by simp)
  have hspace := Syntax.gap_space
  have hnone := Syntax.gap_nil
  have hfeed : Syntax.Gap ['\n'] := by simp [Syntax.Gap]; decide
  have hreturn : Syntax.Gap ['\r', '\n'] := by simp [Syntax.Gap]; decide
  have htab : Syntax.Gap ['\n', '\t'] := by simp [Syntax.Gap]; decide
  have hitems : (list .start [.scalar .start "\\\"\n\r", .scalar .start "",
      .list .start []]).Flow _ :=
    .list (.first hnone (.scalar .double) (.next hnone hnone (.scalar hempty) (.next hspace hspace
      (.list (.nothing hspace)) (.comma hnone hreturn))))
  have hflow : folded.Flow _ :=
    .mapping (.first htab (.pair hkey hspace hspace hitems) (.next hfeed hspace
      (.pair .double hnone hfeed (.mapping (.nothing hnone))) (.comma hspace hnone)))
  have hread := ofText_flow hk hn
  exact ⟨hread.1, hread.2 _ foldedText hflow (by decide) (by decide)⟩

end Node

end Acceptors
