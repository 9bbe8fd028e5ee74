import Mathlib.Tactic.Common
import Acceptors.Document.Basic
import Acceptors.Proofs.Document.Readers
import Acceptors.Proofs.Outcome

/-! Keys of mappings. The check of a value on a line and the readers of blocks refuse a key that a
mapping has already, so the keys of every mapping in a document are distinct. -/

namespace Acceptors

open Node (ItemKeysDistinct EntryKeysDistinct)

variable {earlier : List Entry} {x : Entry} {ls : List Line} {n : Node} {text : String}

theorem Entry.exists_add_iff {p : List Entry → Prop} :
    (∃ found, Entry.add earlier x = .ok found ∧ p found) ↔ x.key ∉ earlier.map Entry.key ∧
    p (x :: earlier) := by
  rcases Entry.add_cases earlier x with ⟨hkey, hadd⟩ | ⟨hkey, hadd⟩
  · refine iff_of_false ?_ fun h => h.1 hkey
    rintro ⟨found, hfound, -⟩
    cases hadd.symm.trans hfound
  · constructor
    · rintro ⟨found, hfound, hp⟩
      cases hadd.symm.trans hfound
      exact ⟨hkey, hp⟩
    · exact fun h => ⟨_, hadd, h.2⟩

mutual

theorem Node.checkKeys_eq_ok_iff (n : Node) : n.checkKeys = .ok () ↔ n.KeysDistinct := by
  cases n with
  | null _ => exact iff_of_true rfl trivial
  | scalar _ _ => exact iff_of_true rfl trivial
  | list _ items => exact checkItems_eq_ok_iff items
  | mapping _ entries =>
    rw [Node.checkKeys, checkEntries_eq_ok_iff [] entries, Node.KeysDistinct]
    exact and_congr_left' (and_iff_left (List.disjoint_nil_right _))

theorem checkItems_eq_ok_iff (items : List Node) :
    checkItems items = .ok () ↔ ItemKeysDistinct items := by
  cases items with
  | nil => exact iff_of_true rfl trivial
  | cons n items =>
    rw [checkItems, check_bind_eq_ok_iff, ItemKeysDistinct, n.checkKeys_eq_ok_iff,
      checkItems_eq_ok_iff items]

theorem checkEntries_eq_ok_iff (earlier entries : List Entry) :
    checkEntries earlier entries = .ok () ↔
    ((entries.map Entry.key).Nodup ∧ (entries.map Entry.key).Disjoint (earlier.map Entry.key)) ∧
      EntryKeysDistinct entries := by
  cases entries with
  | nil => exact iff_of_true rfl ⟨⟨List.nodup_nil, List.disjoint_nil_left _⟩, trivial⟩
  | cons e entries =>
    obtain ⟨key, l, value⟩ := e
    rw [checkEntries, check_bind_eq_ok_iff, EntryKeysDistinct, value.checkKeys_eq_ok_iff,
      bind_eq_ok_iff, Entry.exists_add_iff, checkEntries_eq_ok_iff _ entries]
    simp only [List.map_cons, List.nodup_cons, List.disjoint_cons_left,
      List.disjoint_cons_right, Entry.key]
    tauto

end

theorem checkLines_eq_ok_iff :
    checkLines ls = .ok () ↔ ∀ l ∈ ls, ∀ n ∈ l.inlineValue?, n.KeysDistinct := by
  induction ls with
  | nil => exact iff_of_true rfl fun l hl => absurd hl List.not_mem_nil
  | cons l ls ih =>
    rw [checkLines, List.forall_mem_cons, ← ih]
    split
    · rename_i h
      rw [h]
      exact (and_iff_right fun n hn => absurd hn (Option.not_mem_none n)).symm
    · rename_i n h
      rw [h, check_bind_eq_ok_iff, n.checkKeys_eq_ok_iff]
      exact and_congr_left' ⟨fun hn m hm => Option.mem_some_iff.1 hm ▸ hn, fun hn => hn n rfl⟩

theorem checkSize_eq_ok_iff : checkSize text = .ok () ↔ text.utf8ByteSize ≤ maxSourceBytes := by
  rw [checkSize]
  split
  · rename_i h
    exact iff_of_false (fun h' => nomatch h') (Nat.not_le_of_gt h)
  · rename_i h
    exact iff_of_true rfl (Nat.le_of_not_gt h)

theorem Node.ofText_eq_ok_iff_exists_lines : Node.ofText text = .ok n ↔
    text.utf8ByteSize ≤ maxSourceBytes ∧
    ∃ ls, Syntax.lines text.toList = .ok ls ∧ (∀ l ∈ ls, ∀ n ∈ l.inlineValue?, n.KeysDistinct) ∧
      Block.ofLines ls = .ok n := by
  rw [Node.ofText, check_bind_eq_ok_iff, checkSize_eq_ok_iff, bind_eq_ok_iff]
  refine and_congr_right' (exists_congr fun ls => and_congr_right' ?_)
  rw [check_bind_eq_ok_iff, checkLines_eq_ok_iff]

/-- The mappings in a piece have distinct keys. A value is not asked for more than what stands
beside its key. -/
def Piece.KeysDistinct : Piece → Prop
  | value f n => (∀ m ∈ f.value, m.KeysDistinct) → n.KeysDistinct
  | entries es => EntryKeysDistinct es
  | item n => n.KeysDistinct
  | items ns => ItemKeysDistinct ns
  | block n => n.KeysDistinct

namespace Block

variable {i : Nat} {p : Piece}

theorem Arranged.keysDistinct (h : Arranged i p ls)
    (hls : ∀ l ∈ ls, ∀ n ∈ l.inlineValue?, n.KeysDistinct) :
    p.KeysDistinct := by
  induction h with
  | beside h => exact fun hbeside => hbeside _ h
  | missing _ => exact fun _ => trivial
  | valueBelow _ _ _ ih => exact fun _ => ih hls
  | noEntries => trivial
  | entry _ h _ _ ihvalue ihrest =>
    obtain ⟨hl, hbelow⟩ := List.forall_mem_cons.1 hls
    obtain ⟨hvalue, hrest⟩ := List.forall_mem_append.1 hbelow
    rw [Line.inlineValue?, h] at hl
    exact ⟨ihvalue hvalue hl, ihrest hrest⟩
  | noContent _ _ => trivial
  | itemBelow _ _ _ _ ih => exact ih (List.forall_mem_cons.1 hls).2
  | itemValue _ h =>
    have hl := hls _ (List.mem_singleton_self _)
    rw [Line.inlineValue?, h] at hl
    exact hl _ rfl
  | itemEntry _ h _ _ hkeys ihvalue ihrest =>
    obtain ⟨hl, hbelow⟩ := List.forall_mem_cons.1 hls
    obtain ⟨hvalue, hrest⟩ := List.forall_mem_append.1 hbelow
    rw [Line.inlineValue?, h] at hl
    exact ⟨hkeys, ihvalue hvalue hl, ihrest hrest⟩
  | noItems => trivial
  | items _ _ ihitem ihrest =>
    obtain ⟨hitem, hrest⟩ := List.forall_mem_append.1 hls
    exact ⟨ihitem hitem, ihrest hrest⟩
  | list _ ih => exact ih hls
  | mapping _ hkeys ih => exact ⟨hkeys, ih hls⟩

theorem Holds.keysDistinct (h : Holds ls n) (hls : ∀ l ∈ ls, ∀ n ∈ l.inlineValue?, n.KeysDistinct) :
    n.KeysDistinct := by
  cases h with
  | nothing => trivial
  | block h => exact h.keysDistinct hls

end Block

namespace Node

/-- In every mapping of a document, inside a line or over several, the keys are distinct, however
they are quoted. -/
theorem keysDistinct_of_ofText (h : ofText text = .ok n) : n.KeysDistinct := by
  obtain ⟨-, ls, -, hkeys, hblock⟩ := ofText_eq_ok_iff_exists_lines.1 h
  exact (Block.holds_of_ofLines hblock).keysDistinct hkeys

def keyedText : String :=
  "a: \x7bb: 1, 'c': \x7b\"b\": 2\x7d\x7d\n'b':\n- \"a\": 1\n  b: 2\n\"c\":\n  'it''s': 3"

def keyed : Node :=
  .mapping ⟨1, 1⟩ [
    .mk "a" ⟨1, 1⟩ (.mapping ⟨1, 4⟩ [
      .mk "b" ⟨1, 5⟩ (.scalar ⟨1, 8⟩ "1"),
      .mk "c" ⟨1, 11⟩ (.mapping ⟨1, 16⟩ [.mk "b" ⟨1, 17⟩ (.scalar ⟨1, 22⟩ "2")])]),
    .mk "b" ⟨2, 1⟩ (.list ⟨3, 1⟩ [
      .mapping ⟨3, 3⟩ [.mk "a" ⟨3, 3⟩ (.scalar ⟨3, 8⟩ "1"), .mk "b" ⟨4, 3⟩ (.scalar ⟨4, 6⟩ "2")]]),
    .mk "c" ⟨5, 1⟩ (.mapping ⟨6, 3⟩ [.mk "it's" ⟨6, 3⟩ (.scalar ⟨6, 12⟩ "3")])]

theorem keysDistinct_keyed : ofText keyedText = .ok keyed ∧ keyed.KeysDistinct := by
  have hread : ofText keyedText = .ok keyed := by decide +kernel
  exact ⟨hread, keysDistinct_of_ofText hread⟩

example : ofText "- a: 1\n  'a': 2" = .error (Entry.duplicate "a" ⟨2, 3⟩) := by decide +kernel

end Node

end Acceptors
