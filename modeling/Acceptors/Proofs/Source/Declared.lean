import Acceptors.Proofs.Source.Located

/-! Names in documents. What a document of a finite automaton or a Turing machine names has to be
declared in it, or the document is refused. Only a row without entries may be that of any state. -/

namespace Acceptors

open Source

/-- What a document names states and symbols for. -/
inductive Role
  | start
  | accepting
  | rejecting
  /-- The key of a row with entries. -/
  | row
  /-- The key of a row without entries. -/
  | emptyRow
  | target
  | symbol
deriving DecidableEq

namespace Role

def texts (f : Formalism) (root : Node) : Role → List String
  | start => root.textsUnder ["start_state"]
  | accepting => root.textsUnder ["accept_states", "accept_state"]
  | rejecting => root.textsUnder ["reject_state"]
  | row => (root.rows.filter (!·.value.entries.isEmpty)).map Entry.key
  | emptyRow => (root.rows.filter (·.value.entries.isEmpty)).map Entry.key
  | target => root.cells.flatMap fun cell => targetsOf f cell.2
  | symbol => root.cells.flatMap fun cell => symbolsOf f cell.2

def declared (f : Formalism) (root : Node) : Role → List String
  | symbol => alphabetOf f root
  | _ => root.textsUnder ["states"]

end Role

namespace Description

variable {d : Description} {root : Node} {t : StateTable} {a : Alphabet}

theorem Contents.texts_subset_declared (h : d.Contents root) (ht : d.Tables t a)
    (hm : ∀ m ∈ d.moves, m.Declared t a) {role : Role} (hrole : role ≠ .emptyRow) :
    role.texts d.formalism root ⊆ role.declared d.formalism root := by
  have hnamed : ∀ name ∈ d.named, name ∈ root.textsUnder ["states"] := h.states ▸ ht.named
  rw [h.named, List.forall_mem_append, List.forall_mem_append] at hnamed
  have hcells : ∀ cell ∈ root.cells, cell.1.key ∈ root.textsUnder ["states"] ∧
      symbolsOf d.formalism cell.2 ⊆ alphabetOf d.formalism root ∧
        targetsOf d.formalism cell.2 ⊆ root.textsUnder ["states"] := fun cell hcell => by
    obtain ⟨m, hmem, hsays⟩ := h.exists_move hcell
    exact (h.declared_iff ht hsays).1 (hm m hmem)
  cases role with
  | start => exact hnamed.1.1
  | accepting => exact hnamed.1.2
  | rejecting => exact hnamed.2
  | emptyRow => exact absurd rfl hrole
  | row =>
    intro name hname
    obtain ⟨row, hrow, rfl⟩ := List.mem_map.1 hname
    obtain ⟨hrow, hentries⟩ := List.mem_filter.1 hrow
    obtain ⟨e, he⟩ := List.exists_mem_of_ne_nil row.value.entries (by simpa using hentries)
    exact (hcells (row, e) (List.mem_flatMap.2 ⟨row, hrow, List.mem_map_of_mem he⟩)).1
  | target =>
    intro name hname
    obtain ⟨cell, hcell, hname⟩ := List.mem_flatMap.1 hname
    exact (hcells cell hcell).2.2 hname
  | symbol =>
    intro text htext
    obtain ⟨cell, hcell, htext⟩ := List.mem_flatMap.1 htext
    exact (hcells cell hcell).2.1 htext

end Description

namespace Automaton

/-- An automaton that is not given by rules or a pattern only comes from a document that declares
the states and symbols that it names, except for the states of rows without entries. -/
theorem texts_subset_declared_of_ofText {f : Formalism} {text : String} {s : Settings}
    {x : Automaton} (hcfg : f ≠ .cfg) (hregex : f ≠ .regex) (h : ofText f text s = .ok x) :
    ∃ root, Node.ofText text = .ok root ∧ ∀ role : Role, role ≠ .emptyRow →
      role.texts f root ⊆ role.declared f root := by
  rcases ofText_cases hcfg hregex text s with ⟨_, -, he⟩ | ⟨root, hroot,
    ⟨_, he, -⟩ | ⟨fields, d, hd, rfl⟩⟩
  · cases h.symm.trans he
  · cases h.symm.trans he
  · refine ⟨root, hroot, fun role hrole => ?_⟩
    rw [hd.ofText_eq hroot, mapError_eq_ok_iff] at h
    have hverdict := d.verdict hcfg s
    rw [h] at hverdict
    cases hverdict with
    | built ht hm => exact hd.contents.texts_subset_declared ht hm hrole

def skippingText : String :=
  "states: [p, y, n]\ninput_alphabet: [a]\ntape_alphabet_extra: x\nstart_state: p\n" ++
    "accept_state: y\nreject_state: n\ndelta:\n  p:\n    a: [p, x, R]\n    _: [y, _, S]\n  n:\n"

theorem texts_subset_declared_skippingText : ∃ x root, ofText .tm skippingText .default = .ok x ∧
    Node.ofText skippingText = .ok root ∧ (Role.target.texts .tm root = ["p", "y"] ∧
      Role.symbol.texts .tm root = ["a", "x", "_", "_"]) ∧
      ∀ role : Role, role ≠ .emptyRow → role.texts .tm root ⊆ role.declared .tm root := by
  obtain ⟨x, hx, -⟩ : ∃ x, ofText .tm skippingText .default = .ok x ∧ true = true :=
    exists_eq_ok_of_any (by decide +kernel)
  obtain ⟨root, hroot, htexts⟩ : ∃ root, Node.ofText skippingText = .ok root ∧
      decide (Role.target.texts .tm root = ["p", "y"] ∧
        Role.symbol.texts .tm root = ["a", "x", "_", "_"]) = true :=
    exists_eq_ok_of_any (by decide +kernel)
  obtain ⟨_, hroot', hsubset⟩ := texts_subset_declared_of_ofText (by decide) (by decide) hx
  cases hroot.symm.trans hroot'
  exact ⟨x, root, hx, hroot, of_decide_eq_true htexts, hsubset⟩

def strayRowText : String :=
  "states: q\ninput_alphabet: a\nstart_state: q\ndelta: \x7bz: \x7b\x7d\x7d\n"

/-- A row without entries may be that of any state. -/
theorem exists_emptyRow_not_declared : ∃ x root, ofText .dfa strayRowText .default = .ok x ∧
    Node.ofText strayRowText = .ok root ∧ ¬Role.emptyRow.texts .dfa root ⊆
    Role.emptyRow.declared .dfa root := by
  obtain ⟨x, hx, -⟩ : ∃ x, ofText .dfa strayRowText .default = .ok x ∧ true = true :=
    exists_eq_ok_of_any (by decide +kernel)
  obtain ⟨root, hroot, hstray⟩ : ∃ root, Node.ofText strayRowText = .ok root ∧
      decide (¬Role.emptyRow.texts .dfa root ⊆ Role.emptyRow.declared .dfa root) = true :=
    exists_eq_ok_of_any (by decide +kernel)
  exact ⟨x, root, hx, hroot, of_decide_eq_true hstray⟩

end Automaton

end Acceptors
