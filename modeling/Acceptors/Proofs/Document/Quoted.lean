import Mathlib.Tactic.Common
import Acceptors.Document.Syntax
import Acceptors.Proofs.Document.Scan

/-! Quoted scalars. Every text can be put between double quotes, and one without line ends between
single quotes too; either way it is read back as it was. -/

namespace Acceptors.Syntax

variable {s t rest read : List Char} {text : String}

def escape (c : Char) : List Char :=
  if c = '\\' ∨ c = '"' ∨ c = '\r' then ['\\', c] else if c = '\n' then ['\\', 'n'] else [c]

def double (c : Char) : List Char := if c = '\'' then ['\'', '\''] else [c]

inductive Quoted (text : String) : List Char → Prop
  | double : Quoted text ('"' :: text.toList.flatMap escape ++ ['"'])
  | single (h : ∀ c ∈ text.toList, isLineEnd c = false) :
    Quoted text ('\'' :: text.toList.flatMap double ++ ['\''])

theorem doubleText_escaped (s read rest : List Char) :
    doubleText read (s.flatMap escape ++ '"' :: rest) =
      (read.reverse ++ s.flatMap escape, '"' :: rest) := by
  induction s generalizing read with
  | nil => simp [doubleText]
  | cons c s ih =>
    rw [List.flatMap_cons, escape]
    split
    · rw [List.append_assoc, List.cons_append, List.cons_append, List.nil_append, doubleText, ih]
      simp
    · rename_i hplain
      split
      · rw [List.append_assoc, List.cons_append, List.cons_append, List.nil_append, doubleText, ih]
        simp
      · rename_i hfeed
        have hend : ¬(c = '"' || isLineEnd c) = true := by simp [isLineEnd]; tauto
        rw [List.append_assoc, List.cons_append, List.nil_append, doubleText, if_neg hend, ih]
        · simp
        · rintro x t' rfl _
          exact hplain (.inl rfl)

theorem unquoteDouble_escaped (s : List Char) : unquoteDouble (s.flatMap escape) = s := by
  induction s with
  | nil => rfl
  | cons c s ih =>
    rw [List.flatMap_cons, escape]
    split
    · rename_i hc
      rw [List.cons_append, List.cons_append, List.nil_append, unquoteDouble, ih]
      rcases hc with rfl | rfl | rfl <;> rfl
    · rename_i hplain
      split
      · rename_i hfeed
        rw [List.cons_append, List.cons_append, List.nil_append, unquoteDouble, ih, hfeed]
        rfl
      · rw [List.cons_append, List.nil_append, unquoteDouble, ih]
        rintro x t' rfl _
        exact hplain (.inl rfl)

theorem singleText_doubled (hs : ∀ c ∈ s, isLineEnd c = false) (hrest : rest.head? ≠ some '\'')
    (read : List Char) :
    singleText read (s.flatMap double ++ '\'' :: rest) =
      (read.reverse ++ s.flatMap double, '\'' :: rest) := by
  induction s generalizing read with
  | nil =>
    rw [List.flatMap_nil, List.nil_append, singleText]
    · simp
    · rintro t' _ rfl
      exact hrest rfl
  | cons c s ih =>
    obtain ⟨hc, hs⟩ := List.forall_mem_cons.1 hs
    rw [List.flatMap_cons, double]
    split
    · rw [List.append_assoc, List.cons_append, List.cons_append, List.nil_append, singleText, ih hs]
      simp
    · rename_i hquote
      have hend : ¬(c = '\'' || isLineEnd c) = true := by simp [hquote, hc]
      rw [List.append_assoc, List.cons_append, List.nil_append, singleText, if_neg hend, ih hs]
      · simp
      · rintro t' rfl _
        exact hquote rfl

theorem unquoteSingle_doubled (s : List Char) : unquoteSingle (s.flatMap double) = s := by
  induction s with
  | nil => rfl
  | cons c s ih =>
    rw [List.flatMap_cons, double]
    split
    · rename_i hquote
      rw [List.cons_append, List.cons_append, List.nil_append, unquoteSingle, ih, hquote]
    · rename_i hquote
      rw [List.cons_append, List.nil_append, unquoteSingle, ih]
      rintro t' rfl _
      exact hquote rfl

theorem reads_singleQuoted (hs : ∀ c ∈ text.toList, isLineEnd c = false)
    (hrest : rest.head? ≠ some '\'') :
    Scan.Reads singleQuoted ('\'' :: text.toList.flatMap double ++ ['\''] ++ rest) rest
    (· = text) := by
  rw [List.append_assoc, List.cons_append]
  refine Scan.Reads.named _ ((Scan.reads_char _).bind fun _ _ => ?_)
  refine ((Scan.reads_part (singleText_doubled hs hrest [])).named _).bind fun read hread => ?_
  refine (Scan.reads_char _).bind fun _ _ => (Scan.reads_pure _).imp fun _ h => ?_
  rw [h, hread, List.reverse_nil, List.nil_append, unquoteSingle_doubled, String.ofList_toList]

theorem reads_doubleQuoted (text : String) (rest : List Char) :
    Scan.Reads doubleQuoted ('"' :: text.toList.flatMap escape ++ ['"'] ++ rest) rest
    (· = text) := by
  rw [List.append_assoc, List.cons_append]
  refine Scan.Reads.named _ ((Scan.reads_char _).bind fun _ _ => ?_)
  refine ((Scan.reads_part (doubleText_escaped text.toList [] rest)).named _).bind fun read hread =>
    ?_
  refine (Scan.reads_char _).bind fun _ _ => (Scan.reads_pure _).imp fun _ h => ?_
  rw [h, hread, List.reverse_nil, List.nil_append, unquoteDouble_escaped, String.ofList_toList]

/-- A single quote must not follow, since two of them would stand for one inside a text. -/
theorem Quoted.reads (h : Quoted text t) (hrest : rest.head? ≠ some '\'') :
    Scan.Reads scalar (t ++ rest) rest (· = text) := by
  refine Scan.Reads.named _ ?_
  cases h with
  | double =>
    have hsingle : Scan.Fails singleQuoted ('"' :: text.toList.flatMap escape ++ ['"'] ++ rest) :=
      (Scan.fails_char (by simp)).bind.named _
    exact hsingle.orElse_reads (reads_doubleQuoted text rest).orElse
  | single hs => exact (reads_singleQuoted hs hrest).orElse

end Acceptors.Syntax
