import Mathlib.Data.List.Forall2
import Mathlib.Tactic.Common
import Acceptors.Proofs.Document.Written

/-! Values in flow form. Every tree without missing values has a text on one line, in which there
may be space between the tokens of a collection and a comma after its last item. Such a text is read
back as the tree. -/

namespace Acceptors

namespace Syntax

def Gap (t : List Char) : Prop := ∀ c ∈ t, isSpace c = true

inductive Following {α : Type} (W : α → List Char → Prop) : List α → List Char → Prop
  | last {g : List Char} (hg : Gap g) : Following W [] g
  | comma {g g' : List Char} (hg : Gap g) (hg' : Gap g') : Following W [] (g ++ ',' :: g')
  | next {x : α} {xs : List α} {g g' t t' : List Char} (hg : Gap g) (hg' : Gap g') (h : W x t)
      (hrest : Following W xs t') : Following W (x :: xs) (g ++ ',' :: (g' ++ (t ++ t')))

inductive Listed {α : Type} (W : α → List Char → Prop) : List α → List Char → Prop
  | nothing {g : List Char} (hg : Gap g) : Listed W [] g
  | first {x : α} {xs : List α} {g t t' : List Char} (hg : Gap g) (h : W x t)
      (hrest : Following W xs t') :
      Listed W (x :: xs) (g ++ (t ++ t'))

theorem gap_nil : Gap [] := fun _ h => absurd h List.not_mem_nil

theorem gap_space : Gap [' '] := fun _ h => List.mem_singleton.1 h ▸ rfl

theorem following_of_forall₂ {α : Type} {W : α → List Char → Prop} {xs : List α}
    {texts : List (List Char)} (h : List.Forall₂ W xs texts) :
    Following W xs (texts.flatMap ([',', ' '] ++ ·)) := by
  induction h with
  | nil => exact .last gap_nil
  | cons h _ ih => exact .next gap_nil gap_space h ih

theorem intercalate_cons (sep t : List Char) (texts : List (List Char)) :
    sep.intercalate (t :: texts) = t ++ texts.flatMap (sep ++ ·) := by
  induction texts generalizing t with
  | nil => rw [List.intercalate_singleton, List.flatMap_nil, List.append_nil]
  | cons t' texts ih => rw [List.intercalate_cons_cons, ih, List.flatMap_cons, List.append_assoc,
    List.append_assoc]

theorem listed_of_forall₂ {α : Type} {W : α → List Char → Prop} {xs : List α}
    {texts : List (List Char)} (h : List.Forall₂ W xs texts) :
    Listed W xs ([',', ' '].intercalate texts) := by
  cases h with
  | nil => exact .nothing gap_nil
  | cons h hrest =>
    rw [intercalate_cons]
    exact .first gap_nil h (following_of_forall₂ hrest)

end Syntax

mutual

inductive Node.Flow : Node → List Char → Prop
  | scalar {l : Location} {text : String} {t : List Char} (h : Syntax.Quoted text t) :
      Node.Flow (.scalar l text) t
  | list {l : Location} {items : List Node} {t : List Char} (h : Syntax.Listed Node.Flow items t) :
      Node.Flow (.list l items) ('[' :: (t ++ [']']))
  | mapping {l : Location} {entries : List Entry} {t : List Char}
      (h : Syntax.Listed Entry.Flow entries t) :
      Node.Flow (.mapping l entries) ('\x7b' :: (t ++ ['\x7d']))

inductive Entry.Flow : Entry → List Char → Prop
  | pair {key : String} {l : Location} {value : Node} {k g g' t : List Char}
      (hk : Syntax.Quoted key k) (hg : Syntax.Gap g) (hg' : Syntax.Gap g') (h : Node.Flow value t) :
      Entry.Flow (.mk key l value) (k ++ (g ++ ':' :: (g' ++ t)))

end

theorem Node.Flow.length_pos {n : Node} {t : List Char} (h : n.Flow t) : 0 < t.length := by
  cases h with
  | scalar hq =>
    obtain ⟨c, t', rfl, -⟩ := hq.head
    exact Nat.succ_pos _
  | list _ => exact Nat.succ_pos _
  | mapping _ => exact Nat.succ_pos _

mutual

def Node.NullFree : Node → Prop
  | .null _ => False
  | .scalar _ _ => True
  | .list _ items => ItemsNullFree items
  | .mapping _ entries => EntriesNullFree entries

def ItemsNullFree : List Node → Prop
  | [] => True
  | n :: items => n.NullFree ∧ ItemsNullFree items

def EntriesNullFree : List Entry → Prop
  | [] => True
  | .mk _ _ value :: entries => value.NullFree ∧ EntriesNullFree entries

end

mutual

/-- The text with double quotes and a space after each comma and colon. -/
def Node.flowText : Node → List Char
  | .null _ => []
  | .scalar _ text => '"' :: text.toList.flatMap Syntax.escape ++ ['"']
  | .list _ items => '[' :: ([',', ' '].intercalate (itemTexts items) ++ [']'])
  | .mapping _ entries => '\x7b' :: ([',', ' '].intercalate (entryTexts entries) ++ ['\x7d'])

def itemTexts : List Node → List (List Char)
  | [] => []
  | n :: items => n.flowText :: itemTexts items

def entryTexts : List Entry → List (List Char)
  | [] => []
  | .mk key _ value :: entries =>
    ('"' :: key.toList.flatMap Syntax.escape ++ ['"'] ++ ':' :: ' ' :: value.flowText) ::
      entryTexts entries

end

mutual

theorem Node.flow_flowText (n : Node) (hn : n.NullFree) : n.Flow n.flowText := by
  cases n with
  | null _ => exact hn.elim
  | scalar _ _ => exact .scalar .double
  | list _ items => exact .list (Syntax.listed_of_forall₂ (flow_itemTexts items hn))
  | mapping _ entries => exact .mapping (Syntax.listed_of_forall₂ (flow_entryTexts entries hn))

theorem flow_itemTexts (items : List Node) (hn : ItemsNullFree items) :
    List.Forall₂ Node.Flow items (itemTexts items) := by
  cases items with
  | nil => exact .nil
  | cons n items => exact .cons (n.flow_flowText hn.1) (flow_itemTexts items hn.2)

theorem flow_entryTexts (entries : List Entry) (hn : EntriesNullFree entries) :
    List.Forall₂ Entry.Flow entries (entryTexts entries) := by
  cases entries with
  | nil => exact .nil
  | cons e entries =>
    obtain ⟨key, l, value⟩ := e
    have hpair : Entry.Flow (.mk key l value) _ :=
      .pair .double Syntax.gap_nil Syntax.gap_space (value.flow_flowText hn.1)
    exact .cons hpair (flow_entryTexts entries hn.2)

end

namespace Syntax

open Scan (Reads Fails reads_char fails_char reads_pure)

variable {α β : Type} {W : α → List Char → Prop} {p : Scan α} {f : α → β} {x : α}
    {xs found : List α} {g t t' rest : List Char} {c closing : Char} {k limit bound : Nat}
    {n : Node} {text : String}

theorem reads_gap (hg : Gap g) (hc : isSpace c = false) :
    Reads skipSpace (g ++ c :: t) (c :: t) fun _ => True :=
  (Scan.reads_skip_append isSpace hg hc).imp fun _ _ => trivial

theorem Gap.head_ne_quote (hg : Gap g) (hc : c ≠ '\'') (t : List Char) :
    (g ++ c :: t).head? ≠ some '\'' := by
  cases g with
  | nil => exact fun h => hc (Option.some.inj h)
  | cons c g =>
    rintro ⟨⟩
    exact absurd (hg '\'' List.mem_cons_self) (by decide)

/-- Whatever follows, other than a single quote, a scanner reads the text as an item up to `f`. -/
structure ReadsAs (p : Scan α) (f : α → β) (x : α) (t : List Char) : Prop where
  head : ∃ c t', t = c :: t' ∧ isSpace c = false
  reads : ∀ rest, rest.head? ≠ some '\'' → Reads p (t ++ rest) rest fun y => f y = f x

structure Ending (p : Scan α) (closing : Char) : Prop where
  fails : ∀ rest, Fails p (closing :: rest)
  not_space : isSpace closing = false
  ne_comma : closing ≠ ','
  ne_quote : closing ≠ '\''

def skipComma : Scan Unit := do
  let _ ← skipSpace
  Scan.char ','

def afterComma (p : Scan α) : Scan α := do
  let _ ← skipSpace
  Scan.char ','
  let _ ← skipSpace
  p

theorem reads_comma (hg : Gap g) : Reads skipComma (g ++ ',' :: rest) rest fun _ => True :=
  (reads_gap hg (by decide)).bind fun _ _ => reads_char ','

theorem Ending.fails_char (h : Ending p closing) (rest : List Char) :
    Fails (Scan.char ',') (closing :: rest) :=
  Scan.fails_char fun hc => h.ne_comma (Option.some.inj hc)

theorem Ending.fails_comma (h : Ending p closing) (hg : Gap g) :
    Fails skipComma (g ++ closing :: rest) :=
  (reads_gap hg h.not_space).bind_fails fun _ _ => h.fails_char rest

theorem ReadsAs.after_comma (h : ReadsAs p f x t) (hg : Gap g) (hg' : Gap g')
    (hrest : rest.head? ≠ some '\'') :
    Reads (afterComma p) (g ++ ',' :: (g' ++ (t ++ rest))) rest fun y => f y = f x := by
  obtain ⟨c, t', rfl, hc⟩ := h.head
  refine (reads_gap hg (by decide)).bind fun _ _ => (reads_char ',').bind fun _ _ => ?_
  exact (reads_gap hg' hc).bind fun _ _ => h.reads rest hrest

theorem Ending.fails_afterComma (h : Ending p closing) (hg : Gap g) :
    Fails (afterComma p) (g ++ closing :: rest) :=
  (reads_gap hg h.not_space).bind_fails fun _ _ => (h.fails_char rest).bind

theorem Ending.fails_after_last_comma (h : Ending p closing) (hg : Gap g) (hg' : Gap g') :
    Fails (afterComma p) (g ++ ',' :: (g' ++ closing :: rest)) := by
  refine (reads_gap hg (by decide)).bind_fails fun _ _ => (reads_char ',').bind_fails fun _ _ => ?_
  exact (reads_gap hg' h.not_space).bind_fails fun _ _ => h.fails rest

theorem Following.head_ne_quote (h : Following W xs t) (hclosing : Ending p closing)
    (rest : List Char) :
    (t ++ closing :: rest).head? ≠ some '\'' := by
  cases h with
  | last hg => exact hg.head_ne_quote hclosing.ne_quote rest
  | comma hg _ =>
    rw [List.append_assoc]
    exact hg.head_ne_quote (by decide) _
  | next hg _ _ _ =>
    rw [List.append_assoc]
    exact hg.head_ne_quote (by decide) _

/-- The repeated scan reads all items. It leaves a comma that no item follows to the scan after
it. -/
theorem Following.reads (h : Following W xs t) (hclosing : Ending p closing)
    (hp : ∀ x ∈ xs, ∀ t, W x t → t.length ≤ bound → ReadsAs p f x t) (hbound : t.length ≤ bound)
    (rest : List Char) : ∃ t' g, Gap g ∧
      (∀ k found, t.length ≤ k →
        Reads (Scan.manyAfter (afterComma p) k found) (t ++ closing :: rest) t'
        fun ys => ys.map f = found.reverse.map f ++ xs.map f) ∧
      Reads skipComma.optional t' (g ++ closing :: rest) fun _ => True := by
  induction h with
  | @last g hg =>
    refine ⟨g ++ closing :: rest, g, hg, fun k found _ => ?_,
      (hclosing.fails_comma hg).optional.imp fun _ _ => trivial⟩
    refine ((hclosing.fails_afterComma hg).manyAfter k found).imp fun ys hys => ?_
    rw [hys, List.map_nil, List.append_nil]
  | @comma g g' hg hg' =>
    rw [List.append_assoc, List.cons_append]
    refine ⟨_, g', hg', fun k found _ => ?_, (reads_comma hg).optional.imp fun _ _ => trivial⟩
    refine ((hclosing.fails_after_last_comma hg hg').manyAfter k found).imp fun ys hys => ?_
    rw [hys, List.map_nil, List.append_nil]
  | @next x xs g g' u t hg hg' hu hrest ih =>
    obtain ⟨hx, hxs⟩ := List.forall_mem_cons.1 hp
    have hlength : (g ++ ',' :: (g' ++ (u ++ t))).length =
        g.length + (g'.length + (u.length + t.length) + 1) := by
      simp only [List.length_append, List.length_cons]
    rw [hlength] at hbound ⊢
    obtain ⟨t', g₁, hg₁, hmany, hcomma⟩ := ih hxs (by omega)
    refine ⟨t', g₁, hg₁, fun k found hk => ?_, hcomma⟩
    obtain ⟨k, rfl⟩ : ∃ k', k = k' + 1 := ⟨k - 1, by omega⟩
    have hitem := (hx u hu (by omega)).after_comma hg hg' (hrest.head_ne_quote hclosing rest)
    rw [List.append_assoc, List.cons_append, List.append_assoc, List.append_assoc]
    refine hitem.manyAfter fun y hy => (hmany k (y :: found) (by omega)).imp fun ys hys => ?_
    rw [hys, List.reverse_cons, List.map_append, List.append_assoc, List.map_cons,
      List.map_cons, hy]
    rfl

theorem reads_separated_nil (hclosing : Ending p closing) :
    Reads (separated k p) (closing :: rest) (closing :: rest) (· = []) := by
  refine (hclosing.fails rest).bind.optional.bind fun items hitems =>
    (reads_pure _).imp fun ys hys => ?_
  rw [hys, hitems]
  rfl

theorem reads_separated_cons (hclosing : Ending p closing) (hx : ReadsAs p f x t)
    (h : Following W xs t') (hp : ∀ x ∈ xs, ∀ t, W x t → t.length ≤ k → ReadsAs p f x t)
    (hk : t'.length ≤ k) (rest : List Char) :
    ∃ g, Gap g ∧ Reads (separated k p) (t ++ (t' ++ closing :: rest)) (g ++ closing :: rest)
      fun ys => ys.map f = (x :: xs).map f := by
  obtain ⟨u, g, hg, hmany, hcomma⟩ := h.reads hclosing hp hk rest
  have hsome : Reads (do
      let x ← p
      let rest ← Scan.many k (afterComma p)
      let _ ← skipComma.optional
      return x :: rest) (t ++ (t' ++ closing :: rest)) (g ++ closing :: rest)
      fun ys => ys.map f = (x :: xs).map f := by
    refine (hx.reads _ (h.head_ne_quote hclosing rest)).bind fun y hy =>
      (hmany k [] hk).bind fun ys hys => ?_
    refine hcomma.bind fun _ _ => (reads_pure _).imp fun zs hzs => ?_
    rw [hzs, List.map_cons, hy, hys]
    rfl
  refine ⟨g, hg, hsome.optional.bind fun items hitems => ?_⟩
  obtain ⟨ys, rfl, hys⟩ := hitems
  exact (reads_pure _).imp fun zs hzs => hzs ▸ hys

theorem Listed.reads (h : Listed W xs t) (opening : Char) (hclosing : Ending p closing)
    (hp : ∀ x ∈ xs, ∀ t, W x t → t.length ≤ k → ReadsAs p f x t) (hk : t.length ≤ k)
    (rest : List Char) :
    Reads (bracketed opening closing k p) (opening :: (t ++ closing :: rest)) rest
      fun ys => ys.map f = xs.map f := by
  have hend {g : List Char} (hg : Gap g) (ys : List α) (hys : ys.map f = xs.map f) :
      Reads (do
        let _ ← skipSpace
        Scan.char closing
        return ys) (g ++ closing :: rest) rest fun ys => ys.map f = xs.map f := by
    refine (reads_gap hg hclosing.not_space).bind fun _ _ => (reads_char closing).bind fun _ _ => ?_
    exact (reads_pure ys).imp fun zs hzs => hzs ▸ hys
  refine (reads_char opening).bind fun _ _ => ?_
  cases h with
  | nothing hg =>
    refine (reads_gap hg hclosing.not_space).bind fun _ _ => ?_
    exact (reads_separated_nil hclosing).bind fun ys hys => hend gap_nil ys (hys ▸ rfl)
  | @first x xs g u t' hg hu hrest =>
    obtain ⟨hx, hxs⟩ := List.forall_mem_cons.1 hp
    simp only [List.length_append] at hk
    have hfirst := hx u hu (by omega)
    obtain ⟨c, u', hu', hc⟩ := hfirst.head
    obtain ⟨g', hg', hitems⟩ := reads_separated_cons hclosing hfirst hrest hxs (by omega) rest
    rw [List.append_assoc, List.append_assoc]
    subst hu'
    exact (reads_gap hg hc).bind fun _ _ => hitems.bind fun ys hys => hend hg' ys hys

theorem ending_list (limit : Nat) : Ending (value limit) ']' where
  fails _ := fails_value (by simp; decide) (by simp) limit
  not_space := rfl
  ne_comma := by decide
  ne_quote := by decide

theorem ending_mapping (p : Scan Node) : Ending (flowPair p) '\x7d' where
  fails rest := fails_flowPair rest p
  not_space := rfl
  ne_comma := by decide
  ne_quote := by decide

theorem Quoted.head_not_space (h : Quoted text t) : ∃ c t', t = c :: t' ∧ isSpace c = false := by
  obtain ⟨c, t', rfl, hc⟩ := h.head
  exact ⟨c, t', rfl, by rcases hc with rfl | rfl <;> rfl⟩

theorem ReadsAs.pair {key : String} {k : List Char} {g g' : List Char} (hk : Quoted key k)
    (hg : Gap g) (hg' : Gap g') {p : Scan Node} (h : ReadsAs p Node.bare n t) (l : Location) :
    ReadsAs (flowPair p) Entry.bare (.mk key l n) (k ++ (g ++ ':' :: (g' ++ t))) where
  head := by
    obtain ⟨c, k', rfl, hc⟩ := hk.head_not_space
    exact ⟨c, _, rfl, hc⟩
  reads rest hrest := by
    obtain ⟨c, t', rfl, hc⟩ := h.head
    refine Reads.named _ (Scan.reads_location.bind fun l' _ => ?_)
    rw [List.append_assoc, List.append_assoc, List.cons_append, List.append_assoc]
    refine (hk.reads (hg.head_ne_quote (by decide) _)).bind fun read hread => ?_
    refine (reads_gap hg (by decide)).bind fun _ _ => (reads_char ':').bind fun _ _ => ?_
    refine (reads_gap hg' hc).bind fun _ _ => (h.reads rest hrest).bind fun m hm => ?_
    refine (reads_pure _).imp fun e he => ?_
    rw [he, hread]
    exact congrArg (Entry.mk key .start) hm

mutual

theorem reads_flow (n : Node) {t : List Char} (h : n.Flow t) {limit : Nat}
    (hlimit : t.length ≤ limit) :
    ReadsAs (value limit) Node.bare n t := by
  obtain ⟨limit, rfl⟩ : ∃ k, limit = k + 1 := ⟨limit - 1, by have := h.length_pos; omega⟩
  cases h with
  | scalar hq => exact ⟨hq.head_not_space, fun rest hrest => hq.reads_value hrest limit⟩
  | @list l items t h =>
    rw [List.length_cons, List.length_append, List.length_singleton] at hlimit
    refine ⟨⟨_, _, rfl, rfl⟩, fun rest _ => Scan.reads_location.bind fun l' _ => ?_⟩
    have hitems := h.reads '[' (ending_list limit)
      (fun n hn t ht htl => reads_items items n hn t ht limit htl) (by omega) rest
    rw [List.cons_append, List.append_assoc]
    refine ((hitems.named .flowSequence).map (Node.list l')).orElse.imp fun m hm => ?_
    obtain ⟨found, hfound, rfl⟩ := hm
    rw [Node.bare_list, Node.bare_list, hfound]
  | @mapping l entries t h =>
    rw [List.length_cons, List.length_append, List.length_singleton] at hlimit
    refine ⟨⟨_, _, rfl, rfl⟩, fun rest _ => Scan.reads_location.bind fun l' _ => ?_⟩
    have hentries := h.reads '\x7b' (ending_mapping (value limit))
      (fun e he t ht htl => reads_entries entries e he t ht limit htl) (by omega) rest
    rw [List.cons_append, List.append_assoc]
    have hsequence : Fails (flowSequence limit (value limit)) ('\x7b' :: (t ++ '\x7d' :: rest)) :=
      fails_flowSequence (by simp) _
    refine (hsequence.map _).orElse_reads ?_
    refine ((hentries.named .flowMapping).map (Node.mapping l')).orElse.imp fun m hm => ?_
    obtain ⟨found, hfound, rfl⟩ := hm
    rw [Node.bare_mapping, Node.bare_mapping, hfound]

theorem reads_items (items : List Node) : ∀ n ∈ items, ∀ t, n.Flow t → ∀ limit, t.length ≤ limit →
    ReadsAs (value limit) Node.bare n t := by
  cases items with
  | nil => exact fun n hn => absurd hn List.not_mem_nil
  | cons n items =>
    rw [List.forall_mem_cons]
    exact ⟨fun t h limit hlimit => reads_flow n h hlimit, reads_items items⟩

theorem reads_entries (entries : List Entry) : ∀ e ∈ entries, ∀ t, e.Flow t →
    ∀ limit, t.length ≤ limit →
    ReadsAs (flowPair (value limit)) Entry.bare e t := by
  cases entries with
  | nil => exact fun e he => absurd he List.not_mem_nil
  | cons e entries =>
    obtain ⟨key, l, value⟩ := e
    rw [List.forall_mem_cons]
    refine ⟨fun t h limit hlimit => ?_, reads_entries entries⟩
    cases h with
    | pair hk hg hg' hvalue =>
      simp only [List.length_append, List.length_cons] at hlimit
      exact (reads_flow value hvalue (by omega)).pair hk hg hg' l

end

end Syntax

end Acceptors
