import Acceptors.Proofs.Regex.Build

/-! Definitions with the same patterns at other places. Where the patterns stand in a document and
what blanks are in front of the last one decides where faults are reported, and nothing else. -/

namespace Acceptors

def ParseError.SameFault (e e' : ParseError) : Prop := e'.reason = e.reason ∧ e'.field? = e.field?

namespace Regex

def PatternError.SameFault (e e' : PatternError) : Prop := e'.reason = e.reason

theorem PatternLine.sameFault_error (line line' : PatternLine)
    (field : String) {e e' : PatternError} (h : e.SameFault e') :
    (line.error field e).SameFault (line'.error field e') := ⟨h, rfl⟩

namespace Token

def SameKinds : List Token → List Token → Prop := List.Forall₂ fun t t' => t'.kind = t.kind

variable {names : List (List Char)} {offset offset' : Nat} {found found' : List Token}

theorem SameKinds.cons (h : SameKinds found found') (k : Kind) :
    SameKinds (⟨k, offset⟩ :: found) (⟨k, offset'⟩ :: found') := List.Forall₂.cons rfl h

theorem scan_sameKinds : ∀ (text : List Char) {skip offset offset' : Nat}
    {found found' : List Token},
    SameKinds found found' → SameResult PatternError.SameFault SameKinds
    (scan names skip offset text found) (scan names skip offset' text found')
  | [], 0, _, _, _, _, h => .found (List.forall₂_reverse_iff.2 h)
  | [], _ + 1, _, _, _, _, h => .found (List.forall₂_reverse_iff.2 h)
  | _ :: rest, _ + 1, _, _, _, _, h => scan_sameKinds rest h
  | c :: rest, 0, _, _, _, _, h => by
    by_cases hblank : Text.isBlank c = true
    · rw [scan_blank _ hblank, scan_blank _ hblank]
      exact scan_sameKinds rest h
    by_cases hescape : c = '\\'
    · subst hescape
      match rest with
      | [] => exact .failed rfl
      | e :: rest => exact scan_sameKinds rest (h.cons (.symbol e))
    cases hmark : markOf c with
    | some k =>
      rw [scan_mark _ hmark, scan_mark _ hmark]
      exact scan_sameKinds rest (h.cons k)
    | none =>
      have hplain := isPlain_of_markOf hmark (Bool.eq_false_iff.2 hblank) hescape
      rw [scan_plain _ hplain, scan_plain _ hplain]
      cases Text.longestName? names (c :: rest) with
      | some name => exact scan_sameKinds rest (h.cons (.name (.ofList name)))
      | none => exact scan_sameKinds rest (h.cons (.symbol c))

theorem scan_blanks {blanks : List Char} (h : ∀ c ∈ blanks, Text.isBlank c = true)
    (text : List Char) (offset : Nat) : scan names 0 offset (blanks ++ text) found =
      scan names 0 (offset + blanks.length) text found := by
  induction blanks generalizing offset with
  | nil => rfl
  | cons c blanks ih =>
    obtain ⟨hc, hblanks⟩ := List.forall_mem_cons.1 h
    rw [List.cons_append, scan_blank _ hc, ih hblanks, List.length_cons, Nat.add_assoc,
      Nat.add_comm 1]

theorem tokenize_sameKinds (names : List String) {blanks : List Char}
    (h : ∀ c ∈ blanks, Text.isBlank c = true) (text : List Char) :
    SameResult PatternError.SameFault SameKinds (tokenize names text)
    (tokenize names (blanks ++ text)) := by
  rw [tokenize, tokenize, scan_blanks h]
  exact scan_sameKinds text .nil

end Token

/-- Offsets only take part in the reading of a pattern when they are reported. -/
theorem Pattern.read_sameKinds {scope : Scope} {tokens tokens' : List Token}
    (h : Token.SameKinds tokens tokens') (frame : Frame) {stack stack' : List (Nat × Frame)}
    (hstack : List.Forall₂ (fun s s' => s'.2 = s.2) stack stack') :
    SameResult PatternError.SameFault Eq (read scope tokens frame stack)
    (read scope tokens' frame stack') := by
  induction h generalizing frame stack stack' with
  | nil =>
    cases hstack with
    | nil => exact .found rfl
    | cons _ _ => exact .failed rfl
  | @cons t t' tokens tokens' hkind _ ih =>
    obtain ⟨kind, offset⟩ := t
    obtain ⟨kind', offset'⟩ := t'
    obtain rfl : kind' = kind := hkind
    cases kind' with
    | symbol c => exact ih _ hstack
    | name text =>
      simp only [read]
      cases scope.lookup text with
      | some target => exact ih _ hstack
      | none => exact .failed rfl
    | opening => exact ih _ (.cons rfl hstack)
    | closing =>
      cases hstack with
      | nil => exact .failed rfl
      | cons houter hstack =>
        simp only [read, houter]
        exact ih _ hstack
    | bar => exact ih _ hstack
    | star =>
      simp only [read]
      cases frame.items with
      | nil => exact .failed rfl
      | cons e items => exact ih _ hstack

namespace Definition

def SameBinding (b b' : String × PatternLine) : Prop := b'.1 = b.1 ∧ b'.2.text = b.2.text

/-- The same patterns, perhaps at other places, and the one to match perhaps with blanks in
front. -/
structure SameTexts (d d' : Definition) : Prop where
  bindings : List.Forall₂ SameBinding d.bindings d'.bindings
  pattern : ∃ blanks : List Char, (∀ c ∈ blanks, Text.isBlank c = true) ∧
    d'.pattern.text.toList = blanks ++ d.pattern.text.toList

variable {d d' : Definition} {names : List String}

theorem SameTexts.names_eq (h : d.SameTexts d') : d'.names = d.names := by
  have hnames : List.Forall₂ (· = ·) (d'.bindings.map Prod.fst) (d.bindings.map Prod.fst) := by
    rw [List.forall₂_map_left_iff, List.forall₂_map_right_iff]
    exact h.bindings.flip.imp fun _ _ hb => hb.1
  exact List.forall₂_eq_eq_eq ▸ hnames

theorem checkNames_sameFault {bindings bindings' : List (String × PatternLine)}
    (h : List.Forall₂ SameBinding bindings bindings') (seen : List String) :
    SameResult ParseError.SameFault Eq (checkNames seen bindings) (checkNames seen bindings') := by
  induction h generalizing seen with
  | nil => exact .found rfl
  | @cons b b' _ _ hb _ ih =>
    obtain ⟨name, line⟩ := b
    obtain ⟨name', line'⟩ := b'
    obtain rfl : name' = name := hb.1
    simp only [checkNames]
    split
    · exact .failed (PatternLine.sameFault_error line line' name' rfl)
    · exact ih _

theorem tokensOf_sameFault {b b' : String × PatternLine} (h : SameBinding b b') :
    SameResult ParseError.SameFault Eq (tokensOf names b.1 b.2) (tokensOf names b'.1 b'.2) := by
  rw [tokensOf, tokensOf, h.1, h.2]
  cases Token.tokenize names b.2.text.toList with
  | error e => exact .failed (PatternLine.sameFault_error b.2 b'.2 b.1 rfl)
  | ok tokens => exact .found rfl

theorem resolve_sameFault {bindings bindings' : List (String × PatternLine)}
    (h : List.Forall₂ SameBinding bindings bindings') (graph : Array (List Nat))
    (texts : List (List Token)) (scope : Pattern.Scope) :
    SameResult ParseError.SameFault Eq
      (resolve names graph scope (bindings.zipWith (fun b tokens => (b.1, b.2, tokens)) texts))
      (resolve names graph scope
        (bindings'.zipWith (fun b tokens => (b.1, b.2, tokens)) texts)) := by
  induction h generalizing texts scope with
  | nil => exact .found rfl
  | @cons b b' _ _ hb _ ih =>
    obtain ⟨name, line⟩ := b
    obtain ⟨name', line'⟩ := b'
    obtain rfl : name' = name := hb.1
    cases texts with
    | nil => exact .found rfl
    | cons tokens texts =>
      simp only [List.zipWith_cons_cons, resolve]
      cases circular? names graph scope.length tokens with
      | some e => exact .failed (PatternLine.sameFault_error line line' name' rfl)
      | none =>
        cases Pattern.parse scope tokens with
        | error e => exact .failed (PatternLine.sameFault_error line line' name' rfl)
        | ok e => exact ih texts _

theorem SameTexts.finish (h : d.SameTexts d') (scope : Pattern.Scope) :
    SameResult ParseError.SameFault Eq (d.finish scope) (d'.finish scope) := by
  obtain ⟨blanks, hblanks, htext⟩ := h.pattern
  have hfault : ∀ e e', PatternError.SameFault e e' →
      (d.pattern.error "pattern" e).SameFault (d'.pattern.error "pattern" e') :=
    fun e e' => PatternLine.sameFault_error d.pattern d'.pattern "pattern"
  rw [Definition.finish, Definition.finish, tokensOf, tokensOf, h.names_eq, htext]
  refine ((Token.tokenize_sameKinds d.names hblanks d.pattern.text.toList).mapError hfault).bind
    fun tokens tokens' _ htokens => ?_
  refine ((Pattern.read_sameKinds htokens .empty .nil).mapError hfault).bind fun e e' _ he => ?_
  rw [he]
  exact .found rfl

/-- Definitions with the same patterns are built as the same expression, or fail for the same
reason. -/
theorem SameTexts.build (h : d.SameTexts d') :
    SameResult ParseError.SameFault Eq d.build d'.build := by
  refine (checkNames_sameFault h.bindings []).bind fun _ _ _ _ => ?_
  rw [h.names_eq]
  refine (SameResult.mapM h.bindings fun b b' hb => tokensOf_sameFault hb).bind
    fun texts texts' _ htexts => ?_
  obtain rfl : texts = texts' := List.forall₂_eq_eq_eq ▸ htexts
  refine (resolve_sameFault h.bindings _ texts []).bind fun scope scope' _ hscope => ?_
  obtain rfl : scope = scope' := hscope
  have hfinish := h.finish scope
  rwa [Definition.finish, Definition.finish, h.names_eq] at hfinish

end Definition

end Regex

end Acceptors
