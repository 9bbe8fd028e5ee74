import Mathlib.Tactic.Common
import Acceptors.Proofs.Regex.Build
import Acceptors.Proofs.Source.Located

/-! Failures of regular expressions in documents. Each has a place, except for that of a binding
without text whose name is taken. -/

namespace Acceptors.Regex

variable {line : PatternLine} {names : List String} {name field : String}
    {bindings : List (String × PatternLine)} {e : ParseError}

/-- The text of a line has a place, or there is no text. -/
def PatternLine.Placed (line : PatternLine) : Prop := line.location?.isSome ∨ line = .ofText ""

theorem PatternLine.isSome_error_iff (fault : PatternError) :
    (line.error field fault).location?.isSome ↔ line.location?.isSome := by
  rw [PatternLine.error, Option.isSome_map]

namespace SourceLine

def Placed : SourceLine → Prop
  | binding _ _ line => line.Placed
  | pattern _ line => line.location?.isSome

theorem placed_of_binding? {start : Location} {text : List Char} {l : SourceLine}
    (h : binding? start text = some l) :
    l.Placed := by
  rw [binding?] at h
  split at h
  · dsimp only at h
    split at h
    · cases h
      dsimp only [Placed]
      split
      · exact .inr rfl
      · exact .inl rfl
    · cases h
  · cases h

theorem placed_of_ofLine? {start : Location} {text : List Char} {l : SourceLine}
    (h : ofLine? start text = some l) :
    l.Placed := by
  rw [ofLine?] at h
  split at h
  split at h
  · cases h
  · cases h
  · dsimp only at h
    rw [Option.orElse_eq_or, Option.or_eq_some_iff] at h
    rcases h with h | ⟨-, h⟩
    · exact placed_of_binding? h
    · cases h
      exact rfl

theorem placed_of_mem_ofText {text : String} {l : SourceLine} (h : l ∈ ofText text) : l.Placed := by
  obtain ⟨_, -, hl⟩ := List.mem_filterMap.1 h
  exact placed_of_ofLine? hl

end SourceLine

namespace Definition

variable {d : Definition} {pattern : Option PatternLine} {lines : List SourceLine}

theorem located_collect (bindings : List (String × PatternLine)) (pattern : Option PatternLine)
    (lines : List SourceLine) : Located (collect bindings pattern lines) := by
  induction lines generalizing bindings pattern with
  | nil =>
    cases pattern with
    | none => exact .error rfl
    | some p => exact .ok _
  | cons l lines ih =>
    cases l with
    | binding l name line =>
      rw [collect]
      split
      · exact .error rfl
      · exact ih _ _
    | pattern l line =>
      rw [collect]
      split
      · exact .error rfl
      · exact ih _ _

theorem placed_of_collect (h : collect bindings pattern lines = .ok d)
    (hlines : ∀ l ∈ lines, l.Placed) (hbindings : ∀ b ∈ bindings, b.2.Placed)
    (hpattern : ∀ p ∈ pattern, p.location?.isSome) :
    (∀ b ∈ d.bindings, b.2.Placed) ∧ d.pattern.location?.isSome := by
  induction lines generalizing bindings pattern with
  | nil =>
    cases pattern with
    | none => cases h
    | some p =>
      cases h
      exact ⟨fun b hb => hbindings b (List.mem_reverse.1 hb), hpattern p rfl⟩
  | cons l lines ih =>
    obtain ⟨hl, hrest⟩ := List.forall_mem_cons.1 hlines
    cases l with
    | binding l name line =>
      rw [collect] at h
      split at h
      · cases h
      · exact ih h hrest (List.forall_mem_cons.2 ⟨hl, hbindings⟩) hpattern
    | pattern l line =>
      rw [collect] at h
      split at h
      · cases h
      · exact ih h hrest hbindings fun p hp => Option.some.inj hp ▸ hl

theorem checkNames_eq_error_iff {seen : List String} : checkNames seen bindings = .error e ↔
    ∃ before name line after, bindings = before ++ (name, line) :: after ∧
    (before.map Prod.fst).Nodup ∧
      (∀ n ∈ before.map Prod.fst, n ∉ seen) ∧ (name ∈ seen ∨ name ∈ before.map Prod.fst) ∧
        e = line.error name ⟨.duplicateBinding name, 0⟩ := by
  induction bindings generalizing seen with
  | nil => exact iff_of_false nofun fun ⟨before, _, _, _, h, _⟩ => by cases before <;> cases h
  | cons b bindings ih =>
    obtain ⟨name, line⟩ := b
    rw [checkNames]
    split
    · rename_i hseen
      constructor
      · intro h
        cases h
        exact ⟨[], name, line, bindings, rfl, List.nodup_nil, List.forall_mem_nil _,
          .inl hseen, rfl⟩
      · rintro ⟨before, name', line', after, h, -, hnew, -, rfl⟩
        cases before with
        | nil =>
          cases h
          rfl
        | cons b before =>
          cases h
          exact absurd hseen (hnew name List.mem_cons_self)
    · rename_i hseen
      rw [ih]
      constructor
      · rintro ⟨before, name', line', after, rfl, hnodup, hnew, hname, rfl⟩
        simp only [List.mem_cons, not_or] at hnew hname
        refine ⟨(name, line) :: before, name', line', after, rfl, List.nodup_cons.2 ⟨?_, hnodup⟩,
          List.forall_mem_cons.2 ⟨hseen, fun n hn => (hnew n hn).2⟩, ?_, rfl⟩
        · exact fun hmem => (hnew name hmem).1 rfl
        · rw [List.map_cons, List.mem_cons]
          tauto
      · rintro ⟨before, name', line', after, h, hnodup, hnew, hname, rfl⟩
        cases before with
        | nil =>
          cases h
          exact absurd (hname.resolve_right List.not_mem_nil) hseen
        | cons b before =>
          cases h
          rw [List.map_cons, List.nodup_cons] at hnodup
          rw [List.map_cons, List.mem_cons] at hname
          refine ⟨before, name', line', after, rfl, hnodup.2, fun n hn => ?_, ?_, rfl⟩
          · rw [List.mem_cons, not_or]
            exact ⟨fun h => hnodup.1 (h ▸ hn), hnew n (List.mem_cons_of_mem _ hn)⟩
          · rw [List.mem_cons]
            tauto

theorem located_tokensOf (h : line.Placed) : Located (tokensOf names field line) := by
  rcases h with h | rfl
  · exact .mapError fun fault _ => (PatternLine.isSome_error_iff fault).2 h
  · exact .ok _

theorem located_resolve {graph : Array (List Nat)} {scope : Pattern.Scope}
    {lines : List (String × PatternLine × List Token)}
    (h : ∀ l ∈ lines, l.2.1.location?.isSome ∨ l.2.2 = []) :
    Located (resolve names graph scope lines) := by
  induction lines generalizing scope with
  | nil => exact .ok _
  | cons l lines ih =>
    obtain ⟨name, line, tokens⟩ := l
    obtain ⟨hline, hlines⟩ := List.forall_mem_cons.1 h
    rw [resolve]
    rcases hline with hline | rfl
    · split
      · exact .error ((PatternLine.isSome_error_iff _).2 hline)
      · split
        · exact .error ((PatternLine.isSome_error_iff _).2 hline)
        · exact ih hlines
    · exact ih hlines

theorem located_build (hnames : checkNames [] d.bindings = .ok ())
    (hbindings : ∀ b ∈ d.bindings, b.2.Placed) (hpattern : d.pattern.location?.isSome) :
    Located d.build := by
  rw [build, hnames]
  refine (Located.ok ()).bind fun _ _ =>
    (Located.mapM fun b hb => located_tokensOf (hbindings b hb)).bind
    fun texts htexts => (located_resolve ?_).bind fun scope _ => ?_
  · intro l hl
    have hlines : l ∈ d.lines texts := hl
    rw [lines_eq_map_zip] at hlines
    obtain ⟨⟨b, tokens⟩, hzip, rfl⟩ := List.mem_map.1 hlines
    have htokens := (List.forall₂_iff_zip.1 (mapM_tokensOf_eq_ok_iff.1 htexts)).2 hzip
    refine (hbindings b (List.of_mem_zip hzip).1).imp_right fun hline => ?_
    rw [hline] at htokens
    exact (Except.ok.inj htokens).symm
  · exact (located_tokensOf (.inl hpattern)).bind fun tokens _ =>
      (Located.mapError fun _ _ => (PatternLine.isSome_error_iff _).2 hpattern).bind fun _ _ =>
        .ok _

/-- The first name that is bound twice is bound to nothing the second time. -/
def RepeatsWithoutText (d : Definition) : Prop :=
  ∃ before name after, d.bindings = before ++ (name, .ofText "") :: after ∧
    (before.map Prod.fst).Nodup ∧
    name ∈ before.map Prod.fst

theorem checkNames_of_repeatsWithoutText (h : d.RepeatsWithoutText) :
    ∃ e, checkNames [] d.bindings = .error e ∧ e.location? = none := by
  obtain ⟨before, name, after, hbindings, hnodup, hname⟩ := h
  exact ⟨_, checkNames_eq_error_iff.2
    ⟨before, name, _, after, hbindings, hnodup, fun _ _ => List.not_mem_nil, .inr hname, rfl⟩, rfl⟩

theorem repeatsWithoutText_of_checkNames (h : checkNames [] d.bindings = .error e)
    (he : e.location? = none) (hbindings : ∀ b ∈ d.bindings, b.2.Placed) :
    d.RepeatsWithoutText := by
  obtain ⟨before, name, line, after, hd, hnodup, -, hname, rfl⟩ := checkNames_eq_error_iff.1 h
  have hline : line = .ofText "" := by
    refine (hbindings (name, line) (hd ▸ List.mem_append_right _ List.mem_cons_self)).resolve_left
      fun hsome => ?_
    rw [← PatternLine.isSome_error_iff, he] at hsome
    cases hsome
  exact ⟨before, name, after, hline ▸ hd, hnodup, hname.resolve_left List.not_mem_nil⟩

/-- Of what can be wrong with the lines of a document, a name that is repeated for nothing alone has
no place. -/
theorem location?_eq_none_iff_of_collect {text : String}
    (hd : collect [] none (SourceLine.ofText text) = .ok d) (h : d.build = .error e) :
    e.location? = none ↔ d.RepeatsWithoutText := by
  obtain ⟨hbindings, hpattern⟩ :=
    placed_of_collect hd (fun _ hl => SourceLine.placed_of_mem_ofText hl)
      (List.forall_mem_nil _) nofun
  cases hnames : checkNames [] d.bindings with
  | ok u =>
    refine iff_of_false ((located_build hnames hbindings hpattern).location?_ne_none h)
      fun hrepeats => ?_
    obtain ⟨_, herror, -⟩ := checkNames_of_repeatsWithoutText hrepeats
    cases hnames.symm.trans herror
  | error e' =>
    rw [build, hnames] at h
    cases h
    refine ⟨fun he => repeatsWithoutText_of_checkNames hnames he hbindings, fun hrepeats => ?_⟩
    obtain ⟨_, herror, he⟩ := checkNames_of_repeatsWithoutText hrepeats
    cases hnames.symm.trans herror
    exact he

end Definition

end Acceptors.Regex
