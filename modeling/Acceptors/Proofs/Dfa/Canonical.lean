import Acceptors.Proofs.Dfa.Equivalence

/-! Minimal automata are determined by their languages. Their states are the left quotients that
hold some word, and the language itself, so two of them with the same language differ in nothing but
the numbers and names of states; any other automaton needs a state for each of these quotients
too. -/

namespace Acceptors.Dfa

variable {a b d m : Dfa} {i j : Nat} {c : Char} {w : List Char} {L : Language Char}

/-- A bijection of states that keeps the start, acceptance and all transitions. -/
structure Isomorphism (a b : Dfa) where
  states : Fin a.states.size ≃ Fin b.states.size
  start : ∀ s : Fin a.states.size, s.val = a.start ↔ (states s).val = b.start
  accepting : ∀ s : Fin a.states.size,
    a.isAccepting (some s.val) = b.isAccepting (some (states s).val)
  next : ∀ (s : Fin a.states.size) (c : Char) (t : Fin a.states.size),
    a.next? s.val c = some t.val ↔ b.next? (states s).val c = some (states t).val

structure Minimal (m : Dfa) : Prop where
  wellFormed : m.WellFormed
  reached : ∀ j < m.states.size, ∃ w, m.run (some m.start) w = some j
  distinct : ∀ i < m.states.size, ∀ j < m.states.size,
    m.future (some i) = m.future (some j) → i = j
  live : ∀ i < m.states.size, ∀ c j, m.next? i c = some j → m.future (some j) ≠ 0

theorem minimal_minimize (h : d.WellFormed) : d.minimize.Minimal where
  wellFormed := wellFormed_minimize h
  reached j hj := by
    obtain ⟨s, hs⟩ := Stands.exists_of_lt hj
    obtain ⟨w, hw⟩ := (mem_reachable_iff h).1 hs.1
    have hin : d.InStep (some d.minimize.start) (some d.start) :=
      .inl ⟨_, _, rfl, rfl, Stands.start h⟩
    rcases hin.run h w with ⟨i, t, hi, ht, hstands⟩ | ⟨_, hdead⟩
    · rw [hw] at ht
      cases ht
      exact ⟨w, hi.trans (congrArg some ((hstands.future_eq_iff h hs).1 rfl))⟩
    · rw [hw] at hdead
      exact ⟨[], congrArg some (hs.eq_start h hdead).symm⟩
  distinct i hi j hj heq := by
    obtain ⟨s, hs⟩ := Stands.exists_of_lt hi
    obtain ⟨t, ht⟩ := Stands.exists_of_lt hj
    rwa [hs.future h, ht.future h, hs.future_eq_iff h ht] at heq
  live i hi c j hj := by
    obtain ⟨s, hs⟩ := Stands.exists_of_lt hi
    obtain ⟨t, _, hlive, ht⟩ := (hs.next?_eq_some_iff h).1 hj
    rwa [ht.future h]

/-- The left quotients that hold a word, and the language itself. -/
def quotients (L : Language Char) : Set (Language Char) :=
  {K | ∃ w, K = L.leftQuotient w ∧ (w = [] ∨ K ≠ 0)}

theorem exists_run_of_mem_quotients (h : d.WellFormed) {K : Language Char}
    (hK : K ∈ quotients d.language) : ∃ s < d.states.size, d.future (some s) = K := by
  obtain ⟨w, rfl, hw⟩ := hK
  have hrun := d.future_run (some d.start) w
  rw [← language_eq_future] at hrun
  have hsome : ∃ s, d.run (some d.start) w = some s := by
    rcases hw with rfl | hne
    · exact ⟨d.start, rfl⟩
    · exact exists_of_future_ne_zero (hrun ▸ hne)
  obtain ⟨s, hs⟩ := hsome
  exact ⟨s, lt_of_mem_reachable ((mem_reachable_iff h).2 ⟨w, hs⟩), hs ▸ hrun⟩

namespace Minimal

theorem future_mem_quotients (h : m.Minimal) (hj : j < m.states.size) :
    m.future (some j) ∈ quotients m.language := by
  obtain ⟨w, hw⟩ := h.reached j hj
  refine ⟨w, by rw [← hw, future_run, language_eq_future], ?_⟩
  rcases List.eq_nil_or_concat w with rfl | ⟨v, c, rfl⟩
  · exact .inl rfl
  · right
    rw [List.concat_eq_append, run_append] at hw
    cases hv : m.run (some m.start) v with
    | none =>
      rw [hv, run_none] at hw
      cases hw
    | some i =>
      rw [hv] at hw
      have hi := lt_of_mem_reachable ((mem_reachable_iff h.wellFormed).2 ⟨v, hv⟩)
      exact h.live i hi c j hw

theorem range_future (h : m.Minimal) :
    Set.range (fun s : Fin m.states.size => m.future (some s.val)) = quotients m.language := by
  ext K
  constructor
  · rintro ⟨s, rfl⟩
    exact h.future_mem_quotients s.isLt
  · intro hK
    obtain ⟨s, hs, heq⟩ := exists_run_of_mem_quotients h.wellFormed hK
    exact ⟨⟨s, hs⟩, heq⟩

theorem injective_future (h : m.Minimal) :
    Function.Injective fun s : Fin m.states.size => m.future (some s.val) :=
  fun s t heq => Fin.ext (h.distinct s s.isLt t t.isLt heq)

theorem future_eq_language_iff (h : m.Minimal) (hj : j < m.states.size) :
    m.future (some j) = m.language ↔ j = m.start := by
  rw [language_eq_future]
  constructor
  · exact h.distinct j hj m.start h.wellFormed.start_lt
  · rintro rfl
    rfl

theorem next?_eq_some_iff (h : m.Minimal) (hi : i < m.states.size) (hj : j < m.states.size) :
    m.next? i c = some j ↔
      m.future (some j) = (m.future (some i)).leftQuotient [c] ∧ m.future (some j) ≠ 0 := by
  have hstep := m.future_step (some i) c
  rw [step_some] at hstep
  constructor
  · intro hnext
    rw [hnext] at hstep
    exact ⟨hstep, h.live i hi c j hnext⟩
  · rintro ⟨heq, hlive⟩
    rw [← heq] at hstep
    obtain ⟨k, hk⟩ := exists_of_future_ne_zero (hstep ▸ hlive)
    rw [hk] at hstep
    rw [hk, h.distinct k (h.wellFormed.next?_lt hk) j hj hstep]

theorem exists_equiv (ha : a.Minimal) (hb : b.Minimal) (hL : a.language = b.language) :
    ∃ e : Fin a.states.size ≃ Fin b.states.size,
      ∀ s, b.future (some (e s).val) = a.future (some s.val) := by
  have hrange : Set.range (fun s : Fin a.states.size => a.future (some s.val)) =
      Set.range fun s : Fin b.states.size => b.future (some s.val) := by
    rw [ha.range_future, hb.range_future, hL]
  refine ⟨(Equiv.ofInjective _ ha.injective_future).trans ((Equiv.setCongr hrange).trans
    (Equiv.ofInjective _ hb.injective_future).symm), fun s => ?_⟩
  exact Equiv.apply_ofInjective_symm hb.injective_future _

theorem nonempty_isomorphism (ha : a.Minimal) (hb : b.Minimal) (hL : a.language = b.language) :
    Nonempty (Isomorphism a b) := by
  obtain ⟨e, he⟩ := exists_equiv ha hb hL
  refine ⟨⟨e, fun s => ?_, fun s => ?_, fun s c t => ?_⟩⟩
  · rw [← ha.future_eq_language_iff s.isLt, ← hb.future_eq_language_iff (e s).isLt, he, hL]
  · rw [Bool.eq_iff_iff, ← nil_mem_future_iff, ← nil_mem_future_iff, he]
  · rw [ha.next?_eq_some_iff s.isLt t.isLt, hb.next?_eq_some_iff (e s).isLt (e t).isLt, he, he]

theorem size_le (h : m.Minimal) (hb : b.WellFormed) (hL : m.language = b.language) :
    m.states.size ≤ b.states.size := by
  have hstate : ∀ s : Fin m.states.size, ∃ t : Fin b.states.size,
      b.future (some t.val) = m.future (some s.val) := by
    intro s
    obtain ⟨t, ht, heq⟩ := exists_run_of_mem_quotients hb (hL ▸ h.future_mem_quotients s.isLt)
    exact ⟨⟨t, ht⟩, heq⟩
  choose f hf using hstate
  have hinj : Function.Injective f := by
    intro s t hst
    have heq := hf t
    rw [← hst, hf s] at heq
    exact h.injective_future heq
  have hcard := Fintype.card_le_of_injective f hinj
  rwa [Fintype.card_fin, Fintype.card_fin] at hcard

/-- Only the language itself can be an empty quotient, and then the start is the only state. -/
theorem nonempty_future_or_lone (h : m.Minimal) :
    (∀ j < m.states.size, ∃ w, w ∈ m.future (some j)) ∨
      (m.states.size = 1 ∧ m.acceptStates = [] ∧ m.transitions = []) := by
  by_cases hL : m.language = 0
  · right
    have hdead : ∀ j < m.states.size, m.future (some j) = 0 := by
      intro j hj
      obtain ⟨w, hw⟩ := h.reached j hj
      rw [← hw, future_run, ← language_eq_future, hL]
      rfl
    have hstart := h.wellFormed.start_lt
    have hlone : ∀ j < m.states.size, j = m.start := fun j hj =>
      h.distinct j hj m.start hstart (by rw [hdead j hj, hdead m.start hstart])
    refine ⟨?_, ?_, ?_⟩
    · by_contra hsize
      have h0 := hlone 0 (by omega)
      have h1 := hlone 1 (by omega)
      omega
    · rw [acceptStates, List.map_eq_nil_iff, List.filter_eq_nil_iff]
      intro j hj hacc
      rw [← nil_mem_future_iff, hdead j (List.mem_range.1 hj)] at hacc
      exact Language.notMem_zero [] hacc
    · rw [transitions, List.flatMap_eq_nil_iff]
      intro j hj
      rw [List.filterMap_eq_nil_iff]
      intro c _
      rw [Option.map_eq_none_iff, Option.eq_none_iff_forall_ne_some]
      intro t ht
      exact h.live j (List.mem_range.1 hj) c t ht (hdead t (h.wellFormed.next?_lt ht))
  · left
    intro j hj
    obtain ⟨w, hw, rfl | hne⟩ := h.future_mem_quotients hj
    · rw [hw]
      exact Set.nonempty_iff_ne_empty.2 hL
    · exact Set.nonempty_iff_ne_empty.2 hne

end Minimal

theorem Isomorphism.future_eq (e : Isomorphism a b) (ha : a.WellFormed) (hb : b.WellFormed)
    (s : Fin a.states.size) : a.future (some s.val) = b.future (some (e.states s).val) := by
  ext w
  induction w generalizing s with
  | nil => rw [nil_mem_future_iff, nil_mem_future_iff, e.accepting]
  | cons c w ih =>
    rw [cons_mem_future_iff, cons_mem_future_iff, step_some, step_some]
    cases hs : a.next? s.val c with
    | some t =>
      have ht := (e.next s c ⟨t, ha.next?_lt hs⟩).1 hs
      rw [ht]
      exact ih ⟨t, ha.next?_lt hs⟩
    | none =>
      have hnone : b.next? (e.states s).val c = none := by
        rw [Option.eq_none_iff_forall_ne_some]
        intro t ht
        have hback := e.next s c (e.states.symm ⟨t, hb.next?_lt ht⟩)
        rw [Equiv.apply_symm_apply, hs] at hback
        cases hback.2 ht
      rw [hnone, future_none, future_none]

theorem Isomorphism.language_eq (e : Isomorphism a b) (ha : a.WellFormed) (hb : b.WellFormed) :
    a.language = b.language := by
  have hstart := (e.start ⟨a.start, ha.start_lt⟩).1 rfl
  rw [language_eq_future, language_eq_future, ← hstart]
  exact e.future_eq ha hb ⟨a.start, ha.start_lt⟩

theorem language_eq_iff : a.language = b.language ↔
    ∀ w, a.accepts w = .ok true ↔ b.accepts w = .ok true := Set.ext_iff

theorem language_minimize (h : d.WellFormed) : d.minimize.language = d.language := by
  rw [language_eq_future, language_eq_future, (Stands.start h).future h]

/-- The minimal automaton is the only one of its language up to the numbers and names of states: all
of its states are reachable and all but a lone one accept something, and no automaton for the
language is smaller. -/
theorem canonical_minimize (ha : a.Constructed) (hb : b.Constructed) :
    ((∀ w, a.accepts w = .ok true ↔ b.accepts w = .ok true) ↔
      Nonempty (Isomorphism a.minimize b.minimize)) ∧
    (∀ j < a.minimize.states.size, ∃ w, a.minimize.run (some a.minimize.start) w = some j) ∧
    ((∀ j < a.minimize.states.size, ∃ w, w ∈ a.minimize.future (some j)) ∨
      (a.minimize.states.size = 1 ∧ a.minimize.acceptStates = [] ∧ a.minimize.transitions = [])) ∧
    ((∀ w, a.accepts w = .ok true ↔ b.accepts w = .ok true) →
      a.minimize.states.size ≤ b.states.size) := by
  have hwa := ha.wellFormed
  have hwb := hb.wellFormed
  have hma := minimal_minimize hwa
  have hmb := minimal_minimize hwb
  rw [← language_eq_iff]
  refine ⟨⟨fun hL => ?_, ?_⟩, hma.reached, hma.nonempty_future_or_lone, fun hL => ?_⟩
  · rw [← language_minimize hwa, ← language_minimize hwb] at hL
    exact hma.nonempty_isomorphism hmb hL
  · rintro ⟨e⟩
    have hL := e.language_eq hma.wellFormed hmb.wellFormed
    rwa [language_minimize hwa, language_minimize hwb] at hL
  · rw [← language_minimize hwa] at hL
    exact hma.size_le hwb hL

/-- Two states that are merged and one that is not reachable, beside an automaton without them that
does not know the symbol `b`. -/
theorem canonical_minimize_merged :
    let small : Definition :=
      ⟨["s", "t"], ['a'], "s", ["t"], [("s", 'a', "t"), ("t", 'a', "t")]⟩
    let large : Definition := ⟨["p", "q", "r", "u"], ['b', 'a'], "p", ["q", "r"],
      [("p", 'a', "q"), ("q", 'a', "r"), ("r", 'a', "q"), ("u", 'b', "p")]⟩
    ∃ a b, large.build false = .ok a ∧ small.build false = .ok b ∧
      Nonempty (Isomorphism a.minimize b.minimize) ∧
      a.minimize.states.names = #["p", "\x7bq,r\x7d"] ∧ a.minimize.states.size ≤ b.states.size := by
  intro small large
  let a : Dfa := ⟨⟨#["p", "q", "r", "u"]⟩, ⟨['b', 'a'], by decide⟩, 0, #[false, true, true, false],
    ⟨#[#[none, some 1], #[none, some 2], #[none, some 1], #[some 0, none]]⟩⟩
  let b : Dfa := ⟨⟨#["s", "t"]⟩, ⟨['a'], by decide⟩, 0, #[false, true], ⟨#[#[some 1], #[some 1]]⟩⟩
  have ha : large.build false = .ok a := by decide +kernel
  have hb : small.build false = .ok b := by decide +kernel
  have hca : a.Constructed := .definition ha
  have hcb : b.Constructed := .definition hb
  have hL : ∀ w, a.accepts w = .ok true ↔ b.accepts w = .ok true := language_eq_iff.1
    ((isEquivalent_iff_of_wellFormed hca.wellFormed hcb.wellFormed).1 (by decide +kernel))
  have hnames : a.minimize.states.names = #["p", "\x7bq,r\x7d"] := by decide +kernel
  obtain ⟨hiso, -, -, hsize⟩ := canonical_minimize hca hcb
  exact ⟨a, b, ha, hb, hiso.1 hL, hnames, hsize hL⟩

end Acceptors.Dfa
