import Acceptors.Nfa.Definition
import Acceptors.Nfa.Run
import Acceptors.Proofs.Search

/-! Paths of a nondeterministic automaton. The live set after a word holds exactly the states to
which a path reads the word, with empty moves in between, so a word is recognized when such a path
leads to an accepting state. -/

namespace Acceptors.Nfa

/-- Paths along labelled edges, with the word that the labels spell. -/
inductive Path {σ : Type} (edge : σ → Option Char → σ → Prop) : σ → List Char → σ → Prop
  | nil (s : σ) : Path edge s [] s
  | cons {s t u : σ} {label : Option Char} {w : List Char} (h : edge s label t)
      (p : Path edge t w u) : Path edge s (label.toList ++ w) u

namespace Path

variable {σ τ : Type} {edge further : σ → Option Char → σ → Prop} {s t u : σ}
    {v w : List Char} {c : Char}

theorem empty (h : edge s none t) (p : Path edge t w u) : Path edge s w u := .cons h p

theorem read (h : edge s (some c) t) (p : Path edge t w u) : Path edge s (c :: w) u := .cons h p

theorem append (p : Path edge s v t) (q : Path edge t w u) : Path edge s (v ++ w) u := by
  induction p with
  | nil => exact q
  | cons h _ ih =>
    rw [List.append_assoc]
    exact .cons h (ih q)

theorem map {image : τ → Option Char → τ → Prop} (f : σ → τ)
    (hedge : ∀ s label t, edge s label t → image (f s) label (f t)) (p : Path edge s w t) :
    Path image (f s) w (f t) := by
  induction p with
  | nil => exact .nil _
  | cons h _ ih => exact .cons (hedge _ _ _ h) ih

theorem mono (hsub : ∀ s label t, edge s label t → further s label t) (p : Path edge s w t) :
    Path further s w t := p.map id hsub

/-- Induction on the edges of a path with its end fixed. -/
@[elab_as_elim]
theorem head_induction {motive : ∀ s w, Path edge s w u → Prop} (nil : motive u [] (.nil u))
    (cons : ∀ {s label t w} (h : edge s label t) (p : Path edge t w u), motive t w p →
      motive s (label.toList ++ w) (.cons h p)) (p : Path edge s w u) : motive s w p := by
  induction p with
  | nil => exact nil
  | cons h p ih => exact cons h p (ih nil cons)

theorem exists_of_cons (p : Path edge s (c :: w) u) :
    ∃ t t', Path edge s [] t ∧ edge t (some c) t' ∧ Path edge t' w u := by
  generalize hv : c :: w = v at p
  induction p with
  | nil => cases hv
  | @cons s t u label v h p ih =>
    cases label with
    | none =>
      obtain ⟨t', t'', hp, he, hq⟩ := ih hv
      exact ⟨t', t'', .empty h hp, he, hq⟩
    | some d =>
      cases hv
      exact ⟨s, t, .nil s, h, p⟩

end Path

variable {n : Nfa} {set : StateSet} {s t : Nat} {c : Char} {w : List Char} {label : Option Char}

def Moves (n : Nfa) (s : Nat) (label : Option Char) (t : Nat) : Prop := ⟨label, t⟩ ∈ n.edges s

/-- What the edges and the start of every automaton satisfy that comes from a definition or from an
expression. -/
structure WellFormed (n : Nfa) : Prop where
  start_lt : n.start < n.states.size
  target_lt : ∀ s label t, n.Moves s label t → t < n.states.size

theorem mem_targets_iff : t ∈ n.targets label s ↔ n.Moves s label t := by
  simp only [targets, Moves, List.mem_filterMap, Option.ite_none_right_eq_some, Option.some.injEq]
  constructor
  · rintro ⟨e, he, rfl, rfl⟩
    exact he
  · intro h
    exact ⟨_, h, rfl, rfl⟩

theorem reaches_by_empty_moves_iff (h : n.WellFormed) :
    Relation.ReflTransGen (Search.Adjacent n.states.size (n.targets none)) t s ↔
      Path n.Moves t [] s := by
  constructor
  · intro hp
    induction hp using Relation.ReflTransGen.head_induction_on with
    | refl => exact .nil s
    | head he _ ih => exact .empty (mem_targets_iff.1 he.1) ih
  · intro hp
    generalize hw : ([] : List Char) = w at hp
    induction hp with
    | nil => exact .refl
    | @cons t u s label w he _ ih =>
      obtain ⟨hl, hnil⟩ := List.append_eq_nil_iff.1 hw.symm
      obtain rfl := Option.toList_eq_nil_iff.1 hl
      exact (ih hnil.symm).head ⟨mem_targets_iff.2 he, h.target_lt _ _ _ he⟩

theorem mem_closure_iff (h : n.WellFormed) :
    s ∈ n.closure set ↔ ∃ t ∈ set, t < n.states.size ∧ Path n.Moves t [] s := by
  rw [closure, Search.mem_reachable_iff]
  exact exists_congr fun t => and_congr_right fun _ => and_congr_right fun _ =>
    reaches_by_empty_moves_iff h

theorem mem_step_iff (h : n.WellFormed) :
    s ∈ n.step set c ↔ ∃ t ∈ set, ∃ u, n.Moves t (some c) u ∧ Path n.Moves u [] s := by
  rw [step, mem_closure_iff h]
  constructor
  · rintro ⟨u, hu, _, hp⟩
    obtain ⟨t, ht, hu⟩ := List.mem_flatMap.1 hu
    exact ⟨t, ht, u, mem_targets_iff.1 hu, hp⟩
  · rintro ⟨t, ht, u, hu, hp⟩
    exact ⟨u, List.mem_flatMap.2 ⟨t, ht, mem_targets_iff.2 hu⟩, h.target_lt _ _ _ hu, hp⟩

def Closed (n : Nfa) (set : StateSet) : Prop := ∀ t ∈ set, ∀ s, Path n.Moves t [] s → s ∈ set

theorem closed_startSet (h : n.WellFormed) : n.Closed n.startSet := by
  intro t ht s hp
  rw [startSet, mem_closure_iff h] at ht ⊢
  obtain ⟨u, hu, hlt, hq⟩ := ht
  exact ⟨u, hu, hlt, hq.append hp⟩

theorem closed_step (h : n.WellFormed) (set : StateSet) (c : Char) : n.Closed (n.step set c) := by
  intro t ht s hp
  rw [mem_step_iff h] at ht ⊢
  obtain ⟨r, hr, u, hu, hq⟩ := ht
  exact ⟨r, hr, u, hu, hq.append hp⟩

theorem mem_run_iff (h : n.WellFormed) (hset : n.Closed set) :
    s ∈ n.run set w ↔ ∃ t ∈ set, Path n.Moves t w s := by
  induction w generalizing set with
  | nil =>
    constructor
    · intro hs
      exact ⟨s, hs, .nil s⟩
    · rintro ⟨t, ht, hp⟩
      exact hset t ht s hp
  | cons c w ih =>
    rw [run, List.foldl_cons, ← run, ih (closed_step h set c)]
    constructor
    · rintro ⟨t, ht, hp⟩
      obtain ⟨r, hr, u, hu, hq⟩ := (mem_step_iff h).1 ht
      exact ⟨r, hr, .read hu (hq.append hp)⟩
    · rintro ⟨r, hr, hp⟩
      obtain ⟨t, u, hq, hu, hp⟩ := hp.exists_of_cons
      exact ⟨u, (mem_step_iff h).2 ⟨t, hset r hr t hq, u, hu, .nil u⟩, hp⟩

theorem mem_run_startSet_iff (h : n.WellFormed) :
    s ∈ n.run n.startSet w ↔ Path n.Moves n.start w s := by
  rw [mem_run_iff h (closed_startSet h)]
  constructor
  · rintro ⟨t, ht, hp⟩
    rw [startSet, mem_closure_iff h] at ht
    obtain ⟨u, hu, _, hq⟩ := ht
    obtain rfl := List.mem_singleton.1 hu
    exact hq.append hp
  · intro hp
    refine ⟨n.start, ?_, hp⟩
    rw [startSet, mem_closure_iff h]
    exact ⟨n.start, List.mem_singleton.2 rfl, h.start_lt, .nil _⟩

theorem step_empty (n : Nfa) (c : Char) : n.step [] c = [] := by
  rw [List.eq_nil_iff_forall_not_mem]
  intro s hs
  obtain ⟨t, ht, -⟩ := Search.mem_reachable_iff.1 hs
  exact absurd ht List.not_mem_nil

theorem run_empty (n : Nfa) (w : List Char) : n.run [] w = [] := by
  induction w with
  | nil => rfl
  | cons c w ih => rw [run, List.foldl_cons, ← run, step_empty, ih]

/-- Stopping without live states loses nothing. -/
theorem acceptsFrom_eq (n : Nfa) (set : StateSet) (w : List Char) :
    n.acceptsFrom set w = n.isAccepting (n.run set w) := by
  induction w generalizing set with
  | nil => rfl
  | cons c w ih =>
    cases set with
    | nil =>
      rw [run_empty]
      rfl
    | cons s set => exact ih (n.step (s :: set) c)

theorem accepts_eq_map (n : Nfa) (w : List Char) :
    n.accepts w = (n.alphabet.tokenize w).map n.recognizes :=
  congrArg (Except.map · (n.alphabet.tokenize w)) (funext (n.acceptsFrom_eq n.startSet))

theorem recognizes_iff (h : n.WellFormed) :
    n.recognizes w = true ↔ ∃ s, Path n.Moves n.start w s ∧ n.accepting.getD s false = true := by
  rw [recognizes, isAccepting, List.any_eq_true]
  exact exists_congr fun s => and_congr_left fun _ => mem_run_startSet_iff h

end Acceptors.Nfa
