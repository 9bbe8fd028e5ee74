import Mathlib.Data.List.Forall2
import Mathlib.Tactic.Common

/-! Checks that were passed or not. A sequence of checks succeeds when each of its parts does, with
the results of the earlier parts at hand, and fails as the first of its parts that does not. -/

namespace Acceptors

variable {ε α β : Type}

theorem bind_eq_ok_iff {x : Except ε α} {f : α → Except ε β} {b : β} :
    x >>= f = .ok b ↔ ∃ a, x = .ok a ∧ f a = .ok b := by
  cases x with
  | error e =>
    constructor
    · intro h
      cases h
    · rintro ⟨a, h, _⟩
      cases h
  | ok a =>
    constructor
    · intro h
      exact ⟨a, rfl, h⟩
    · rintro ⟨a, h, hb⟩
      cases h
      exact hb

theorem check_bind_eq_ok_iff {x : Except ε Unit} {f : Unit → Except ε β} {b : β} :
    x >>= f = .ok b ↔ x = .ok () ∧ f () = .ok b :=
  bind_eq_ok_iff.trans ⟨fun ⟨_, h⟩ => h, fun h => ⟨(), h⟩⟩

theorem bind_of_eq_ok {x : Except ε α} {f : α → Except ε β} {a : α} (h : x = .ok a) :
    x >>= f = f a := by
  rw [h]
  rfl

theorem not_exists_error_eq_ok (e : ε) : ¬∃ a : α, Except.error e = .ok a := by
  rintro ⟨a, h⟩
  cases h

theorem exists_eq_ok_of_any {x : Except ε α} {p : α → Bool} (h : x.toOption.any p = true) :
    ∃ a, x = .ok a ∧ p a = true := by
  cases x with
  | error e => cases h
  | ok a => exact ⟨a, rfl, h⟩

theorem map_eq_ok_iff {x : Except ε α} {f : α → β} {b : β} :
    f <$> x = .ok b ↔ ∃ a, x = .ok a ∧ f a = b := by
  cases x with
  | error e =>
    constructor
    · intro h
      cases h
    · rintro ⟨a, h, _⟩
      cases h
  | ok a =>
    constructor
    · intro h
      exact ⟨a, rfl, Except.ok.inj h⟩
    · rintro ⟨a, h, rfl⟩
      cases h
      rfl

theorem map_eq_ok_congr {x y : Except ε α} (h : ∀ a, x = .ok a ↔ y = .ok a) (f : α → β) (b : β) :
    x.map f = .ok b ↔ y.map f = .ok b :=
  map_eq_ok_iff.trans ((exists_congr fun a => and_congr (h a) Iff.rfl).trans map_eq_ok_iff.symm)

theorem mapError_eq_ok_iff {δ : Type} {x : Except ε α} {f : ε → δ} {a : α} :
    x.mapError f = .ok a ↔ x = .ok a := by
  cases x with
  | error e =>
    constructor
    · intro h
      cases h
    · intro h
      cases h
  | ok b =>
    constructor
    · intro h
      cases h
      rfl
    · intro h
      cases h
      rfl

theorem exists_of_mem_mapM {f : α → Except ε β} {l : List α} {ys : List β}
    (h : l.mapM f = .ok ys) {y : β} (hy : y ∈ ys) : ∃ x ∈ l, f x = .ok y := by
  induction l generalizing ys with
  | nil =>
    cases h
    cases hy
  | cons x l ih =>
    rw [List.mapM_cons, bind_eq_ok_iff] at h
    obtain ⟨z, hz, h⟩ := h
    obtain ⟨zs, hzs, h⟩ := bind_eq_ok_iff.1 h
    cases h
    rcases List.mem_cons.1 hy with rfl | hy
    · exact ⟨x, List.mem_cons_self, hz⟩
    · obtain ⟨x', hx', hfx⟩ := ih hzs hy
      exact ⟨x', List.mem_cons_of_mem x hx', hfx⟩

theorem exists_of_mapM_of_mem {f : α → Except ε β} {l : List α} {ys : List β}
    (h : l.mapM f = .ok ys) {x : α} (hx : x ∈ l) : ∃ y ∈ ys, f x = .ok y := by
  induction l generalizing ys with
  | nil => cases hx
  | cons z l ih =>
    rw [List.mapM_cons, bind_eq_ok_iff] at h
    obtain ⟨y, hy, h⟩ := h
    obtain ⟨zs, hzs, h⟩ := bind_eq_ok_iff.1 h
    cases h
    rcases List.mem_cons.1 hx with rfl | hx
    · exact ⟨y, List.mem_cons_self, hy⟩
    · obtain ⟨y', hy', hfx⟩ := ih hzs hx
      exact ⟨y', List.mem_cons_of_mem y hy', hfx⟩

theorem mapM_eq_ok_iff {f : α → Except ε β} {l : List α} {ys : List β} :
    l.mapM f = .ok ys ↔ List.Forall₂ (fun x y => f x = .ok y) l ys := by
  induction l generalizing ys with
  | nil =>
    rw [List.forall₂_nil_left_iff]
    exact ⟨fun h => (Except.ok.inj h).symm, fun h => h ▸ rfl⟩
  | cons x l ih =>
    rw [List.mapM_cons, bind_eq_ok_iff, List.forall₂_cons_left_iff]
    refine exists_congr fun y => ?_
    rw [bind_eq_ok_iff]
    constructor
    · rintro ⟨hy, zs, hzs, h⟩
      cases h
      exact ⟨zs, hy, ih.1 hzs, rfl⟩
    · rintro ⟨zs, hy, hzs, rfl⟩
      exact ⟨hy, zs, ih.2 hzs, rfl⟩

theorem mapM_congr {f g : α → Except ε β} {l : List α} (h : ∀ x ∈ l, f x = g x) :
    l.mapM f = l.mapM g := by
  induction l with
  | nil => rfl
  | cons x l ih =>
    obtain ⟨hx, hl⟩ := List.forall_mem_cons.1 h
    rw [List.mapM_cons, List.mapM_cons, hx, ih hl]

theorem mapM_ok_or_error {P : α → β → Prop} {Q : Prop} {f : α → Except ε β} {e : ε} {l : List α}
    (h : ∀ x ∈ l, (∃ y, f x = .ok y ∧ P x y) ∨ (f x = .error e ∧ Q)) :
    (∃ ys, l.mapM f = .ok ys ∧ List.Forall₂ P l ys) ∨ (l.mapM f = .error e ∧ Q) := by
  induction l with
  | nil => exact .inl ⟨[], rfl, .nil⟩
  | cons x l ih =>
    obtain ⟨hx, hl⟩ := List.forall_mem_cons.1 h
    rw [List.mapM_cons]
    rcases hx with ⟨y, hy, hP⟩ | ⟨he, hQ⟩
    · rcases ih hl with ⟨ys, hys, hPs⟩ | ⟨he, hQ⟩
      · exact .inl ⟨y :: ys, by rw [hy, hys]; rfl, .cons hP hPs⟩
      · exact .inr ⟨by rw [hy, he]; rfl, hQ⟩
    · exact .inr ⟨by rw [he]; rfl, hQ⟩

theorem bind_eq_error_iff {x : Except ε α} {f : α → Except ε β} {e : ε} :
    x >>= f = .error e ↔ x = .error e ∨ ∃ a, x = .ok a ∧ f a = .error e := by
  cases x with
  | error e' =>
    refine ⟨fun h => .inl (by cases h; rfl), ?_⟩
    rintro (h | ⟨a, h, _⟩)
    · cases h
      rfl
    · cases h
  | ok a =>
    refine ⟨fun h => .inr ⟨a, rfl, h⟩, ?_⟩
    rintro (h | ⟨a, h, he⟩)
    · cases h
    · cases h
      exact he

theorem map_eq_error_iff {x : Except ε α} {f : α → β} {e : ε} :
    f <$> x = .error e ↔ x = .error e := by
  cases x with
  | error e' =>
    constructor
    · intro h
      cases h
      rfl
    · intro h
      cases h
      rfl
  | ok a =>
    constructor
    · intro h
      cases h
    · intro h
      cases h

theorem mapError_eq_error_iff {δ : Type} {x : Except ε α} {f : ε → δ} {e : δ} :
    x.mapError f = .error e ↔ ∃ e', x = .error e' ∧ f e' = e := by
  cases x with
  | error e' =>
    refine ⟨fun h => ⟨e', rfl, Except.error.inj h⟩, ?_⟩
    rintro ⟨_, h, rfl⟩
    cases h
    rfl
  | ok a =>
    constructor
    · intro h
      cases h
    · rintro ⟨_, h, -⟩
      cases h

theorem exists_of_mapM_eq_error {f : α → Except ε β} {l : List α} {e : ε}
    (h : l.mapM f = .error e) :
    ∃ before x after ys, l = before ++ x :: after ∧ before.mapM f = .ok ys ∧ f x = .error e := by
  induction l with
  | nil => cases h
  | cons x l ih =>
    rw [List.mapM_cons, bind_eq_error_iff] at h
    rcases h with hx | ⟨y, hy, h⟩
    · exact ⟨[], x, l, [], rfl, rfl, hx⟩
    · rcases bind_eq_error_iff.1 h with hl | ⟨_, _, h⟩
      · obtain ⟨before, z, after, ys, rfl, hbefore, hz⟩ := ih hl
        refine ⟨x :: before, z, after, y :: ys, rfl, ?_, hz⟩
        rw [List.mapM_cons, hy, hbefore]
        rfl
      · cases h

theorem exists_of_foldlM_eq_error {f : β → α → Except ε β} {l : List α} {b : β} {e : ε}
    (h : l.foldlM f b = .error e) :
    ∃ before x after r, l = before ++ x :: after ∧ before.foldlM f b = .ok r ∧
    f r x = .error e := by
  induction l generalizing b with
  | nil => cases h
  | cons x l ih =>
    rw [List.foldlM_cons, bind_eq_error_iff] at h
    rcases h with hx | ⟨b', hb', h⟩
    · exact ⟨[], x, l, b, rfl, rfl, hx⟩
    · obtain ⟨before, z, after, r, rfl, hbefore, hz⟩ := ih h
      refine ⟨x :: before, z, after, r, rfl, ?_, hz⟩
      rw [List.foldlM_cons, hb']
      exact hbefore

theorem foldlM_induction {P : β → Prop} {f : β → α → Except ε β} {l : List α} {b r : β}
    (hstep : ∀ b x r, P b → f b x = .ok r → P r) (hb : P b) (h : l.foldlM f b = .ok r) : P r := by
  induction l generalizing b with
  | nil =>
    cases h
    exact hb
  | cons x l ih =>
    rw [List.foldlM_cons, bind_eq_ok_iff] at h
    obtain ⟨b', hb', h⟩ := h
    exact ih (hstep b x b' hb hb') h

/-- What every step makes of the part of a list that it has taken holds of the whole list after a
successful run. -/
theorem foldlM_prefix_induction {P : List α → β → Prop} {f : β → α → Except ε β} {l : List α}
    {b r : β} (hstep : ∀ done b x r, P done b → f b x = .ok r → P (done ++ [x]) r) (hb : P [] b)
    (h : l.foldlM f b = .ok r) : P l r := by
  suffices hall : ∀ done, P done b → P (done ++ l) r from hall [] hb
  clear hb
  induction l generalizing b with
  | nil =>
    cases h
    intro done hb
    rwa [List.append_nil]
  | cons x l ih =>
    rw [List.foldlM_cons, bind_eq_ok_iff] at h
    obtain ⟨b', hb', h⟩ := h
    intro done hb
    rw [List.append_cons]
    exact ih h (done ++ [x]) (hstep done b x b' hb hb')

theorem mapM_eq_ok_of_map_eq {γ δ : Type} {f : α → Except ε β} {g : α → γ} {k : δ → γ} {r : δ → β}
    {l : List α} {l' : List δ} (hf : ∀ x, ∀ z ∈ l', g x = k z → f x = .ok (r z))
    (h : l.map g = l'.map k) : l.mapM f = .ok (l'.map r) := by
  induction l' generalizing l with
  | nil =>
    obtain rfl := List.map_eq_nil_iff.1 h
    rfl
  | cons z l' ih =>
    obtain ⟨x, l, rfl, hx, hl⟩ := List.map_eq_cons_iff.1 h
    obtain ⟨hz, hf⟩ := List.forall_mem_cons.1 fun z hz x => hf x z hz
    rw [List.mapM_cons, hz x hx, ih (fun x z hz => hf z hz x) hl]
    rfl

theorem mapM_perm {f : α → Except ε β} {l l' : List α} {ys : List β} (hperm : l.Perm l')
    (h : l.mapM f = .ok ys) : ∃ ys', l'.mapM f = .ok ys' ∧ ys.Perm ys' := by
  induction hperm generalizing ys with
  | nil => exact ⟨ys, h, .refl ys⟩
  | cons x _ ih =>
    rw [List.mapM_cons, bind_eq_ok_iff] at h
    obtain ⟨y, hy, h⟩ := h
    obtain ⟨zs, hzs, h⟩ := bind_eq_ok_iff.1 h
    cases h
    obtain ⟨zs', hzs', hp⟩ := ih hzs
    exact ⟨y :: zs', by rw [List.mapM_cons, hy, hzs']; rfl, hp.cons y⟩
  | swap x y l =>
    rw [List.mapM_cons, bind_eq_ok_iff] at h
    obtain ⟨b, hb, h⟩ := h
    rw [List.mapM_cons, bind_eq_ok_iff] at h
    obtain ⟨_, h', h⟩ := h
    obtain ⟨a, ha, h'⟩ := bind_eq_ok_iff.1 h'
    obtain ⟨zs, hzs, h'⟩ := bind_eq_ok_iff.1 h'
    cases h'
    cases h
    refine ⟨a :: b :: zs, ?_, .swap a b zs⟩
    rw [List.mapM_cons, List.mapM_cons, ha, hb, hzs]
    rfl
  | trans _ _ ih₁ ih₂ =>
    obtain ⟨zs, hzs, hp⟩ := ih₁ h
    obtain ⟨zs', hzs', hp'⟩ := ih₂ hzs
    exact ⟨zs', hzs', hp.trans hp'⟩

theorem foldlM_perm {P : β → Prop} {f : β → α → Except ε β} {l l' : List α} {b r : β}
    (hstep : ∀ b x r, P b → f b x = .ok r → P r)
    (hswap : ∀ b x y b₁ r, P b → f b x = .ok b₁ → f b₁ y = .ok r →
      ∃ b₂, f b y = .ok b₂ ∧ f b₂ x = .ok r)
    (hperm : l.Perm l') (hb : P b) (h : l.foldlM f b = .ok r) : l'.foldlM f b = .ok r := by
  induction hperm generalizing b with
  | nil => exact h
  | cons x _ ih =>
    rw [List.foldlM_cons, bind_eq_ok_iff] at h ⊢
    obtain ⟨b', hb', h⟩ := h
    exact ⟨b', hb', ih (hstep b x b' hb hb') h⟩
  | swap x y l =>
    rw [List.foldlM_cons, bind_eq_ok_iff] at h ⊢
    obtain ⟨b₁, hb₁, h⟩ := h
    rw [List.foldlM_cons, bind_eq_ok_iff] at h
    obtain ⟨b', hb', h⟩ := h
    obtain ⟨b₂, hb₂, hx⟩ := hswap b y x b₁ b' hb hb₁ hb'
    refine ⟨b₂, hb₂, ?_⟩
    rw [List.foldlM_cons, hx]
    exact h
  | trans _ _ ih₁ ih₂ => exact ih₂ hb (ih₁ hb h)

/-- Both fail with errors related by `E`, or both succeed with results related by `R`. -/
inductive SameResult {ε ε' : Type} (E : ε → ε' → Prop) (R : α → β → Prop) :
    Except ε α → Except ε' β → Prop
  | failed {e : ε} {e' : ε'} (h : E e e') : SameResult E R (.error e) (.error e')
  | found {a : α} {b : β} (h : R a b) : SameResult E R (.ok a) (.ok b)

namespace SameResult

variable {ε' γ δ : Type} {E : ε → ε' → Prop} {R : α → β → Prop} {S : γ → δ → Prop} {x : Except ε α}
  {x' : Except ε' β}

theorem bind {f : α → Except ε γ} {f' : β → Except ε' δ} (h : SameResult E R x x')
    (hf : ∀ a b, x = .ok a → R a b → SameResult E S (f a) (f' b)) :
    SameResult E S (x >>= f) (x' >>= f') := by
  cases h with
  | failed h => exact .failed h
  | found h => exact hf _ _ rfl h

theorem mapError {η η' : Type} {E' : η → η' → Prop} {f : ε → η} {f' : ε' → η'}
    (h : SameResult E R x x') (hf : ∀ e e', E e e' → E' (f e) (f' e')) :
    SameResult E' R (x.mapError f) (x'.mapError f') := by
  cases h with
  | failed h => exact .failed (hf _ _ h)
  | found h => exact .found h

theorem mapM {l : List α} {l' : List β} {f : α → Except ε γ} {f' : β → Except ε' δ}
    (h : List.Forall₂ R l l') (hf : ∀ a b, R a b → SameResult E S (f a) (f' b)) :
    SameResult E (List.Forall₂ S) (l.mapM f) (l'.mapM f') := by
  induction h with
  | nil => exact .found .nil
  | cons hab _ ih =>
    rw [List.mapM_cons, List.mapM_cons]
    exact (hf _ _ hab).bind fun _ _ _ hy => ih.bind fun _ _ _ hys => .found (.cons hy hys)

theorem toOption_map_eq {g : α → γ} {g' : β → γ} (h : SameResult E R x x')
    (hR : ∀ a b, R a b → g' b = g a) :
    x'.toOption.map g' = x.toOption.map g := by
  cases h with
  | failed _ => rfl
  | found h => exact congrArg some (hR _ _ h)

theorem of_iff {x : Except ε Unit} {x' : Except ε' Unit} (h : x' = .ok () ↔ x = .ok ()) :
    SameResult (fun _ _ => True) (fun _ _ => True) x x' := by
  cases x with
  | error e =>
    cases x' with
    | error e' => exact .failed trivial
    | ok _ => cases h.1 rfl
  | ok _ =>
    cases h.2 rfl
    exact .found trivial

end SameResult

end Acceptors
