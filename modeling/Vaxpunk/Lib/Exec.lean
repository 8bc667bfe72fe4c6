/-
  Programs that keep their state when they fail (`EStateM`): what a program keeps
  however it ends, and two programs that run side by side and both end well.
-/
import Mathlib

namespace Exec

variable {ε σ τ α β γ δ : Type}
variable {s s' : σ} {as : List α}

theorem bind_eq_ok {x : Except ε α} {f : α → Except ε β} {b : β} :
    (x >>= f) = .ok b ↔ ∃ a, x = .ok a ∧ f a = .ok b := by
  cases x with
  | error e =>
    constructor
    · intro h
      cases h
    · rintro ⟨a, h, -⟩
      cases h
  | ok a =>
    constructor
    · exact fun h => ⟨a, rfl, h⟩
    · rintro ⟨a', h, hf⟩
      cases h
      exact hf

section one
variable {P : σ → Prop} {x : EStateM ε σ α} {f : α → EStateM ε σ β}

/-- `x` keeps `P`, whether it fails or not. -/
def Keeps (P : σ → Prop) (x : EStateM ε σ α) : Prop :=
  ∀ s, P s → (∀ a s', x s = .ok a s' → P s') ∧ ∀ e s', x s = .error e s' → P s'

theorem bind_ok {b : β} : (x >>= f) s = .ok b s' ↔
    ∃ a s₁, x s = .ok a s₁ ∧ f a s₁ = .ok b s' := by
  change EStateM.bind x f s = _ ↔ _
  unfold EStateM.bind
  cases h : x s with
  | ok a s₁ =>
    constructor
    · exact fun hf => ⟨a, s₁, rfl, hf⟩
    · rintro ⟨a', s₁', heq, hf⟩
      cases heq
      exact hf
  | error e s₁ =>
    constructor
    · intro hf
      cases hf
    · rintro ⟨a', s₁', heq, -⟩
      cases heq

theorem bind_error {e : ε} : (x >>= f) s = .error e s' ↔
    x s = .error e s' ∨ ∃ a s₁, x s = .ok a s₁ ∧ f a s₁ = .error e s' := by
  change EStateM.bind x f s = _ ↔ _
  unfold EStateM.bind
  cases h : x s with
  | ok a s₁ =>
    constructor
    · exact fun hf => .inr ⟨a, s₁, rfl, hf⟩
    · rintro (heq | ⟨a', s₁', heq, hf⟩)
      · cases heq
      · cases heq
        exact hf
  | error e s₁ =>
    constructor
    · exact fun hf => .inl (by cases hf; rfl)
    · rintro (heq | ⟨a', s₁', heq, -⟩)
      · cases heq
        rfl
      · cases heq

/-- `Q` holds of the state that `x` ends in, whether it fails or not. -/
def Leaves (x : EStateM ε σ α) (s : σ) (Q : σ → Prop) : Prop :=
  (∀ a s', x s = .ok a s' → Q s') ∧ ∀ e s', x s = .error e s' → Q s'

theorem Leaves.bind {Q : σ → Prop} (hx : ∀ e s', x s = .error e s' → Q s')
    (hf : ∀ a s₁, x s = .ok a s₁ → Leaves (f a) s₁ Q) : Leaves (x >>= f) s Q := by
  refine ⟨fun b s' h => ?_, fun e s' h => ?_⟩
  · obtain ⟨a, s₁, hxa, hfa⟩ := bind_ok.mp h
    exact (hf a s₁ hxa).1 b s' hfa
  · rcases bind_error.mp h with hxe | ⟨a, s₁, hxa, hfa⟩
    · exact hx e s' hxe
    · exact (hf a s₁ hxa).2 e s' hfa

theorem Leaves.pure {Q : σ → Prop} (a : α) (h : Q s) :
    Leaves (Pure.pure a : EStateM ε σ α) s Q := by
  refine ⟨fun b s' h' => ?_, fun e s' h' => ?_⟩ <;> cases h'
  exact h

theorem Keeps.bind (hx : Keeps P x) (hf : ∀ a, Keeps P (f a)) : Keeps P (x >>= f) := by
  refine fun s hs => ⟨fun b s' h => ?_, fun e s' h => ?_⟩
  · obtain ⟨a, s₁, hxa, hfa⟩ := bind_ok.mp h
    exact (hf a s₁ ((hx s hs).1 a s₁ hxa)).1 b s' hfa
  · rcases bind_error.mp h with hxe | ⟨a, s₁, hxa, hfa⟩
    · exact (hx s hs).2 e s' hxe
    · exact (hf a s₁ ((hx s hs).1 a s₁ hxa)).2 e s' hfa

theorem Keeps.pure (a : α) : Keeps P (Pure.pure a : EStateM ε σ α) := by
  refine fun s hs => ⟨fun b s' h => ?_, fun e s' h => ?_⟩ <;> cases h
  exact hs

theorem Keeps.throw (e : ε) : Keeps P (MonadExcept.throw e : EStateM ε σ α) := by
  refine fun s hs => ⟨fun b s' h => ?_, fun e s' h => ?_⟩ <;> cases h
  exact hs

theorem Keeps.get : Keeps P (MonadState.get : EStateM ε σ σ) := by
  refine fun s hs => ⟨fun b s' h => ?_, fun e s' h => ?_⟩ <;> cases h
  exact hs

theorem Keeps.modify {g : σ → σ} (hg : ∀ s, P s → P (g s)) :
    Keeps P (modify g : EStateM ε σ PUnit) := by
  refine fun s hs => ⟨fun b s' h => ?_, fun e s' h => ?_⟩ <;> cases h
  exact hg s hs

end one

section two
variable {R : σ → τ → Prop} {Q : α → γ → Prop} {Q' : β → δ → Prop} {x : EStateM ε σ α}
  {y : EStateM ε τ γ} {f : α → EStateM ε σ β} {g : γ → EStateM ε τ δ}

/-- `x` and `y`, from states related by `R`: if both end well, so are their states
    then, and `Q` relates what they return. -/
def Paired (R : σ → τ → Prop) (Q : α → γ → Prop) (x : EStateM ε σ α) (y : EStateM ε τ γ) : Prop :=
  ∀ s t, R s t → ∀ a s' c t', x s = .ok a s' → y t = .ok c t' → R s' t' ∧ Q a c

theorem Paired.bind (hx : Paired R Q x y) (hf : ∀ a c, Q a c → Paired R Q' (f a) (g c)) :
    Paired R Q' (x >>= f) (y >>= g) := by
  intro s t hst b s' d t' hb hd
  obtain ⟨a, s₁, hxa, hfa⟩ := bind_ok.mp hb
  obtain ⟨c, t₁, hyc, hgc⟩ := bind_ok.mp hd
  obtain ⟨hst₁, hac⟩ := hx s t hst a s₁ c t₁ hxa hyc
  exact hf a c hac s₁ t₁ hst₁ b s' d t' hfa hgc

theorem Paired.pure {a : α} {c : γ} (h : Q a c) :
    Paired R Q (Pure.pure a : EStateM ε σ α) (Pure.pure c) := by
  intro s t hst a' s' c' t' ha hc
  cases ha
  cases hc
  exact ⟨hst, h⟩

theorem Paired.throw (e : ε) : Paired R Q (MonadExcept.throw e : EStateM ε σ α) y := by
  intro s t _ a s' c t' ha
  cases ha

theorem Paired.throw_right (e : ε) : Paired R Q x (MonadExcept.throw e : EStateM ε τ γ) := by
  intro s t _ a s' c t' _ hc
  cases hc

theorem Paired.modify {g : σ → σ} {h : τ → τ} (hg : ∀ s t, R s t → R (g s) (h t)) :
    Paired R (fun _ _ => True) (modify g : EStateM ε σ PUnit) (modify h) := by
  intro s t hst a s' c t' ha hc
  cases ha
  cases hc
  exact ⟨hg s t hst, trivial⟩

end two

theorem foldlM_keeps {f : σ → α → Except ε σ} {P : σ → Prop}
    (hf : ∀ a ∈ as, ∀ s s', P s → f s a = .ok s' → P s') (hs : P s) (h : as.foldlM f s = .ok s') :
    P s' := by
  induction as generalizing s with
  | nil =>
    cases h
    exact hs
  | cons a as ih =>
    rw [List.foldlM_cons] at h
    cases hfa : f s a with
    | error e =>
      rw [hfa] at h
      cases h
    | ok s₁ =>
      rw [hfa] at h
      obtain ⟨hfirst, hf⟩ := List.forall_mem_cons.mp hf
      exact ih hf (hfirst s s₁ hs hfa) h

theorem foldlM_some_keeps {f : σ → α → Option σ} {P : σ → Prop}
    (hf : ∀ s a s', P s → f s a = some s' → P s') (hs : P s) (h : as.foldlM f s = some s') : P s' := by
  induction as generalizing s with
  | nil =>
    cases h
    exact hs
  | cons a as ih =>
    rw [List.foldlM_cons] at h
    obtain ⟨s₁, hfa, hrest⟩ := Option.bind_eq_some_iff.mp h
    exact ih (hf s a s₁ hs hfa) hrest

theorem foldlM_some_paired {f : σ → α → Option σ} {g : τ → α → Option τ} {R : σ → τ → Prop}
    (hf : ∀ a ∈ as, ∀ s t s' t', R s t → f s a = some s' → g t a = some t' → R s' t') {t t' : τ}
    (hst : R s t) (h : as.foldlM f s = some s') (h' : as.foldlM g t = some t') : R s' t' := by
  induction as generalizing s t with
  | nil =>
    cases h
    cases h'
    exact hst
  | cons a as ih =>
    rw [List.foldlM_cons] at h h'
    obtain ⟨s₁, hfa, hrest⟩ := Option.bind_eq_some_iff.mp h
    obtain ⟨t₁, hga, hrest'⟩ := Option.bind_eq_some_iff.mp h'
    obtain ⟨hfirst, hf⟩ := List.forall_mem_cons.mp hf
    exact ih hf (hfirst s t s₁ t₁ hst hfa hga) hrest hrest'

end Exec
