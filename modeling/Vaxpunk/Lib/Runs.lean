/-
  A logic for programs that write to a store.  `Runs` says, for one run from one
  state, what holds of every store the run passes through, and what holds of the
  result and the state it leaves, whichever way it ends.

  The stores on the way are described under an assumption: `A` is what the
  environment promises about each of them, and nothing is said of a store once
  the promise has been broken.
-/
import Vaxpunk.Lib.Prog

namespace Prog

variable {σ ε ω δ α β : Type}
variable {a : α} {e : ε} {g f : α → Prog σ ε ω β} {m : Prog σ ε ω α} {s : σ}

/-- How a program's states show a store: the store of a state, the effect of a
    write on it, the states in which writes do not fail, and the failures that
    such a state rules out. -/
structure World (σ ε ω δ : Type) where
  store : σ → δ
  write : δ → ω → δ
  calm : σ → Prop
  loud : ε → Prop

/-- Every store after one of the writes satisfies `A`. -/
def Stays (write : δ → ω → δ) (A : δ → Prop) : δ → List ω → Prop
  | _, [] => True
  | d, w :: ws => A (write d w) ∧ Stays write A (write d w) ws

/-- Every store after one of the writes satisfies `I`, as long as all the stores
    so far satisfied `A`. -/
def Along (write : δ → ω → δ) (A I : δ → Prop) : δ → List ω → Prop
  | _, [] => True
  | d, w :: ws => A (write d w) → I (write d w) ∧ Along write A I (write d w) ws

section stores
variable {write : δ → ω → δ} {A I J : δ → Prop}

theorem stays_append : ∀ {d : δ} {ws ws' : List ω}, Stays write A d (ws ++ ws') ↔
    Stays write A d ws ∧ Stays write A (ws.foldl write d) ws'
  | _, [], _ => by simp [Stays]
  | _, _ :: _, _ => by simp only [List.cons_append, Stays, stays_append, List.foldl_cons, and_assoc]

theorem along_append : ∀ {d : δ} {ws ws' : List ω}, Along write A I d ws →
    (Stays write A d ws → Along write A I (ws.foldl write d) ws') → Along write A I d (ws ++ ws')
  | _, [], _, _, h' => h' trivial
  | _, _ :: _, _, h, h' => fun ha =>
    ⟨(h ha).1, along_append (h ha).2 fun hs => h' ⟨ha, hs⟩⟩

theorem Along.mono (hIJ : ∀ d, I d → J d) : ∀ {d : δ} {ws : List ω}, Along write A I d ws →
    Along write A J d ws
  | _, [], _ => trivial
  | _, _ :: _, h => fun ha => ⟨hIJ _ (h ha).1, Along.mono hIJ (h ha).2⟩

/-- **Every prefix of the writes** leaves a store in `I`. -/
theorem Along.take : ∀ {d : δ} {ws : List ω}, Along write A I d ws → I d →
    ∀ n, Stays write A d (ws.take n) → I ((ws.take n).foldl write d)
  | _, [], _, hd, n, _ => by simpa using hd
  | _, _ :: _, _, hd, 0, _ => hd
  | _, _ :: _, h, _, n + 1, hs => Along.take (h hs.1).2 (h hs.1).1 n hs.2

end stores

/-- What a run from `s` has done: its writes are what changed the store, each
    store on the way is in `I`, a calm state stays calm and sees no loud failure,
    and the run ended in `Q` or failed in `E`. -/
structure Ended (W : World σ ε ω δ) (A I : δ → Prop) (s : σ) (o : Outcome σ ε ω α)
    (Q : α → σ → Prop) (E : ε → σ → Prop) : Prop where
  along : Along W.write A I (W.store s) o.writes
  store : Stays W.write A (W.store s) o.writes →
    W.store o.state = o.writes.foldl W.write (W.store s)
  calm : Stays W.write A (W.store s) o.writes → W.calm s →
    W.calm o.state ∧ ∀ e, o.result = .error e → ¬W.loud e
  ok : Stays W.write A (W.store s) o.writes → ∀ a, o.result = .ok a → Q a o.state
  error : Stays W.write A (W.store s) o.writes → ∀ e, o.result = .error e → E e o.state

/-- One run of `m` from `s`. -/
def Runs (W : World σ ε ω δ) (A I : δ → Prop) (m : Prog σ ε ω α) (s : σ)
    (Q : α → σ → Prop) (E : ε → σ → Prop) : Prop := Ended W A I s (m s) Q E

variable {o : Option α}

namespace Runs

variable {W : World σ ε ω δ} {A I J : δ → Prop} {m : Prog σ ε ω α} {f : α → Prog σ ε ω β} {s : σ}
  {Q Q' : α → σ → Prop} {R : β → σ → Prop} {E E' : ε → σ → Prop}

theorem mono (h : Runs W A I m s Q E) (hI : ∀ d, I d → J d) (hQ : ∀ a s', Q a s' → Q' a s')
    (hE : ∀ e s', E e s' → E' e s') : Runs W A J m s Q' E' :=
  ⟨h.along.mono hI, h.store, h.calm, fun hs a ha => hQ _ _ (h.ok hs a ha),
    fun hs e he => hE _ _ (h.error hs e he)⟩

theorem post_mono (h : Runs W A I m s Q E) (hQ : ∀ a s', Q a s' → Q' a s')
    (hE : ∀ e s', E e s' → E' e s') : Runs W A I m s Q' E' := h.mono (fun _ h => h) hQ hE

theorem imp (h : Runs W A I m s Q E) (hQ : ∀ a s', Q a s' → Q' a s') : Runs W A I m s Q' E :=
  h.post_mono hQ fun _ _ h => h

theorem of_reads (hs : (m s).state = s) (hw : (m s).writes = [])
    (hQ : ∀ a, (m s).result = .ok a → Q a s) (hE : ∀ e, (m s).result = .error e → ¬W.loud e ∧ E e s) :
    Runs W A I m s Q E :=
  ⟨by rw [hw]; trivial, fun _ => by rw [hs, hw]; rfl,
    fun _ hc => ⟨by rw [hs]; exact hc, fun e he => (hE e he).1⟩,
    fun _ a ha => by rw [hs]; exact hQ a ha, fun _ e he => by rw [hs]; exact (hE e he).2⟩

theorem pure (h : Q a s) : Runs W A I (Pure.pure a : Prog σ ε ω α) s Q E :=
  of_reads rfl rfl (fun _ he => by cases he; exact h) fun _ he => by cases he

theorem fail (hl : ¬W.loud e) (h : E e s) : Runs W A I (Prog.fail e : Prog σ ε ω α) s Q E :=
  of_reads rfl rfl (fun _ he => by cases he) (fun _ he => by cases he; exact ⟨hl, h⟩)

theorem bind (hm : Runs W A I m s Q E) (hf : ∀ a s', Q a s' → Runs W A I (f a) s' R E) :
    Runs W A I (m >>= f) s R E := by
  have hdef : (m >>= f) s = Prog.bind m f s := rfl
  unfold Runs at hm ⊢
  rw [hdef, Prog.bind]
  generalize m s = o at hm ⊢
  obtain ⟨e | a, s', ws⟩ := o
  case error =>
    exact ⟨hm.along, hm.store,
      fun hs hc => ⟨(hm.calm hs hc).1, fun e' he => (hm.calm hs hc).2 e' (by cases he; rfl)⟩,
      fun _ _ he => (by cases he), fun hs e' he => hm.error hs e' (by cases he; rfl)⟩
  case ok =>
    -- what `f` does is known only when the assumption held during `m`
    have hf' : Stays W.write A (W.store s) ws → Ended W A I s' (f a s') R E :=
      fun hs => hf a s' (hm.ok hs a rfl)
    have hst : Stays W.write A (W.store s) ws → W.store s' = ws.foldl W.write (W.store s) := hm.store
    dsimp only
    generalize f a s' = o at hf' ⊢
    obtain ⟨r, s'', ws'⟩ := o
    have hsplit : Stays W.write A (W.store s) (ws ++ ws') →
        Stays W.write A (W.store s) ws ∧ Stays W.write A (W.store s') ws' :=
      fun h => ⟨(stays_append.1 h).1, hst (stays_append.1 h).1 ▸ (stays_append.1 h).2⟩
    refine ⟨along_append hm.along fun hs => hst hs ▸ (hf' hs).along, fun h => ?_, fun h hc => ?_,
      fun h => ?_, fun h => ?_⟩ <;> obtain ⟨h1, h2⟩ := hsplit h
    · simp only [List.foldl_append, ← hst h1]; exact (hf' h1).store h2
    · exact (hf' h1).calm h2 (hm.calm h1 hc).1
    · exact (hf' h1).ok h2
    · exact (hf' h1).error h2

theorem and_post (h : Runs W A I m s Q E) (h' : Runs W A J m s Q' E') :
    Runs W A I m s (fun a s' => Q a s' ∧ Q' a s') E :=
  ⟨h.along, h.store, h.calm, fun hs a ha => ⟨h.ok hs a ha, h'.ok hs a ha⟩, h.error⟩

theorem state {Q : σ → σ → Prop} (h : Q s s) : Runs W A I (Prog.state : Prog σ ε ω σ) s Q E :=
  of_reads rfl rfl (fun _ he => by cases he; exact h) fun _ he => by cases he

theorem state_bind {f : σ → Prog σ ε ω β} (h : Runs W A I (f s) s R E) : Runs W A I (Prog.state >>= f) s R E :=
  bind (Q := fun a s' => a = s ∧ s' = s) (state ⟨rfl, rfl⟩) fun _ _ ⟨ha, hs⟩ => ha ▸ hs ▸ h

theorem modify {g : σ → σ} {Q : Unit → σ → Prop} (hst : W.store (g s) = W.store s)
    (hc : W.calm s → W.calm (g s)) (h : Q () (g s)) : Runs W A I (Prog.modify g : Prog σ ε ω Unit) s Q E :=
  ⟨trivial, fun _ => hst, fun _ h => ⟨hc h, fun _ he => by cases he⟩,
    fun _ _ he => (by cases he; exact h), fun _ _ he => by cases he⟩

theorem when {c : Prop} [Decidable c] {m : Prog σ ε ω Unit} {Q : Unit → σ → Prop}
    (ht : c → Runs W A I m s Q E) (hf : ¬c → Q () s) : Runs W A I (Prog.when c m) s Q E := by
  unfold Prog.when
  split_ifs with h
  · exact ht h
  · exact pure (hf h)

theorem orFail (hl : ¬W.loud e) (hQ : ∀ a, o = some a → Q a s)
    (hE : o = none → E e s) : Runs W A I (Prog.orFail e o) s Q E := by
  cases o with
  | some a => exact pure (hQ a rfl)
  | none => exact fail hl (hE rfl)

/-- **Loop rule**: an invariant indexed by what is left to do. -/
theorem each {g : α → Prog σ ε ω Unit} {T : List α → σ → Prop} :
    ∀ {as : List α} {s : σ}, T as s →
    (∀ a as s, T (a :: as) s → Runs W A I (g a) s (fun _ => T as) E) →
    Runs W A I (Prog.each g as) s (fun _ => T []) E
  | [], _, h, _ => pure h
  | _ :: as, _, h, hstep => bind (hstep _ as _ h) fun _ _ h' => each h' hstep

variable {T : List α → List β → σ → Prop}

/-- Loop rule for values collected: `T` is indexed by what is left to do and
    relates it to what has been collected. -/
theorem collect_after : ∀ {as : List α} {bs : List β} {s : σ}, T as bs s →
    (∀ a as bs s, T (a :: as) bs s → Runs W A I (g a) s (fun b => T as (bs ++ [b])) E) →
    Runs W A I (Prog.collect g as) s (fun bs' => T [] (bs ++ bs')) E
  | [], bs, _, h, _ => pure (by simpa using h)
  | _ :: as, bs, _, h, hstep => bind (hstep _ as bs _ h) fun b _ h' =>
      bind (collect_after h' hstep) fun bs' _ h'' => pure (by simpa using h'')

theorem collect {as : List α} (h : T as [] s)
    (hstep : ∀ a as bs s, T (a :: as) bs s → Runs W A I (g a) s (fun b => T as (bs ++ [b])) E) :
    Runs W A I (Prog.collect g as) s (fun bs => T [] bs) E := collect_after h hstep

end Runs

/-! ## Programs that only look -/

/-- `m` writes nothing, keeps the state and never fails loudly. -/
structure Looks (loud : ε → Prop) (m : Prog σ ε ω α) : Prop where
  state : ∀ s, (m s).state = s
  writes : ∀ s, (m s).writes = []
  error : ∀ {s e}, (m s).result = .error e → ¬loud e

namespace Looks

variable {loud : ε → Prop} {m : Prog σ ε ω α} {f : α → Prog σ ε ω β} {s : σ}

theorem mono {loud' : ε → Prop} (hl : ∀ e, loud' e → loud e) (hm : Looks loud m) : Looks loud' m :=
  ⟨hm.state, hm.writes, fun he h => hm.error he (hl _ h)⟩

theorem pure (a : α) : Looks loud (Pure.pure a : Prog σ ε ω α) :=
  ⟨fun _ => rfl, fun _ => rfl, fun h => by cases h⟩

theorem fail (h : ¬loud e) : Looks loud (Prog.fail e : Prog σ ε ω α) :=
  ⟨fun _ => rfl, fun _ => rfl, fun he => by cases he; exact h⟩

theorem result_bind (hm : Looks loud m) (s : σ) : ((m >>= f) s).result =
    match (m s).result with
    | .ok a => (f a s).result
    | .error e => .error e := by
  have hdef : (m >>= f) s = Prog.bind m f s := rfl
  have hst := hm.state s
  rw [hdef, Prog.bind]
  generalize m s = o at hst ⊢
  obtain ⟨e | a, s', ws⟩ := o
  · rfl
  · obtain rfl : s' = s := hst
    rfl

theorem bind (hm : Looks loud m) (hf : ∀ a, Looks loud (f a)) : Looks loud (m >>= f) := by
  have key : ∀ s, ((m >>= f) s).state = s ∧ ((m >>= f) s).writes = [] := by
    intro s
    have hdef : (m >>= f) s = Prog.bind m f s := rfl
    have hst := hm.state s
    have hwr := hm.writes s
    rw [hdef, Prog.bind]
    generalize m s = o at hst hwr ⊢
    obtain ⟨e | a, s', ws⟩ := o
    · exact ⟨hst, hwr⟩
    · obtain rfl : s' = s := hst
      obtain rfl : ws = [] := hwr
      exact ⟨(hf a).state s', (hf a).writes s'⟩
  refine ⟨fun s => (key s).1, fun s => (key s).2, fun {s e} he => ?_⟩
  rw [hm.result_bind] at he
  cases hr : (m s).result with
  | error e' => rw [hr] at he; cases he; exact hm.error hr
  | ok a => rw [hr] at he; exact (hf a).error he

theorem bind_ok (hm : Looks loud m) {b : β} :
    ((m >>= f) s).result = .ok b ↔ ∃ a, (m s).result = .ok a ∧ (f a s).result = .ok b := by
  rw [hm.result_bind]
  cases (m s).result <;> simp

theorem state_bind {f : σ → Prog σ ε ω β} (s : σ) :
    ((Prog.state >>= f) s).result = (f s s).result := rfl

theorem state_ : Looks loud (Prog.state : Prog σ ε ω σ) :=
  ⟨fun _ => rfl, fun _ => rfl, fun h => by cases h⟩

theorem gets (g : σ → α) : Looks loud (Prog.gets g : Prog σ ε ω α) :=
  ⟨fun _ => rfl, fun _ => rfl, fun h => by cases h⟩

theorem orFail (h : ¬loud e) : ∀ o : Option α, Looks loud (Prog.orFail e o : Prog σ ε ω α)
  | some a => pure a
  | none => fail h

theorem collect (h : ∀ a, Looks loud (g a)) :
    ∀ as, Looks loud (Prog.collect g as)
  | [] => pure []
  | a :: as => bind (h a) fun _ => bind (collect h as) fun _ => pure _

theorem collect_ok (h : ∀ a, Looks loud (g a)) : ∀ {as : List α} {bs : List β},
    (Prog.collect g as s).result = .ok bs ↔ List.Forall₂ (fun a b => (g a s).result = .ok b) as bs
  | [], bs => by
    rw [List.forall₂_nil_left_iff]
    change Except.ok [] = Except.ok bs ↔ _
    simp [eq_comm]
  | a :: as, bs => by
    rw [List.forall₂_cons_left_iff]
    change (((g a) >>= fun b => Prog.collect g as >>= fun bs => Pure.pure (b :: bs)) s).result = _ ↔ _
    rw [(h a).bind_ok]
    simp only [(collect h as).bind_ok, collect_ok h]
    constructor
    · rintro ⟨b, hb, bs', hbs, he⟩; cases he; exact ⟨b, bs', hb, hbs, rfl⟩
    · rintro ⟨b, bs', hb, hbs, rfl⟩; exact ⟨b, hb, bs', hbs, rfl⟩

end Looks

theorem bind_run {s' : σ} {ws : List ω} (h : m s = ⟨.ok a, s', ws⟩) :
    (m >>= f) s = ⟨(f a s').result, (f a s').state, ws ++ (f a s').writes⟩ := by
  have hdef : (m >>= f) s = Prog.bind m f s := rfl
  rw [hdef, Prog.bind, h]

theorem state_run (f : σ → Prog σ ε ω α) (s : σ) : (Prog.state >>= f) s = f s s := rfl

theorem result_orFail : ((Prog.orFail e o : Prog σ ε ω α) s).result = .ok a ↔ o = some a := by
  cases o with
  | none => exact ⟨fun h => (by cases h), fun h => (by cases h)⟩
  | some x => exact ⟨fun h => (by cases h; rfl), fun h => (by cases h; rfl)⟩

theorem Looks.run {loud : ε → Prop} (hm : Looks loud m) (h : (m s).result = .ok a) :
    (m >>= f) s = f a s := by
  have hdef : (m >>= f) s = Prog.bind m f s := rfl
  have hst := hm.state s
  have hwr := hm.writes s
  rw [hdef, Prog.bind]
  generalize m s = o at h hst hwr ⊢
  obtain ⟨r, s', ws⟩ := o
  obtain rfl : r = .ok a := h
  obtain rfl : s' = s := hst
  obtain rfl : ws = [] := hwr
  rfl

theorem Runs.look {W : World σ ε ω δ} {A I : δ → Prop} {R : β → σ → Prop} {E : ε → σ → Prop}
    (hm : Looks W.loud m) (hf : ∀ a, (m s).result = .ok a → Runs W A I (f a) s R E)
    (hE : ∀ e, (m s).result = .error e → E e s) : Runs W A I (m >>= f) s R E :=
  Runs.bind (Q := fun a s' => s' = s ∧ (m s).result = .ok a)
    (Runs.of_reads (hm.state s) (hm.writes s) (fun _ ha => ⟨rfl, ha⟩) fun e he => ⟨hm.error he, hE e he⟩)
    fun a _ ⟨hs, ha⟩ => hs ▸ hf a ha

/-! ## Runs that ask nothing of the stores on the way -/

theorem stays_true {write : δ → ω → δ} : ∀ {d : δ} {ws : List ω}, Stays write (fun _ => True) d ws
  | _, [] => trivial
  | _, _ :: _ => ⟨trivial, stays_true⟩

/-- One run of `m` from `s`, whatever the stores on the way. -/
abbrev Ends (W : World σ ε ω δ) (m : Prog σ ε ω α) (s : σ) (Q : α → σ → Prop)
    (E : ε → σ → Prop) : Prop := Runs W (fun _ => True) (fun _ => True) m s Q E

namespace Ends

variable {W : World σ ε ω δ} {m : Prog σ ε ω α} {s : σ} {Q : α → σ → Prop} {E : ε → σ → Prop}

theorem of_ok (h : Ends W m s Q E) (ha : (m s).result = .ok a) : Q a (m s).state :=
  h.ok stays_true a ha

theorem of_error (h : Ends W m s Q E) (he : (m s).result = .error e) : E e (m s).state :=
  h.error stays_true e he

end Ends

end Prog
