/-
  Blocking ASTs: whoever holds a mode that keeps a request from being granted
  has been told.
-/
import Vaxpunk.Lock.Proof.Acb
import Vaxpunk.Lock.Proof.Settled

namespace Lock

variable {s s' s'' : Db} {l r x p b : ℕ} {q h : LkbState} {env : Env}

/-! ## Blocking ASTs that stay armed -/

/-- No blocking AST but that of `l` is armed that wasn't. -/
def Disarms (l : ℕ) (s s' : Db) : Prop := ∀ x ≠ l, (s'.lk x).blkacb ≠ 0 → (s.lk x).blkacb ≠ 0

namespace Disarms

theorem refl : Disarms l s s := fun _ _ h => h

theorem trans (h : Disarms l s s') (h' : Disarms l s' s'') : Disarms l s s'' :=
  fun x hx h0 => h x hx (h' x hx h0)

theorem of_eq (h : ∀ x ≠ l, (s'.lk x).blkacb = (s.lk x).blkacb) : Disarms l s s' :=
  fun x hx h0 => h x hx ▸ h0

theorem foldl {α : Type} {f : Db → α → Db} (hf : ∀ s a, Disarms l s (f s a)) (xs : List α) :
    Disarms l s (xs.foldl f s) :=
  List.foldlRecOn xs f refl fun _ h a _ => h.trans (hf _ a)

theorem blockOne : Disarms l s (blockOne p s b) := by
  intro x _ hx
  unfold Lock.blockOne at hx
  split_ifs at hx
  · rw [lk_setLkb] at hx
    split_ifs at hx
    · exact absurd rfl hx
    · exact hx
  · exact hx

theorem blockAst : Disarms l s (blockAst s r h p) := foldl (fun _ _ => blockOne) _

theorem notify : Disarms l s (notify s r) :=
  trans (foldl (fun _ _ => blockAst.trans blockAst) _) (foldl (fun _ _ => blockAst.trans blockAst) _)

theorem grant : Disarms l s (grant (unlink s r q p) r p) := of_eq fun x _ => by
  have hlk : ∀ t : Db, t.lk = s.lk → ((t.setLkb p Lkb.grant).lk x).blkacb = (s.lk x).blkacb := fun t ht => by
    rw [lk_setLkb, ht]
    split_ifs with hx
    · rw [hx]
      rfl
    · rfl
  rw [Lock.grant, lk_post]
  split_ifs with hx
  · rw [hx] at hlk ⊢
    exact hlk _ rfl
  · exact hlk _ rfl

theorem regrant (hs : Struct s) : Disarms l s (regrant s r) :=
  regrant_keep (P := Disarms l s) (fun _ _ _ _ _ h _ _ _ _ => h.trans grant) (fun _ _ h => h.trans notify) hs refl

end Disarms

/-! ## NOTIFY -/

/-- Whoever holds a mode on `r` that a request there isn't compatible with has
    no blocking AST armed. -/
def Told (s : Db) (r : ℕ) : Prop :=
  ∀ h ≠ .waiting, ∀ b ∈ (s.rs r).queue h, ∀ q ≠ .granted, ∀ p ∈ (s.rs r).queue q, b ≠ p →
    (s.lk b).blkacb ≠ 0 → compatible (s.lk p).rqmode (s.lk b).grmode

theorem Told.same_on (ht : Told s r) (hs : SameOn s s' r) (hd : Disarms l s s')
    (hl : ∀ q, l ∉ (s.rs r).queue q) : Told s' r := by
  intro h hh b hb q hq p hp hne h0
  rw [hs.queue] at hb hp
  rw [hs.rqmode q p hp, hs.grmode h b hb]
  exact ht h hh b hb q hq p hp hne (hd b (fun e => hl h (e ▸ hb)) h0)

theorem foldl_reaches {α : Type} {f : Db → α → Db} {I P : Db → Prop} {xs : List α} {a : α} (ha : a ∈ xs)
    (hI : ∀ s a, I s → I (f s a)) (hP : ∀ s a, P s → P (f s a)) (hstep : ∀ s, I s → P (f s a)) (h : I s) :
    P (xs.foldl f s) := by
  obtain ⟨ys, zs, rfl⟩ := List.append_of_mem ha
  rw [List.foldl_append, List.foldl_cons]
  refine List.foldlRecOn zs f (hstep _ ?_) fun _ h a _ => hP _ a h
  exact List.foldlRecOn ys f h fun _ h a _ => hI _ a h

/-- The blocking AST of `b` isn't armed. -/
def Quieted (b : ℕ) (s : Db) : Prop := (s.lk b).blkacb = 0

theorem Quieted.mono (h : Quieted b s) (hd : Disarms l s s') (hb : b ≠ l) : Quieted b s' := by
  by_contra h0
  exact hd b hb h0 h

theorem quieted_blockOne (hne : b ≠ p) (hno : compatible (s.lk p).rqmode (s.lk b).grmode = false) :
    Quieted b (blockOne p s b) := by
  unfold blockOne Quieted
  split_ifs with h
  · rw [lk_setLkb, if_pos rfl]
  · by_contra h0
    exact h ⟨hne, h0, by simp [hno]⟩

theorem quieted_blockAst (hb : b ∈ (s.rs r).queue h) (hp : p ∈ (s.rs r).queue q) (hne : b ≠ p)
    (hno : compatible (s.lk p).rqmode (s.lk b).grmode = false) : Quieted b (blockAst s r h p) := by
  refine foldl_reaches (I := fun t => t.core = s.core) hb (fun t a ht => ?_)
    (fun t a ht => ht.mono Disarms.blockOne hne) (fun t ht => quieted_blockOne hne ?_) rfl
  · rw [← ht]
    unfold blockOne
    split_ifs
    · rw [core_setLkb rfl, core_emit rfl]
    · rfl
  · have hsame : SameOn s t r := .of_core ht
    rw [hsame.rqmode q p hp, hsame.grmode h b hb]
    exact hno

/-- **NOTIFY tells every holder that blocks a request.** -/
theorem told_notify : Told (notify s r) r := by
  have hcore : ∀ (t : Db) (a : ℕ), (blockAst (blockAst t r .granted a) r .converting a).core = t.core :=
    fun t a => by rw [core_blockAst, core_blockAst]
  have hsame : SameOn s (notify s r) r := .of_core core_notify
  intro h hh b hb q hq p hp hne h0
  rw [hsame.queue] at hb hp
  rw [hsame.rqmode q p hp, hsame.grmode h b hb]
  by_contra hno
  rw [Bool.not_eq_true] at hno
  refine h0 ?_
  have hkeep : ∀ (t : Db) (a : ℕ), Quieted b t → Quieted b (blockAst (blockAst t r .granted a) r .converting a) :=
    fun t a ht => ht.mono (Disarms.blockAst.trans Disarms.blockAst) hne
  -- the step at the request tells `b`, whichever queue `b` is on
  have hstep : ∀ t : Db, t.core = s.core → Quieted b (blockAst (blockAst t r .granted p) r .converting p) := by
    intro t ht
    have hq' : ∀ t : Db, t.core = s.core → Quieted b (blockAst t r h p) := by
      intro t ht
      have ht' : SameOn s t r := .of_core ht
      refine quieted_blockAst (q := q) (by rwa [ht'.queue]) (by rwa [ht'.queue]) hne ?_
      rw [ht'.rqmode q p hp, ht'.grmode h b hb, hno]
    cases h with
    | granted => exact (hq' t ht).mono Disarms.blockAst hne
    | converting => exact hq' _ (core_blockAst.trans ht)
    | waiting => exact absurd rfl hh
  have hI : ∀ (t : Db) (a : ℕ), t.core = s.core →
      (blockAst (blockAst t r .granted a) r .converting a).core = s.core := fun t a ht => (hcore t a).trans ht
  cases q with
  | granted => exact absurd rfl hq
  | converting =>
    exact Quieted.mono (foldl_reaches hp hI hkeep hstep rfl)
      (Disarms.foldl (fun _ _ => Disarms.blockAst.trans Disarms.blockAst) _) hne
  | waiting =>
    have hfirst := core_foldl (s := s) hcore ((s.rs r).queue .converting)
    refine foldl_reaches ?_ hI hkeep hstep hfirst
    rwa [queue_of_core hfirst]

theorem told_regrant : Told (regrant s r) r := told_notify

/-! ## Every call -/

/-- Everyone who blocks a request has been told. -/
def AllTold (s : Db) : Prop := ∀ r, Told s r

namespace AllTold

section
variable (ht : AllTold s)
include ht

theorem of_one (hs : Struct s) (hl : l ∈ s.lkbs → (s.lk l).rsb = r)
    (hsame : ∀ x ≠ r, SameOn s s' x) (hd : Disarms l s s') (hr : Told s' r) : AllTold s' := by
  intro x
  by_cases hx : x = r
  · exact hx ▸ hr
  · refine (ht x).same_on (hsame x hx) hd fun q hq => hx ?_
    obtain ⟨hmem, hrsb, -⟩ := (hs.on l x q).mp hq
    exact hrsb.symm.trans (hl hmem)

theorem freeRsb : AllTold (freeRsb s r) := by
  intro x
  unfold Lock.freeRsb
  dsimp only
  split_ifs
  exacts [ht x, ht x]

theorem dequeue (hs : Struct s) (hl : l ∈ s.lkbs) (hsub : (s.lk l).subcnt = 0)
    {status : Option Status} {inv : Bool} {val : Option ValBlk} : AllTold (dequeue s l status inv val) := by
  have hs₁ : Struct (takeOut s l status inv val) := hs.takeOut hl hsub
  refine freeRsb (ht.of_one (l := l) hs (fun _ => rfl) (fun x hx => ?_) (.trans (.of_eq fun x _ => ?_)
    (.regrant hs₁)) told_regrant)
  · exact (SameOn.takeOut hs hx.symm).trans (.regrant hs₁ hx)
  · rw [lk_takeOut]
    split_ifs <;> rfl

theorem fail (hs : Struct s) (hl : l ∈ s.lkbs) (hq : (s.lk l).state ≠ .granted) : AllTold (fail s l) := by
  obtain ⟨hsub, heq⟩ | ⟨hcv, heq⟩ := fail_cases hs hl hq
  · exact heq ▸ ht.dequeue hs hl hsub
  · rw [heq]
    have hs₁ := hs.failConversion hl hcv
    refine ht.of_one (l := l) hs (fun _ => rfl) (fun x hx => ?_) (.trans (.of_eq fun x hx => ?_)
      (.regrant hs₁)) told_regrant
    · exact (SameOn.failConversion hs hx.symm hcv).trans (.regrant hs₁ hx)
    · rw [lk_failConversion, if_neg hx]

theorem same (hsame : ∀ x, SameOn s s' x) (hlk : ∀ x, (s'.lk x).blkacb = (s.lk x).blkacb) : AllTold s' := by
  intro x h hh b hb q hq p hp hne h0
  rw [(hsame x).queue] at hb hp
  rw [(hsame x).rqmode q p hp, (hsame x).grmode h b hb]
  exact ht x h hh b hb q hq p hp hne (hlk b ▸ h0)

theorem of_new {L : Lkb} {i max : ℕ} (hs : Struct s) (hl : l ∉ s.lkbs)
    (hcore : s'.core = (add s l L i max).core) (hd : Disarms l s s') (hr : Told s' L.rsb) : AllTold s' :=
  ht.of_one hs (fun h => absurd h hl) (fun _ hx => (SameOn.add hs hl hx.symm).trans (.of_core hcore)) hd hr

end

end AllTold

theorem blkacb_makeLkb {a : EnqArgs} {id : ℕ} {f : Lkb → Lkb} (hx : x ≠ l) :
    ((append ((makeLkb s a r p l id).setLkb l f) r q l).lk x).blkacb = (s.lk x).blkacb := by
  change (((makeLkb s a r p l id).setLkb l f).lk x).blkacb = _
  rw [lk_setLkb, if_neg hx, makeLkb]
  split_ifs
  · rw [lk_setLkb]
    split_ifs with hp
    · rw [← hp, lk_setLkb, if_neg hx]
    · rw [lk_setLkb, if_neg hx]
  · rw [lk_setLkb, if_neg hx]

/-- **Every job leaves everyone told.** -/
theorem AllTold.job {ok : Db → Request → Prop} (ht : AllTold s) (hs : Struct s) (hjob : Job env ok s s') :
    AllTold s' := by
  have htick : ∀ l, AllTold (tick s l) := fun l =>
    ht.same (fun x => .tick) fun x => by
      rw [tick, lk_setLkb]
      split_ifs with hx
      · rw [hx]
      · rfl
  cases hjob with
  | dequeue l status inv val hl hsub => exact ht.dequeue hs hl hsub
  | convertNow a l hl hst hnow hok =>
    have hact : Act 0 ok s (convertNow s a l) := .convert l a.lkmode hl hst hnow hok core_convertNow
    refine ht.of_one (l := l) hs (fun _ => rfl) (fun x hx => ?_) (.trans (.of_eq fun x hx => ?_)
      (.regrant (hs.act hact))) told_regrant
    · exact (SameOn.convertNow hs hx.symm).trans (.regrant (hs.act hact) hx)
    · rw [convertNow, lk_post, if_neg hx, lk_setLkb, if_neg hx, lk_startConversion, if_neg hx]
  | convertWait a l hl hst hnow hok =>
    refine ht.of_one (l := l) hs (fun _ => rfl) (fun x hx => ?_) (.trans (.of_eq fun x hx => ?_) .notify)
      told_notify
    · exact (SameOn.moveTo hs hx.symm (by simp [hst])).trans (.of_core (core_notify.trans (core_convertWait hst)))
    · have hlk : (convertWait env s a l).lk x = (startConversion s a l).lk x := Function.update_of_ne hx _ _
      rw [hlk, lk_startConversion, if_neg hx]
  | enqOn a g s₁ r p hf hok =>
    have hs₁ : Struct s₁ := hf.struct hs
    have ht₁ : AllTold s₁ := ht.same (fun x => hf.sameOn hs) fun x => by rw [hf.lk]
    have henters := enqOn_enters env s₁ a g r p
    generalize enqOn env s₁ a g r p = res at henters
    cases henters with
    | notqueued => exact ht₁
    | insfmem s₂ hnew =>
      exact (ht₁.same (fun _ => .of_core (newLkb_none hnew)) fun x => by rw [(newLkb_frame hnew).1]).freeRsb
    | now s₂ l id hnew hnow =>
      obtain ⟨i, max, hfits, -, hcore, -⟩ := newLkb_fits env a hs₁ hf hnew
      refine ht₁.of_new hs₁ hfits.fresh hcore (.of_eq fun x hx => ?_) fun h _ b _ q hq p hp => ?_
      · rw [enqNow, lk_post, if_neg hx, blkacb_makeLkb hx, (newLkb_frame hnew).1]
      · -- there is no request on the resource
        obtain ⟨hcv, hw, -⟩ := now_iff.mp hnow
        rw [queue_of_core hcore, queue_add] at hp
        cases q with
        | granted => exact absurd rfl hq
        | converting => simp [EnqArgs.lockNow, EnqArgs.lock, hcv] at hp
        | waiting => simp [EnqArgs.lockNow, EnqArgs.lock, hw] at hp
    | wait s₂ l id hnew hnow =>
      obtain ⟨i, max, -, hfits, -, hcore⟩ := newLkb_fits env a hs₁ hf hnew
      refine ht₁.of_new hs₁ hfits.fresh (core_notify.trans hcore) (.trans (.of_eq fun x hx => ?_) .notify) told_notify
      rw [enqWait, blkacb_makeLkb hx, (newLkb_frame hnew).1]
  | tick l hl hwait => exact htick l
  | searchFrom l hl hwait =>
    refine searchFrom_keep (fun v => (htick l).same (fun _ => .of_core core_marked) fun _ => rfl) fun v h₁ => ?_
    exact h₁.fail (hs.tick.congr core_marked) hl (tick_state hs hl (by omega))

/-- **Whoever blocks a request has been told**: in every database reached, a
    lock that is granted or converting and has its blocking AST armed holds a
    mode that every other request on its resource is compatible with. -/
theorem blockers_told (h : Reached env anyCall s) {b p : ℕ} (hb : b ∈ s.lkbs) (hp : p ∈ s.lkbs)
    (hhold : (s.lk b).state ≠ .waiting) (harmed : (s.lk b).blkacb ≠ 0) (hreq : (s.lk p).state ≠ .granted)
    (hne : b ≠ p) (hr : (s.lk p).rsb = (s.lk b).rsb) : compatible (s.lk p).rqmode (s.lk b).grmode := by
  obtain ⟨hs, ht⟩ := Run.keep_jobs (P := AllTold) h (fun _ _ _ => Call.asks_any)
    (fun _ _ hs ht hjob => ht.job hs hjob) Struct.empty (fun r h _ b hb => by simp [Db.empty, Rsb.zero] at hb)
  exact ht _ _ hhold b (hs.mem_queue hb) _ hreq p (hr ▸ hs.mem_queue hp) hne harmed

/-- Two processes share a lock, with blocking ASTs, and a third's request is
    compatible with one mode and not with the other. -/
def tellCalls : List Call :=
  [.enq { EnqArgs.new 1 [65] .cr 101 with blkacb := 201 } ⟨some 1, some 11, true⟩,
    .enq { EnqArgs.new 2 [65] .pr 102 with blkacb := 202 } ⟨none, some 12, true⟩,
    .enq (.new 3 [65] .pw 103) ⟨none, some 13, true⟩]

theorem blockers_told_one : ((after ⟨10, 100⟩ tellCalls .empty).lk 11).blkacb = 201 ∧
    ((after ⟨10, 100⟩ tellCalls .empty).lk 12).blkacb = 0 ∧
    compatible ((after ⟨10, 100⟩ tellCalls .empty).lk 13).rqmode ((after ⟨10, 100⟩ tellCalls .empty).lk 11).grmode :=
  ⟨by decide +kernel, by decide +kernel,
    blockers_told (run_after (by decide +kernel) : Reached _ anyCall _) (by decide +kernel)
    (by decide +kernel) (by decide +kernel) (by decide +kernel) (by decide +kernel) (by decide) (by decide +kernel)⟩

end Lock
