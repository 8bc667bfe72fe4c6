/-
  No request that could be granted is left at the head of its queue.
-/
import Vaxpunk.Lock.Proof.Exclusion

namespace Lock

open List

variable {s s' s'' : Db} {l r x w n : ℕ} {mode : Mode} {q q' : LkbState} {f : Lkb → Lkb} {env : Env}

/-! ## A resource that is left alone -/

/-- The queues of `r`, and the modes of the locks on them, are the same. -/
structure SameOn (s s' : Db) (r : ℕ) : Prop where
  queue : ∀ q, (s'.rs r).queue q = (s.rs r).queue q
  grmode : ∀ q, ∀ b ∈ (s.rs r).queue q, (s'.lk b).grmode = (s.lk b).grmode
  rqmode : ∀ q, ∀ b ∈ (s.rs r).queue q, (s'.lk b).rqmode = (s.lk b).rqmode

variable {status : Option Status} {val : Option ValBlk} {L : Lkb} {inv : Bool}

namespace SameOn

theorem of_core (h : s'.core = s.core) : SameOn s s' r := by
  have hc : SameOn s s.core r := ⟨fun _ => rfl, fun _ _ _ => rfl, fun _ _ _ => rfl⟩
  rw [← h] at hc
  exact { hc with }

theorem refl : SameOn s s r := of_core rfl

theorem emit {e : Event} : SameOn s (s.emit e) r := ⟨fun _ => rfl, fun _ _ _ => rfl, fun _ _ _ => rfl⟩

theorem trans (h : SameOn s s' r) (h' : SameOn s' s'' r) : SameOn s s'' r where
  queue q := (h'.queue q).trans (h.queue q)
  grmode q b hb := (h'.grmode q b (h.queue q ▸ hb)).trans (h.grmode q b hb)
  rqmode q b hb := (h'.rqmode q b (h.queue q ▸ hb)).trans (h.rqmode q b hb)

theorem holds (h : SameOn s s' r) : holds s' r q l mode = holds s r q l mode := by
  rw [Bool.eq_iff_iff, ← not_iff_not, Bool.not_eq_true, Bool.not_eq_true, holds_eq_false, holds_eq_false,
    h.queue]
  exact forall₂_congr fun b hb => by rw [h.grmode q b hb]

theorem grantable (h : SameOn s s' r) : grantable s' r l mode = grantable s r l mode := by
  rw [Lock.grantable, Lock.grantable, h.holds, h.holds]

theorem of_ne (hs : Struct s) (hr : (s.lk l).rsb ≠ r) (hq : ∀ q, (s'.rs r).queue q = (s.rs r).queue q)
    (hlk : ∀ x ≠ l, (s'.lk x).grmode = (s.lk x).grmode ∧ (s'.lk x).rqmode = (s.lk x).rqmode) :
    SameOn s s' r := by
  have hne : ∀ q, ∀ b ∈ (s.rs r).queue q, b ≠ l := by
    rintro q b hb rfl
    exact hr ((hs.on b r q).mp hb).2.1
  exact ⟨hq, fun q b hb => (hlk b (hne q b hb)).1, fun q b hb => (hlk b (hne q b hb)).2⟩

theorem setLkb (hs : Struct s) (hr : (s.lk l).rsb ≠ r) : SameOn s (s.setLkb l f) r :=
  of_ne hs hr (fun _ => rfl) fun x hx => by simp [lk_setLkb, hx]

theorem moveTo (hs : Struct s) (hr : (s.lk l).rsb ≠ r) (hq : q ≠ (s.lk l).state) : SameOn s (moveTo s l q f) r :=
  of_ne hs hr (fun q' => by simp [queue_moveTo hq, hr.symm]) fun x hx => by simp [lk_moveTo, hx]

theorem add {i max : ℕ} (hs : Struct s) (hl : l ∉ s.lkbs) (hr : L.rsb ≠ r) :
    SameOn s (add s l L i max) r := by
  have hne : ∀ q, ∀ b ∈ (s.rs r).queue q, b ≠ l := by
    rintro q b hb rfl
    exact hl ((hs.on b r q).mp hb).1
  refine ⟨fun q => by simp [queue_add, hr.symm], fun q b hb => ?_, fun q b hb => ?_⟩ <;>
    simp only [add_lk, if_neg (hne q b hb)]

theorem remove (hs : Struct s) (hr : (s.lk l).rsb ≠ r) : SameOn s (remove s l) r :=
  of_ne hs hr (fun q' => by simp [queue_remove, hr.symm]) fun x _ => by simp [remove_lk]

theorem tick : SameOn s (tick s l) r := by
  refine ⟨fun _ => rfl, fun _ b _ => ?_, fun _ b _ => ?_⟩ <;> rw [Lock.tick, lk_setLkb] <;>
    split_ifs with hb <;> simp [hb]

theorem takeOut (hs : Struct s) (hr : (s.lk l).rsb ≠ r) : SameOn s (takeOut s l status inv val) r :=
  (remove hs hr).trans (.of_core core_takeOut)

theorem failConversion (hs : Struct s) (hr : (s.lk l).rsb ≠ r) (hl : (s.lk l).state = .converting) :
    SameOn s (failConversion s l) r :=
  ((moveTo hs hr (by simp [hl])).trans .emit).trans (.of_core (core_failConversion hl))

theorem convertNow {a : EnqArgs} (hs : Struct s) (hr : (s.lk l).rsb ≠ r) : SameOn s (convertNow s a l) r :=
  (setLkb hs hr).trans (.of_core core_convertNow)

end SameOn

/-! ## Requests that come next -/

/-- The requests that come next on `r` can't be granted. -/
structure Settled (s : Db) (r : ℕ) : Prop where
  converting : ∀ p, ((s.rs r).queue .converting).head? = some p →
    grantable s r p (s.lk p).rqmode = false
  waiting : (s.rs r).queue .converting = [] → ∀ p, ((s.rs r).queue .waiting).head? = some p →
    grantable s r p (s.lk p).rqmode = false

namespace Settled

theorem same_on (hr : Settled s r) (h : SameOn s s' r) : Settled s' r where
  converting p hp := by
    rw [h.queue] at hp
    rw [h.rqmode _ p (mem_of_mem_head? hp), h.grantable]
    exact hr.converting p hp
  waiting hcv p hp := by
    rw [h.queue] at hcv hp
    rw [h.rqmode _ p (mem_of_mem_head? hp), h.grantable]
    exact hr.waiting hcv p hp

theorem congr (h : s'.core = s.core) (hr : Settled s r) : Settled s' r := hr.same_on (.of_core h)

theorem of_empty (hcv : (s.rs r).queue .converting = []) (hw : (s.rs r).queue .waiting = []) :
    Settled s r := ⟨by simp [hcv], by simp [hw]⟩

end Settled

/-! ## REGRANT -/

section Regrant

variable {p : ℕ} {t : List ℕ}

theorem sameOn_grant (hs : Struct s) (hhead : (s.rs r).queue q = p :: t) (hq : q ≠ .granted) (hx : x ≠ r) :
    SameOn s (grant (unlink s r q p) r p) x := by
  obtain ⟨-, rfl, rfl⟩ := (hs.on p r q).mp (hhead ▸ mem_cons_self)
  exact ((SameOn.moveTo hs hx.symm hq.symm).trans .emit).trans (.of_core core_grant)

theorem keptByGrant_sameOn (s₀ : Db) (hx : x ≠ r) : KeptByGrant r fun s => SameOn s₀ s x :=
  fun _ _ _ _ hs h hq hhead _ _ => h.trans (sameOn_grant hs hhead hq hx)

theorem SameOn.regrant (hs : Struct s) (hx : x ≠ r) : SameOn s (regrant s r) x :=
  regrant_keep (keptByGrant_sameOn s hx) (fun _ _ h => h.trans (.of_core core_notify)) hs .refl

theorem keptByGrant_no_conversion : KeptByGrant r fun s => (s.rs r).queue .converting = [] := by
  intro s q p t hs hcv hq hhead _ _
  rw [queue_grant hs hhead hq (by decide), if_neg, hcv]
  rintro rfl
  simp [hcv] at hhead

theorem head_regrantQueue (hs : Struct s) (hq : q ≠ .granted)
    (hcv : q = .waiting → (s.rs r).queue .converting = []) (hn : ((s.rs r).queue q).length ≤ n) :
    ∀ p, (((regrantQueue r q n s).rs r).queue q).head? = some p →
      grantable (regrantQueue r q n s) r p ((regrantQueue r q n s).lk p).rqmode = false := by
  induction n generalizing s with
  | zero =>
    rw [Nat.le_zero, length_eq_zero_iff] at hn
    simp [regrantQueue, hn]
  | succ n ih =>
    unfold regrantQueue
    split
    · next hnil => simp [hnil]
    · next p t hhead =>
      split_ifs with hg
      · have hact : Act 0 anyRequest s (grant (unlink s r q p) r p) := act_grant hs hq hhead hcv hg
        refine ih (hs.act hact) (fun hw => ?_) ?_
        · rw [queue_grant hs hhead hq (by decide), if_neg (by simp [hw])]
          exact hcv hw
        · rw [queue_grant hs hhead hq hq, if_pos rfl]
          rw [hhead] at hn
          simpa using hn
      · rw [hhead]
        rintro _ ⟨⟩
        simpa using hg

/-- **REGRANT settles its resource and leaves the others alone.** -/
theorem settled_regrant (hs : Struct s) (hother : ∀ x ≠ r, Settled s x) : ∀ x, Settled (regrant s r) x := by
  intro x
  by_cases hx : x = r
  · subst hx
    have hhead := head_regrantQueue (q := .converting) (r := x) hs (by decide) nofun le_rfl
    have hstruct := (regrantQueue_keep (n := ((s.rs x).queue .converting).length) (P := fun _ => True)
      (r := x) (q := .converting) (fun _ _ _ _ _ _ _ _ _ _ => trivial) hs (by decide) nofun trivial).1
    unfold regrant
    dsimp only
    generalize regrantQueue x .converting _ s = s₁ at hhead hstruct
    refine .congr core_notify ?_
    split_ifs with hempty
    · have hcv := (regrantQueue_keep (n := ((s₁.rs x).queue .waiting).length) (q := .waiting)
        keptByGrant_no_conversion hstruct (by decide) (fun _ => hempty) hempty).2
      exact ⟨by simp [hcv], fun _ => head_regrantQueue hstruct (by decide) (fun _ => hempty) le_rfl⟩
    · exact ⟨hhead, fun h => absurd h hempty⟩
  · exact (hother x hx).same_on (.regrant hs hx)

end Regrant

/-! ## Every call -/

/-- The requests that come next on any resource can't be granted. -/
def AllSettled (s : Db) : Prop := ∀ r, Settled s r

theorem AllSettled.freeRsb (h : AllSettled s) : AllSettled (freeRsb s r) := by
  intro x
  unfold Lock.freeRsb
  dsimp only
  split_ifs
  exacts [h x, ⟨(h x).converting, (h x).waiting⟩]

theorem AllSettled.congr (hc : s'.core = s.core) (h : AllSettled s) : AllSettled s' :=
  fun x => (h x).congr hc

theorem settled_dequeue (hs : Struct s) (hl : l ∈ s.lkbs) (hsub : (s.lk l).subcnt = 0) (h : AllSettled s) :
    AllSettled (dequeue s l status inv val) := by
  exact .freeRsb (settled_regrant (hs.takeOut hl hsub) fun x hx => (h x).same_on (.takeOut hs hx.symm))

theorem settled_fail (hs : Struct s) (hl : l ∈ s.lkbs) (hq : (s.lk l).state ≠ .granted)
    (h : AllSettled s) : AllSettled (fail s l) := by
  obtain ⟨hsub, heq⟩ | ⟨hcv, heq⟩ := fail_cases hs hl hq
  · exact heq ▸ settled_dequeue hs hl hsub h
  · rw [heq]
    exact settled_regrant (hs.failConversion hl hcv) fun x hx => (h x).same_on (.failConversion hs hx.symm hcv)

theorem head?_concat {as : List ℕ} {p : ℕ} (h : (as ++ [l]).head? = some p) :
    as = [] ∧ l = p ∨ as.head? = some p := by
  cases as <;> simp_all

theorem settled_queue (hs : Struct s) (hl : l ∈ s.lkbs) (hst : (s.lk l).state = .granted)
    (hnow : ¬Now s (s.lk l).rsb l mode [.converting]) (h : AllSettled s) :
    AllSettled (moveTo s l .converting (Lkb.ask mode w)) := by
  have hact : Act w anyRequest s (moveTo s l .converting (Lkb.ask mode w)) :=
    .queue l mode hl hst hnow trivial rfl
  have hs' := hs.act hact
  have hne : LkbState.converting ≠ (s.lk l).state := by simp [hst]
  intro x
  by_cases hx : (s.lk l).rsb = x
  · subst hx
    have hcv : ((moveTo s l .converting (Lkb.ask mode w)).rs (s.lk l).rsb).queue .converting =
        (s.rs (s.lk l).rsb).queue .converting ++ [l] := by simp [queue_moveTo hne]
    -- the holders and their modes are the same, so what is grantable is too
    have hg : ∀ p m, grantable (moveTo s l .converting (Lkb.ask mode w)) (s.lk l).rsb p m →
        grantable s (s.lk l).rsb p m := by
      intro p m hgr
      rw [grantable_iff hs'] at hgr
      rw [grantable_iff hs]
      intro b hb hbp
      have := hgr b
      simp only [Db.Holder, lk_moveTo] at this
      split_ifs at this with hbl
      · exact hbl ▸ this ⟨hb.1, rfl, LkbState.noConfusion⟩ hbp
      · exact this hb hbp
    refine ⟨fun p hp => ?_, fun hempty => ?_⟩
    · rw [lk_moveTo, ← Bool.not_eq_true]
      rcases head?_concat (hcv ▸ hp) with ⟨hnil, rfl⟩ | hhead
      · rw [if_pos rfl]
        exact fun hgr => hnow ⟨by simpa using hnil, hg _ _ hgr⟩
      · have hne' : p ≠ l := by
          rintro rfl
          have hon := (hs.on p _ _).mp (mem_of_mem_head? hhead)
          simp [hst] at hon
        rw [if_neg hne']
        exact fun hgr => absurd (hg _ _ hgr) (by simp [(h _).converting p hhead])
    · rw [hcv] at hempty
      simp at hempty
  · exact (h x).same_on (.moveTo hs hx hne)

theorem settled_add_now {i max : ℕ} (hs : Struct s) (hf : Fits s l L i max)
    (hst : L.state = .granted) (hnow : Now s L.rsb 0 mode [.converting, .waiting]) (h : AllSettled s) :
    AllSettled (add s l L i max) := by
  intro x
  by_cases hx : L.rsb = x
  · subst hx
    rw [now_iff] at hnow
    exact .of_empty (by simp [queue_add, hst, hnow.1]) (by simp [queue_add, hst, hnow.2.1])
  · exact (h x).same_on (.add hs hf.fresh hx)

theorem settled_add_wait {i max : ℕ} (hs : Struct s) (hf : Fits s l L i max)
    (hst : L.state = .waiting) (hnow : ¬Now s L.rsb 0 L.rqmode [.converting, .waiting])
    (h : AllSettled s) : AllSettled (add s l L i max) := by
  have hs' : Struct (add s l L i max) := hs.add hf (by simp [hst])
  have hg : ∀ p m, grantable (add s l L i max) L.rsb p m → ∀ b, s.Holder L.rsb b → b ≠ p →
      compatible m (s.lk b).grmode := by
    intro p m hgrant b hb hbp
    have hbl : b ≠ l := Struct.ne_of_mem hf.fresh hb.1
    have := (grantable_iff hs').mp hgrant b
    simp only [Db.Holder, lkbs_add, add_lk, if_neg hbl] at this
    exact this ⟨Finset.mem_insert_of_mem hb.1, hb.2⟩ hbp
  intro x
  by_cases hx : L.rsb = x
  · subst hx
    have hcv : ((add s l L i max).rs L.rsb).queue .converting = (s.rs L.rsb).queue .converting := by
      simp [queue_add, hst]
    have hw : ((add s l L i max).rs L.rsb).queue .waiting = (s.rs L.rsb).queue .waiting ++ [l] := by
      simp [queue_add, hst]
    have hold : ∀ q p, p ∈ (s.rs L.rsb).queue q → p ≠ l := fun q p hp =>
      Struct.ne_of_mem hf.fresh ((hs.on p _ q).mp hp).1
    refine ⟨fun p hp => ?_, fun hempty p hp => ?_⟩ <;> simp only [add_lk, ← Bool.not_eq_true]
    · rw [hcv] at hp
      rw [if_neg (hold _ p (mem_of_mem_head? hp))]
      intro hgrant
      exact absurd ((grantable_iff hs).mpr (hg _ _ hgrant)) (by simp [(h _).converting p hp])
    · rw [hcv] at hempty
      rcases head?_concat (hw ▸ hp) with ⟨hnil, rfl⟩ | hhead
      · rw [if_pos rfl]
        intro hgrant
        refine hnow (now_iff.mpr ⟨hempty, hnil, (grantable_iff hs).mpr fun b hb _ => ?_⟩)
        exact hg _ _ hgrant b hb (Struct.ne_of_mem hf.fresh hb.1)
      · rw [if_neg (hold _ p (mem_of_mem_head? hhead))]
        intro hgrant
        exact absurd ((grantable_iff hs).mpr (hg _ _ hgrant)) (by simp [(h _).waiting hempty p hhead])
  · exact (h x).same_on (.add hs hf.fresh hx)

theorem Found.sameOn {g : Gets} {s₁ : Db} {p : ℕ} (hs : Struct s) (hf : Found s g s₁ r p) : SameOn s s₁ x := by
  rcases hf.found with rfl | ⟨R, hm, rfl⟩
  · exact .refl
  · refine ⟨fun q => ?_, fun _ _ _ => rfl, fun _ _ _ => rfl⟩
    by_cases hx : x = r
    · rw [hx, hs.queue_empty hm.fresh]
      simp [make, hm.empty]
    · simp [make, hx]

/-- **Every job leaves every resource settled.** -/
theorem AllSettled.job {ok : Db → Request → Prop} (hs : Struct s) (h : AllSettled s)
    (hjob : Job env ok s s') : AllSettled s' := by
  have htick : ∀ l, AllSettled (tick s l) := fun l x => (h x).same_on .tick
  cases hjob with
  | dequeue l status inv val hl hsub => exact settled_dequeue hs hl hsub h
  | convertNow a l hl hst hnow hok =>
    have hact : Act 0 ok s (convertNow s a l) := .convert l a.lkmode hl hst hnow hok core_convertNow
    exact settled_regrant (hs.act hact) fun x hx => (h x).same_on (.convertNow hs hx.symm)
  | convertWait a l hl hst hnow hok =>
    exact .congr core_notify (.congr (core_convertWait hst) (settled_queue hs hl hst hnow h))
  | enqOn a g s₁ r p hf hok =>
    have hs₁ : Struct s₁ := hf.struct hs
    have h₁ : AllSettled s₁ := fun x => (h x).same_on (hf.sameOn hs)
    have henters := enqOn_enters env s₁ a g r p
    generalize enqOn env s₁ a g r p = res at henters
    cases henters with
    | notqueued => exact h₁
    | insfmem s₂ hnew => exact (h₁.congr (newLkb_none hnew)).freeRsb
    | now s₂ l id hnew hnow =>
      obtain ⟨i, max, hfits, -, hcore, -⟩ := newLkb_fits env a hs₁ hf hnew
      exact .congr hcore (settled_add_now hs₁ hfits rfl hnow h₁)
    | wait s₂ l id hnew hnow =>
      obtain ⟨i, max, -, hfits, -, hcore⟩ := newLkb_fits env a hs₁ hf hnew
      exact .congr core_notify (.congr hcore (settled_add_wait hs₁ hfits rfl hnow h₁))
  | tick l hl hwait => exact htick l
  | searchFrom l hl hwait =>
    refine searchFrom_keep (fun v => (htick l).congr core_marked) fun v h₁ => ?_
    exact settled_fail (hs.tick.congr core_marked) hl (tick_state hs hl (by omega)) h₁

theorem Reached.settled {okc : Db → Call → Prop} (h : Reached env okc s) : AllSettled s :=
  (Run.keep_jobs (P := AllSettled) h (fun _ _ _ => Call.asks_any)
    (fun _ _ hs hset hjob => hset.job hs hjob) Struct.empty fun _ => .of_empty rfl rfl).2

/-- **No lost grant**: in every database reached, no request that could be
    granted is left at the head of its queue. -/
theorem no_lost_grant (h : Reached env anyCall s) (r : ℕ) :
    (∀ p t, (s.rs r).queue .converting = p :: t → ¬grantable s r p (s.lk p).rqmode) ∧
    ((s.rs r).queue .converting = [] →
      ∀ p t, (s.rs r).queue .waiting = p :: t → ¬grantable s r p (s.lk p).rqmode) := by
  have hr := h.settled r
  refine ⟨fun p t hq => ?_, fun hcv p t hq => ?_⟩
  · rw [Bool.not_eq_true]
    exact hr.converting p (by rw [hq]; rfl)
  · rw [Bool.not_eq_true]
    exact hr.waiting hcv p (by rw [hq]; rfl)

theorem no_lost_grant_waiting : ¬grantable waiting 1 13 (waiting.lk 13).rqmode :=
  (no_lost_grant reached_waiting 1).2 (by decide +kernel) 13 [14] (by decide +kernel)

end Lock
