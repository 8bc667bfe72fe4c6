/-
  What a request waits for, as BLOCKS sees it.

  A request also waits for its place in the queue, which BLOCKS doesn't see
  unless the modes show it.  They do when no conversion is queued behind one for a
  mode that goes with its own, and no new lock for NL or CR is queued.
-/
import Vaxpunk.Lock.Proof.Settled

namespace Lock

open List

variable {s s' : Db} {l r x w : ℕ} {mode : Mode} {q : LkbState} {env : Env}

/-- Every request is blocked by another lock on its resource. -/
def Reasons (s : Db) : Prop :=
  ∀ r, ∀ q ∈ (s.rs r).queue .converting ++ (s.rs r).queue .waiting,
    ∃ b ∈ (s.rs r).locks, b ≠ q ∧ blocks s b q

/-- Two processes that convert locks on one resource, the second from the mode
    the first waits for. -/
def placeCalls : List Call :=
  [.enq (.new 1 [65] .pr 101) ⟨some 1, some 11, true⟩,
    .enq (.new 2 [65] .cr 102) ⟨none, some 12, true⟩,
    .enq (.conversion 2 2 2 .cw 103) ⟨none, none, false⟩,
    .enq (.conversion 1 1 1 .cw 104) ⟨none, none, false⟩]

/-- The second conversion waits for its place behind the first, which waits for
    the mode the second gives up; nothing blocks the second. -/
theorem reasons_fail : ¬∀ env s, Reached env anyCall s → Reasons s := by
  intro h
  have hfit : Allowed ⟨10, 100⟩ anyCall placeCalls .empty := by decide +kernel
  have hq : 11 ∈ ((after ⟨10, 100⟩ placeCalls .empty).rs 1).queue .converting := by decide +kernel
  obtain ⟨b, hb, -, hblocks⟩ := h ⟨10, 100⟩ _ (run_after hfit) 1 11 (mem_append_left _ hq)
  have hnone : ∀ b ∈ ((after ⟨10, 100⟩ placeCalls .empty).rs 1).locks,
      blocks (after ⟨10, 100⟩ placeCalls .empty) b 11 = false := by decide +kernel
  rw [hnone b hb] at hblocks
  exact Bool.noConfusion hblocks

/-! ## Requests whose place shows in the modes -/

/-- A conversion is queued behind conversions it isn't compatible with, and a new lock
    for a mode above CR. -/
def PlainRequest (s : Db) (q : Request) : Prop :=
  (q.state = .converting → ∀ b ∈ (s.rs q.rsb).queue .converting, ¬compatible q.mode (s.lk b).rqmode) ∧
  (q.state = .waiting → q.mode ≠ .nl ∧ q.mode ≠ .cr)

/-- No LCK$ENQ queues a conversion behind one it is compatible with, or a new lock for
    NL or CR. -/
def Call.Plain (env : Env) (s : Db) : Call → Prop
  | .enq a g => (Lock.enq env s a g).1 = .normal →
    if a.convert then ∀ l, ownLkb s a.lksbId a.pid a.acmode = some l →
      ∀ b ∈ (s.rs (s.lk l).rsb).queue .converting, ¬compatible a.lkmode (s.lk b).rqmode
    else a.lkmode ≠ .nl ∧ a.lkmode ≠ .cr
  | _ => True

instance : DecidableRel (Call.Plain env)
  | s, .enq a g => inferInstanceAs (Decidable ((Lock.enq env s a g).1 = .normal →
      if a.convert then ∀ l ∈ ownLkb s a.lksbId a.pid a.acmode,
        ∀ b ∈ (s.rs (s.lk l).rsb).queue .converting, ¬compatible a.lkmode (s.lk b).rqmode
      else a.lkmode ≠ .nl ∧ a.lkmode ≠ .cr))
  | _, .deq .. => .isTrue trivial
  | _, .deqall .. => .isTrue trivial
  | _, .search => .isTrue trivial

theorem Call.Plain.asks {c : Call} (h : c.Plain env s) : c.Asks env PlainRequest s := by
  cases c with
  | enq a g =>
    simp only [Call.Plain, Call.Asks] at h ⊢
    split_ifs at h ⊢ with hconv
    · rintro l hown q (⟨-, rfl⟩ | ⟨hst, rfl⟩)
      · exact ⟨by simp, by simp⟩
      · exact ⟨fun _ => h hst l hown, by simp⟩
    · rintro s₁ - - r q (⟨-, rfl⟩ | ⟨hst, rfl⟩)
      · exact ⟨by simp, by simp⟩
      · exact ⟨by simp, fun _ => h hst⟩
  | _ => trivial

/-- What the requests that are queued look like then. -/
structure PlainQueues (s : Db) : Prop where
  apart : ∀ a ∈ s.lkbs, ∀ b ∈ s.lkbs, (s.lk a).rsb = (s.lk b).rsb → (s.lk a).state = .converting →
    (s.lk b).state = .converting → a ≠ b → ¬compatible (s.lk a).rqmode (s.lk b).rqmode
  mode : ∀ l ∈ s.lkbs, (s.lk l).state = .waiting → (s.lk l).rqmode ≠ .nl ∧ (s.lk l).rqmode ≠ .cr

namespace PlainQueues

theorem congr (h : s'.core = s.core) (hp : PlainQueues s) : PlainQueues s' := by
  have hp' : PlainQueues s.core := ⟨hp.apart, hp.mode⟩
  rw [← h] at hp'
  exact ⟨hp'.apart, hp'.mode⟩

theorem of_sub (hp : PlainQueues s)
    (hsub : ∀ x ∈ s'.lkbs, (s'.lk x).state ≠ .granted → x ∈ s.lkbs ∧ (s'.lk x).rsb = (s.lk x).rsb ∧
      (s'.lk x).state = (s.lk x).state ∧ (s'.lk x).rqmode = (s.lk x).rqmode) : PlainQueues s' where
  apart a ha b hb hr hsta hstb := by
    obtain ⟨ha', hra, hsa, hma⟩ := hsub a ha (by simp [hsta])
    obtain ⟨hb', hrb, hsb, hmb⟩ := hsub b hb (by simp [hstb])
    rw [hma, hmb]
    exact hp.apart a ha' b hb' (by rw [← hra, ← hrb, hr]) (hsa ▸ hsta) (hsb ▸ hstb)
  mode l hl hst := by
    obtain ⟨hl', -, hs, hm⟩ := hsub l hl (by simp [hst])
    rw [hm]
    exact hp.mode l hl' (hs ▸ hst)

theorem of_setLkb {f : Lkb → Lkb} (hp : PlainQueues s)
    (hf : (f (s.lk l)).state ≠ .granted → (f (s.lk l)).rsb = (s.lk l).rsb ∧
      (f (s.lk l)).state = (s.lk l).state ∧ (f (s.lk l)).rqmode = (s.lk l).rqmode) :
    PlainQueues (s.setLkb l f) := by
  refine hp.of_sub fun x hx hst => ⟨hx, ?_⟩
  rw [lk_setLkb] at hst ⊢
  split_ifs at hst ⊢ with hxl
  · subst hxl
    exact hf hst
  · exact ⟨rfl, rfl, rfl⟩

theorem of_moveTo {f : Lkb → Lkb} (hp : PlainQueues s) (hf : (f (s.lk l)).state = .granted) :
    PlainQueues (moveTo s l q f) := by
  refine hp.of_sub fun x hx hst => ⟨hx, ?_⟩
  rw [lk_moveTo] at hst ⊢
  split_ifs at hst ⊢ with hxl
  · exact absurd hf hst
  · exact ⟨rfl, rfl, rfl⟩

theorem queue (hs : Struct s) (hp : PlainQueues s)
    (hcv : ∀ b ∈ (s.rs (s.lk l).rsb).queue .converting, ¬compatible mode (s.lk b).rqmode) :
    PlainQueues (moveTo s l .converting (Lkb.ask mode w)) := by
  have hall : ∀ x ∈ s.lkbs, (s.lk x).rsb = (s.lk l).rsb → (s.lk x).state = .converting →
      ¬compatible mode (s.lk x).rqmode := fun x hx hr hst => hcv x ((hs.on x _ _).mpr ⟨hx, hr, hst⟩)
  constructor
  · intro a ha b hb hr hsta hstb hab
    rw [lk_moveTo] at hr hsta ⊢
    rw [lk_moveTo] at hr hstb ⊢
    split_ifs at hr hsta hstb ⊢ with hal hbl hbl
    · exact absurd (hal.trans hbl.symm) hab
    · exact hall b hb hr.symm hstb
    · rw [compatible_comm]
      exact hall a ha hr hsta
    · exact hp.apart a ha b hb hr hsta hstb hab
  · intro x hx hst
    rw [lk_moveTo] at hst ⊢
    split_ifs at hst ⊢ with hxl
    · exact absurd hst nofun
    · exact hp.mode x hx hst

theorem add {L : Lkb} {i max : ℕ} (hp : PlainQueues s) (hst : L.state ≠ .converting)
    (hmode : L.state = .waiting → L.rqmode ≠ .nl ∧ L.rqmode ≠ .cr) : PlainQueues (add s l L i max) := by
  constructor <;> simp only [lkbs_add, add_lk, Finset.mem_insert]
  · intro a ha b hb hr hsta hstb
    split_ifs at hr hsta hstb ⊢ with hal hbl hbl
    · exact absurd hsta hst
    · exact absurd hsta hst
    · exact absurd hstb hst
    · exact hp.apart a (ha.resolve_left hal) b (hb.resolve_left hbl) hr hsta hstb
  · intro x hx hw
    split_ifs at hw ⊢ with hxl
    · exact hmode hw
    · exact hp.mode x (hx.resolve_left hxl) hw

/-- **Every act with a plain request keeps the queues plain.** -/
theorem act (hs : Struct s) (hp : PlainQueues s) (h : Act w PlainRequest s s') : PlainQueues s' := by
  cases h with
  | rest h => exact hp.congr h
  | grant l cv hl hq _ _ _ h =>
    have hm := hp.of_moveTo (l := l) (q := .granted) (f := Lkb.grant) rfl
    exact congr h ⟨hm.apart, hm.mode⟩
  | convert l mode hl hq _ _ h => exact congr h (hp.of_setLkb fun hst => absurd hq hst)
  | queue l mode hl hq _ hok h => exact congr h (hp.queue hs (hok.1 rfl))
  | giveUp l hl hq h =>
    have hm := hp.of_moveTo (l := l) (q := .granted) (f := Lkb.giveUp) rfl
    exact congr h ⟨hm.apart, hm.mode⟩
  | remove l hl hsub h =>
    refine congr h (hp.of_sub fun x hx _ => ⟨Finset.mem_of_mem_erase (lkbs_remove ▸ hx), ?_⟩)
    simp only [remove_lk, and_self]
  | grantNew l L i max _ hq _ _ _ _ h => exact congr h (hp.add (by simp [hq]) (by simp [hq]))
  | queueNew l L i max _ hq _ _ hok h => exact congr h (hp.add (by simp [hq]) fun _ => hok.2 rfl)
  | make r R _ _ _ _ h => exact congr h ⟨hp.apart, hp.mode⟩
  | free r h =>
    refine congr h ?_
    unfold freeRsb
    dsimp only
    split_ifs
    exacts [hp, ⟨hp.apart, hp.mode⟩]
  | tick l _ _ h | search l _ _ h => exact congr h (hp.of_setLkb fun _ => ⟨rfl, rfl, rfl⟩)

end PlainQueues

/-! ## The reasons -/

theorem compatible_above_cr {m a c : Mode} (hnl : m ≠ .nl) (hcr : m ≠ .cr) (hma : compatible m a)
    (hac : ¬compatible a c) : ¬compatible m c := by
  cases m <;> cases a <;> cases c <;> revert hnl hcr hma hac <;> decide

theorem blocks_of_holder {b p : ℕ} (hne : b ≠ p) (hp : (s.lk p).state ≠ .granted)
    (hb : (s.lk b).state ≠ .waiting) (hm : ¬compatible (s.lk p).rqmode (s.lk b).grmode) : blocks s b p := by
  rw [blocks, if_neg (by simp [hne, hp]), if_pos ⟨hb, by simpa using hm⟩]

theorem blocks_of_ahead {b p : ℕ} (hne : b ≠ p) (hp : (s.lk p).state ≠ .granted)
    (hb : (s.lk b).state ≠ .granted) (hm : ¬compatible (s.lk p).rqmode (s.lk b).rqmode)
    (ha : ahead s b p) : blocks s b p := by
  rw [blocks, if_neg (by simp [hne, hp])]
  split_ifs with h1 h2
  · rfl
  · exact ha
  · exact absurd ⟨hb, by simpa using hm⟩ h2

theorem holder_of_not_grantable (hs : Struct s) (h : grantable s r l mode = false) :
    ∃ b, s.Holder r b ∧ b ≠ l ∧ ¬compatible mode (s.lk b).grmode := by
  rw [← Bool.not_eq_true, grantable_iff hs] at h
  simpa [not_forall] using h

theorem reason_behind {p a : ℕ} (hs : Struct s) (hset : grantable s r a (s.lk a).rqmode = false)
    (ha : a ∈ s.lkbs) (har : (s.lk a).rsb = r) (hast : (s.lk a).state ≠ .granted) (hap : a ≠ p)
    (hahead : ahead s a p) (hp : (s.lk p).state = .waiting)
    (hmode : (s.lk p).rqmode ≠ .nl ∧ (s.lk p).rqmode ≠ .cr) :
    ∃ b ∈ s.lkbs, (s.lk b).rsb = r ∧ b ≠ p ∧ blocks s b p := by
  have hpg : (s.lk p).state ≠ .granted := by simp [hp]
  by_cases hm : compatible (s.lk p).rqmode (s.lk a).rqmode
  · obtain ⟨b, ⟨hb, hbr, hbst⟩, -, hbm⟩ := holder_of_not_grantable hs hset
    have hbp : b ≠ p := fun h => hbst (h ▸ hp)
    exact ⟨b, hb, hbr, hbp,
      blocks_of_holder hbp hpg hbst (compatible_above_cr hmode.1 hmode.2 hm hbm)⟩
  · exact ⟨a, ha, har, hap, blocks_of_ahead hap hpg hast hm hahead⟩

/-- **Plain queues show every reason.** -/
theorem PlainQueues.reasons (hs : Struct s) (hp : PlainQueues s) (hset : AllSettled s) : Reasons s := by
  intro r p hmem
  suffices h : ∃ b ∈ s.lkbs, (s.lk b).rsb = r ∧ b ≠ p ∧ blocks s b p by
    obtain ⟨b, hb, hbr, hne, hblocks⟩ := h
    exact ⟨b, hs.mem_locks.mpr ⟨hb, hbr⟩, hne, hblocks⟩
  have direct : grantable s r p (s.lk p).rqmode = false → (s.lk p).state ≠ .granted →
      ∃ b ∈ s.lkbs, (s.lk b).rsb = r ∧ b ≠ p ∧ blocks s b p := by
    intro hg hst
    obtain ⟨b, ⟨hb, hbr, hbst⟩, hne, hm⟩ := holder_of_not_grantable hs hg
    exact ⟨b, hb, hbr, hne, blocks_of_holder hne hst hbst hm⟩
  rcases mem_append.mp hmem with hcv | hw
  · obtain ⟨hpl, hpr, hpst⟩ := (hs.on p r _).mp hcv
    obtain ⟨a, t, hq⟩ := exists_cons_of_ne_nil (ne_nil_of_mem hcv)
    obtain ⟨hal, har, hast⟩ := (hs.on a r .converting).mp (hq ▸ mem_cons_self)
    by_cases hap : a = p
    · subst hap
      exact direct ((hset r).converting a (by rw [hq]; rfl)) (by simp [hpst])
    · -- the first conversion is in the way of the others
      have hm := hp.apart p hpl a hal (hpr.trans har.symm) hpst hast (Ne.symm hap)
      have ht : p ∈ t := (mem_cons.mp (hq ▸ hcv)).resolve_left (Ne.symm hap)
      exact ⟨a, hal, har, hap, blocks_of_ahead hap (by simp [hpst]) (by simp [hast]) hm
        (by simp [ahead, hast, hpst, har, hq, behind, ht])⟩
  · obtain ⟨hpl, hpr, hpst⟩ := (hs.on p r _).mp hw
    have hmode := hp.mode p hpl hpst
    cases hcv : (s.rs r).queue .converting with
    | cons a t =>
      -- the first conversion is ahead of every new lock
      obtain ⟨hal, har, hast⟩ := (hs.on a r .converting).mp (hcv ▸ mem_cons_self)
      refine reason_behind hs ((hset r).converting a (by rw [hcv]; rfl)) hal har (by simp [hast]) ?_ ?_
        hpst hmode
      · rintro rfl
        simp [hast] at hpst
      · simp [ahead, hast, hpst]
    | nil =>
      obtain ⟨a, t, hq⟩ := exists_cons_of_ne_nil (ne_nil_of_mem hw)
      have hg := (hset r).waiting hcv a (by rw [hq]; rfl)
      by_cases hap : a = p
      · subst hap
        exact direct hg (by simp [hpst])
      · obtain ⟨hal, har, hast⟩ := (hs.on a r .waiting).mp (hq ▸ mem_cons_self)
        refine reason_behind hs hg hal har (by simp [hast]) hap ?_ hpst hmode
        have ht : p ∈ t := (mem_cons.mp (hq ▸ hw)).resolve_left (Ne.symm hap)
        simp [ahead, hast, hpst, har, hq, behind, ht]

/-- **Every wait has a reason**, in every run in which no conversion is queued behind
    one it is compatible with and no new lock for NL or CR is queued. -/
theorem reasons_of_plain (h : Reached env (Call.Plain env) s) : Reasons s := by
  obtain ⟨hs, hp⟩ := Run.keep (P := PlainQueues) h (fun _ _ hc => hc.asks)
    (fun _ _ hs hp hact => hp.act hs hact) Struct.empty ⟨by simp [Db.empty], by simp [Db.empty]⟩
  exact hp.reasons hs h.settled

theorem reasons_waiting : Reasons waiting :=
  have h : Allowed ⟨10, 100⟩ (Call.Plain ⟨10, 100⟩) waitCalls .empty := by decide +kernel
  reasons_of_plain (run_after h)

end Lock
