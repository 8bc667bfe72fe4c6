/-
  AST control blocks: each one LCK$ENQ takes is a lock's until it is handed
  over, once.
-/
import Vaxpunk.Lock.Proof.Refine

namespace Lock

open List Finset Status

variable {s s' s₀ : Db} {l r p c : ℕ} {q : LkbState} {f : Lkb → Lkb} {env : Env}

/-! ## Who has an ACB -/

/-- The ACB an event hands to LCK$QPOST, to SCH$QAST or to pool. -/
def Event.acb : Event → Option ℕ
  | .qpost a _ _ => some a
  | .qast a => some a
  | .free a => some a
  | _ => none

/-- How often an ACB has been handed over. -/
def handed (s : Db) (c : ℕ) : ℕ := s.log.countP fun e => e.acb = some c

/-- How often a lock has an ACB: to complete through, and for its blocking
    AST. -/
def Lkb.slots (L : Lkb) (c : ℕ) : ℕ := (if L.acb = c then 1 else 0) + if L.blkacb = c then 1 else 0

/-- How often locks have an ACB. -/
def owned (s : Db) (c : ℕ) : ℕ := ∑ l ∈ s.lkbs, (s.lk l).slots c

/-- A granted lock has no request to complete. -/
def Idle (s : Db) : Prop := ∀ l ∈ s.lkbs, (s.lk l).state = .granted → (s.lk l).acb = 0

theorem handed_emit (e : Event) : handed (s.emit e) c = handed s c + if e.acb = some c then 1 else 0 := by
  simp [handed, Db.emit, countP_append, countP_cons]

theorem owned_setLkb (hl : l ∈ s.lkbs) :
    owned (s.setLkb l f) c + (s.lk l).slots c = owned s c + (f (s.lk l)).slots c := by
  have hrest : ∀ x ∈ s.lkbs.erase l, ((s.setLkb l f).lk x).slots c = (s.lk x).slots c := by
    intro x hx
    rw [lk_setLkb, if_neg (ne_of_mem_erase hx)]
  unfold owned
  rw [← add_sum_erase s.lkbs (fun x => (s.lk x).slots c) hl,
    ← add_sum_erase (s.setLkb l f).lkbs (fun x => ((s.setLkb l f).lk x).slots c) hl,
    lk_setLkb, if_pos rfl]
  have := sum_congr rfl hrest
  change _ + ∑ x ∈ s.lkbs.erase l, ((s.setLkb l f).lk x).slots c + _ = _
  omega

/-- Handing over and owning together. -/
def total (s : Db) (c : ℕ) : ℕ := handed s c + owned s c

variable {e : Event}

theorem total_emit_move (he : e.acb = none) : total (s.emit e) c = total s c := by
  have : owned (s.emit e) c = owned s c := rfl
  rw [total, total, handed_emit, he, this]
  simp

theorem total_setLkb (hl : l ∈ s.lkbs) (hf : (f (s.lk l)).slots c = (s.lk l).slots c) :
    total (s.setLkb l f) c = total s c := by
  have h := owned_setLkb (f := f) (c := c) hl
  have : handed (s.setLkb l f) c = handed s c := rfl
  rw [total, total]
  omega

theorem total_hand (hl : l ∈ s.lkbs)
    (hf : (s.lk l).slots c = (f (s.lk l)).slots c + if e.acb = some c then 1 else 0) :
    total ((s.emit e).setLkb l f) c = total s c := by
  have h := owned_setLkb (s := s.emit e) (f := f) (c := c) hl
  have hlk : ((s.emit e).lk l) = s.lk l := rfl
  have ho : owned (s.emit e) c = owned s c := rfl
  have hh : handed ((s.emit e).setLkb l f) c = handed (s.emit e) c := rfl
  rw [total, total, hh, handed_emit]
  rw [hlk, ho] at h
  omega

/-! ## Routines that hand over -/

/-- No ACB comes or goes, except to whom a lock hands it. -/
structure Hands (s s' : Db) : Prop where
  log : s.log <+: s'.log
  idle : Idle s → Idle s'
  total : ∀ c ≠ 0, total s' c = total s c

variable {s'' : Db}

namespace Hands

theorem refl : Hands s s := ⟨prefix_rfl, id, fun _ _ => rfl⟩

theorem trans (h : Hands s s') (h' : Hands s' s'') : Hands s s'' :=
  ⟨h.log.trans h'.log, fun hi => h'.idle (h.idle hi), fun c hc => (h'.total c hc).trans (h.total c hc)⟩

theorem of_eq (hlk : s'.lk = s.lk) (hlkbs : s'.lkbs = s.lkbs) (hlog : s'.log = s.log) : Hands s s' := by
  refine ⟨hlog ▸ prefix_rfl, fun h => ?_, fun c _ => ?_⟩
  · rw [Idle, hlk, hlkbs]
    exact h
  · rw [Lock.total, Lock.total, handed, handed, owned, owned, hlk, hlkbs, hlog]

theorem blockOne (hp : p ∈ s.lkbs) : Hands s (blockOne l s p) := by
  unfold Lock.blockOne
  split_ifs with h
  · refine ⟨⟨_, rfl⟩, fun hi x hx hst => ?_, fun c hc => total_hand hp ?_⟩
    · rw [lk_setLkb] at hst ⊢
      split_ifs at hst ⊢ with hxp
      · exact hi p hp hst
      · exact hi x hx hst
    · simp only [Lkb.slots, Event.acb, Option.some.injEq, if_neg (Ne.symm hc), Nat.add_zero]
  · exact refl

theorem lkbs_blockOne : (Lock.blockOne l s p).lkbs = s.lkbs := by
  unfold Lock.blockOne
  split_ifs <;> rfl

theorem foldl_blockOne (xs : List ℕ) (hxs : ∀ p ∈ xs, p ∈ s.lkbs) : Hands s (xs.foldl (Lock.blockOne l) s) := by
  induction xs generalizing s with
  | nil => exact refl
  | cons p xs ih =>
    refine (blockOne (hxs p (by simp))).trans (ih fun p' hp' => ?_)
    rw [lkbs_blockOne]
    exact hxs p' (mem_cons_of_mem p hp')

theorem blockAst (hs : Struct s) : Hands s (blockAst s r q l) :=
  foldl_blockOne _ fun p hp => ((hs.on p r q).mp hp).1

theorem notify (hs : Struct s) : Hands s (notify s r) := by
  have hfold : ∀ (xs : List ℕ) (s : Db), Struct s →
      Hands s (xs.foldl (fun s l => Lock.blockAst (Lock.blockAst s r .granted l) r .converting l) s) := by
    intro xs
    induction xs with
    | nil => exact fun _ _ => refl
    | cons l xs ih =>
      intro s hs
      have hs₁ : Struct (Lock.blockAst s r .granted l) := hs.congr core_blockAst
      exact ((blockAst hs).trans (blockAst hs₁)).trans (ih _ (hs₁.congr core_blockAst))
  unfold Lock.notify
  refine (hfold _ s hs).trans (hfold _ _ (hs.congr (core_foldl (fun s p => ?_) _)))
  rw [core_blockAst, core_blockAst]

end Hands

theorem lk_post : (post s r l).lk p = if p = l then { s.lk l with acb := 0 } else s.lk p := by
  unfold post
  split_ifs with h hp hp
  · rw [hp, ← h]
  · rfl
  · rw [lk_setLkb, if_pos hp]
    rfl
  · rw [lk_setLkb, if_neg hp]
    rfl

theorem lkbs_post : (post s r l).lkbs = s.lkbs := by
  unfold post
  split_ifs <;> rfl

theorem log_post (h : s₀.log <+: s.log) : s₀.log <+: (post s r l).log := by
  refine h.trans ?_
  unfold post
  split_ifs
  exacts [prefix_rfl, ⟨_, rfl⟩]

theorem total_post (hl : l ∈ s.lkbs) (hc : c ≠ 0) : total (post s r l) c = total s c := by
  unfold post
  split_ifs
  · rfl
  · refine total_hand hl ?_
    have he : (completion (s.rs r) (s.lk l)).acb = some (s.lk l).acb := by
      unfold completion
      split_ifs <;> rfl
    rw [he]
    simp only [Lkb.slots, Option.some.injEq, if_neg (Ne.symm hc)]
    omega

namespace Hands

theorem post_of (hlog : s.log <+: s'.log) (hl : l ∈ s'.lkbs)
    (hidle : Idle s → ∀ x ∈ s'.lkbs, x ≠ l → (s'.lk x).state = .granted →
      (s'.lk x).acb = 0) (htotal : ∀ c ≠ 0, Lock.total s' c = Lock.total s c) : Hands s (post s' r l) := by
  refine ⟨log_post hlog, fun hi x hx hst => ?_, fun c hc => (total_post hl hc).trans (htotal c hc)⟩
  rw [lk_post] at hst ⊢
  rw [lkbs_post] at hx
  split_ifs at hst ⊢ with hxl
  · rfl
  · exact hidle hi x hx hxl hst

theorem grant (hl : l ∈ s.lkbs) : Hands s (grant s r l) := by
  refine post_of ⟨_, rfl⟩ hl (fun hi x hx hxl hst => ?_) fun c hc => ?_
  · have hlk : ∀ t : Db, ((append (t.setLkb l Lkb.grant) r .granted l).lk x) = t.lk x := by
      intro t
      change (t.setLkb l Lkb.grant).lk x = _
      rw [lk_setLkb, if_neg hxl]
    exact (congrArg Lkb.acb (hlk _)).trans (hi x hx ((congrArg Lkb.state (hlk _)).symm.trans hst))
  · refine (total_setLkb (s := s.emit _) (f := Lkb.grant) hl rfl).trans (total_emit_move rfl)

theorem regrant (hs : Struct s) : Hands s (regrant s r) := by
  refine regrant_keep (P := Hands s) (fun s₁ q p t hs₁ h hq hhead _ _ => h.trans ?_)
    (fun s₁ hs₁ h => h.trans (notify hs₁)) hs refl
  have hp : p ∈ s₁.lkbs := ((hs₁.on p r q).mp (hhead ▸ mem_cons_self)).1
  have hunlink : Hands s₁ (unlink s₁ r q p) := of_eq rfl rfl rfl
  exact hunlink.trans (grant hp)

theorem freeRsb : Hands s (freeRsb s r) := by
  unfold Lock.freeRsb
  dsimp only
  split_ifs
  · exact refl
  · exact of_eq rfl rfl rfl

end Hands

/-! ## Locks that go -/

section Dequeue

variable {status : Option Status} {inv : Bool} {val : Option ValBlk}

variable {L : Lkb}

theorem handed_endRequest (hc : c ≠ 0) :
    handed (endRequest s L status) c = handed s c + if L.acb = c then 1 else 0 := by
  unfold endRequest
  split_ifs with h h' h'
  · exact absurd (h'.symm.trans h) hc
  · rfl
  · cases status <;> simp [handed_emit, Event.acb, h']
  · cases status <;> simp [handed_emit, Event.acb, h']

theorem handed_freeBlkacb (hc : c ≠ 0) :
    handed (freeBlkacb s L) c = handed s c + if L.blkacb = c then 1 else 0 := by
  unfold freeBlkacb
  split_ifs with h h' h'
  · simp [handed_emit, Event.acb, h']
  · simp [handed_emit, Event.acb, h']
  · exact absurd (by omega : c = 0) hc
  · rfl

theorem lk_endRequest : (endRequest s L status).lk = s.lk := by
  unfold endRequest
  split_ifs
  · rfl
  · cases status <;> rfl

theorem lk_takeOut : (takeOut s l status inv val).lk p =
    if p = (s.lk l).parent ∧ (s.lk l).parent ≠ 0 then { s.lk p with subcnt := (s.lk p).subcnt - 1 }
    else s.lk p := by
  have hlk : ∀ t : Db, t.lk = s.lk → (countSub t (s.lk l).parent (· - 1)).lk p =
      if p = (s.lk l).parent ∧ (s.lk l).parent ≠ 0 then { s.lk p with subcnt := (s.lk p).subcnt - 1 }
      else s.lk p := by
    intro t ht
    rw [lk_countSub, ht]
  exact hlk _ (lk_freeBlkacb.trans lk_endRequest)

theorem handed_takeOut (hc : c ≠ 0) : handed (takeOut s l status inv val) c =
    handed s c + (s.lk l).slots c := by
  have hcount : ∀ t : Db, handed (countSub t (s.lk l).parent (· - 1)) c = handed t c := by
    intro t
    rw [handed, log_countSub]
    rfl
  refine (hcount _).trans ?_
  rw [handed_freeBlkacb hc, handed_endRequest hc, handed_emit, Lkb.slots, Nat.add_assoc]
  rfl

theorem log_endRequest : s.log <+: (endRequest s L status).log := by
  unfold endRequest
  split_ifs
  · exact prefix_rfl
  · cases status <;> exact ⟨_, rfl⟩

theorem log_freeBlkacb : s.log <+: (freeBlkacb s L).log := by
  unfold freeBlkacb
  split_ifs
  exacts [⟨_, rfl⟩, prefix_rfl]

theorem log_takeOut : s.log <+: (takeOut s l status inv val).log := by
  have hcount : ∀ t : Db, s.log <+: t.log → s.log <+: (countSub t (s.lk l).parent (· - 1)).log :=
    fun t ht => by rwa [log_countSub]
  have hleft : ∀ t : Db, t.log = s.log ++ [.left l (s.lk l).state] →
      s.log <+: (freeBlkacb (endRequest t (s.lk l) status) (s.lk l)).log :=
    fun t ht => .trans ⟨_, ht.symm⟩ (log_endRequest.trans log_freeBlkacb)
  exact hcount _ (hleft _ rfl)

theorem lkbs_takeOut : (takeOut s l status inv val).lkbs = s.lkbs.erase l := by
  rw [lkbs_of_core core_takeOut, lkbs_remove]

theorem Hands.takeOut (hl : l ∈ s.lkbs) : Hands s (takeOut s l status inv val) := by
  have hslots : ∀ x c, ((Lock.takeOut s l status inv val).lk x).slots c = (s.lk x).slots c := by
    intro x c
    rw [lk_takeOut]
    split_ifs <;> rfl
  refine ⟨log_takeOut, fun hi x hx hst => ?_, fun c hc => ?_⟩
  · rw [lkbs_takeOut] at hx
    have hx := mem_of_mem_erase hx
    rw [lk_takeOut] at hst ⊢
    split_ifs at hst ⊢ <;> exact hi x hx hst
  · have hsum : owned s c = (s.lk l).slots c + owned (Lock.takeOut s l status inv val) c := by
      rw [owned, ← add_sum_erase s.lkbs _ hl, owned, lkbs_takeOut]
      exact congrArg _ (sum_congr rfl fun x _ => (hslots x c).symm)
    rw [Lock.total, Lock.total, handed_takeOut hc]
    omega

theorem Hands.dequeue (hs : Struct s) (hl : l ∈ s.lkbs) (hsub : (s.lk l).subcnt = 0) :
    Hands s (dequeue s l status inv val) :=
  ((takeOut hl).trans (regrant (hs.takeOut hl hsub))).trans freeRsb

end Dequeue

theorem Hands.setLkb (hl : l ∈ s.lkbs) (hf : ∀ c, (f (s.lk l)).slots c = (s.lk l).slots c)
    (hacb : (f (s.lk l)).acb = (s.lk l).acb) (hst : (f (s.lk l)).state = .granted → (s.lk l).state = .granted) :
    Hands s (s.setLkb l f) := by
  refine ⟨prefix_rfl, fun hi x hx h => ?_, fun c _ => total_setLkb hl (hf c)⟩
  rw [lk_setLkb] at h ⊢
  split_ifs at h ⊢ with hxl
  · rw [hacb]
    exact hi l hl (hst h)
  · exact hi x hx h

theorem lk_failConversion : (failConversion s l).lk p =
    if p = l then { (s.lk l).giveUp with acb := 0 } else s.lk p := by
  unfold failConversion
  dsimp only
  rw [lk_setLkb]
  split_ifs with hp
  · change { (((unlink s (s.lk l).rsb .converting l).emit (.left l .converting)).setLkb l
      Lkb.giveUp).lk l with acb := 0 } = _
    rw [lk_setLkb, if_pos rfl]
    rfl
  · change (((unlink s (s.lk l).rsb .converting l).emit (.left l .converting)).setLkb l Lkb.giveUp).lk p = _
    rw [lk_setLkb, if_neg hp]
    rfl

theorem Hands.failConversion (hl : l ∈ s.lkbs) : Hands s (failConversion s l) := by
  refine ⟨⟨[.left l .converting, .qpost (s.lk l).acb .deadlock none], ?_⟩, fun hi x hx hst => ?_,
    fun c hc => ?_⟩
  · have hacb : (((unlink s (s.lk l).rsb .converting l).emit (.left l .converting)).setLkb l
        Lkb.giveUp).lk l = (s.lk l).giveUp := by
      rw [lk_setLkb, if_pos rfl]
      rfl
    change _ = s.log ++ [.left l .converting] ++ [.qpost ((((unlink s (s.lk l).rsb .converting l).emit
      (.left l .converting)).setLkb l Lkb.giveUp).lk l).acb .deadlock none]
    rw [hacb, append_assoc]
    rfl
  · rw [lk_failConversion] at hst ⊢
    split_ifs at hst ⊢
    · rfl
    · exact hi x hx hst
  · have hback : Lock.total (append (((unlink s (s.lk l).rsb .converting l).emit
        (.left l .converting)).setLkb l Lkb.giveUp) (s.lk l).rsb .granted l) c = Lock.total s c :=
      (total_setLkb (s := (unlink s (s.lk l).rsb .converting l).emit (.left l .converting)) hl rfl).trans
        (total_emit_move (s := unlink s (s.lk l).rsb .converting l) rfl)
    refine Eq.trans (total_hand hl ?_) hback
    simp only [Lkb.slots, Event.acb, Option.some.injEq, if_neg (Ne.symm hc)]
    omega

theorem Hands.fail (hs : Struct s) (hl : l ∈ s.lkbs) (hq : (s.lk l).state ≠ .granted) :
    Hands s (fail s l) := by
  obtain ⟨hsub, h⟩ | ⟨hcv, h⟩ := fail_cases hs hl hq
  · exact h ▸ dequeue hs hl hsub
  · exact h ▸ (failConversion hl).trans (regrant (hs.failConversion hl hcv))

/-! ## Requests -/

/-- How often a request passes an ACB. -/
def EnqArgs.passes (a : EnqArgs) (c : ℕ) : ℕ :=
  (if a.acb = c then 1 else 0) + if a.blkacb = c then 1 else 0

/-- LCK$ENQ takes the ACBs. -/
def Status.accepts (st : Status) : Prop := st = .synch ∨ st = .normal

instance (st : Status) : Decidable st.accepts := inferInstanceAs (Decidable (_ ∨ _))

/-- How often a call passes an ACB that the lock manager takes. -/
def Call.passes (env : Env) (s : Db) (c : ℕ) : Call → ℕ
  | .enq a g => if (Lock.enq env s a g).1.accepts then a.passes c else 0
  | _ => 0

/-- The locks get the ACBs a call passes, and none comes or goes otherwise. -/
structure Takes (n : ℕ → ℕ) (s s' : Db) : Prop where
  log : s.log <+: s'.log
  idle : Idle s'
  total : ∀ c ≠ 0, total s' c = total s c + n c

theorem Takes.hands {n : ℕ → ℕ} (h : Takes n s s') (h' : Hands s' s'') : Takes n s s'' :=
  ⟨h.log.trans h'.log, h'.idle h.idle, fun c hc => (h'.total c hc).trans (h.total c hc)⟩

/-- The locks get the ACBs a call passes, and `l` may be granted with its request
    still to complete. -/
structure Passed (l : ℕ) (n : ℕ → ℕ) (s s' : Db) : Prop where
  mem : l ∈ s'.lkbs
  log : s.log <+: s'.log
  idle : ∀ x ∈ s'.lkbs, x ≠ l → (s'.lk x).state = .granted → (s'.lk x).acb = 0
  total : ∀ c ≠ 0, total s' c = total s c + n c

theorem Passed.post {n : ℕ → ℕ} (h : Passed l n s s') : Takes n s (post s' r l) := by
  refine ⟨log_post h.log, fun x hx hst => ?_, fun c hc => (total_post h.mem hc).trans (h.total c hc)⟩
  rw [lk_post] at hst ⊢
  rw [lkbs_post] at hx
  split_ifs at hst ⊢ with hxl
  · rfl
  · exact h.idle x hx hxl hst

theorem Passed.wait {n : ℕ → ℕ} (h : Passed l n s s') (hst : (s'.lk l).state ≠ .granted) : Takes n s s' :=
  ⟨h.log, fun x hx hx' => h.idle x hx (fun e => hst (e ▸ hx')) hx', h.total⟩

section Enq

variable {a : EnqArgs} {g : Gets}

theorem total_startConversion (hl : l ∈ s.lkbs) (hacb : (s.lk l).acb = 0) (hc : c ≠ 0) :
    total (startConversion s a l) c = total s c + a.passes c := by
  have hlkbs : (freeBlkacb (writeVal s a l) (s.lk l)).lkbs = s.lkbs :=
    lkbs_of_core (core_freeBlkacb.trans core_writeVal)
  have hlk : (freeBlkacb (writeVal s a l) (s.lk l)).lk = s.lk := lk_freeBlkacb.trans lk_writeVal
  have hlog : handed (writeVal s a l) c = handed s c := by
    unfold writeVal
    split_ifs <;> rfl
  have howned := owned_setLkb (s := freeBlkacb (writeVal s a l) (s.lk l)) (f := a.request) (c := c)
    (hlkbs ▸ hl)
  have hsame : owned (freeBlkacb (writeVal s a l) (s.lk l)) c = owned s c := by
    rw [owned, hlkbs, hlk, owned]
  have hhanded : handed (startConversion s a l) c = handed s c + if (s.lk l).blkacb = c then 1 else 0 := by
    rw [← hlog, ← handed_freeBlkacb hc]
    rfl
  have hnew : (a.request (s.lk l)).slots c = a.passes c := rfl
  have hold : (s.lk l).slots c = if (s.lk l).blkacb = c then 1 else 0 := by
    simp [Lkb.slots, hacb, Ne.symm hc]
  rw [hlk, hsame, hnew, hold] at howned
  rw [total, total, hhanded, startConversion]
  omega

theorem log_startConversion : s.log <+: (startConversion s a l).log := by
  have hval : s.log <+: (writeVal s a l).log := by
    unfold writeVal
    split_ifs <;> exact prefix_rfl
  exact hval.trans log_freeBlkacb

theorem passed_convert (hl : l ∈ s.lkbs) (hst : (s.lk l).state = .granted) (hi : Idle s)
    (hf : ∀ L c, (f L).slots c = L.slots c) : Passed l a.passes s ((startConversion s a l).setLkb l f) := by
  have hlkbs : (startConversion s a l).lkbs = s.lkbs :=
    (lkbs_of_core core_startConversion).trans rfl
  refine ⟨by exact hlkbs ▸ hl, log_startConversion, fun x hx hxl h => ?_, fun c hc => ?_⟩
  · rw [lk_setLkb, if_neg hxl, lk_startConversion, if_neg hxl] at h ⊢
    exact hi x (hlkbs ▸ hx) h
  · rw [total_setLkb (hlkbs ▸ hl) (hf _ c), total_startConversion hl (hi l hl hst) hc]

theorem takes_convertNow (hl : l ∈ s.lkbs) (hst : (s.lk l).state = .granted) (hi : Idle s) :
    Takes a.passes s (convertNow s a l) :=
  (passed_convert (f := fun L => { L with grmode := a.lkmode }) hl hst hi fun _ _ => rfl).post

theorem takes_convertWait (hl : l ∈ s.lkbs) (hst : (s.lk l).state = .granted) (hi : Idle s) :
    Takes a.passes s (convertWait env s a l) := by
  have hw := passed_convert (a := a)
    (f := fun L => { L with state := .converting, wait := env.waittime }) hl hst hi fun _ _ => rfl
  -- the queues don't show in the locks
  exact (hw.wait (by rw [lk_setLkb, if_pos rfl]; nofun)).hands (.of_eq rfl rfl rfl)

theorem newId_frame (got : Bool) : (newId s l got).2.lk = s.lk ∧ (newId s l got).2.log = s.log ∧
    (newId s l got).2.lkbs = s.lkbs := by
  unfold newId
  split
  · exact ⟨rfl, rfl, rfl⟩
  · dsimp only
    split_ifs <;> exact ⟨rfl, rfl, rfl⟩

theorem newLkb_frame {o : Option (ℕ × ℕ)} (h : newLkb s g = (o, s')) : s'.lk = s.lk ∧ s'.log = s.log ∧
    s'.lkbs = (match o with | none => s.lkbs | some lid => insert lid.1 s.lkbs) := by
  unfold newLkb at h
  split at h
  · cases h
    exact ⟨rfl, rfl, rfl⟩
  · next l hl =>
    have hnew := newId_frame (s := s) (l := l) g.table
    split at h
    · next s₁ hid =>
      rw [hid] at hnew
      cases h
      exact hnew
    · next id s₁ hid =>
      rw [hid] at hnew
      cases h
      exact ⟨hnew.1, hnew.2.1, by rw [← hnew.2.2]⟩

variable {id : ℕ} {s₁ s₂ : Db}

theorem passed_makeLkb (hfound : Found s g s₁ r p) (hnew : newLkb s₁ g = (some (l, id), s₂)) (hs : Struct s₁)
    (hi : Idle s₁) (hf : ∀ L c, (f L).slots c = L.slots c) :
    Passed l a.passes s₁ ((makeLkb s₂ a r p l id).setLkb l f) ∧
      ((makeLkb s₂ a r p l id).setLkb l f).lk l = f (a.lock r p id) := by
  obtain ⟨hlk, hlog, hlkbs⟩ := newLkb_frame hnew
  obtain ⟨hl0, hl⟩ := hfound.fresh l (newLkb_some hs hnew).1
  have hp : p ≠ l := fun h => hl (h ▸ (hfound.parent (h ▸ hl0)).1)
  rw [makeLkb_setLkb hp]
  generalize ht : countSub (s₂.setLkb l fun _ => f (a.lock r p id)) p (· + 1) = t
  have hold : ∀ x ∈ s₁.lkbs, ∃ n, t.lk x = { s₁.lk x with subcnt := n } := by
    intro x hx
    rw [← ht, lk_countSub, lk_setLkb, if_neg (Struct.ne_of_mem hl hx), hlk]
    split_ifs <;> exact ⟨_, rfl⟩
  have hself : t.lk l = f (a.lock r p id) := by
    rw [← ht, lk_countSub, lk_setLkb, if_pos rfl, if_neg (fun h => hp h.1.symm)]
  have hset : t.lkbs = insert l s₁.lkbs := by
    rw [← ht, lkbs_countSub]
    exact hlkbs
  have hlog' : t.log = s₁.log := by
    rw [← ht, log_countSub, ← hlog]
    rfl
  have hslots : ∀ x ∈ s₁.lkbs, ∀ c, (t.lk x).slots c = (s₁.lk x).slots c := by
    intro x hx c
    obtain ⟨n, hn⟩ := hold x hx
    rw [hn]
    rfl
  refine ⟨⟨hset ▸ mem_insert_self _ _, hlog' ▸ prefix_rfl, fun x hx hxl hst => ?_, fun c _ => ?_⟩, hself⟩
  · have hx : x ∈ s₁.lkbs := (mem_insert.mp (hset ▸ hx)).resolve_left hxl
    obtain ⟨n, hn⟩ := hold x hx
    rw [hn] at hst ⊢
    exact hi x hx hst
  · have hnew : (f (a.lock r p id)).slots c = a.passes c := hf _ c
    rw [total, total, handed, hlog', owned, hset, sum_insert hl, hself, hnew, owned,
      sum_congr rfl fun x hx => hslots x hx c, handed]
    omega

theorem takes_enqNow (hf : Found s g s₁ r p) (hnew : newLkb s₁ g = (some (l, id), s₂)) (hs : Struct s₁)
    (hi : Idle s₁) : Takes a.passes s₁ (enqNow s₂ a r p l id) := by
  obtain ⟨⟨hmem, hlog, hidle, htotal⟩, -⟩ := passed_makeLkb (a := a)
    (f := fun L => { L with grmode := a.lkmode, state := .granted }) hf hnew hs hi fun _ _ => rfl
  exact Passed.post ⟨hmem, hlog, hidle, htotal⟩

theorem takes_enqWait (hf : Found s g s₁ r p) (hnew : newLkb s₁ g = (some (l, id), s₂)) (hs : Struct s₁)
    (hi : Idle s₁) : Takes a.passes s₁ (enqWait env s₂ a r p l id) := by
  obtain ⟨hw, hself⟩ := passed_makeLkb (a := a)
    (f := fun L => { L with state := .waiting, wait := env.waittime }) hf hnew hs hi fun _ _ => rfl
  exact (hw.wait (by rw [hself]; nofun)).hands (.of_eq rfl rfl rfl)

/-- The locks and their ACBs are as they were, and nothing was handed over. -/
structure Untouched (s s' : Db) : Prop where
  lk : s'.lk = s.lk
  lkbs : s'.lkbs = s.lkbs
  log : s'.log = s.log

theorem Untouched.hands (h : Untouched s s') : Hands s s' := .of_eq h.lk h.lkbs h.log

/-- LCK$ENQ takes the ACBs it is passed, or refuses the request and touches
    none. -/
def Answered (a : EnqArgs) (s : Db) (st : Status) (s' : Db) : Prop :=
  st.accepts ∧ Takes a.passes s s' ∨ ¬st.accepts ∧ Untouched s s'

theorem answered_enqConvert (hs : Struct s) (hi : Idle s) :
    Answered a s (enqConvert env s a).1 (enqConvert env s a).2 := by
  cases hown : ownLkb s a.lksbId a.pid a.acmode with
  | none =>
    simp only [enqConvert, hown]
    exact .inr ⟨by simp [accepts], rfl, rfl, rfl⟩
  | some l =>
    obtain ⟨hl, -⟩ := mem_of_ownLkb hs hown
    simp only [enqConvert, hown]
    split_ifs with hst hno hnow
    · exact .inr ⟨by simp [accepts], rfl, rfl, rfl⟩
    · exact .inr ⟨by simp [accepts], rfl, rfl, rfl⟩
    · have hst : (s.lk l).state = .granted := by simpa using hst
      have hact : Act 0 anyRequest s (convertNow s a l) :=
        .convert l a.lkmode hl hst ⟨by simpa using hnow.1, hnow.2⟩ trivial core_convertNow
      exact .inl ⟨by simp [accepts], (takes_convertNow hl hst hi).hands (.regrant (hs.act hact))⟩
    · have hst : (s.lk l).state = .granted := by simpa using hst
      have hact : Act env.waittime anyRequest s (convertWait env s a l) :=
        .queue l a.lkmode hl hst (fun h => hnow ⟨by simpa using h.1, h.2⟩) trivial (core_convertWait hst)
      exact .inl ⟨by simp [accepts], (takes_convertWait hl hst hi).hands (.notify (hs.act hact))⟩

theorem Found.untouched (hf : Found s g s₁ r p) : Untouched s s₁ := by
  rcases hf.found with rfl | ⟨R, -, rfl⟩ <;> exact ⟨rfl, rfl, rfl⟩

theorem untouched_freeRsb : Untouched s (freeRsb s r) := by
  unfold freeRsb
  dsimp only
  split_ifs <;> exact ⟨rfl, rfl, rfl⟩

theorem Untouched.trans (h : Untouched s s') (h' : Untouched s' s'') : Untouched s s'' :=
  ⟨h'.lk.trans h.lk, h'.lkbs.trans h.lkbs, h'.log.trans h.log⟩

theorem answered_enqNew (hs : Struct s) (hi : Idle s) (hg : g.Fresh s) :
    Answered a s (enqNew env s a g).1 (enqNew env s a g).2.2 := by
  rcases enqNew_cases env a hs hg with ⟨st, h, hst⟩ | ⟨s₁, r, p, hf, h⟩
  · rw [h]
    exact .inr ⟨by simp [accepts, hst], rfl, rfl, rfl⟩
  · rw [h]
    have hs₁ : Struct s₁ := hf.struct hs
    have hi₁ : Idle s₁ := hf.untouched.hands.idle hi
    have hfrom : ∀ {s'}, Takes a.passes s₁ s' → Takes a.passes s s' := fun h =>
      ⟨hf.untouched.hands.log.trans h.log, h.idle,
        fun c hc => by rw [h.total c hc, hf.untouched.hands.total c hc]⟩
    have henters := enqOn_enters env s₁ a g r p
    generalize enqOn env s₁ a g r p = res at henters
    cases henters with
    | notqueued => exact .inr ⟨by simp [accepts], hf.untouched⟩
    | insfmem s₂ hnew =>
      obtain ⟨hlk, hlog, hlkbs⟩ := newLkb_frame hnew
      exact .inr ⟨by simp [accepts], (hf.untouched.trans ⟨hlk, hlkbs, hlog⟩).trans untouched_freeRsb⟩
    | now s₂ l id hnew hnow =>
      exact .inl ⟨by simp [accepts], hfrom (takes_enqNow hf hnew hs₁ hi₁)⟩
    | wait s₂ l id hnew hnow =>
      obtain ⟨i, max, -, hfits, -, hcore⟩ := newLkb_fits env a hs₁ hf hnew
      have hact : Act env.waittime anyRequest s₁ (enqWait env s₂ a r p l id) :=
        .queueNew l (a.lockWait env r p id) i max hfits rfl rfl hnow trivial hcore
      exact .inl ⟨by simp [accepts],
        (hfrom (takes_enqWait hf hnew hs₁ hi₁)).hands (.notify (hs₁.act hact))⟩

theorem answered_enq (env : Env) (a : EnqArgs) (hs : Struct s) (hi : Idle s) (hg : g.Fresh s) :
    Answered a s (enq env s a g).1 (enq env s a g).2.2 := by
  unfold enq
  split_ifs
  · exact answered_enqConvert hs hi
  · exact answered_enqNew hs hi hg

end Enq

/-! ## Every call -/

def noRequest : Db → Request → Prop := fun _ _ => False

theorem Hands.job (hs : Struct s) (h : Job env noRequest s s') : Hands s s' := by
  have htick : ∀ l ∈ s.lkbs, Hands s (tick s l) := fun l hl => setLkb hl (fun _ => rfl) rfl id
  cases h with
  | dequeue l status inv val hl hsub => exact dequeue hs hl hsub
  | convertNow a l hl hst hnow hok => exact hok.elim
  | convertWait a l hl hst hnow hok => exact hok.elim
  | enqOn a g s₁ r p hf hok =>
    have hs₁ : Struct s₁ := hf.struct hs
    refine hf.untouched.hands.trans ?_
    have henters := enqOn_enters env s₁ a g r p
    generalize enqOn env s₁ a g r p = res at henters hok
    cases henters with
    | notqueued => exact refl
    | insfmem s₂ hnew =>
      obtain ⟨hlk, hlog, hlkbs⟩ := newLkb_frame hnew
      exact .trans (of_eq hlk hlkbs hlog) freeRsb
    | now s₂ l id hnew hnow => exact (hok _ (.inl ⟨rfl, rfl⟩)).elim
    | wait s₂ l id hnew hnow => exact (hok _ (.inr ⟨rfl, rfl⟩)).elim
  | tick l hl hwait => exact htick l hl
  | searchFrom l hl hwait =>
    refine (htick l hl).trans (searchFrom_keep (P := Hands (Lock.tick s l)) (fun v => of_eq rfl rfl rfl)
      fun v h₁ => h₁.trans ?_)
    exact fail (hs.tick.congr core_marked) hl (tick_state hs hl (by omega))

theorem Hands.jobs (hs : Struct s) (h : Jobs env noRequest s s') : Hands s s' := by
  induction h with
  | refl => exact refl
  | tail hjobs hjob ih => exact ih.trans (job (Jobs.struct hjobs hs) hjob)

variable {k : Call}

/-- **A call hands the locks the ACBs it passes, and the locks hand over what
    they had.** -/
theorem takes_call (env : Env) (hs : Struct s) (hi : Idle s) (hk : k.Fits s) :
    Takes (k.passes env s ·) s (k.run env s) := by
  have other : k.Asks env noRequest s → (∀ c, k.passes env s c = 0) → Takes (k.passes env s ·) s (k.run env s) := by
    intro hasks h0
    have hh := Hands.jobs hs (k.jobs hs hk hasks)
    exact ⟨hh.log, hh.idle hi, fun c hc => by rw [hh.total c hc, h0, Nat.add_zero]⟩
  cases k with
  | enq a g =>
    rcases answered_enq env a hs hi hk with ⟨hst, h⟩ | ⟨hst, h⟩
    · exact ⟨h.log, h.idle, fun c hc => by simp only [Call.passes, if_pos hst]; exact h.total c hc⟩
    · exact ⟨h.hands.log, h.hands.idle hi, fun c hc => by
        simp only [Call.passes, if_neg hst]; exact h.hands.total c hc⟩
  | deq => exact other trivial fun _ => rfl
  | deqall => exact other trivial fun _ => rfl
  | search => exact other trivial fun _ => rfl

/-! ## Runs -/

/-- How often some calls pass an ACB that the lock manager takes. -/
def passed (env : Env) (c : ℕ) : List Call → Db → ℕ
  | [], _ => 0
  | k :: ks, s => k.passes env s c + passed env c ks (k.run env s)

/-- A request passes ACBs that are its caller's: two different ones, and no
    lock's. -/
def OwnAcbs (s : Db) : Call → Prop
  | .enq a _ => (∀ c ≠ 0, a.passes c ≤ 1) ∧ ∀ c ≠ 0, 0 < a.passes c → owned s c = 0
  | _ => True

theorem ownAcbs_enq {a : EnqArgs} {g : Gets} : (a.acb ≠ 0 → a.acb ≠ a.blkacb ∧ owned s a.acb = 0) ∧
    (a.blkacb ≠ 0 → owned s a.blkacb = 0) ↔ OwnAcbs s (.enq a g) := by
  simp only [OwnAcbs, EnqArgs.passes]
  constructor
  · refine fun h => ⟨fun c hc => ?_, fun c hc hpos => ?_⟩
    · split_ifs with h1 h2
      · exact absurd (h1.trans h2.symm) (h.1 (h1 ▸ hc)).1
      all_goals omega
    · split_ifs at hpos with h1 h2 h2
      exacts [h1 ▸ (h.1 (h1 ▸ hc)).2, h1 ▸ (h.1 (h1 ▸ hc)).2, h2 ▸ h.2 (h2 ▸ hc), absurd hpos (by decide)]
  · refine fun h => ⟨fun h0 => ⟨fun heq => ?_, h.2 a.acb h0 (by simp)⟩, fun h0 => h.2 a.blkacb h0 (by simp)⟩
    simpa [← heq] using h.1 a.acb h0

instance : DecidableRel OwnAcbs
  | _, .enq .. => decidable_of_iff _ ownAcbs_enq
  | _, .deq .. => .isTrue trivial
  | _, .deqall .. => .isTrue trivial
  | _, .search => .isTrue trivial

theorem owned_le_one (ht : Takes (k.passes env s ·) s (k.run env s)) (hok : OwnAcbs s k)
    (hc : c ≠ 0) (h : owned s c ≤ 1) : owned (k.run env s) c ≤ 1 := by
  have htotal := ht.total c hc
  have hmono : handed s c ≤ handed (k.run env s) c := ht.log.sublist.countP_le
  have hpass : owned s c + k.passes env s c ≤ 1 := by
    cases k with
    | enq a g =>
      simp only [Call.passes]
      split_ifs
      · by_cases h0 : 0 < a.passes c
        · rw [hok.2 c hc h0, Nat.zero_add]
          exact hok.1 c hc
        · omega
      · exact h
    | _ => exact h
  simp only [total] at htotal
  omega

theorem acbs_after {ks : List Call} (hs : Struct s) (hi : Idle s) (hc : c ≠ 0) (h1 : owned s c ≤ 1)
    (h : Allowed env OwnAcbs ks s) :
    Struct (after env ks s) ∧ Idle (after env ks s) ∧ owned (after env ks s) c ≤ 1 ∧
      total (after env ks s) c = total s c + passed env c ks s := by
  induction ks generalizing s with
  | nil => exact ⟨hs, hi, h1, rfl⟩
  | cons k ks ih =>
    obtain ⟨hfits, hok, hrest⟩ := h
    have ht := takes_call env hs hi hfits
    have hs' : Struct (k.run env s) := (k.jobs hs hfits Call.asks_any).struct hs
    obtain ⟨hs'', hi'', h1'', htotal⟩ := ih hs' ht.idle (owned_le_one ht hok hc h1) hrest
    refine ⟨hs'', hi'', h1'', ?_⟩
    rw [passed, ← Nat.add_assoc, ← ht.total c hc]
    exact htotal

/-- **Each ACB is handed over once**: in every run of calls that pass ACBs of
    their callers', an ACB the lock manager takes is one lock's or has been
    handed over, once for each time it was taken; and a request that is refused
    touches no ACB. -/
theorem acbs_handed_once {ks : List Call} (h : Allowed env OwnAcbs ks Db.empty) :
    (∀ c ≠ 0, owned (after env ks Db.empty) c ≤ 1 ∧
      handed (after env ks Db.empty) c + owned (after env ks Db.empty) c = passed env c ks Db.empty) ∧
    ∀ a g, g.Fresh (after env ks Db.empty) → ¬(enq env (after env ks Db.empty) a g).1.accepts →
      Untouched (after env ks Db.empty) (enq env (after env ks Db.empty) a g).2.2 := by
  have hempty : Idle Db.empty := by simp [Idle, Db.empty]
  refine ⟨fun c hc => ?_, fun a g hg hst => ?_⟩
  · obtain ⟨-, -, h1, htotal⟩ := acbs_after Struct.empty hempty hc (by simp [owned, Db.empty]) h
    refine ⟨h1, ?_⟩
    rw [← total, htotal]
    simp [total, handed, owned, Db.empty]
  · obtain ⟨hs, hi, -, -⟩ := acbs_after (c := 1) Struct.empty hempty (by decide) (by simp [owned, Db.empty]) h
    rcases answered_enq env a hs hi hg with h | h
    · exact absurd h.1 hst
    · exact h.2

theorem acbs_handed_once_waiting : owned waiting 103 ≤ 1 ∧
    handed waiting 103 + owned waiting 103 = passed ⟨10, 100⟩ 103 waitCalls .empty :=
  have h : Allowed ⟨10, 100⟩ OwnAcbs waitCalls .empty := by decide +kernel
  (acbs_handed_once h).1 103 (by decide)

end Lock
