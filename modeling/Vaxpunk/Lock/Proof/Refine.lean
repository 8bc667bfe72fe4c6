/-
  Every call is a run of acts.
-/
import Vaxpunk.Lock.Proof.Struct

namespace Lock

open Function

variable {s s' : Db} {l r x n : ℕ} {q : LkbState} {w : ℕ} {ok : Db → Request → Prop} {env : Env}
variable {P : Db → Prop} {f : Lkb → Lkb} {p id pid acmode i : ℕ} {L : Lkb} {status : Option Status}
    {inv : Bool} {val : Option ValBlk}

def Acts (w : ℕ) (ok : Db → Request → Prop) : Db → Db → Prop := Relation.ReflTransGen (Act w ok)

namespace Acts

theorem one (h : Act w ok s s') : Acts w ok s s' := .single h

theorem rest (h : s'.core = s.core) : Acts w ok s s' := one (.rest h)

theorem trans {s'' : Db} (h : Acts w ok s s') (h' : Acts w ok s' s'') : Acts w ok s s'' :=
  Relation.ReflTransGen.trans h h'

theorem keep (hP : ∀ s s', P s → Act w ok s s' → P s') (h : Acts w ok s s') (hs : P s) :
    P s' := by
  induction h with
  | refl => exact hs
  | tail _ h ih => exact hP _ _ ih h

theorem struct (h : Acts w ok s s') (hs : Struct s) : Struct s' := h.keep (fun _ _ hs h => hs.act h) hs

end Acts

/-! ## What the queues don't depend on -/

section Core

theorem queue_of_core (h : s'.core = s.core) : (s'.rs r).queue = (s.rs r).queue := by
  change (s'.core.rs r).queue = (s.core.rs r).queue
  rw [h]

theorem core_emit {e : Event} (he : e.isMove = false) : (s.emit e).core = s.core := by
  simp [Db.core, Db.emit, he]

theorem core_setLkb_eq :
    (s.setLkb l f).core = s.core.setLkb l fun _ => (f (s.lk l)).core := by
  have hlk : (fun x => ((s.setLkb l f).lk x).core) =
      (s.core.setLkb l fun _ => (f (s.lk l)).core).lk := by
    funext x
    rw [lk_setLkb, lk_setLkb]
    split <;> rfl
  simp only [Db.core, hlk]
  rfl

theorem core_setLkb (hf : (f (s.lk l)).core = (s.lk l).core) : (s.setLkb l f).core = s.core := by
  rw [core_setLkb_eq, hf, Db.setLkb]
  exact congrArg (fun lk => { s.core with lk := lk }) (update_eq_self l s.core.lk)

theorem core_setRsb_eq {f : Rsb → Rsb} : (s.setRsb r f).core = s.core.setRsb r fun _ => (f (s.rs r)).core := by
  have hrs : (fun x => ((s.setRsb r f).rs x).core) = (s.core.setRsb r fun _ => (f (s.rs r)).core).rs := by
    funext x
    simp only [Db.setRsb, update_apply]
    split <;> rfl
  simp only [Db.core, hrs]
  rfl

theorem core_setRsb {f : Rsb → Rsb} (hf : (f (s.rs r)).core = (s.rs r).core) :
    (s.setRsb r f).core = s.core := by
  rw [core_setRsb_eq, hf, Db.setRsb]
  exact congrArg (fun rs => { s.core with rs := rs }) (update_eq_self r s.core.rs)

theorem core_unlink : (unlink s r q l).core = unlink s.core r q l := core_setRsb_eq

theorem core_append : (append s r q l).core = append s.core r q l := core_setRsb_eq

theorem core_countSub {f : ℕ → ℕ} : (countSub s p f).core = countSub s.core p f := by
  have hlk : (fun x => ((countSub s p f).lk x).core) = (countSub s.core p f).lk := by
    funext x
    simp only [lk_countSub]
    split <;> rfl
  unfold countSub at hlk ⊢
  split_ifs with hp
  · simp only [if_pos hp] at hlk
    simp only [Db.core, hlk]
    rfl
  · rfl

theorem core_emit_move {e : Event} (he : e.isMove = true) : (s.emit e).core = s.core.emit e := by
  simp [Db.core, Db.emit, he]

theorem core_foldl {α : Type} {f : Db → α → Db} (hf : ∀ s a, (f s a).core = s.core) (xs : List α) :
    (xs.foldl f s).core = s.core := by
  induction xs generalizing s with
  | nil => rfl
  | cons a xs ih => rw [List.foldl_cons, ih, hf]

theorem core_blockAst {h : LkbState} : (blockAst s r h p).core = s.core := by
  refine core_foldl (fun s a => ?_) _
  unfold blockOne
  split
  · rw [core_setLkb rfl, core_emit rfl]
  · rfl

theorem core_notify : (notify s r).core = s.core := by
  have heach : ∀ (s : Db) (p : ℕ), (blockAst (blockAst s r .granted p) r .converting p).core = s.core :=
    fun s p => by rw [core_blockAst, core_blockAst]
  simp only [notify, core_foldl heach]

theorem core_post : (post s r l).core = s.core := by
  unfold post
  split
  · rfl
  · rw [core_setLkb rfl, core_emit]
    unfold completion
    split_ifs <;> rfl

end Core

/-! ## Granting -/

theorem core_grant : (grant (unlink s (s.lk p).rsb (s.lk p).state p) (s.lk p).rsb p).core =
    ((moveTo s p .granted Lkb.grant).emit (.granted p (s.lk p).state
      (((unlink s (s.lk p).rsb (s.lk p).state p).rs (s.lk p).rsb).queue .converting))).core := core_post

theorem act_grant (hs : Struct s) {t : List ℕ} (hq : q ≠ .granted)
    (hhead : (s.rs r).queue q = p :: t) (hcv : q = .waiting → (s.rs r).queue .converting = [])
    (hg : grantable s r p (s.lk p).rqmode) : Act w ok s (grant (unlink s r q p) r p) := by
  obtain ⟨hp, rfl, rfl⟩ := (hs.on p r q).mp (hhead ▸ List.mem_cons_self)
  refine .grant p _ hp hq (by rw [hhead]; rfl) (fun hw => ⟨hcv hw, ?_⟩) hg core_grant
  simp [unlink, Db.setRsb, hw, hcv hw]

theorem queue_grant (hs : Struct s) {t : List ℕ} {q' : LkbState} (hhead : (s.rs r).queue q = p :: t)
    (hq : q ≠ .granted) (hq' : q' ≠ .granted) :
    ((grant (unlink s r q p) r p).rs r).queue q' = if q' = q then t else (s.rs r).queue q' := by
  obtain ⟨-, rfl, rfl⟩ := (hs.on p r q).mp (hhead ▸ List.mem_cons_self)
  rw [queue_of_core core_grant]
  refine (queue_moveTo hq.symm).trans ?_
  simp only [true_and, hq', if_false]
  split_ifs with h
  · rw [h, hhead, List.erase_cons_head]
  · rfl

/-- What a grant by REGRANT on `r` keeps. -/
def KeptByGrant (r : ℕ) (P : Db → Prop) : Prop :=
  ∀ s q p t, Struct s → P s → q ≠ .granted → (s.rs r).queue q = p :: t →
    (q = .waiting → (s.rs r).queue .converting = []) → grantable s r p (s.lk p).rqmode →
    P (grant (unlink s r q p) r p)

theorem regrantQueue_keep (hP : KeptByGrant r P) (hs : Struct s) (hq : q ≠ .granted)
    (hcv : q = .waiting → (s.rs r).queue .converting = []) (h0 : P s) :
    Struct (regrantQueue r q n s) ∧ P (regrantQueue r q n s) := by
  induction n generalizing s with
  | zero => exact ⟨hs, h0⟩
  | succ n ih =>
    unfold regrantQueue
    split
    · exact ⟨hs, h0⟩
    · next p t hhead =>
      split_ifs with hg
      · have hact : Act 0 (fun _ _ => True) s (grant (unlink s r q p) r p) := act_grant hs hq hhead hcv hg
        refine ih (hs.act hact) (fun hw => ?_) (hP s q p t hs h0 hq hhead hcv hg)
        rw [queue_grant hs hhead hq (by decide), if_neg (by simp [hw])]
        exact hcv hw
      · exact ⟨hs, h0⟩

theorem regrant_keep (hP : KeptByGrant r P) (hnotify : ∀ s, Struct s → P s → P (notify s r))
    (hs : Struct s) (h0 : P s) : P (regrant s r) := by
  obtain ⟨hs₁, h₁⟩ := regrantQueue_keep (n := ((s.rs r).queue .converting).length) hP hs (by decide)
    (q := .converting) nofun h0
  unfold regrant
  dsimp only
  split_ifs with hcv
  · obtain ⟨hs₂, h₂⟩ := regrantQueue_keep (n := (((regrantQueue r .converting
      ((s.rs r).queue .converting).length s).rs r).queue .waiting).length) (q := .waiting) hP hs₁ (by decide)
      (fun _ => hcv) h₁
    exact hnotify _ hs₂ h₂
  · exact hnotify _ hs₁ h₁

theorem acts_regrant (hs : Struct s) : Acts w ok s (regrant s r) := by
  refine regrant_keep (P := Acts w ok s) (fun s₁ q p t hs₁ h hq hhead hcv hg => ?_)
    (fun _ _ h => h.trans (.rest core_notify)) hs .refl
  exact h.trans (.one (act_grant hs₁ hq hhead hcv hg))

theorem struct_regrant (hs : Struct s) : Struct (regrant s r) := by
  have hacts : Acts 0 (fun _ _ => True) s (regrant s r) := acts_regrant hs
  exact hacts.struct hs

/-! ## LCK$DEQ and LCK$DEQALL -/

theorem core_endRequest : (endRequest s L status).core = s.core := by
  unfold endRequest
  split_ifs
  · rfl
  · cases status <;> exact core_emit rfl

theorem core_dequeueVal {R : Rsb} :
    (R.dequeueVal L inv val).core = R.core := by
  unfold Rsb.dequeueVal
  cases val <;> dsimp only <;> split_ifs <;> rfl

theorem core_freeBlkacb : (freeBlkacb s L).core = s.core := by
  unfold freeBlkacb
  split_ifs
  exacts [core_emit rfl, rfl]

theorem core_takeOut :
    (takeOut s l status inv val).core = (remove s l).core := by
  have hval : (s.setRsb (s.lk l).rsb fun R => R.dequeueVal (s.lk l) inv val).core = s.core :=
    core_setRsb core_dequeueVal
  have hcount : ∀ t t' : Db, t.core = t'.core →
      (countSub t (s.lk l).parent (· - 1)).core = (countSub t' (s.lk l).parent (· - 1)).core :=
    fun t t' h => by rw [core_countSub, core_countSub, h]
  have hdrop : ∀ t t' : Db, t.core = t'.core →
      { t with
        idtbl := update t.idtbl (indexOf (s.lk l).id) 0
        lkbs := t.lkbs.erase l : Db }.core =
      { t' with
        idtbl := update t'.idtbl (indexOf (s.lk l).id) 0
        lkbs := t'.lkbs.erase l : Db }.core :=
    fun t t' h => congrArg (fun t : Db => { t with
      idtbl := update t.idtbl (indexOf (s.lk l).id) 0
      lkbs := t.lkbs.erase l : Db }) h
  refine hdrop _ _ (hcount _ _ ?_)
  rw [core_freeBlkacb, core_endRequest, core_emit_move rfl, core_emit_move rfl, core_unlink, core_unlink, hval]

theorem Struct.takeOut (hs : Struct s) (hl : l ∈ s.lkbs) (hsub : (s.lk l).subcnt = 0) :
    Struct (takeOut s l status inv val) := (hs.remove hl hsub).congr core_takeOut

theorem acts_dequeue (hs : Struct s) (hl : l ∈ s.lkbs) (hsub : (s.lk l).subcnt = 0) :
    Acts w ok s (dequeue s l status inv val) :=
  .trans (.one (.remove l hl hsub core_takeOut)) (.trans (acts_regrant (hs.takeOut hl hsub)) (.one (.free _ rfl)))

theorem mem_of_findLkb (hs : Struct s) (h : findLkb s id = some l) :
    l ∈ s.lkbs ∧ (s.lk l).id = id := by
  simp only [findLkb] at h
  split_ifs at h with h1 h2
  cases h
  simp only [not_or, not_not] at h2
  exact ⟨(hs.table _ h2.1).1, h2.2⟩

theorem mem_of_ownLkb (hs : Struct s) (h : ownLkb s id pid acmode = some l) :
    l ∈ s.lkbs ∧ (s.lk l).pid = pid := by
  unfold ownLkb at h
  split at h
  · cases h
  · next l' hfind =>
    split_ifs at h with h1
    cases h
    exact ⟨(mem_of_findLkb hs hfind).1, by simp only [not_or, not_not] at h1; exact h1.1⟩

/-! ## LCK$SEARCH -/

theorem core_failConversion (hl : (s.lk l).state = .converting) : (failConversion s l).core =
    ((moveTo s l .granted Lkb.giveUp).emit (.left l .converting)).core := by
  unfold failConversion moveTo
  rw [hl]
  dsimp only
  rw [core_setLkb rfl, core_emit rfl]
  rfl

theorem act_failConversion (hl : l ∈ s.lkbs) (hcv : (s.lk l).state = .converting) :
    Act w ok s (failConversion s l) := .giveUp l hl hcv (core_failConversion hcv)

theorem Struct.failConversion (hs : Struct s) (hl : l ∈ s.lkbs) (hcv : (s.lk l).state = .converting) :
    Struct (failConversion s l) := by
  have hact : Act 0 (fun _ _ => True) s (Lock.failConversion s l) := act_failConversion hl hcv
  exact hs.act hact

theorem fail_cases (hs : Struct s) (hl : l ∈ s.lkbs) (hq : (s.lk l).state ≠ .granted) :
    (s.lk l).subcnt = 0 ∧ fail s l = dequeue s l (some .deadlock) false none ∨
    (s.lk l).state = .converting ∧ fail s l = regrant (failConversion s l) (s.lk l).rsb := by
  unfold fail
  split_ifs with hw
  · exact .inl ⟨hs.waiting l hl hw, rfl⟩
  · refine .inr ⟨?_, rfl⟩
    cases h : (s.lk l).state <;> simp_all

theorem acts_fail (hs : Struct s) (hl : l ∈ s.lkbs) (hq : (s.lk l).state ≠ .granted) :
    Acts w ok s (fail s l) := by
  obtain ⟨hsub, h⟩ | ⟨hcv, h⟩ := fail_cases hs hl hq
  · exact h ▸ acts_dequeue hs hl hsub
  · exact h ▸ .trans (.one (act_failConversion hl hcv)) (acts_regrant (hs.failConversion hl hcv))

/-- What `l`'s request waits for leads back to its own process, as the search
    from it sees. -/
def Caught (env : Env) (s : Db) (l : ℕ) : Prop :=
  (reaches s (s.lk l).pid l fun p => if p < env.maxpix then false else s.visited p).1

/-- The database with other processes marked. -/
def Db.marked (s : Db) (v : ℕ → Bool) : Db := { s with visited := v }

theorem core_marked {v : ℕ → Bool} : (s.marked v).core = s.core := rfl

theorem searchFrom_cases (env : Env) (s : Db) (l : ℕ) : ∃ v, Caught env s l ∧ searchFrom env s l = fail (s.marked v) l ∨
    ¬Caught env s l ∧ searchFrom env s l = s.marked v := by
  unfold searchFrom Caught
  dsimp only
  generalize reaches s (s.lk l).pid l _ = found
  refine ⟨found.2, ?_⟩
  split_ifs with h
  · exact .inl ⟨h, rfl⟩
  · exact .inr ⟨h, rfl⟩

theorem searchFrom_keep (hmark : ∀ v, P (s.marked v))
    (hfail : ∀ v, P (s.marked v) → P (fail (s.marked v) l)) : P (searchFrom env s l) := by
  obtain ⟨v, ⟨-, h⟩ | ⟨-, h⟩⟩ := searchFrom_cases env s l
  · rw [h]
    exact hfail v (hmark v)
  · rw [h]
    exact hmark v

theorem lkbs_of_core (h : s'.core = s.core) : s'.lkbs = s.lkbs := by
  change s'.core.lkbs = s.core.lkbs
  rw [h]

theorem acts_searchFrom (hs : Struct s) (hl : l ∈ s.lkbs) (hq : (s.lk l).state ≠ .granted) :
    Acts w ok s (searchFrom env s l) := by
  refine searchFrom_keep (fun v => .rest core_marked) fun v hacts => hacts.trans ?_
  exact acts_fail (hs.congr core_marked) hl hq

/-- The database with a second less of the wait of `l`. -/
def tick (s : Db) (l : ℕ) : Db := s.setLkb l fun L => { L with wait := L.wait - 1 }

theorem Struct.tick (hs : Struct s) : Struct (tick s l) := hs.setLkb ⟨rfl, rfl, rfl, rfl⟩ rfl (Nat.sub_le _ _)

/-! ## LCK$ENQ -/

section Enq

variable {a : EnqArgs} {g : Gets}

theorem core_setLkb_congr {f' : Lkb → Lkb} (h : s'.core = s.core)
    (hf : (f (s'.lk l)).core = (f' (s.lk l)).core) : (s'.setLkb l f).core = (s.setLkb l f').core := by
  rw [core_setLkb_eq, core_setLkb_eq, h, hf]

theorem core_writeVal : (writeVal s a l).core = s.core := by
  unfold writeVal
  split_ifs
  exacts [core_setRsb rfl, rfl]

theorem lk_freeBlkacb : (freeBlkacb s L).lk = s.lk := by
  unfold freeBlkacb
  split_ifs <;> rfl

theorem lk_writeVal : (writeVal s a l).lk = s.lk := by
  unfold writeVal
  split_ifs <;> rfl

theorem lk_startConversion : (startConversion s a l).lk x = if x = l then a.request (s.lk l) else s.lk x := by
  rw [startConversion, lk_setLkb, lk_freeBlkacb, lk_writeVal]

theorem core_startConversion : (startConversion s a l).core =
    (s.setLkb l fun L => { L with rqmode := a.lkmode }).core := by
  refine core_setLkb_congr (core_freeBlkacb.trans core_writeVal) ?_
  rw [lk_freeBlkacb, lk_writeVal]
  rfl

theorem core_convertNow : (convertNow s a l).core =
    (s.setLkb l fun L => { L with grmode := a.lkmode, rqmode := a.lkmode }).core := by
  rw [convertNow, core_post, core_setLkb_eq, core_startConversion, lk_startConversion, if_pos rfl,
    core_setLkb_eq, core_setLkb_eq]
  simp [Db.setLkb]
  rfl

theorem core_convertWait (hl : (s.lk l).state = .granted) : (convertWait env s a l).core =
    (moveTo s l .converting (Lkb.ask a.lkmode env.waittime)).core := by
  have hlk : (unlink (startConversion s a l) (s.lk l).rsb .granted l).lk l = a.request (s.lk l) :=
    lk_startConversion.trans (if_pos rfl)
  rw [convertWait, moveTo, core_append, core_append, core_setLkb_eq, core_setLkb_eq, core_unlink,
    core_unlink, core_startConversion, hlk, core_setLkb_eq, hl]
  simp [Db.setLkb, unlink, Db.setRsb]
  rfl

theorem acts_convertNow (hs : Struct s) (hl : l ∈ s.lkbs) (hst : (s.lk l).state = .granted)
    (hnow : Now s (s.lk l).rsb l a.lkmode [.converting])
    (hok : ok s ⟨(s.lk l).pid, (s.lk l).rsb, a.lkmode, .granted, true⟩) :
    Acts w ok s (regrant (convertNow s a l) (s.lk l).rsb) := by
  have hact : Act w ok s (convertNow s a l) := .convert l a.lkmode hl hst hnow hok core_convertNow
  exact .trans (.one hact) (acts_regrant (hs.act hact))

theorem acts_convertWait (hl : l ∈ s.lkbs) (hst : (s.lk l).state = .granted)
    (hnow : ¬Now s (s.lk l).rsb l a.lkmode [.converting])
    (hok : ok s ⟨(s.lk l).pid, (s.lk l).rsb, a.lkmode, .converting, true⟩) :
    Acts env.waittime ok s (notify (convertWait env s a l) (s.lk l).rsb) :=
  .trans (.one (.queue l a.lkmode hl hst hnow hok (core_convertWait hst))) (.rest core_notify)

theorem scanIds_some {tbl : ℕ → ℕ} {max next nx : ℕ} (hmax : n ≠ 0 → 1 < max)
    (h : scanIds tbl max n next = (some i, nx)) : tbl i = 0 ∧ 0 < i ∧ i < max := by
  induction n generalizing next with
  | zero => simp [scanIds] at h
  | succ n ih =>
    have h1 := hmax (Nat.succ_ne_zero n)
    unfold scanIds at h
    dsimp only at h
    split_ifs at h with hnext hfree hfree
    · cases h
      exact ⟨hfree, Nat.one_pos, h1⟩
    · exact ih (fun _ => h1) h
    · cases h
      exact ⟨hfree, by omega, by omega⟩
    · exact ih (fun _ => h1) h

theorem indexOf_add {seq : ℕ} (hi : i < 2 ^ IDBITS) : indexOf (i + seq <<< IDBITS) = i := by
  rw [indexOf, Nat.shiftLeft_eq, Nat.add_mul_mod_self_right, Nat.mod_eq_of_lt hi]

theorem enterId_eq {id : Option ℕ} (hi : i < 2 ^ IDBITS) (h : enterId s l i = (id, s')) :
    (∃ n ∈ id, indexOf n = i) ∧
      s'.core = { s with idtbl := update s.idtbl i l : Db }.core := by
  simp only [enterId, Prod.mk.injEq] at h
  obtain ⟨rfl, rfl⟩ := h
  exact ⟨⟨_, rfl, indexOf_add hi⟩, rfl⟩

theorem grow_idtbl (hs : Struct s) : (fun i => if i < s.idmax then s.idtbl i else 0) = s.idtbl := by
  funext i
  split_ifs with hi
  · rfl
  · by_contra h0
    exact hi (hs.bounds i (Ne.symm h0)).2

theorem newId_some (hs : Struct s) {got : Bool} (h : newId s l got = (some id, s')) :
    ∃ i max, s'.core = { s with idtbl := update s.idtbl i l, idmax := max : Db }.core ∧
      indexOf id = i ∧ 0 < i ∧ i < max ∧ s.idmax ≤ max ∧ max ≤ 2 ^ IDBITS ∧ s.idtbl i = 0 := by
  have hmax := hs.idmax
  have hout : ∀ i, s.idmax ≤ i → s.idtbl i = 0 := fun i hi => by
    by_contra h0
    exact absurd (hs.bounds i h0).2 (by omega)
  unfold newId at h
  split at h
  · next i next hscan =>
    obtain ⟨hfree, hpos, hlt⟩ := scanIds_some (by omega) hscan
    obtain ⟨⟨n, hn, hidx⟩, hcore⟩ := enterId_eq (by omega) h
    cases hn
    exact ⟨i, s.idmax, hcore, hidx, hpos, hlt, le_rfl, hmax, hfree⟩
  · next next hscan =>
    dsimp only at h
    rw [grow_idtbl hs] at h
    have hi : ∀ size i, size = (if s.idmax * 2 = 0 then 64 else s.idmax * 2) →
        i = (if s.idmax ≠ 0 then s.idmax else 1) → 0 < i ∧ i < size ∧ s.idmax ≤ size ∧ s.idmax ≤ i := by
      intro size i hsize hi
      split_ifs at hsize hi <;> omega
    generalize hsize : (if s.idmax * 2 = 0 then 64 else s.idmax * 2) = size at h
    generalize hidx : (if s.idmax ≠ 0 then s.idmax else 1) = i at h
    obtain ⟨hpos, hlt, hle, hge⟩ := hi size i hsize.symm hidx.symm
    split at h
    · simp at h
    · next hno =>
      simp only [gt_iff_lt, Nat.one_shiftLeft, not_or, not_lt] at hno
      obtain ⟨⟨n, hn, hidx⟩, hcore⟩ := enterId_eq (hlt.trans_le hno.1) h
      cases hn
      exact ⟨i, size, hcore, hidx, hpos, hlt, hle, hno.1, hout i hge⟩

theorem newId_none {got : Bool} (h : newId s l got = (none, s')) : s'.core = s.core := by
  unfold newId at h
  split at h
  · simp [enterId] at h
  · dsimp only at h
    generalize (if s.idmax * 2 = 0 then 64 else s.idmax * 2) = size at h
    split at h
    · simp only [Prod.mk.injEq, true_and] at h
      rw [← h]
      rfl
    · simp [enterId] at h

theorem makeLkb_setLkb (hp : p ≠ l) :
    (makeLkb s a r p l id).setLkb l f =
      countSub (s.setLkb l fun _ => f (a.lock r p id)) p (· + 1) := by
  unfold makeLkb countSub
  dsimp only
  split_ifs
  · simp only [Db.setLkb, Db.mk.injEq, true_and, and_true]
    funext x
    simp only [update_apply]
    split_ifs <;> simp_all
  · simp [Db.setLkb]

theorem core_append_makeLkb {max : ℕ} {q : LkbState}
    (h : s'.core = { s with
      idtbl := update s.idtbl i l
      idmax := max
      lkbs := insert l s.lkbs : Db }.core)
    (hp : p ≠ l) (hparent : (f (a.lock r p id)).parent = p) (hrsb : (f (a.lock r p id)).rsb = r)
    (hst : (f (a.lock r p id)).state = q) :
    (append ((makeLkb s' a r p l id).setLkb l f) r q l).core =
      (add s l (f (a.lock r p id)) i max).core := by
  rw [makeLkb_setLkb hp, add, hparent, hrsb, hst]
  simp only [core_append, core_countSub, core_setLkb_eq, h]

theorem newLkb_some (hs : Struct s) (h : newLkb s g = (some (l, id), s')) :
    g.lkb = some l ∧ ∃ i max, s'.core = { s with
        idtbl := update s.idtbl i l
        idmax := max
        lkbs := insert l s.lkbs : Db }.core ∧
      indexOf id = i ∧ 0 < i ∧ i < max ∧ s.idmax ≤ max ∧ max ≤ 2 ^ IDBITS ∧ s.idtbl i = 0 := by
  unfold newLkb at h
  split at h
  · simp at h
  · next l' hl' =>
    split at h
    · simp at h
    · next id' s₁ hnew =>
      simp only [Prod.mk.injEq, Option.some.injEq] at h
      obtain ⟨⟨rfl, rfl⟩, rfl⟩ := h
      obtain ⟨i, max, hcore, hrest⟩ := newId_some hs hnew
      refine ⟨hl', i, max, ?_, hrest⟩
      exact congrArg (fun t : Db => { t with lkbs := insert l' t.lkbs : Db }) hcore

theorem newLkb_none (h : newLkb s g = (none, s')) : s'.core = s.core := by
  unfold newLkb at h
  split at h
  · cases h
    rfl
  · split at h
    · next s₁ hnew =>
      cases h
      exact newId_none hnew
    · simp at h

/-- What becomes of a request, by the status LCK$ENQ returns. -/
def Status.Leads (st : Status) (wait : LkbState) (q : LkbState) : Prop :=
  st = .synch ∧ q = .granted ∨ st = .normal ∧ q = wait

/-- A resource that can be made. -/
structure Makes (s : Db) (r : ℕ) (R : Rsb) : Prop where
  ne_zero : r ≠ 0
  fresh : r ∉ s.rsbs
  empty : ∀ q, R.queue q = []
  new : ∀ x ∈ s.rsbs, ¬(s.rs x).is R.name R.acmode R.group R.parent

/-- LCK$ENQ has the resource `r` for a new lock, and `p` for its parent. -/
structure Found (s : Db) (g : Gets) (s₁ : Db) (r p : ℕ) : Prop where
  found : s₁ = s ∨ ∃ R, Makes s r R ∧ s₁ = make s r R
  mem : r ∈ s₁.rsbs
  fresh : ∀ l ∈ g.lkb, l ≠ 0 ∧ l ∉ s₁.lkbs
  parent : p ≠ 0 → p ∈ s₁.lkbs ∧ (s₁.lk p).state = .granted
  prsb : (s₁.rs r).parent = if p = 0 then 0 else (s₁.lk p).rsb

namespace Found

variable {s₁ : Db} {p : ℕ}

section
variable (h : Found s g s₁ r p)
include h

theorem lk : s₁.lk = s.lk := by
  rcases h.found with rfl | ⟨R, -, rfl⟩ <;> rfl

theorem lkbs : s₁.lkbs = s.lkbs := by
  rcases h.found with rfl | ⟨R, -, rfl⟩ <;> rfl

theorem acts : Acts w ok s s₁ := by
  rcases h.found with rfl | ⟨R, hm, rfl⟩
  · exact .refl
  · exact .one (.make r R hm.ne_zero hm.fresh hm.empty hm.new rfl)

theorem struct (hs : Struct s) : Struct s₁ := by
  have hacts : Acts 0 (fun _ _ => True) s s₁ := h.acts
  exact hacts.struct hs

end

end Found

theorem findRsb_cases (hs : Struct s) {name : List UInt8} {parent : ℕ} {group : ℤ} {got : Option ℕ}
    (hg : ∀ r ∈ got, r ≠ 0 ∧ r ∉ s.rsbs) {o : Option ℕ} (h : findRsb s name acmode group parent got = (o, s')) :
    o = none ∧ s' = s ∨ ∃ r, o = some r ∧ r ∈ s'.rsbs ∧ (s'.rs r).key = (name, acmode, group, parent) ∧
      (s' = s ∨ ∃ R, Makes s r R ∧ s' = make s r R) := by
  unfold findRsb at h
  dsimp only at h
  split at h
  · next r hfind =>
    cases h
    have his : (s.rs r).is name acmode group parent :=
      List.find?_some (p := fun r => (s.rs r).is name acmode group parent) hfind
    exact .inr ⟨r, rfl, (hs.hash _ r (List.mem_of_find?_eq_some hfind)).1, Rsb.is_iff.mp his, .inl rfl⟩
  · next hfind =>
    split at h
    · cases h
      exact .inl ⟨rfl, rfl⟩
    · next r =>
      cases h
      refine .inr ⟨r, rfl, Finset.mem_insert_self _ _, by simp [Rsb.key], .inr ⟨_, ?_, rfl⟩⟩
      refine ⟨(hg r rfl).1, (hg r rfl).2, fun _ => rfl, fun x hx his => ?_⟩
      have hkey := Rsb.is_iff.mp his
      have hc : (s.rs x).chain = chain name parent := by
        simp only [Rsb.key, Prod.mk.injEq] at hkey
        simp only [Rsb.chain, hkey]
      exact List.find?_eq_none.mp hfind x (hc ▸ hs.chained x hx) his

theorem enqNew_cases (env : Env) (a : EnqArgs) (hs : Struct s) (hg : g.Fresh s) :
    (∃ st : Status, enqNew env s a g = (st, none, s) ∧ st ≠ .synch ∧ st ≠ .normal) ∨
    ∃ s₁ r p, Found s g s₁ r p ∧ enqNew env s a g = enqOn env s₁ a g r p := by
  have found : ∀ {o s₁ p acmode group parent}, findRsb s a.name acmode group parent g.rsb = (o, s₁) →
      (p ≠ 0 → p ∈ s.lkbs ∧ (s.lk p).state = .granted) →
      (parent = if p = 0 then 0 else (s.lk p).rsb) →
      o = none ∧ s₁ = s ∨ ∃ r, o = some r ∧ Found s g s₁ r p := by
    intro o s₁ p acmode group parent hfind hp hpar
    rcases findRsb_cases hs hg.rsb hfind with h | ⟨r, ho, hmem, hkey, hfound⟩
    · exact .inl h
    · have hlk : s₁.lk = s.lk := by rcases hfound with rfl | ⟨R, -, rfl⟩ <;> rfl
      have hlkbs : s₁.lkbs = s.lkbs := by rcases hfound with rfl | ⟨R, -, rfl⟩ <;> rfl
      simp only [Rsb.key, Prod.mk.injEq] at hkey
      refine .inr ⟨r, ho, hfound, hmem, hlkbs ▸ hg.lkb, ?_, ?_⟩
      · rwa [hlk, hlkbs]
      · rw [hlk, hkey.2.2.2, hpar]
  by_cases hpar : a.parid = 0
  · simp only [enqNew, hpar, ne_eq, not_true_eq_false, if_false]
    cases hfind : findRsb s a.name a.acmode a.group 0 g.rsb with
    | mk o s₁ =>
      rcases found (p := 0) hfind (by simp) (by simp) with ⟨rfl, rfl⟩ | ⟨r, rfl, hf⟩
      · exact .inl ⟨_, rfl, by decide, by decide⟩
      · exact .inr ⟨s₁, r, 0, hf, rfl⟩
  · cases hown : ownLkb s a.parid a.pid a.acmode with
    | none =>
      simp only [enqNew, hpar, hown, ne_eq, not_false_eq_true, if_true]
      exact .inl ⟨_, rfl, by decide, by decide⟩
    | some p =>
      obtain ⟨hp, -⟩ := mem_of_ownLkb hs hown
      simp only [enqNew, hpar, hown, ne_eq, not_false_eq_true, if_true]
      split_ifs with hgr
      · cases hfind : findRsb s a.name (s.rs (s.lk p).rsb).acmode (s.rs (s.lk p).rsb).group
            (s.lk p).rsb g.rsb with
        | mk o s₁ =>
          have hp0 : p ≠ 0 := fun h => hs.lkb_ne (h ▸ hp)
          rcases found (p := p) hfind (fun _ => ⟨hp, hgr⟩) (by simp [hp0]) with ⟨rfl, rfl⟩ | ⟨r, rfl, hf⟩
          · exact .inl ⟨_, rfl, by decide, by decide⟩
          · exact .inr ⟨s₁, r, p, hf, rfl⟩
      · exact .inl ⟨_, rfl, by decide, by decide⟩

/-- What LCK$ENQ does on its resource: nothing, as the request can't be
    granted now; nothing for want of pool; or a new lock. -/
inductive Enters (env : Env) (s : Db) (a : EnqArgs) (g : Gets) (r p : ℕ) : Status × Option ℕ × Db → Prop where
  | notqueued (hnow : ¬Now s r 0 a.lkmode [.converting, .waiting]) : Enters env s a g r p (.notqueued, none, s)
  | insfmem (s₂ : Db) (hnew : newLkb s g = (none, s₂)) : Enters env s a g r p (.insfmem, none, freeRsb s₂ r)
  | now (s₂ : Db) (l id : ℕ) (hnew : newLkb s g = (some (l, id), s₂))
      (hnow : Now s r 0 a.lkmode [.converting, .waiting]) :
      Enters env s a g r p (.synch, some id, enqNow s₂ a r p l id)
  | wait (s₂ : Db) (l id : ℕ) (hnew : newLkb s g = (some (l, id), s₂))
      (hnow : ¬Now s r 0 a.lkmode [.converting, .waiting]) :
      Enters env s a g r p (.normal, some id, notify (enqWait env s₂ a r p l id) r)

theorem now_iff : Now s r l mode [.converting, .waiting] ↔
    (s.rs r).queue .converting = [] ∧ (s.rs r).queue .waiting = [] ∧ grantable s r l mode := by
  simp [Now, and_assoc]

theorem enqOn_enters (env : Env) (s : Db) (a : EnqArgs) (g : Gets) (r p : ℕ) :
    Enters env s a g r p (enqOn env s a g r p) := by
  cases hnew : newLkb s g with
  | mk o s₂ =>
    cases o with
    | none =>
      simp only [enqOn, hnew]
      split_ifs with hno
      · exact .notqueued fun h => hno.1 (now_iff.mp h)
      · exact .insfmem s₂ hnew
    | some lid =>
      obtain ⟨l, id⟩ := lid
      simp only [enqOn, hnew]
      split_ifs with hno hnow
      · exact .notqueued fun h => hno.1 (now_iff.mp h)
      · exact .now s₂ l id hnew (now_iff.mpr hnow)
      · exact .wait s₂ l id hnew fun h => hnow (now_iff.mp h)

/-- The new lock as LCK$ENQ leaves it, granted or waiting. -/
def EnqArgs.lockNow (a : EnqArgs) (r p id : ℕ) : Lkb :=
  { a.lock r p id with grmode := a.lkmode, state := .granted }

def EnqArgs.lockWait (env : Env) (a : EnqArgs) (r p id : ℕ) : Lkb :=
  { a.lock r p id with state := .waiting, wait := env.waittime }

section New

variable {s₁ s₂ : Db} {p id : ℕ}

theorem newLkb_fits (env : Env) (a : EnqArgs) (hs : Struct s₁) (hf : Found s g s₁ r p)
    (hnew : newLkb s₁ g = (some (l, id), s₂)) :
    ∃ i max, Fits s₁ l (a.lockNow r p id) i max ∧ Fits s₁ l (a.lockWait env r p id) i max ∧
      (enqNow s₂ a r p l id).core = (add s₁ l (a.lockNow r p id) i max).core ∧
      (enqWait env s₂ a r p l id).core = (add s₁ l (a.lockWait env r p id) i max).core := by
  obtain ⟨hget, i, max, hcore, hidx, hpos, hlt, hle, hmax, hfree⟩ := newLkb_some hs hnew
  obtain ⟨hl0, hl⟩ := hf.fresh l hget
  have hpl : p ≠ l := by
    rintro rfl
    exact hl (hf.parent hl0).1
  refine ⟨i, max, ?_, ?_, ?_, ?_⟩
  · exact ⟨hl0, hl, hf.mem, rfl, hf.parent, hf.prsb, hidx, hpos, hlt, hle, hmax, hfree⟩
  · exact ⟨hl0, hl, hf.mem, rfl, hf.parent, hf.prsb, hidx, hpos, hlt, hle, hmax, hfree⟩
  · exact core_post.trans (core_append_makeLkb hcore hpl rfl rfl rfl)
  · exact core_append_makeLkb hcore hpl rfl rfl rfl

theorem acts_enqOn (hs : Struct s₁) (hf : Found s g s₁ r p)
    (hok : ∀ q, (enqOn env s₁ a g r p).1.Leads .waiting q → ok s₁ ⟨a.pid, r, a.lkmode, q, false⟩) :
    Acts env.waittime ok s₁ (enqOn env s₁ a g r p).2.2 := by
  cases h : enqOn env s₁ a g r p with
  | mk st res =>
    have henters := enqOn_enters env s₁ a g r p
    rw [h] at henters hok
    cases henters with
    | notqueued => exact .refl
    | insfmem s₂ hnew => exact .trans (.rest (newLkb_none hnew)) (.one (.free r rfl))
    | now s₂ l id hnew hnow =>
      obtain ⟨i, max, hfits, -, hcore, -⟩ := newLkb_fits env a hs hf hnew
      exact .one (.grantNew l (a.lockNow r p id) i max hfits rfl rfl rfl hnow (hok _ (.inl ⟨rfl, rfl⟩)) hcore)
    | wait s₂ l id hnew hnow =>
      obtain ⟨i, max, -, hfits, -, hcore⟩ := newLkb_fits env a hs hf hnew
      exact .trans (.one (.queueNew l (a.lockWait env r p id) i max hfits rfl rfl hnow
        (hok _ (.inr ⟨rfl, rfl⟩)) hcore)) (.rest core_notify)

end New

end Enq

/-! ## Every call -/

/-- What a call consists of, one after another. -/
inductive Job (env : Env) (ok : Db → Request → Prop) (s : Db) : Db → Prop where
  | dequeue (l : ℕ) (status : Option Status) (inv : Bool) (val : Option ValBlk) (hl : l ∈ s.lkbs)
      (hsub : (s.lk l).subcnt = 0) : Job env ok s (dequeue s l status inv val)
  | convertNow (a : EnqArgs) (l : ℕ) (hl : l ∈ s.lkbs) (hst : (s.lk l).state = .granted)
      (hnow : Now s (s.lk l).rsb l a.lkmode [.converting])
      (hok : ok s ⟨(s.lk l).pid, (s.lk l).rsb, a.lkmode, .granted, true⟩) :
      Job env ok s (regrant (convertNow s a l) (s.lk l).rsb)
  | convertWait (a : EnqArgs) (l : ℕ) (hl : l ∈ s.lkbs) (hst : (s.lk l).state = .granted)
      (hnow : ¬Now s (s.lk l).rsb l a.lkmode [.converting])
      (hok : ok s ⟨(s.lk l).pid, (s.lk l).rsb, a.lkmode, .converting, true⟩) :
      Job env ok s (notify (convertWait env s a l) (s.lk l).rsb)
  | enqOn (a : EnqArgs) (g : Gets) (s₁ : Db) (r p : ℕ) (hf : Found s g s₁ r p)
      (hok : ∀ q, (enqOn env s₁ a g r p).1.Leads .waiting q → ok s₁ ⟨a.pid, r, a.lkmode, q, false⟩) :
      Job env ok s (enqOn env s₁ a g r p).2.2
  | tick (l : ℕ) (hl : l ∈ s.lkbs) (hwait : 1 < (s.lk l).wait) : Job env ok s (tick s l)
  | searchFrom (l : ℕ) (hl : l ∈ s.lkbs) (hwait : (s.lk l).wait = 1) :
      Job env ok s (searchFrom env (tick s l) l)

theorem tick_state (hs : Struct s) (hl : l ∈ s.lkbs) (hwait : (s.lk l).wait ≠ 0) :
    ((tick s l).lk l).state ≠ .granted := by
  rw [tick, lk_setLkb, if_pos rfl]
  exact fun h => hwait (hs.granted l hl h)

theorem Job.acts (hs : Struct s) (h : Job env ok s s') : Acts env.waittime ok s s' := by
  cases h with
  | dequeue l status inv val hl hsub => exact acts_dequeue hs hl hsub
  | convertNow a l hl hst hnow hok => exact acts_convertNow hs hl hst hnow hok
  | convertWait a l hl hst hnow hok => exact acts_convertWait hl hst hnow hok
  | enqOn a g s₁ r p hf hok => exact hf.acts.trans (acts_enqOn (hf.struct hs) hf hok)
  | tick l hl hwait => exact .one (.tick l hl hwait rfl)
  | searchFrom l hl hwait =>
    exact .trans (.one (.search l hl hwait rfl)) (acts_searchFrom hs.tick hl (tick_state hs hl (by omega)))

def Jobs (env : Env) (ok : Db → Request → Prop) : Db → Db → Prop := Relation.ReflTransGen (Job env ok)

namespace Jobs

theorem one (h : Job env ok s s') : Jobs env ok s s' := .single h

theorem trans {s'' : Db} (h : Jobs env ok s s') (h' : Jobs env ok s' s'') : Jobs env ok s s'' :=
  Relation.ReflTransGen.trans h h'

theorem acts (h : Jobs env ok s s') (hs : Struct s) : Acts env.waittime ok s s' := by
  induction h with
  | refl => exact .refl
  | tail _ hjob ih => exact ih.trans (hjob.acts (ih.struct hs))

theorem struct (h : Jobs env ok s s') (hs : Struct s) : Struct s' := (h.acts hs).struct hs

end Jobs

theorem jobs_deq (hs : Struct s) {lkid : ℕ} :
    Jobs env ok s (deq s pid lkid acmode inv val).2 := by
  unfold deq
  split
  · exact .refl
  · next l hown =>
    split_ifs with hsub
    · exact .refl
    · exact .one (.dequeue l _ _ _ (mem_of_ownLkb hs hown).1 (by simpa using hsub))

theorem mem_of_deqallTakes (hs : Struct s) (h : deqallTakes s pid acmode p i) :
    s.idtbl i ∈ s.lkbs ∧ (s.lk (s.idtbl i)).subcnt = 0 := by
  simp only [deqallTakes, decide_eq_true_eq] at h
  exact ⟨(hs.table i h.1).1, h.2.2.2.1⟩

section Deqall

variable {pid acmode p : ℕ} {status : Option Status} {inv : Bool}

theorem jobs_deqallScan (hs : Struct s) (is : List ℕ) :
    Jobs env ok s (deqallScan pid acmode status inv p is s).2 := by
  induction is generalizing s with
  | nil => exact .refl
  | cons i is ih =>
    unfold deqallScan
    split_ifs with h
    · obtain ⟨hl, hsub⟩ := mem_of_deqallTakes hs h
      have hjob : Job env ok s (dequeue s (s.idtbl i) status inv none) := .dequeue _ _ _ _ hl hsub
      exact .trans (.one hjob) (ih ((hjob.acts hs).struct hs))
    · exact ih hs

theorem jobs_deqallLoop (hs : Struct s) : Jobs env ok s (deqallLoop pid acmode status inv p n s) := by
  induction n generalizing s with
  | zero => exact .refl
  | succ n ih =>
    have hscan : Jobs env ok s (deqallScan pid acmode status inv p s.entries s).2 := jobs_deqallScan hs _
    unfold deqallLoop
    split
    · next s' h =>
      rw [h] at hscan
      exact hscan.trans (ih (hscan.struct hs))
    · next s' h =>
      rw [h] at hscan
      exact hscan

theorem jobs_deqall (hs : Struct s) : Jobs env ok s (deqall s pid acmode status inv p).2 := by
  unfold deqall
  split_ifs
  · split
    · exact .refl
    · exact jobs_deqallLoop hs
  · exact jobs_deqallLoop hs

end Deqall

theorem jobs_searchEntry (m : Bool × Db) (hs : Struct m.2) (i : ℕ) :
    Jobs env ok m.2 (searchEntry env m i).2 := by
  obtain ⟨more, s⟩ := m
  unfold searchEntry
  dsimp only
  split_ifs with h h1
  · refine .one (.tick (s.idtbl i) (hs.table i h.1).1 ?_)
    rw [lk_setLkb, if_pos rfl] at h1
    dsimp only at h1
    omega
  · refine .one (.searchFrom (s.idtbl i) (hs.table i h.1).1 ?_)
    rw [lk_setLkb, if_pos rfl] at h1
    dsimp only at h1
    omega
  · exact .refl

theorem jobs_search (hs : Struct s) : Jobs env ok s (search env s).2 := by
  have hfold : ∀ (is : List ℕ) (m : Bool × Db), Struct m.2 →
      Jobs env ok m.2 (is.foldl (searchEntry env) m).2 := by
    intro is
    induction is with
    | nil => exact fun m _ => .refl
    | cons i is ih =>
      intro m hm
      have hstep : Jobs env ok m.2 (searchEntry env m i).2 := jobs_searchEntry m hm i
      exact hstep.trans (ih _ (hstep.struct hm))
  exact hfold s.entries (false, s) hs

/-- What the requests of a call meet, for the database it finds. -/
def Call.Asks (env : Env) (ok : Db → Request → Prop) (s : Db) : Call → Prop
  | .enq a g =>
    if a.convert then
      ∀ l, ownLkb s a.lksbId a.pid a.acmode = some l → ∀ q,
        (Lock.enq env s a g).1.Leads .converting q → ok s ⟨a.pid, (s.lk l).rsb, a.lkmode, q, true⟩
    else ∀ s₁ : Db, s₁.lk = s.lk → s₁.lkbs = s.lkbs → ∀ r q,
      (Lock.enq env s a g).1.Leads .waiting q → ok s₁ ⟨a.pid, r, a.lkmode, q, false⟩
  | _ => True

theorem jobs_enqConvert (hs : Struct s) {a : EnqArgs}
    (hok : ∀ l, ownLkb s a.lksbId a.pid a.acmode = some l → ∀ q,
      (enqConvert env s a).1.Leads .converting q → ok s ⟨a.pid, (s.lk l).rsb, a.lkmode, q, true⟩) :
    Jobs env ok s (enqConvert env s a).2 := by
  cases hown : ownLkb s a.lksbId a.pid a.acmode with
  | none =>
    simp only [enqConvert, hown]
    exact .refl
  | some l =>
    obtain ⟨hl, hpid⟩ := mem_of_ownLkb hs hown
    have hok := hok l hown
    rw [← hpid] at hok
    simp only [enqConvert, hown] at hok ⊢
    split_ifs at hok ⊢ with hst hno hnow
    · exact .refl
    · exact .refl
    · exact .one (.convertNow a l hl (by simpa using hst) ⟨by simpa using hnow.1, hnow.2⟩
        (hok _ (.inl ⟨rfl, rfl⟩)))
    · exact .one (.convertWait a l hl (by simpa using hst) (fun h => hnow ⟨by simpa using h.1, h.2⟩)
        (hok _ (.inr ⟨rfl, rfl⟩)))

theorem jobs_enqNew (hs : Struct s) {a : EnqArgs} {g : Gets} (hg : g.Fresh s)
    (hok : ∀ s₁ : Db, s₁.lk = s.lk → s₁.lkbs = s.lkbs → ∀ r q,
      (enqNew env s a g).1.Leads .waiting q → ok s₁ ⟨a.pid, r, a.lkmode, q, false⟩) :
    Jobs env ok s (enqNew env s a g).2.2 := by
  rcases enqNew_cases env a hs hg with ⟨st, h, -⟩ | ⟨s₁, r, p, hf, h⟩
  · rw [h]
    exact .refl
  · rw [h] at hok ⊢
    exact .one (.enqOn a g s₁ r p hf (hok s₁ hf.lk hf.lkbs r))

/-- **A call is a run of jobs.** -/
theorem Call.jobs {c : Call} (hs : Struct s) (hc : c.Fits s) (hok : c.Asks env ok s) :
    Jobs env ok s (c.run env s) := by
  cases c with
  | enq a g =>
    simp only [Call.Asks, Call.run, Lock.enq] at hok ⊢
    split_ifs at hok ⊢ with hconv
    · exact jobs_enqConvert hs hok
    · exact jobs_enqNew hs hc hok
  | deq => exact jobs_deq hs
  | deqall => exact jobs_deqall hs
  | search => exact jobs_search hs

def anyRequest : Db → Request → Prop := fun _ _ => True

theorem Call.asks_any {c : Call} : c.Asks env anyRequest s := by
  cases c <;> simp [Call.Asks, anyRequest]

section Run

variable {okc : Db → Call → Prop} {P : Db → Prop}

/-- **What every job keeps, calls keep.** -/
theorem Run.keep_jobs (h : Run env okc s s') (hok : ∀ s c, okc s c → c.Asks env ok s)
    (hP : ∀ s s', Struct s → P s → Job env ok s s' → P s') (hs : Struct s) (h0 : P s) :
    Struct s' ∧ P s' := by
  induction h with
  | refl => exact ⟨hs, h0⟩
  | tail _ hstep ih =>
    obtain ⟨c, hfits, hc, rfl⟩ := hstep
    have hjobs := c.jobs ih.1 hfits (hok _ _ hc)
    clear hfits hc
    generalize Call.run env _ c = s' at hjobs
    induction hjobs with
    | refl => exact ih
    | tail _ hjob ih => exact ⟨(hjob.acts ih.1).struct ih.1, hP _ _ ih.1 ih.2 hjob⟩

/-- **What every act keeps, calls keep.** -/
theorem Run.keep (h : Run env okc s s') (hok : ∀ s c, okc s c → c.Asks env ok s)
    (hP : ∀ s s', Struct s → P s → Act env.waittime ok s s' → P s') (hs : Struct s) (h0 : P s) :
    Struct s' ∧ P s' := by
  refine h.keep_jobs hok (fun s s' hs hPs hjob => ?_) hs h0
  refine ((hjob.acts hs).keep (P := fun s => Struct s ∧ P s) (fun s s' h hact => ?_) ⟨hs, hPs⟩).2
  exact ⟨h.1.act hact, hP s s' h.1 h.2 hact⟩

theorem Reached.struct (h : Reached env okc s) : Struct s :=
  (Run.keep (P := fun _ => True) h (fun _ _ _ => Call.asks_any)
    (fun _ _ _ _ _ => trivial) Struct.empty trivial).1

theorem Reached.keep_any (h : Reached env okc s)
    (hP : ∀ s s', Struct s → P s → Act env.waittime anyRequest s s' → P s') (h0 : P Db.empty) : P s :=
  (Run.keep h (fun _ _ _ => Call.asks_any) hP Struct.empty h0).2

end Run

end Lock
