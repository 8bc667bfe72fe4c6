/-
  The deadlock search.

  Each request is searched from once.  That finds every cycle if no process with a
  request queued converts a lock that new locks wait behind: an edge that a call adds
  to the graph of what is waited for is then one of a request that is still to be
  searched from, or leads to a process that waits for nothing.
-/
import Vaxpunk.Lock.Proof.Reason

namespace Lock

open Relation List

variable {s s' : Db} {l r w b p q : ℕ} {ok : Db → Request → Prop} {env : Env} {procs : Set ℕ}

/-! ## The graph -/

/-- A queued request of process `p` is blocked by a lock of process `p'`. -/
def WaitsFor (s : Db) (p p' : ℕ) : Prop :=
  ∃ r, ∃ q ∈ (s.rs r).queue .converting ++ (s.rs r).queue .waiting, ∃ b ∈ (s.rs r).locks,
    (s.lk q).pid = p ∧ (s.lk b).pid = p' ∧ blocks s b q

/-- Every queued request has been searched from. -/
def AllSearched (s : Db) : Prop :=
  ∀ r, ∀ q ∈ (s.rs r).queue .converting ++ (s.rs r).queue .waiting, (s.lk q).wait = 0

/-- Process 1 waits for a lock of process 2, which waits for one of process 3.
    Both are searched from before a conversion of process 1, granted at once,
    gives process 2 a second lock to wait for. -/
def closingCalls : List Call :=
  [.enq (.new 2 [65] .ex 101) ⟨some 1, some 11, true⟩,
    .enq (.new 3 [66] .pr 102) ⟨some 2, some 12, true⟩,
    .enq (.new 1 [66] .nl 103) ⟨none, some 13, true⟩,
    .enq (.new 2 [66] .ex 104) ⟨none, some 14, true⟩,
    .enq (.new 1 [65] .ex 105) ⟨none, some 15, true⟩,
    .search,
    .enq (.conversion 1 3 3 .pr 106) ⟨none, none, false⟩]

/-- A call by one of some processes. -/
def Call.By (procs : Set ℕ) (_ : Db) : Call → Prop
  | .enq a _ => a.pid ∈ procs
  | .deq pid .. => pid ∈ procs
  | .deqall pid .. => pid ∈ procs
  | .search => True

instance [DecidablePred (· ∈ procs)] : DecidableRel (Call.By procs)
  | _, .enq a _ => inferInstanceAs (Decidable (a.pid ∈ procs))
  | _, .deq pid .. => inferInstanceAs (Decidable (pid ∈ procs))
  | _, .deqall pid .. => inferInstanceAs (Decidable (pid ∈ procs))
  | _, .search => .isTrue trivial

theorem injOn_pix {n : ℕ} (hn : n ≤ 2 ^ 16) : Set.InjOn pix {p | p < n} := by
  intro a ha b hb hab
  rwa [pix, pix, Nat.mod_eq_of_lt (ha.trans_le hn), Nat.mod_eq_of_lt (hb.trans_le hn)] at hab

/-- A cycle that no search is left to find. -/
theorem searched_cycle : ¬∀ (env : Env) (procs : Set ℕ), 0 < env.waittime → Set.InjOn pix procs →
    (∀ p ∈ procs, pix p < env.maxpix) → ∀ s, Reached env (Call.By procs) s → AllSearched s →
      ∀ p, ¬TransGen (WaitsFor s) p p := by
  intro h
  have hby : Allowed ⟨1, 100⟩ (Call.By {p | p < 4}) closingCalls .empty := by decide +kernel
  have hreach : Reached ⟨1, 100⟩ (Call.By {p | p < 4}) (after ⟨1, 100⟩ closingCalls .empty) := run_after hby
  have hwait : ∀ l ∈ (after ⟨1, 100⟩ closingCalls .empty).lkbs,
      ((after ⟨1, 100⟩ closingCalls .empty).lk l).wait = 0 := by decide +kernel
  have h12 : WaitsFor (after ⟨1, 100⟩ closingCalls .empty) 1 2 :=
    ⟨1, 15, by decide +kernel, 11, by decide +kernel⟩
  have h21 : WaitsFor (after ⟨1, 100⟩ closingCalls .empty) 2 1 :=
    ⟨2, 14, by decide +kernel, 13, by decide +kernel⟩
  generalize after ⟨1, 100⟩ closingCalls .empty = s at hreach hwait h12 h21
  refine h ⟨1, 100⟩ {p | p < 4} (by decide) (injOn_pix (by decide)) ?_ s hreach (fun r q hq => hwait q ?_) 1
    (.head h12 (.single h21))
  · exact fun p hp => (Nat.mod_le _ _).trans_lt (lt_trans hp (by decide))
  · rcases mem_append.mp hq with hq | hq <;> exact ((hreach.struct.on _ _ _).mp hq).1

/-! ## What an act changes -/

/-- A request of `p` that has been searched from is blocked by a lock of
    `p'`. -/
def Searched (s : Db) (p p' : ℕ) : Prop :=
  ∃ q ∈ s.lkbs, ∃ b ∈ s.lkbs, (s.lk q).pid = p ∧ (s.lk b).pid = p' ∧ (s.lk q).state ≠ .granted ∧
    (s.lk q).wait = 0 ∧ (s.lk b).rsb = (s.lk q).rsb ∧ blocks s b q

/-- The requests that have been searched from are in no cycle. -/
def Acyclic (s : Db) : Prop := ∀ p, ¬TransGen (Searched s) p p

/-- The same, but for the requests of `l`. -/
def SearchedBut (l : ℕ) (s : Db) (p p' : ℕ) : Prop :=
  ∃ q ∈ s.lkbs, ∃ b ∈ s.lkbs, q ≠ l ∧ (s.lk q).pid = p ∧ (s.lk b).pid = p' ∧ (s.lk q).state ≠ .granted ∧
    (s.lk q).wait = 0 ∧ (s.lk b).rsb = (s.lk q).rsb ∧ blocks s b q

/-- What matters of a lock to what it blocks and waits for. -/
structure Lkb.SameWait (L L' : Lkb) : Prop where
  rsb : L'.rsb = L.rsb
  pid : L'.pid = L.pid
  state : L'.state = L.state
  grmode : L'.grmode = L.grmode
  rqmode : L'.rqmode = L.rqmode
  wait : L'.wait = L.wait

theorem Lkb.SameWait.refl (L : Lkb) : L.SameWait L := ⟨rfl, rfl, rfl, rfl, rfl, rfl⟩

/-- Only `l` and its place on the queues of requests are other than before. -/
structure But (l : ℕ) (s s' : Db) : Prop where
  lkbs : ∀ x ∈ s'.lkbs, x ≠ l → x ∈ s.lkbs
  lk : ∀ x ∈ s'.lkbs, x ≠ l → (s.lk x).SameWait (s'.lk x)
  order : ∀ r st, st ≠ .granted → (((s'.rs r).queue st).filter (· ≠ l)).Sublist ((s.rs r).queue st)

theorem mem_behind_iff {Q : List ℕ} (hQ : Q.Nodup) : q ∈ behind Q b ↔ [b, q].Sublist Q := by
  induction Q with
  | nil => simp [behind]
  | cons x Q ih =>
    obtain ⟨hx, hQ⟩ := nodup_cons.mp hQ
    by_cases hxb : x = b
    · subst hxb
      simp only [behind, dropWhile_cons, ne_eq, not_true_eq_false, decide_false, Bool.false_eq_true,
        if_false, tail_cons]
      constructor
      · intro hq
        exact List.Sublist.cons_cons x (singleton_sublist.mpr hq)
      · intro hsub
        rw [cons_sublist_cons, singleton_sublist] at hsub
        exact hsub
    · have hbehind : behind (x :: Q) b = behind Q b := by
        simp [behind, hxb]
      rw [hbehind, ih hQ]
      constructor
      · exact fun h => h.cons x
      · intro h
        rcases sublist_cons_iff.mp h with h | ⟨u, hu, -⟩
        · exact h
        · exact absurd (List.cons.inj hu).1.symm hxb

namespace But

theorem blocks (h : But l s s') (hs : Struct s) (hs' : Struct s') (hb : b ∈ s'.lkbs) (hq : q ∈ s'.lkbs)
    (hbl : b ≠ l) (hql : q ≠ l) (hst : (s'.lk q).state ≠ .granted)
    (hblocks : blocks s' b q) : blocks s b q := by
  have hlb := h.lk b hb hbl
  have hlq := h.lk q hq hql
  have hahead : ahead s' b q → ahead s b q := by
    unfold ahead
    rw [hlb.state, hlq.state, hlb.rsb]
    split_ifs with hne
    · exact id
    · simp only [ne_eq, not_not] at hne
      rw [decide_eq_true_eq, decide_eq_true_eq, mem_behind_iff (hs'.nodup _ _), mem_behind_iff (hs.nodup _ _)]
      intro hsub
      have hf := (hsub.filter (· ≠ l)).trans (h.order _ _ (by rw [hne, ← hlq.state]; exact hst))
      simpa [hbl, hql] using hf
  unfold Lock.blocks at hblocks ⊢
  rw [hlb.state, hlq.state, hlb.grmode, hlb.rqmode, hlq.rqmode] at hblocks
  split_ifs at hblocks ⊢
  · rfl
  · exact hahead hblocks

/-- An edge after an act that leaves `l` with no request that has been searched from
    was there before, or leads to `l`. -/
theorem edge (h : But l s s') (hs : Struct s) (hs' : Struct s')
    (hl : l ∈ s'.lkbs → (s'.lk l).state ≠ .granted → (s'.lk l).wait ≠ 0) {p' : ℕ} (he : Searched s' p p') :
    SearchedBut l s p p' ∨ l ∈ s'.lkbs ∧ (s'.lk l).pid = p' ∧ ∃ q ∈ s'.lkbs, q ≠ l ∧ (s'.lk q).pid = p ∧
      (s'.lk q).state ≠ .granted ∧ (s'.lk q).wait = 0 ∧ (s'.lk l).rsb = (s'.lk q).rsb ∧ Lock.blocks s' l q := by
  obtain ⟨q, hq, b, hb, hqp, hbp, hqst, hqw, hr, hblocks⟩ := he
  have hql : q ≠ l := by
    rintro rfl
    exact hl hq hqst hqw
  by_cases hbl : b = l
  · subst hbl
    exact .inr ⟨hb, hbp, q, hq, hql, hqp, hqst, hqw, hr, hblocks⟩
  · have hlb := h.lk b hb hbl
    have hlq := h.lk q hq hql
    refine .inl ⟨q, h.lkbs q hq hql, b, h.lkbs b hb hbl, hql, hlq.pid.symm.trans hqp, hlb.pid.symm.trans hbp,
      hlq.state ▸ hqst, hlq.wait.symm.trans hqw, ?_, h.blocks hs hs' hb hq hbl hql hqst hblocks⟩
    rw [← hlb.rsb, ← hlq.rsb, hr]

theorem of_setLkb {f : Lkb → Lkb} : But l s (s.setLkb l f) where
  lkbs x hx _ := hx
  lk x _ hxl := by
    rw [lk_setLkb, if_neg hxl]
    exact .refl _
  order r st _ := filter_sublist

theorem of_moveTo {f : Lkb → Lkb} {st : LkbState} (hst : st ≠ (s.lk l).state) : But l s (moveTo s l st f) where
  lkbs x hx _ := hx
  lk x _ hxl := by
    rw [lk_moveTo_of_ne hxl]
    exact .refl _
  order r st' _ := by
    rw [queue_moveTo hst]
    split_ifs with h1 h2
    · simp [h1.2, filter_append]
    · exact filter_sublist.trans erase_sublist
    · exact filter_sublist

theorem of_remove : But l s (remove s l) where
  lkbs x hx _ := Finset.mem_of_mem_erase (lkbs_remove ▸ hx)
  lk x _ _ := by
    rw [lk_remove]
    split_ifs <;> exact ⟨rfl, rfl, rfl, rfl, rfl, rfl⟩
  order r st _ := by
    rw [queue_remove]
    split_ifs
    · exact filter_sublist.trans erase_sublist
    · exact filter_sublist

theorem of_add {L : Lkb} {i max : ℕ} : But l s (add s l L i max) where
  lkbs x hx hxl := (Finset.mem_insert.mp (lkbs_add ▸ hx)).resolve_left hxl
  lk x _ hxl := by
    rw [lk_add, if_neg hxl]
    split_ifs <;> exact ⟨rfl, rfl, rfl, rfl, rfl, rfl⟩
  order r st _ := by
    rw [queue_add]
    split_ifs
    · simp [filter_append]
    · exact filter_sublist

end But

theorem sameWait_add {L : Lkb} {i max : ℕ} : L.SameWait ((add s l L i max).lk l) := by
  rw [lk_add, if_pos rfl]
  split_ifs <;> exact ⟨rfl, rfl, rfl, rfl, rfl, rfl⟩

/-! ## Cycles that stay away -/

theorem SearchedBut.searched {p' : ℕ} (h : SearchedBut l s p p') : Searched s p p' := by
  obtain ⟨q, hq, b, hb, -, h⟩ := h
  exact ⟨q, hq, b, hb, h⟩

/-- There is no cycle without a request of `l`. -/
def AcyclicBut (l : ℕ) (s : Db) : Prop := ∀ p, ¬TransGen (SearchedBut l s) p p

theorem Acyclic.but (h : Acyclic s) : AcyclicBut l s :=
  fun p hc => h p (hc.lift id fun _ _ => SearchedBut.searched)

theorem Acyclic.congr (h : s'.core = s.core) (ha : Acyclic s) : Acyclic s' := by
  have ha' : Acyclic s.core := ha
  rw [← h] at ha'
  exact ha'

theorem AcyclicBut.congr (h : s'.core = s.core) (ha : AcyclicBut l s) : AcyclicBut l s' := by
  have ha' : AcyclicBut l s.core := ha
  rw [← h] at ha'
  exact ha'

/-! ## Who blocks no more than before -/

/-- `l` blocks no request that it didn't block before. -/
def NoMore (l : ℕ) (s s' : Db) : Prop :=
  l ∈ s'.lkbs → ∀ q ∈ s'.lkbs, q ≠ l → (s'.lk q).state ≠ .granted → (s'.lk l).rsb = (s'.lk q).rsb →
    blocks s' l q → l ∈ s.lkbs ∧ (s.lk l).pid = (s'.lk l).pid ∧ (s.lk l).rsb = (s'.lk l).rsb ∧ blocks s l q

theorem not_compatible_of_blocks (hb : (s.lk b).state = .granted) (h : blocks s b q) :
    ¬compatible (s.lk q).rqmode (s.lk b).grmode := by
  intro hm
  simp [blocks, hb, hm] at h

theorem behind_last {Q : List ℕ} (h : l ∉ Q) : behind (Q ++ [l]) l = [] := by
  have hne : ∀ x ∈ Q, decide (x ≠ l) = true := fun x hx => decide_eq_true fun e => h (e ▸ hx)
  rw [behind, dropWhile_append_of_pos hne]
  simp

namespace NoMore

theorem of_empty (hs : Struct s) (hbut : But l s s') (hcv : (s.rs (s'.lk l).rsb).queue .converting = [])
    (hw : (s.rs (s'.lk l).rsb).queue .waiting = []) : NoMore l s s' := by
  intro _ q hq hql hqst hr
  have hlk := hbut.lk q hq hql
  have hon := (hs.on q _ _).mpr ⟨hbut.lkbs q hq hql, hlk.rsb.symm.trans hr.symm, hlk.state.symm⟩
  cases hst : (s'.lk q).state <;> simp_all

theorem grant (hs : Struct s) (hl : l ∈ s.lkbs) (hst : (s.lk l).state ≠ .granted) {t : List ℕ}
    (hhead : (s.rs (s.lk l).rsb).queue (s.lk l).state = l :: t)
    (hcv : (s.lk l).state = .waiting → (s.rs (s.lk l).rsb).queue .converting = []) :
    NoMore l s (moveTo s l .granted Lkb.grant) := by
  intro _ q hq hql hqst hr hblocks
  have hm := not_compatible_of_blocks (congrArg Lkb.state lk_moveTo_self :) hblocks
  rw [lk_moveTo_of_ne hql] at hqst hr hm
  rw [lk_moveTo_self] at hr hm ⊢
  have hon := hs.mem_queue hq
  rw [← show (s.lk l).rsb = (s.lk q).rsb from hr] at hon
  refine ⟨hl, rfl, rfl, blocks_of_ahead hql.symm hqst hst hm ?_⟩
  unfold ahead
  split_ifs with hne
  · -- no new lock is granted while a conversion is queued
    cases hls : (s.lk l).state <;> cases hqs : (s.lk q).state <;> simp_all
  · rw [not_not] at hne
    rw [← hne, hhead] at hon
    simp [hhead, behind, (mem_cons.mp hon).resolve_left hql]

theorem giveUp (hl : l ∈ s.lkbs) (hst : (s.lk l).state = .converting) :
    NoMore l s (moveTo s l .granted Lkb.giveUp) := by
  intro _ q hq hql hqst _ hblocks
  have hm := not_compatible_of_blocks (congrArg Lkb.state lk_moveTo_self :) hblocks
  rw [lk_moveTo_of_ne hql] at hqst hm
  rw [lk_moveTo_self] at hm ⊢
  exact ⟨hl, rfl, rfl, blocks_of_holder hql.symm hqst (by simp [hst]) hm⟩

theorem queue {mode : Mode} (hs : Struct s) (hl : l ∈ s.lkbs) (hst : (s.lk l).state = .granted)
    (hw : (s.rs (s.lk l).rsb).queue .waiting = []) :
    NoMore l s (moveTo s l .converting (Lkb.ask mode w)) := by
  intro _ q hq hql hqst hr hblocks
  have hon := hs.mem_queue hq
  rw [lk_moveTo_of_ne hql] at hqst hr
  rw [lk_moveTo_self] at hr ⊢
  rw [← show (s.lk l).rsb = (s.lk q).rsb from hr] at hon
  refine ⟨hl, rfl, rfl, ?_⟩
  -- it is the last of the conversions, and no new lock waits behind it
  have hqs : (s.lk q).state = .converting := by
    cases h : (s.lk q).state <;> simp_all
  have hnot : l ∉ (s.rs (s.lk l).rsb).queue .converting := fun h => by
    simp [((hs.on _ _ _).mp h).2.2] at hst
  have hbehind : ¬ahead (moveTo s l .converting (Lkb.ask mode w)) l q := by
    simp [ahead, lk_moveTo_self, lk_moveTo_of_ne hql, hqs, Lkb.ask, queue_moveTo, hst, behind_last hnot]
  by_contra hno
  have hm : compatible (s.lk q).rqmode (s.lk l).grmode := by
    by_contra hm
    exact hno (blocks_of_holder hql.symm hqst (by simp [hst]) hm)
  simp [blocks, lk_moveTo_self, lk_moveTo_of_ne hql, Lkb.ask, hm, hbehind] at hblocks

theorem add {L : Lkb} {i max : ℕ} (hs : Struct s) (hf : Fits s l L i max) (hst : L.state = .waiting) :
    NoMore l s (add s l L i max) := by
  intro _ q _ hql _ _ hblocks
  have hlk : ((Lock.add s l L i max).lk l).state = .waiting := sameWait_add.state.trans hst
  have hrsb : ((Lock.add s l L i max).lk l).rsb = L.rsb := sameWait_add.rsb
  have hnot : l ∉ (s.rs L.rsb).queue .waiting := fun h => hf.fresh ((hs.on _ _ _).mp h).1
  have hbehind : ¬ahead (Lock.add s l L i max) l q := by
    simp [ahead, hlk, hrsb, queue_add, hst, behind_last hnot]
  simp [blocks, hlk, hbehind] at hblocks

end NoMore

/-- A request of one of some processes; if it is a conversion and new locks wait on its
    resource, of one with no request queued. -/
def ConvertsAlone (procs : Set ℕ) (s : Db) (q : Request) : Prop :=
  q.pid ∈ procs ∧ (q.convert → (s.rs q.rsb).queue .waiting ≠ [] →
    ∀ x ∈ s.lkbs, (s.lk x).pid = q.pid → (s.lk x).state = .granted)

/-- Every LCK$ENQ is by one of some processes, and none with a request queued converts
    a lock on a resource where new locks wait. -/
def Call.ConvertsAlone (procs : Set ℕ) (s : Db) : Call → Prop
  | .enq a _ => a.pid ∈ procs ∧ (a.convert → ∀ l, ownLkb s a.lksbId a.pid a.acmode = some l →
      (s.rs (s.lk l).rsb).queue .waiting ≠ [] → ∀ x ∈ s.lkbs, (s.lk x).pid = a.pid → (s.lk x).state = .granted)
  | _ => True

instance [DecidablePred (· ∈ procs)] : DecidableRel (Call.ConvertsAlone procs)
  | s, .enq a _ => inferInstanceAs (Decidable (a.pid ∈ procs ∧ (a.convert →
      ∀ l ∈ ownLkb s a.lksbId a.pid a.acmode, (s.rs (s.lk l).rsb).queue .waiting ≠ [] →
        ∀ x ∈ s.lkbs, (s.lk x).pid = a.pid → (s.lk x).state = .granted)))
  | _, .deq .. => .isTrue trivial
  | _, .deqall .. => .isTrue trivial
  | _, .search => .isTrue trivial

theorem Call.ConvertsAlone.asks {c : Call} (h : c.ConvertsAlone procs s) :
    c.Asks env (Lock.ConvertsAlone procs) s := by
  cases c with
  | enq a g =>
    simp only [Call.Asks]
    split_ifs with hconv
    · exact fun l hown _ _ => ⟨h.1, fun _ => h.2 hconv l hown⟩
    · exact fun _ _ _ _ _ _ => ⟨h.1, by simp⟩
  | _ => trivial

/-- Every lock is of one of some processes. -/
def OfProcs (procs : Set ℕ) (s : Db) : Prop := ∀ l ∈ s.lkbs, (s.lk l).pid ∈ procs

theorem OfProcs.but (h : OfProcs procs s) (hbut : But l s s') (hl : l ∈ s'.lkbs → (s'.lk l).pid ∈ procs) :
    OfProcs procs s' := by
  intro x hx
  by_cases hxl : x = l
  · exact hxl ▸ hl (hxl ▸ hx)
  · rw [(hbut.lk x hx hxl).pid]
    exact h x (hbut.lkbs x hx hxl)

theorem OfProcs.congr (h : s'.core = s.core) (ho : OfProcs procs s) : OfProcs procs s' := by
  have ho' : OfProcs procs s.core := ho
  rw [← h] at ho'
  exact ho'

theorem But.emit {e : Event} (h : But l s s') : But l s (s'.emit e) := { h with }

/-- **Every act keeps to the processes.** -/
theorem OfProcs.act (h : OfProcs procs s) (hact : Act w (ConvertsAlone procs) s s') : OfProcs procs s' := by
  have hmove : ∀ {l q f}, l ∈ s.lkbs → q ≠ (s.lk l).state → (f (s.lk l)).pid = (s.lk l).pid →
      OfProcs procs (moveTo s l q f) := fun {l q f} hl hq hpid => by
    refine h.but (.of_moveTo hq) fun _ => ?_
    rw [lk_moveTo_self, hpid]
    exact h l hl
  have hset : ∀ {l f}, l ∈ s.lkbs → (f (s.lk l)).pid = (s.lk l).pid → OfProcs procs (s.setLkb l f) :=
    fun {l f} hl hpid => by
      refine h.but .of_setLkb fun _ => ?_
      rw [lk_setLkb, if_pos rfl, hpid]
      exact h l hl
  cases hact with
  | rest h' => exact h.congr h'
  | grant l cv hl hq _ _ _ h' => exact congr h' (hmove hl hq.symm rfl)
  | convert l mode hl hq _ hok h' => exact congr h' (hset hl rfl)
  | queue l mode hl hq _ hok h' => exact congr h' (hmove hl (by simp [hq]) rfl)
  | giveUp l hl hq h' => exact congr h' (hmove (q := .granted) hl (by simp [hq]) rfl)
  | remove l hl _ h' => exact congr h' (h.but .of_remove fun h => absurd h (by simp [lkbs_remove]))
  | grantNew l L i max hf _ _ _ _ hok h' | queueNew l L i max hf _ _ _ hok h' =>
    exact congr h' (h.but .of_add fun _ => by rw [sameWait_add.pid]; exact hok.1)
  | make r R _ _ _ _ h' => exact congr h' h
  | free r h' =>
    refine congr h' ?_
    unfold freeRsb
    dsimp only
    split_ifs
    exacts [h, h]
  | tick l hl _ h' | search l hl _ h' => exact congr h' (hset hl rfl)

/-! ## Every job -/

namespace Acyclic

section
variable (hs : Struct s) (hs' : Struct s') (hbut : But l s s')
  (hl : l ∈ s'.lkbs → (s'.lk l).state ≠ .granted → (s'.lk l).wait ≠ 0) (h : AcyclicBut l s)
include hs hs' hbut hl h

theorem of_noMore (hin : NoMore l s s') : Acyclic s' := by
  refine fun p hc => h p (hc.lift id fun a c he => ?_)
  obtain he | ⟨hls, rfl, q, hq, hql, hqp, hqst, hqw, hr, hblocks⟩ := hbut.edge hs hs' hl he
  · exact he
  · obtain ⟨hl, hpid, hrsb, hb⟩ := hin hls q hq hql hqst hr hblocks
    have hlq := hbut.lk q hq hql
    exact ⟨q, hbut.lkbs q hq hql, l, hl, hql, hlq.pid.symm.trans hqp, hpid, hlq.state ▸ hqst,
      hlq.wait.symm.trans hqw, by rw [hrsb, hr, hlq.rsb], hb⟩

theorem of_idle (hidle : ∀ q ∈ s.lkbs, (s.lk q).pid = (s'.lk l).pid → (s.lk q).state = .granted) :
    Acyclic s' := by
  refine fun p hc => h p (Search.cycle_of_cycle (fun a c d hac hcd => ?_) hc)
  obtain he | ⟨hls, rfl, -⟩ := hbut.edge hs hs' hl hac
  · exact he
  · -- the process of `l` has no request that has been searched from
    obtain ⟨q, hq, -, -, hqp, -, hqst, hqw, -⟩ := hcd
    have hql : q ≠ l := by
      rintro rfl
      exact hl hq hqst hqw
    have hlk := hbut.lk q hq hql
    exact absurd (hlk.state.trans (hidle q (hbut.lkbs q hq hql) (hlk.pid.symm.trans hqp))) hqst

theorem of_convert (hno : (s.rs (s.lk l).rsb).queue .waiting = [] → NoMore l s s')
    (hidle : (s.rs (s.lk l).rsb).queue .waiting ≠ [] →
      ∀ q ∈ s.lkbs, (s.lk q).pid = (s'.lk l).pid → (s.lk q).state = .granted) : Acyclic s' := by
  by_cases hw : (s.rs (s.lk l).rsb).queue .waiting = []
  · exact of_noMore hs hs' hbut hl h (hno hw)
  · exact of_idle hs hs' hbut hl h (hidle hw)

end

theorem freeRsb (h : Acyclic s) : Acyclic (freeRsb s r) := by
  unfold Lock.freeRsb
  dsimp only
  split_ifs
  exacts [h, h]

end Acyclic

/-- What the deadlock search keeps up. -/
structure Quiet (procs : Set ℕ) (s : Db) : Prop where
  procs : OfProcs procs s
  acyclic : Acyclic s

theorem Quiet.congr (h : s'.core = s.core) (hq : Quiet procs s) : Quiet procs s' :=
  ⟨hq.procs.congr h, hq.acyclic.congr h⟩

theorem Quiet.freeRsb (h : Quiet procs s) : Quiet procs (freeRsb s r) :=
  ⟨h.procs.act (w := 0) (.free r rfl), h.acyclic.freeRsb⟩

theorem keptByGrant_quiet : KeptByGrant r (Quiet procs) := by
  intro s q p t hs h hq hhead hcv hg
  have hact : Act 0 (ConvertsAlone procs) s (grant (unlink s r q p) r p) := act_grant hs hq hhead hcv hg
  obtain ⟨hp, rfl, rfl⟩ := (hs.on p r q).mp (hhead ▸ mem_cons_self)
  refine ⟨h.procs.act hact, .congr core_grant ?_⟩
  exact .of_noMore hs ((hs.act hact).congr core_grant.symm) (But.of_moveTo hq.symm).emit
    (fun _ hst => absurd (congrArg Lkb.state (lk_moveTo_self (q := .granted)) :) hst) h.acyclic.but
    (.grant hs hp hq hhead hcv)

theorem quiet_regrant (hs : Struct s) (h : Quiet procs s) : Quiet procs (regrant s r) :=
  regrant_keep keptByGrant_quiet (fun _ _ h => h.congr core_notify) hs h

theorem quiet_dequeue (hs : Struct s) (hl : l ∈ s.lkbs) (hsub : (s.lk l).subcnt = 0)
    {status : Option Status} {inv : Bool} {val : Option ValBlk} (hp : OfProcs procs s)
    (h : AcyclicBut l s) : Quiet procs (dequeue s l status inv val) := by
  have hact : Act 0 (ConvertsAlone procs) s (takeOut s l status inv val) := .remove l hl hsub core_takeOut
  have hgone : l ∉ (remove s l).lkbs := by simp [lkbs_remove]
  have hremove : Acyclic (remove s l) := .of_noMore hs ((hs.act hact).congr core_takeOut.symm) .of_remove
    (fun h => absurd h hgone) h fun h => absurd h hgone
  exact (quiet_regrant (hs.act hact) ⟨hp.act hact, hremove.congr core_takeOut⟩).freeRsb

theorem quiet_fail (hs : Struct s) (hl : l ∈ s.lkbs) (hq : (s.lk l).state ≠ .granted)
    (hp : OfProcs procs s) (h : AcyclicBut l s) : Quiet procs (fail s l) := by
  obtain ⟨hsub, heq⟩ | ⟨hcv, heq⟩ := fail_cases hs hl hq
  · exact heq ▸ quiet_dequeue hs hl hsub hp h
  · rw [heq]
    have hact : Act 0 (ConvertsAlone procs) s (failConversion s l) := act_failConversion hl hcv
    have hgive : Acyclic ((moveTo s l .granted Lkb.giveUp).emit (.left l .converting)) :=
      .of_noMore hs ((hs.act hact).congr (core_failConversion hcv).symm) (But.of_moveTo hq.symm).emit
        (fun _ hst => absurd (congrArg Lkb.state (lk_moveTo_self (q := .granted)) :) hst) h (.giveUp hl hcv)
    exact quiet_regrant (hs.act hact) ⟨hp.act hact, hgive.congr (core_failConversion hcv)⟩

theorem quiet_found {g : Gets} {s₁ : Db} (hs : Struct s) (hf : Found s g s₁ r p) (h : Quiet procs s) :
    Quiet procs s₁ := by
  have hs₁ : Struct s₁ := hf.struct hs
  refine ⟨hf.acts.keep (w := 0) (fun _ _ ho hact => ho.act hact) h.procs, ?_⟩
  have h0 : 0 ∉ s₁.lkbs := hs₁.lkb_ne
  refine .of_noMore hs hs₁ ⟨fun x hx _ => hf.lkbs ▸ hx, fun x _ _ => hf.lk ▸ .refl _, fun x st _ => ?_⟩
    (fun h => absurd h h0) h.acyclic.but fun h => absurd h h0
  rcases hf.found with rfl | ⟨R, hm, rfl⟩
  · exact filter_sublist
  · by_cases hx : x = r
    · simp [make, hx, hm.empty]
    · simp [make, hx]

/-! ## The search -/

/-- A request on a queue, in the lock ID table. -/
def Queued (s : Db) (q : ℕ) : Prop :=
  q ∈ s.entries.map s.idtbl ∧ q ≠ 0 ∧ (s.lk q).state ≠ .granted

/-- The locks a request waits for: those that block it, and those that block a queued
    request of the process of one it waits for. -/
inductive WaitsOn (s : Db) : ℕ → ℕ → Prop
  | blocked {q b : ℕ} (hb : b ∈ (s.rs (s.lk q).rsb).locks) (h : blocks s b q) : WaitsOn s q b
  | through {q b q' b' : ℕ} (h : WaitsOn s q b) (hq : Queued s q')
      (hp : (s.lk q').pid = (s.lk b).pid) (hb : b' ∈ (s.rs (s.lk q').rsb).locks)
      (h' : blocks s b' q') : WaitsOn s q b'

theorem mem_blockers : b ∈ (waitGraph s).blockers q ↔
    b ∈ (s.rs (s.lk q).rsb).locks ∧ blocks s b q := mem_filter

theorem mem_requests_iff {pid : ℕ} : q ∈ (waitGraph s).requests pid ↔
    Queued s q ∧ (s.lk q).pid = pid := by
  simp only [waitGraph, requests, mem_filter, decide_eq_true_eq, Queued]
  tauto

theorem waitsOn_iff {origin : ℕ} : (∃ b, WaitsOn s q b ∧ (s.lk b).pid = origin) ↔
    ∃ b ∈ (waitGraph s).blockers q, ReflTransGen (waitGraph s).Edge (s.lk b).pid origin := by
  constructor
  · rintro ⟨b, hb, rfl⟩
    induction hb with
    | blocked hb h => exact ⟨_, mem_blockers.mpr ⟨hb, h⟩, .refl⟩
    | through h hq hp hb h' ih =>
      obtain ⟨c, hc, hpath⟩ := ih
      exact ⟨c, hc, hpath.tail ⟨_, mem_requests_iff.mpr ⟨hq, hp⟩, _, mem_blockers.mpr ⟨hb, h'⟩, rfl⟩⟩
  · rintro ⟨b, hb, hpath⟩
    have hb' := mem_blockers.mp hb
    induction hpath with
    | refl => exact ⟨b, .blocked hb'.1 hb'.2, rfl⟩
    | tail _ hedge ih =>
      obtain ⟨c, hc, hcp⟩ := ih
      obtain ⟨q', hq', b', hb', rfl⟩ := hedge
      obtain ⟨hq', hp'⟩ := mem_requests_iff.mp hq'
      obtain ⟨hon, hblocks⟩ := mem_blockers.mp hb'
      exact ⟨b', .through hc hq' (hp'.trans hcp.symm) hon hblocks, rfl⟩

/-- **The deadlock search is exact.**  With no process marked, it finds a process exactly
    if the request waits for one of its locks, and its calls nest no deeper than there
    are process indexes.  Processes have indexes of their own, below SCH$GL_MAXPIX. -/
theorem reaches_exact (hinj : Set.InjOn pix procs) (hmax : ∀ p ∈ procs, pix p < env.maxpix)
    (hprocs : ∀ r, ∀ b ∈ (s.rs r).locks, (s.lk b).pid ∈ procs) {visited : ℕ → Bool}
    (hclear : ∀ i < env.maxpix, visited i = false) (origin q : ℕ) :
    ((reaches s origin q visited).1 = true ↔ ∃ b, WaitsOn s q b ∧ (s.lk b).pid = origin) ∧
    ∀ n, 2 ^ 16 < n → (waitGraph s).reaches origin n q visited = reaches s origin q visited := by
  have hlt : ∀ p ∈ procs, (waitGraph s).mark p < min env.maxpix (2 ^ 16) := fun p hp =>
    lt_min (hmax p hp) (Nat.mod_lt _ (by decide))
  have hS : ∀ q, ∀ b ∈ (waitGraph s).blockers q, (waitGraph s).owner b ∈ procs := fun q b hb =>
    hprocs _ b (mem_blockers.mp hb).1
  refine ⟨?_, fun n hn => ?_⟩
  · rw [waitsOn_iff]
    exact Search.Graph.reaches_iff (fun p hp p' hp' h => hinj hp hp' h) hlt hS
      (fun i hi => hclear i (hi.trans_le (min_le_left _ _))) (Nat.lt_succ_of_le (min_le_right _ _))
  · induction n, hn using Nat.le_induction with
    | base => rfl
    | succ n hn ih =>
      rw [Search.Graph.reaches_depth hlt hS ?_, ih]
      refine (Finset.card_filter_le _ _).trans_lt ?_
      rw [Finset.card_range]
      exact (min_le_right _ _).trans_lt hn

/-- The request 14 of one process waits for a lock of the other. -/
theorem reaches_exact_closing :
    ∃ b, WaitsOn (after ⟨1, 100⟩ closingCalls .empty) 14 b ∧
      ((after ⟨1, 100⟩ closingCalls .empty).lk b).pid = 1 := by
  have hby : Allowed ⟨1, 100⟩ (Call.By {p | p < 4}) closingCalls .empty := by decide +kernel
  have hreach : Reached ⟨1, 100⟩ (Call.By {p | p < 4}) (after ⟨1, 100⟩ closingCalls .empty) := run_after hby
  have hpids : ∀ l ∈ (after ⟨1, 100⟩ closingCalls .empty).lkbs,
      ((after ⟨1, 100⟩ closingCalls .empty).lk l).pid < 4 := by decide +kernel
  have hmax : ∀ p ∈ {p | p < 4}, pix p < (⟨1, 100⟩ : Env).maxpix := fun p hp =>
    (Nat.mod_le _ _).trans_lt (lt_trans hp (by decide))
  have hfound : (reaches (after ⟨1, 100⟩ closingCalls .empty) 1 14 fun _ => false).1 = true := by
    decide +kernel
  generalize after ⟨1, 100⟩ closingCalls .empty = s at hreach hpids hfound ⊢
  exact (reaches_exact (injOn_pix (by decide)) hmax (fun r b hb => hpids b (hreach.struct.mem_locks.mp hb).1)
    (fun _ _ => rfl) 1 14).1.mp hfound

theorem mem_requests (hs : Struct s) (hq : q ∈ s.lkbs) (hst : (s.lk q).state ≠ .granted) :
    q ∈ requests s (s.lk q).pid := by
  have hentry := hs.entry q hq
  have hq0 : q ≠ 0 := fun h => hs.lkb_ne (h ▸ hq)
  have hbounds := hs.bounds _ (hentry ▸ hq0)
  simp only [requests, mem_filter, mem_map, decide_eq_true_eq]
  exact ⟨⟨_, by simp [Db.entries]; omega, hentry⟩, hq0, trivial, hst⟩

theorem Searched.edge (hs : Struct s) {p' : ℕ} (h : Searched s p p') : (waitGraph s).Edge p p' := by
  obtain ⟨q, hq, b, hb, rfl, rfl, hst, -, hr, hblocks⟩ := h
  exact ⟨q, mem_requests hs hq hst, b, mem_filter.mpr ⟨hs.mem_locks.mpr ⟨hb, hr⟩, hblocks⟩, rfl⟩

theorem caught_of_path (hs : Struct s) (ho : OfProcs procs s) (hinj : Set.InjOn pix procs)
    (hmax : ∀ p ∈ procs, pix p < env.maxpix) (hb : b ∈ s.lkbs) (hr : (s.lk b).rsb = (s.lk l).rsb)
    (hblocks : blocks s b l) (hpath : ReflTransGen (Searched s) (s.lk b).pid (s.lk l).pid) : Caught env s l := by
  by_contra hno
  have hlt : ∀ p ∈ procs, pix p < min env.maxpix (2 ^ 16) := fun p hp =>
    lt_min (hmax p hp) (Nat.mod_lt _ (by decide))
  refine Search.Graph.not_path_of_reaches (S := procs) (G := waitGraph s) (fun p hp p' hp' h => hinj hp hp' h)
    hlt (fun q b hb => ?_) (fun i hi => ?_) (Nat.lt_succ_of_le (min_le_right _ _)) (eq_false_of_ne_true hno) b ?_
    (hpath.lift id fun _ _ => Searched.edge hs)
  · exact ho b (hs.mem_locks.mp (mem_filter.mp hb).1).1
  · exact if_pos (hi.trans_le (min_le_left _ _))
  · exact mem_filter.mpr ⟨hs.mem_locks.mpr ⟨hb, hr⟩, hblocks⟩

theorem lk_tick : (tick s l).lk b =
    { s.lk b with wait := if b = l then (s.lk b).wait - 1 else (s.lk b).wait } := by
  rw [tick, lk_setLkb]
  split_ifs with h
  exacts [h ▸ rfl, rfl]

theorem blocks_tick : blocks (tick s l) b q = blocks s b q := by
  simp only [blocks, ahead, lk_tick]
  rfl

theorem searched_of_tick {p' : ℕ} (h : SearchedBut l (tick s l) p p') : Searched s p p' := by
  obtain ⟨q, hq, b, hb, hql, hqp, hbp, hst, hw, hr, hblocks⟩ := h
  simp only [lk_tick, hql, if_false] at hqp hbp hst hw hr
  exact ⟨q, hq, b, hb, hqp, hbp, hst, hw, hr, blocks_tick ▸ hblocks⟩

/-- A request whose process leads back to itself fails; without it, there is no
    cycle that was not there before. -/
theorem quiet_searchFrom (hs : Struct s) (h : Quiet procs s) (hinj : Set.InjOn pix procs)
    (hmax : ∀ p ∈ procs, pix p < env.maxpix) (hl : l ∈ s.lkbs) (hwait : (s.lk l).wait = 1) :
    Quiet procs (searchFrom env (tick s l) l) := by
  have hact : Act 0 (ConvertsAlone procs) s (tick s l) := .search l hl hwait rfl
  have hs₁ := hs.act hact
  have ho₁ := h.procs.act hact
  have hq₁ := tick_state hs hl (by omega)
  have hbut : AcyclicBut l (tick s l) := fun p hc =>
    h.acyclic p (hc.lift id fun _ _ => searched_of_tick)
  obtain ⟨v, ⟨-, heq⟩ | ⟨hno, heq⟩⟩ := searchFrom_cases env (tick s l) l
  · rw [heq]
    exact quiet_fail (hs₁.congr core_marked) hl hq₁ (ho₁.congr core_marked) (hbut.congr core_marked)
  · rw [heq]
    refine .congr core_marked ⟨ho₁, fun p hc => ?_⟩
    have hedge : ∀ a c, Searched (tick s l) a c → SearchedBut l (tick s l) a c ∨ a = ((tick s l).lk l).pid ∧
        ∃ b ∈ (tick s l).lkbs, ((tick s l).lk b).pid = c ∧ ((tick s l).lk b).rsb = ((tick s l).lk l).rsb ∧
          blocks (tick s l) b l := by
      rintro a c ⟨q, hq, b, hb, rfl, hbc, hst, hw, hr, hblocks⟩
      by_cases hql : q = l
      · subst hql
        exact .inr ⟨rfl, b, hb, hbc, hr, hblocks⟩
      · exact .inl ⟨q, hq, b, hb, hql, rfl, hbc, hst, hw, hr, hblocks⟩
    obtain hc | ⟨c, ⟨b, hb, rfl, hr, hblocks⟩, hpath⟩ := Search.cycle_through hedge hc
    · exact hbut p hc
    · exact hno (caught_of_path hs₁ ho₁ hinj hmax hb hr hblocks hpath)

/-- **Every job leaves no cycle of requests that have been searched from.** -/
theorem Quiet.job (hs : Struct s) (h : Quiet procs s) (hwait : 0 < env.waittime) (hinj : Set.InjOn pix procs)
    (hmax : ∀ p ∈ procs, pix p < env.maxpix) (hjob : Job env (ConvertsAlone procs) s s') : Quiet procs s' := by
  cases hjob with
  | dequeue l status inv val hl hsub => exact quiet_dequeue hs hl hsub h.procs h.acyclic.but
  | convertNow a l hl hst hnow hok =>
    have hact : Act 0 (ConvertsAlone procs) s (convertNow s a l) := .convert l a.lkmode hl hst hnow hok core_convertNow
    have hs₁ := hs.act hact
    refine quiet_regrant hs₁ ⟨h.procs.act hact, .congr core_convertNow ?_⟩
    have hlk : (s.setLkb l fun L => { L with grmode := a.lkmode, rqmode := a.lkmode }).lk l =
        { s.lk l with grmode := a.lkmode, rqmode := a.lkmode } := by rw [lk_setLkb, if_pos rfl]
    refine .of_convert hs (hs₁.congr core_convertNow.symm) .of_setLkb
      (fun _ hst' => absurd ((congrArg Lkb.state hlk).trans hst) hst') h.acyclic.but
      (fun hw => .of_empty hs .of_setLkb ?_ ?_)
      fun hw q hq hp => hok.2 rfl hw q hq (hp.trans (congrArg Lkb.pid hlk :))
    all_goals rw [hlk]
    exacts [hnow.1 _ mem_cons_self, hw]
  | convertWait a l hl hst hnow hok =>
    have hact : Act env.waittime (ConvertsAlone procs) s (convertWait env s a l) :=
      .queue l a.lkmode hl hst hnow hok (core_convertWait hst)
    have hs₁ := (hs.act hact).congr (core_convertWait hst).symm
    refine .congr core_notify ⟨h.procs.act hact, .congr (core_convertWait hst) ?_⟩
    exact .of_convert hs hs₁ (.of_moveTo (by simp [hst]))
      (fun _ _ => (congrArg Lkb.wait lk_moveTo_self).trans_ne hwait.ne') h.acyclic.but (.queue hs hl hst)
      fun hw q hq hp => hok.2 rfl hw q hq (hp.trans (congrArg Lkb.pid lk_moveTo_self :))
  | enqOn a g s₁ r p hf hok =>
    have hs₁ : Struct s₁ := hf.struct hs
    have h₁ := quiet_found hs hf h
    have henters := enqOn_enters env s₁ a g r p
    generalize enqOn env s₁ a g r p = res at henters hok
    cases henters with
    | notqueued => exact h₁
    | insfmem s₂ hnew => exact (h₁.congr (newLkb_none hnew)).freeRsb
    | now s₂ l id hnew hnow =>
      obtain ⟨i, max, hfits, -, hcore, -⟩ := newLkb_fits env a hs₁ hf hnew
      have hact : Act 0 (ConvertsAlone procs) s₁ (enqNow s₂ a r p l id) :=
        .grantNew l (a.lockNow r p id) i max hfits rfl rfl rfl hnow (hok _ (.inl ⟨rfl, rfl⟩)) hcore
      refine ⟨h₁.procs.act hact, .congr hcore (.of_noMore hs₁ ((hs₁.act hact).congr hcore.symm) .of_add
        (fun _ hst => absurd sameWait_add.state hst) h₁.acyclic.but (.of_empty hs₁ .of_add ?_ ?_))⟩
      all_goals rw [sameWait_add.rsb]
      exacts [(now_iff.mp hnow).1, (now_iff.mp hnow).2.1]
    | wait s₂ l id hnew hnow =>
      obtain ⟨i, max, -, hfits, -, hcore⟩ := newLkb_fits env a hs₁ hf hnew
      have hact : Act env.waittime (ConvertsAlone procs) s₁ (enqWait env s₂ a r p l id) :=
        .queueNew l (a.lockWait env r p id) i max hfits rfl rfl hnow (hok _ (.inr ⟨rfl, rfl⟩)) hcore
      exact .congr core_notify ⟨h₁.procs.act hact, .congr hcore
        (.of_noMore hs₁ ((hs₁.act hact).congr hcore.symm) .of_add
          (fun _ _ => sameWait_add.wait.trans_ne hwait.ne') h₁.acyclic.but (.add hs₁ hfits rfl))⟩
  | tick l hl hticks =>
    have hact : Act 0 (ConvertsAlone procs) s (tick s l) := .tick l hl hticks rfl
    refine ⟨h.procs.act hact, .of_noMore hs (hs.act hact) .of_setLkb (fun _ _ => ?_) h.acyclic.but
      fun _ q _ _ _ _ hblocks => ⟨hl, ?_, ?_, blocks_tick ▸ hblocks⟩⟩
    · have := congrArg Lkb.wait (lk_tick (s := s) (l := l) (b := l))
      simp only [if_true] at this
      omega
    all_goals rw [lk_tick]
  | searchFrom l hl hone => exact quiet_searchFrom hs h hinj hmax hl hone

/-- **The deadlock search is complete** if no process with a request queued converts a
    lock that new locks wait behind: when every request has been searched from, no
    processes wait for one another in a cycle. -/
theorem no_cycle_of_converts_alone (hwait : 0 < env.waittime) (hinj : Set.InjOn pix procs)
    (hmax : ∀ p ∈ procs, pix p < env.maxpix) (h : Reached env (Call.ConvertsAlone procs) s)
    (hall : AllSearched s) (p : ℕ) : ¬TransGen (WaitsFor s) p p := by
  have hempty : Quiet procs Db.empty := by
    refine ⟨?_, fun p hc => ?_⟩
    · simp [OfProcs, Db.empty]
    · obtain ⟨p', ⟨q, hq, -⟩, -⟩ := TransGen.head'_iff.mp hc
      simp [Db.empty] at hq
  obtain ⟨hs, hquiet⟩ := Run.keep_jobs h (fun _ _ h => h.asks)
    (fun _ _ hs h hjob => h.job hs hwait hinj hmax hjob) Struct.empty hempty
  intro hc
  refine hquiet.acyclic p (hc.lift id ?_)
  rintro p p' ⟨r, q, hq, b, hb, hqp, hbp, hblocks⟩
  obtain ⟨hb, hbr⟩ := hs.mem_locks.mp hb
  have hqs : q ∈ s.lkbs ∧ (s.lk q).rsb = r ∧ (s.lk q).state ≠ .granted := by
    rcases mem_append.mp hq with hq | hq <;> have hon := (hs.on _ _ _).mp hq <;>
      exact ⟨hon.1, hon.2.1, by simp [hon.2.2]⟩
  exact ⟨q, hqs.1, b, hb, hqp, hbp, hqs.2.2, hall r q hq, hbr.trans hqs.2.1.symm, hblocks⟩

/-- Process 3 waits for locks of two others, and both its requests are searched
    from. -/
def searched : Db := after ⟨1, 100⟩
  [.enq (.new 1 [65] .ex 101) ⟨some 1, some 11, true⟩, .enq (.new 2 [66] .ex 102) ⟨some 2, some 12, true⟩,
    .enq (.new 3 [65] .ex 103) ⟨none, some 13, true⟩, .enq (.new 3 [66] .ex 104) ⟨none, some 14, true⟩,
    .search] .empty

theorem no_cycle_searched : (searched.rs 1).queue .waiting = [13] ∧ (searched.rs 2).queue .waiting = [14] ∧
    ¬TransGen (WaitsFor searched) 3 3 := by
  have hreach : Reached ⟨1, 100⟩ (Call.ConvertsAlone {p | p < 5}) searched := run_after (by decide +kernel)
  have hwait : ∀ l ∈ searched.lkbs, (searched.lk l).wait = 0 := by decide +kernel
  refine ⟨by decide +kernel, by decide +kernel, no_cycle_of_converts_alone Nat.one_pos (injOn_pix (by decide)) ?_
    hreach (fun r q hq => hwait q ?_) 3⟩
  · exact fun p hp => (Nat.mod_le _ _).trans_lt (lt_trans hp (by decide))
  · rcases mem_append.mp hq with hq | hq <;> exact ((hreach.struct.on _ _ _).mp hq).1

end Lock
