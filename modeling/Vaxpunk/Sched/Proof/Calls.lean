/-
  What the executive's calls and interrupts keep (`Sys.Good`): the scheduler's
  database, with no process left waiting for event flags that are there, the common
  event blocks with their reference counts, the ASTs of each process, and the timer
  queue.
-/
import Vaxpunk.Lib.Tally
import Vaxpunk.Sched.Calls
import Vaxpunk.Sched.Proof.Ast
import Vaxpunk.Sched.Proof.Routines

namespace Sched

open Queues Tally Flags BitVec List

/-! ## The timer queue -/

theorem later_iff {a b : BitVec 64} : later a b ↔ b < a := by
  have ha := a.isLt
  have hb := b.isLt
  simp only [later, high, low, Bool.or_eq_true, Bool.and_eq_true, decide_eq_true_eq, lt_def, gt_iff_lt,
    ← toNat_inj, extractLsb'_toNat, toNat_setWidth, Nat.shiftRight_eq_div_pow]
  omega

theorem subq_eq (a b : BitVec 64) : subq a b = a - b := by
  apply eq_of_toNat_eq
  have ha := a.isLt
  have hb := b.isLt
  rw [subq, toNat_append, ← Nat.shiftLeft_add_eq_or_of_lt (isLt _)]
  simp only [high, low, lt_def, toNat_sub, extractLsb'_toNat, toNat_setWidth,
    Nat.shiftRight_eq_div_pow, Nat.shiftLeft_eq]
  split_ifs <;> simp <;> omega

namespace Tim

/-- The order of the queue: entries due at one time are in the order they came. -/
def Before (a b : Tqe) : Prop := due a < due b ∨ due a = due b ∧ a.seq < b.seq

theorem Before.le {a b : Tqe} (h : Before a b) : due a ≤ due b := by
  unfold Before at h
  omega

theorem Before.seq_lt {a b : Tqe} (h : Before a b) (heq : a.time = b.time) : a.seq < b.seq := by
  simpa [Before, due, heq] using h

/-- In the order its entries are due; `x` where EXE$GQ_1ST_TIME is the first's time, as
    everywhere but in EXE$SWTIMINT's loop. -/
structure Good (x : Bool) (t : Tim) : Prop where
  ordered : t.queue.Pairwise Before
  seqs : ∀ e ∈ t.queue, e.seq < t.count
  repeats : ∀ e ∈ t.queue, e.rqtype = .wkrept → Repeats e.delta
  first : x → t.first = firstTime t.queue

section
variable {x : Bool} {t : Tim} {e : Tqe}

theorem queue_instimq : (t.instimq e).queue = insertAfter due { e with seq := t.count } t.queue := by
  simp only [Tim.instimq, setfirst, later_iff]
  rfl

variable (h : t.Good x)
include h

theorem Good.instimq (he : e.rqtype = .wkrept → Repeats e.delta) : (t.instimq e).Good x := by
  refine ⟨?_, ?_, ?_, fun _ => rfl⟩ <;> rw [queue_instimq]
  · exact pairwise_insertAfter Before.le h.ordered (fun _ _ => .inl)
      fun b hb hle => hle.lt_or_eq.imp_right fun heq => ⟨heq, h.seqs b hb⟩
  all_goals
    intro e' he'
    obtain rfl | he' := mem_insertAfter.mp he'
  exacts [Nat.lt_succ_self _, (h.seqs e' he').trans (Nat.lt_succ_self _), he, h.repeats e' he']

theorem Good.queue {y : Bool} {q : List Tqe} (hq : q.Sublist t.queue)
    (hfirst : y → t.first = firstTime q) : Good y { t with queue := q } :=
  ⟨h.ordered.sublist hq, fun e he => h.seqs e (hq.subset he), fun e he => h.repeats e (hq.subset he), hfirst⟩

theorem Good.sublist {q : List Tqe} (hq : q.Sublist t.queue) : (setfirst { t with queue := q }).Good x :=
  { h.queue (y := false) hq nofun with first := fun _ => rfl }

theorem Good.tick (b : Bool) : (t.tick b).Good x := by
  unfold Tim.tick
  extract_lets
  exact ⟨h.ordered, h.seqs, h.repeats, h.first⟩

end

end Tim

/-! ## Event flags -/

namespace Flags

theorem ends_of_and {x y mask : BitVec 32} {all : Bool} (h : ends x mask all = false) :
    ends (x &&& y) mask all = false := by
  cases all
  · simp only [ends, Bool.false_eq_true, if_false, bne_eq_false_iff_eq] at h ⊢
    rw [← BitVec.and_assoc, h]
    simp
  · simp only [ends, if_true, beq_eq_false_iff_ne, ne_eq] at h ⊢
    intro h'
    apply h
    ext i hi
    have := congrArg (·.getLsbD i) h'
    simp at this
    simp
    grind

variable {f : Flags} {n m efn : ℕ} {x y : BitVec 32}

@[simp] theorem met_setOwn : (f.setOwn n x).met y = f.met y := by
  unfold setOwn
  split_ifs <;> rfl

@[simp] theorem wefc_setOwn : (f.setOwn n x).wefc = f.wefc := by
  unfold setOwn
  split_ifs <;> rfl

theorem own_setOwn (hn : n < 2) (hm : m < 2) (hne : m ≠ n) : (f.setOwn n x).own m = f.own m := by
  interval_cases n <;> interval_cases m <;> first | rfl | exact absurd rfl hne

theorem getefc_common {c : ℕ} (h : f.getefc efn = .ok (.common n c)) : f.common n = some c := by
  unfold getefc at h
  split_ifs at h
  · cases h
  · split at h <;> cases h
    assumption

theorem getefc_own (h : f.getefc efn = .ok (.own n)) : efn / 32 = n ∧ n < 2 := by
  unfold getefc at h
  split_ifs at h with _ hlt
  · simp_all
  · split at h <;> simp at h

end Flags

namespace Sys

variable {x : Bool} {s : Sys} {p efn : ℕ} {driver : Tqe → List Tqe} {e : Tqe}

/-- A wait for event flags that aren't there, in the process's own cluster or in a
    common event block. -/
def Waits (s : Sys) (p : ℕ) : Option ℕ → Prop
  | none => (s.flags p).wefc < 2 ∧ (s.flags p).met ((s.flags p).own (s.flags p).wefc) = false
  | some c => c ∈ s.cebhd ∧ (s.flags p).met (s.ceb c).efc = false

/-- Whether a common cluster is cluster 3. -/
def upper (cluster : ℕ) : Bool := cluster ≠ 2

/-- The common event block of a process's cluster 2 or 3. -/
def assoc (s : Sys) (x : ℕ × Bool) : Option ℕ := (s.flags x.1).common (if x.2 then 3 else 2)

def ties (s : Sys) : Ties := ⟨s.Waits, fun p => ∃ b, s.assoc (p, b) ≠ none⟩

/-- `refc` counts the clusters `assoc` with each common event block of `cebhd`. -/
structure Refs (assoc : ℕ × Bool → Option ℕ) (cebhd : List ℕ) (refc : ℕ → ℕ) : Prop where
  listed : ∀ x c, assoc x = some c → c ∈ cebhd
  counted : Counts assoc refc

structure Good (x : Bool) (s : Sys) : Prop where
  db : s.db.Placed s.ties false none
  refs : Refs s.assoc s.cebhd fun c => (s.ceb c).refc
  ast : ∀ p, (s.ast p).Good
  tim : s.tim.Good x

@[simp] theorem dacefc_db : (s.dacefc p efn).db = s.db := by
  unfold dacefc
  split <;> rfl

theorem common_eq (n : ℕ) : (s.flags p).common n = s.assoc (p, upper n) := by
  by_cases hn : n = 2 <;> simp [assoc, common, upper, hn]

theorem assoc_setCommon (n : ℕ) (v : Option ℕ) :
    (s.setFlags p (·.setCommon n v)).assoc = Function.update s.assoc (p, upper n) v := by
  funext ⟨k, b⟩
  by_cases hk : k = p <;> by_cases hn : n = 2 <;> cases b <;>
    simp [assoc, setFlags, common, setCommon, upper, hk, hn]

theorem assoc_setFlags {f : Flags → Flags} (hf : ∀ n, (f (s.flags p)).common n = (s.flags p).common n) :
    (s.setFlags p f).assoc = s.assoc := by
  funext ⟨k, b⟩
  by_cases hk : k = p
  · subst hk
    simp [assoc, setFlags, hf]
  · simp [assoc, setFlags, hk]

theorem assoc_dacefc : (s.dacefc p efn).assoc =
    Function.update s.assoc (p, upper (efn / 32)) none := by
  unfold dacefc
  split
  · rename_i hnone
    rw [Function.update_eq_self_iff.mpr]
    rw [← common_eq, hnone]
  · exact assoc_setCommon ..

theorem update_ceb {β : Type} (π : Ceb → β) {C : Ceb} {c d : ℕ} (hC : π C = π (s.ceb c)) :
    π (Function.update s.ceb c C d) = π (s.ceb d) := by
  by_cases hd : d = c
  · subst hd
    simpa using hC
  · simp [hd]

theorem leave_spec {db : Db} (h : db.Slots) (p : ℕ) :
    ∃ v, leave db p = { db with pcbvec := v } ∧ ∀ i, v i ≠ some p := by
  unfold leave
  extract_lets i
  split_ifs with hi
  · refine ⟨_, rfl, fun j hj => ?_⟩
    have hji : j ≠ i := fun heq => by simp [heq] at hj
    rw [Function.update_of_ne hji] at hj
    exact hji (h.2 j p hj).symm
  · refine ⟨db.pcbvec, rfl, fun j hj => hi ?_⟩
    rwa [show i = j from h.2 j p hj]

theorem waits_setFlags {f : Flags → Flags} {j : ℕ} (hj : j ≠ p) (o : Option ℕ) :
    (s.setFlags p f).Waits j o ↔ s.Waits j o := by
  cases o <;> simp [Waits, setFlags, hj]

theorem foldl_chkwake {o : Option ℕ} (W : Ties) (y : BitVec 32) (l : List ℕ)
    (hW : ∀ p ∈ l, (s.flags p).met y = false → W.waits p o) (hl : l.Nodup) (db : Db)
    (hdb : db.Placed { W with waits := fun p k => W.waits p k ∨ k = o ∧ p ∈ l } false none)
    (hst : ∀ p ∈ l, (db.pcb p).state ∉ [.gone, .cur, .com]) : (l.foldl (s.chkwake y) db).Placed W false none := by
  induction l generalizing db with
  | nil => exact hdb.mono (by simp) fun _ => .inl
  | cons p l ih =>
    obtain ⟨hp, hl⟩ := nodup_cons.mp hl
    have ih := ih fun j hj => hW j (by simp [hj])
    simp only [foldl_cons, chkwake]
    split_ifs with hmet
    · have hdb' := hdb.wakepcb (hst p (by simp))
      refine ih hl (db.wakepcb p) (hdb'.mono (fun o j hj hw => ?_) fun _ => .inl) fun j hj => ?_
      · -- the process has left the queue
        have hjp : j ≠ p := fun hjp => hdb'.woken_not_mem o (hjp ▸ hj)
        simpa [hjp] using hw
      · rw [Db.wakepcb_other db (k := j) (p := p) fun heq => hp (heq ▸ hj)]
        exact hst j (by simp [hj])
    · refine ih hl db (hdb.mono (fun o j _ hw => ?_) fun _ => .inl) fun j hj => hst j (by simp [hj])
      rcases hw with hw | ⟨rfl, hw⟩
      · exact .inl hw
      · obtain rfl | hw := mem_cons.mp hw
        exacts [.inl (hW j (by simp) (by simpa using hmet)), .inr ⟨rfl, hw⟩]

namespace Good

section
variable (h : Good x s)
include h

theorem setDb {db : Db} (hdb : db.Placed s.ties false none) : Good x { s with db := db } := ⟨hdb, h.refs, h.ast, h.tim⟩

theorem setTim {y : Bool} {tim : Tim} (htim : tim.Good y) : Good y { s with tim := tim } := ⟨h.db, h.refs, h.ast, htim⟩

theorem setAst (p : ℕ) {f : Ast → Ast} (hf : (f (s.ast p)).Good) : Good x (s.setAst p f) := by
  refine ⟨h.db, h.refs, fun k => ?_, h.tim⟩
  by_cases hk : k = p
  · subst hk
    simpa [Sys.setAst] using hf
  · simpa [Sys.setAst, hk] using h.ast k

theorem setWaits {t : Sys} (ht : t = { s with flags := t.flags, ceb := t.ceb, cebhd := t.cebhd })
    (hW : ∀ o, ∀ p ∈ s.db.queue (.ef o), s.Waits p o → t.Waits p o)
    (hhas : ∀ p, t.ties.has p → s.ties.has p ∨ s.db.Live p)
    (hrefs : Refs t.assoc t.cebhd fun c => (t.ceb c).refc) : Good x t := by
  have hdb : t.db = s.db := by rw [ht]
  have hast : t.ast = s.ast := by rw [ht]
  have htim : t.tim = s.tim := by rw [ht]
  exact ⟨hdb ▸ h.db.mono hW hhas, hrefs, hast ▸ h.ast, htim ▸ h.tim⟩

theorem newFlags (p : ℕ) (f : Flags → Flags) (hp : ∀ o, p ∉ s.db.queue (.ef o))
    (hf : (s.setFlags p f).assoc = s.assoc) : Good x (s.setFlags p f) :=
  h.setWaits rfl (fun o _ hj => (waits_setFlags (s := s) (p := p) (fun heq => hp o (heq ▸ hj)) o).mpr)
    (fun _ => .inl ∘ by simp [ties, hf]) (hf ▸ h.refs)

theorem queue_unused {c : ℕ} (hc : c ∉ s.cebhd) : s.db.queue (.cef c) = [] :=
  eq_nil_iff_forall_not_mem.mpr fun p hp => hc ((h.db.proc p).waits (some c) hp).1

theorem qast (b : Acb) : Good x (s.qast b) := by
  unfold Sys.qast
  split
  · exact h
  · rename_i p hp
    refine (h.setAst p (f := (·.enqueue b)) ((h.ast p).enqueue b)).setDb (.ite (fun hw => h.db.wakepcb ?_) h.db)
    change (s.db.pcb p).state.waits at hw
    generalize (s.db.pcb p).state = st at hw
    cases st <;> simp_all [State.waits]

/-! ## Event flags -/

theorem postOwn (p : ℕ) {n : ℕ} (hn : n < 2) (y : BitVec 32) :
    Good x ((s.setFlags p (·.setOwn n y)).postef p (.own n)) := by
  set t := s.setFlags p (·.setOwn n y) with ht
  -- only its own wait may have ended, and only one for this cluster
  have hW : ∀ o j, s.Waits j o → t.Waits j o ∨ o = none ∧ j = p ∧ (t.flags p).wefc = n := fun o j hj => by
    by_cases hjp : j = p
    · subst hjp
      cases o with
      | none =>
        by_cases hw : (t.flags j).wefc = n
        · exact .inr ⟨rfl, rfl, hw⟩
        · have hne : (s.flags j).wefc ≠ n := by simpa [ht, setFlags] using hw
          exact .inl (by simpa [Waits, ht, setFlags, own_setOwn hn hj.1 hne] using hj)
      | some c => exact .inl (by simpa [Waits, ht, setFlags] using hj)
    · exact .inl ((waits_setFlags hjp o).mpr hj)
  have hassoc : t.assoc = s.assoc := assoc_setFlags fun m => by
    unfold setOwn
    split_ifs <;> rfl
  have hhas : ∀ j, t.ties.has j → s.ties.has j ∨ s.db.Live j := fun j => .inl ∘ by simp [ties, hassoc]
  refine ⟨?_, hassoc ▸ h.refs, h.ast, h.tim⟩
  change Db.Placed t.ties (if (s.db.pcb p).state = .lef ∧ (t.flags p).wefc = n then _ else s.db) false none
  split_ifs with hp
  · refine foldl_chkwake (o := none) t.ties ((t.flags p).own n) [p] ?_ (by simp) s.db
      (h.db.mono (fun o j _ hj => ?_) hhas) (by simp [hp.1])
    · simpa [ties, Waits, hp.2] using fun hmet => ⟨by omega, hmet⟩
    · simpa [ties] using (hW o j hj).imp_right fun h => ⟨h.1, h.2.1⟩
  · refine h.db.mono (fun o j hj hw => (hW o j hw).resolve_right ?_) hhas
    rintro ⟨rfl, rfl, hw⟩
    exact hp ⟨(h.db.proc j).fits _ hj, hw⟩

theorem postCommon (p cluster c : ℕ) (y : BitVec 32) :
    Good x ((s.setFlagsAt p y (.common cluster c)).postef p (.common cluster c)) := by
  simp only [setFlagsAt, postef, Function.update_self]
  set t : Sys := { s with ceb := Function.update s.ceb c { s.ceb c with efc := y } } with ht
  refine ⟨foldl_chkwake (o := some c) t.ties y (s.db.queue (.cef c)) (fun p hmem hp => ?_)
    (h.db.apart.nodup _) s.db (h.db.mono (fun o j hmem hj => ?_) fun _ => .inl) fun j hj => ?_, ?_, h.ast, h.tim⟩
  · exact ⟨((h.db.proc p).waits (some c) hmem).1, by simpa [ht] using hp⟩
  · by_cases ho : o = some c
    · subst ho
      exact .inr ⟨rfl, hmem⟩
    · cases o
      · exact .inl hj
      · exact .inl (by simpa [ties, Waits, ht, show _ ≠ c by simpa using ho] using hj)
  · simp [show (s.db.pcb j).state = .cef from (h.db.proc j).fits _ hj]
  · exact ⟨h.refs.listed, h.refs.counted.congr fun _ => update_ceb Ceb.refc rfl⟩

theorem post {k : Cluster} (hk : (s.flags p).getefc efn = .ok k) : Good x (s.post p efn k) := by
  cases k with
  | own n => exact h.postOwn p (getefc_own hk).2 _
  | common cluster c => exact h.postCommon p cluster c _

theorem setef (efn : ℕ) : Good x (s.setef efn) := by
  unfold Sys.setef
  split
  exacts [h, h.post ‹_›]

theorem clearCeb (c : ℕ) (y : BitVec 32) : Good x (s.setFlagsAt p ((s.ceb c).efc &&& y) (.common n c)) := by
  refine h.setWaits rfl (fun o j _ hw => ?_) (fun _ => .inl)
    ⟨h.refs.listed, h.refs.counted.congr fun _ => update_ceb Ceb.refc rfl⟩
  cases o with
  | none => exact hw
  | some c' =>
    by_cases hc : c' = c
    · subst hc
      exact ⟨hw.1, by simpa [setFlagsAt, met] using ends_of_and hw.2⟩
    · simpa [Waits, setFlagsAt, hc] using hw

theorem newCeb {c : ℕ} (hc : c ∉ s.cebhd) (name : List UInt8) : Good x (s.newCeb c name) := by
  have hfree : (s.ceb c).refc = 0 := h.refs.counted.eq_zero.mpr fun y hy => hc (h.refs.listed y c hy)
  refine h.setWaits (by simp [Sys.newCeb, ← h.queue_unused hc]) (fun o j _ hw => ?_) (fun _ => .inl)
    ⟨fun y d hd => mem_append_left _ (h.refs.listed y d hd), h.refs.counted.congr fun d => ?_⟩
  · cases o with
    | none => exact hw
    | some c' =>
      have hne : c' ≠ c := fun heq => hc (heq ▸ hw.1)
      exact ⟨mem_append_left _ hw.1, by simpa [Sys.newCeb, hne] using hw.2⟩
  · exact update_ceb Ceb.refc hfree.symm

/-! ## Processes -/

theorem creprc (hgone : (s.db.pcb p).state = .gone) (pri : ℕ) : Good x (s.creprc p pri) := by
  unfold Sys.creprc
  split
  · exact h
  extract_lets pid P
  rename_i i hi
  have hi : i < 2 ^ 16 := by
    have hmem := mem_range'_1.mp (mem_of_find?_eq_some hi)
    have := h.db.slots.1
    omega
  have hdb := h.db.enter hgone (i := i) (P := P) (Nat.mod_lt _ (by norm_num)) (by simp only [P, pid]; omega)
  -- a PCB that is free has no common event block
  have hno : ∀ b, s.assoc (p, b) = none := fun b => by
    by_contra hb
    exact ((h.db.proc p).live (.inr ⟨b, hb⟩)).1 hgone
  refine ((h.setDb hdb).setAst p .new).newFlags p _ (fun o hp => ?_) (funext fun ⟨k, b⟩ => ?_)
  · have := (hdb.proc p).fits _ hp
    cases o <;> simp [Pcb.Fits, Queue.ef] at this
  · by_cases hk : k = p
    · subst hk
      exact .trans (by cases b <;> simp [assoc, setFlags, common, new]) (hno b).symm
    · simp [assoc, setFlags, Sys.setAst, hk]

theorem leave (p : ℕ) : Good x (s.on (Sys.leave · p)) := h.setDb (.ite (fun _ => h.db.free _) h.db)

theorem delother (p addr : ℕ) : Good x (s.delother p addr) := by
  unfold Sys.delother
  extract_lets pid db db'
  have hdb : db.Placed s.ties false none := h.db.keep p _ rfl rfl rfl (h.db.proc p).wakepen
  have hdb' : db'.Placed s.ties false none := .ite (fun hst => hdb.wakepcb (by simp [hst])) hdb
  have ht := (h.setDb hdb').qast ⟨addr, 0, pid, true⟩
  exact ht.setDb (ht.db.free _)

theorem reap : Good x s.reap := by
  unfold Sys.reap
  split
  · exact h
  · rename_i p ps hps
    have hmem : p ∈ s.db.queue .del := by simp [hps]
    exact h.setDb (((h.db.remque hmem nofun).setHand (fun P => { P with state := .gone }) rfl).drop (by simp)
      (by simpa using (h.db.proc p).pri) fun hkn => ((h.db.proc p).live hkn).2 ((h.db.proc p).fits _ hmem))

/-! ## Timers -/

theorem canwak (p : ℕ) : Good x (s.canwak p) :=
  ⟨h.db.keep p (fun P => { P with wakepen := false }) rfl rfl rfl fun _ => rfl, h.refs, h.ast,
    h.tim.sublist filter_sublist⟩

theorem schdwk (addr p time reptim) : Good x (s.schdwk addr p time reptim) := by
  unfold Sys.schdwk
  split
  · exact h
  · rename_i hr
    refine h.setTim (h.tim.instimq fun _ => ?_)
    cases reptim <;> simp_all

theorem tqexpire (hdriver : ∀ e' ∈ driver e, e'.rqtype = .sssngl) (he : e.rqtype = .wkrept → Tim.Repeats e.delta) :
    Good x (s.tqexpire driver e) := by
  unfold Sys.tqexpire
  split
  · refine h.setTim (foldlRecOn (motive := fun t : Tim => t.Good x) _ _ h.tim fun t ht e' he' => ?_)
    exact ht.instimq (by simp [hdriver e' he'])
  split
  · exact h
  rename_i p hp
  split
  · extract_lets t
    have ht : Good x t := by
      simp only [t]
      split
      · exact h
      · split_ifs
        exacts [h, h.post ‹_›]
    split_ifs
    exacts [ht.qast _, ht]
  · have ht := h.setDb (h.db.wake p)
    split_ifs with hrep
    exacts [ht.setTim (ht.tim.instimq fun _ => he hrep), ht]

theorem expire (hdriver : ∀ e' ∈ driver e, e'.rqtype = .sssngl) {q : List Tqe} (hq : s.tim.queue = e :: q) :
    Good false ((s.onTim fun t => { t with queue := q }).tqexpire driver e) :=
  (h.setTim (h.tim.queue (y := false) (hq ▸ sublist_cons_self ..) nofun)).tqexpire hdriver
    (h.tim.repeats e (by simp [hq]))

theorem quantum : Good x s.quantum := by
  unfold Sys.quantum
  extract_lets P db db'
  have hdb : db.Placed s.ties false none := .ite (fun hq => h.db.qend hq.1) h.db
  have hdb' : db'.Placed s.ties false none := .ite (fun _ => hdb) hdb.pixscan
  exact ⟨hdb', h.refs, h.ast, { h.tim with }⟩

theorem hwclkint : Good x s.hwclkint := ⟨h.db.tick _, h.refs, h.ast, h.tim.tick _⟩

end

theorem start (h : Good x s) : Good false s.quantum :=
  ⟨h.quantum.db, h.refs, h.ast, { h.tim with first := nofun }⟩

theorem serve {now : BitVec 64} (hdriver : Punctual now driver) {fuel : ℕ} {r : List Tqe × Sys} (h : Good false s)
    (hr : Sys.serve driver now fuel s = some r) : Good false r.2 := by
  induction fuel generalizing s r with
  | zero => cases hr
  | succ fuel ih =>
    unfold Sys.serve at hr
    split at hr
    · cases hr
      exact h
    · split_ifs at hr with hle
      · cases hr
        exact h
      · obtain ⟨r', hr', rfl⟩ := Option.map_eq_some_iff.mp hr
        have hle : _ ≤ now := BitVec.not_lt.mp (later_iff.not.mp hle)
        exact show Good false r'.2 from ih (h.expire (fun e' he' => (hdriver _ hle e' he').1) ‹_›) hr'

theorem swtimint {fuel : ℕ} {r : List Tqe × Sys} (h : Good x s) (hdriver : Punctual s.tim.systime driver)
    (hr : s.swtimint driver fuel = some r) : Good x r.2 := by
  obtain ⟨r', hr', rfl⟩ := Option.map_eq_some_iff.mp hr
  have h' := serve hdriver h.start hr'
  exact h'.setTim { h'.tim with first := fun _ => rfl }

/-! ## The current process -/

section
variable (h : Good x s) (hidle : s.db.idle = false)
include h hidle

theorem not_waiting (o : Option ℕ) : s.cur ∉ s.db.queue (.ef o) := fun hp =>
  (h.db.proc _).not_cur hp (Db.cpu_of_not_idle hidle)

theorem setFlagsCur (f : Flags → Flags) (hf : ∀ n, (f (s.flags s.cur)).common n = (s.flags s.cur).common n) :
    Good x (s.setFlags s.cur f) :=
  h.newFlags _ f (h.not_waiting hidle) (assoc_setFlags hf)

theorem setCommonCur {n : ℕ} {v : Option ℕ} {ceb : ℕ → Ceb} {l : List ℕ} (hefc : ∀ c, (ceb c).efc = (s.ceb c).efc)
    (hl : ∀ c ∈ s.cebhd, s.db.queue (.cef c) ≠ [] → c ∈ l)
    (hrefs : Refs (Function.update s.assoc (s.cur, upper n) v) l fun c => (ceb c).refc) :
    Good x { s.setFlags s.cur (·.setCommon n v) with ceb := ceb, cebhd := l } := by
  refine h.setWaits rfl (fun o j hj hw => ?_) (fun j hj => ?_) (assoc_setCommon (s := s) n v ▸ hrefs)
  · have hjc : j ≠ s.cur := fun heq => h.not_waiting hidle o (heq ▸ hj)
    have hw := (waits_setFlags (f := (·.setCommon n v)) hjc o).mpr hw
    cases o with
    | none => exact hw
    | some c => exact ⟨hl c hw.1 (ne_nil_of_mem hj), by simpa [setFlags, hefc] using hw.2⟩
  · by_cases hjc : j = s.cur
    · exact .inr (by simp [Db.Live, hjc, h.db.cur_state hidle])
    · exact .inl (by simpa [ties, assoc, setFlags, hjc] using hj)

theorem wait {st : State} {q : Queue} (mode : ℕ) (hfits : Pcb.Fits { s.db.pcb s.cur with state := st } q)
    (hW : ∀ o, q = .ef o → s.Waits s.cur o) (hn : ∀ n, q ≠ .com n) (hdel : q ≠ .del)
    (hwake : st = .hib → (s.db.pcb s.cur).wakepen = false) : Good x ((s.setState st).wait mode q) := by
  unfold Sys.wait
  split_ifs
  · have : (s.setState st).setState .cur = s := by
      have hP : { s.db.pcb s.cur with state := .cur } = s.db.pcb s.cur := by rw [← h.db.cur_state hidle]
      simp [setState, on, Db.set, hP]
    rwa [this]
  · exact h.setDb (h.db.block hidle hfits hW hn hdel hwake)

theorem hiber (mode : ℕ) : Good x (s.hiber mode) := by
  unfold Sys.hiber
  split_ifs with hw
  · exact h.setDb (h.db.keep s.cur _ rfl rfl rfl fun _ => rfl)
  · exact h.wait hidle mode rfl (by rintro (_ | _) ⟨⟩) nofun nofun fun _ => by simpa using hw

theorem clref (efn : ℕ) : Good x (s.clref efn) := by
  unfold Sys.clref
  split
  · exact h
  · rename_i k _
    cases k with
    | own n => exact h.setFlagsCur hidle (·.setOwn n _) fun _ => by unfold setOwn; split_ifs <;> rfl
    | common cluster c => exact h.clearCeb c _

theorem efwait (efn mask all mode) : Good x (s.efwait efn mask all mode) := by
  unfold Sys.efwait
  split
  · exact h
  rename_i k hk
  split_ifs with hends
  · exact h
  have h' := h.setFlagsCur hidle (fun f => { f with efwm := mask, wefc := efn / 32, wall := all }) fun _ => rfl
  extract_lets t
  cases k with
  | own n =>
    obtain ⟨rfl, hlt⟩ := getefc_own hk
    refine h'.wait hidle mode rfl ?_ nofun nofun nofun
    rintro (_ | _) ⟨⟩
    simpa [Waits, setFlags, met, flagsAt, own, hlt] using hends
  | common cluster c =>
    refine h'.wait hidle mode rfl ?_ nofun nofun nofun
    rintro (_ | _) ⟨⟩
    have hc : s.assoc (s.cur, upper cluster) = some c := common_eq (s := s) cluster ▸ getefc_common hk
    exact ⟨h.refs.listed _ c hc, by simpa [setFlags, met, flagsAt] using hends⟩

theorem dacefc (efn : ℕ) : Good x (s.dacefc s.cur efn) := by
  unfold Sys.dacefc
  split
  · exact h
  rename_i c hc
  extract_lets old C t
  rw [common_eq] at hc
  have hpos : (s.ceb c).refc ≠ 0 := fun h0 => h.refs.counted.eq_zero.mp h0 _ hc
  have hcounted : Counts (Function.update s.assoc (s.cur, upper (efn / 32)) none)
      fun d => (Function.update s.ceb c C d).refc := by
    refine h.refs.counted.update _ _ fun d => ?_
    by_cases hd : d = c
    · simp [hd, hc, C]
      omega
    · simp [hd, hc, Ne.symm hd]
  refine h.setCommonCur hidle (fun d => ?_) (fun d hd hq => ?_) ⟨fun y d hd => ?_, hcounted⟩
  · exact update_ceb Ceb.efc rfl
  · split_ifs with hfree
    · have hne : d ≠ c := fun heq => hq (by rw [heq]; exact hfree.2)
      exact (mem_erase_of_ne hne).mpr hd
    · exact hd
  · have hmem : d ∈ s.cebhd := by
      rw [Function.update_apply] at hd
      split_ifs at hd
      exact h.refs.listed y d hd
    split_ifs with hfree
    · -- no cluster has the block that goes
      have hne : d ≠ c := fun heq => hcounted.eq_zero.mp (by simpa using hfree.1) y (heq ▸ hd)
      exact (mem_erase_of_ne hne).mpr hmem
    · exact hmem

theorem dacefcAll : Good x (s.dacefcAll s.cur) := by
  have := (h.dacefc hidle 64).dacefc (by simpa using hidle) 96
  simpa [Sys.dacefcAll, cur] using this

theorem associate {n c : ℕ} (hnone : s.assoc (s.cur, upper n) = none) (hc : c ∈ s.cebhd) :
    Good x (s.associate n c) := by
  refine h.setCommonCur hidle (fun d => ?_) (fun _ hd _ => hd) ⟨fun y d hd => ?_, h.refs.counted.update _ _ fun d => ?_⟩
  · exact update_ceb Ceb.efc rfl
  · rw [Function.update_apply] at hd
    split_ifs at hd
    exacts [Option.some.inj hd ▸ hc, h.refs.listed y d hd]
  · by_cases hd : d = c
    · simp [hd, hnone]
    · simp [hd, hnone, Ne.symm hd]

theorem ascefc (efn name) {block : Option ℕ} (hblock : ∀ c ∈ block, c ∉ (s.dacefc s.cur efn).cebhd) :
    Good x (s.ascefc efn name block) := by
  have h' := h.dacefc hidle efn
  unfold Sys.ascefc
  split_ifs
  · exact h
  · extract_lets t
    have hnone : t.assoc (t.cur, upper (efn / 32)) = none := by simp [t, assoc_dacefc, cur]
    split
    · rename_i hc
      exact h'.associate (by simpa using hidle) hnone (mem_of_find?_eq_some hc)
    · exact h'
    · exact (h'.newCeb (hblock _ rfl) name).associate (by simpa [Sys.newCeb] using hidle) hnone (by simp [Sys.newCeb])

theorem imgrundown (image : Acb → Bool) : Good x (s.imgrundown image) := by
  have h' := h.setAst s.cur (f := (·.cancel image)) ((h.ast _).cancel image)
  exact ((h'.setTim (h'.tim.sublist filter_sublist)).setAst s.cur ((h'.ast _).flush 3)).dacefcAll hidle

theorem rundown (image keep : Acb → Bool) : Good x (s.rundown image keep) := by
  have h' := h.imgrundown hidle image
  exact (h'.setAst s.cur (f := fun a => (a.cancel keep).flush 0) (((h'.ast _).cancel keep).flush 0)).leave s.cur

theorem rundown_unknown (image keep : Acb → Bool) (hswp : s.cur ≠ s.db.swppcb) :
    (s.rundown image keep).cur = s.cur ∧ (s.rundown image keep).db.idle = false ∧
      ¬((s.rundown image keep).db.Known s.cur ∨ (s.rundown image keep).ties.has s.cur) := by
  obtain ⟨v, hv, hslot⟩ := leave_spec h.db.slots s.cur
  have hdb : (s.rundown image keep).db = { s.db with pcbvec := v } := by
    simp [Sys.rundown, Sys.imgrundown, Sys.dacefcAll, on, Sys.setAst, onTim, hv]
  refine ⟨by rw [cur, hdb], by rw [hdb]; exact hidle, ?_⟩
  rintro ((heq | ⟨i, hi⟩) | ⟨b, hb⟩)
  · rw [hdb] at heq
    exact hswp heq
  · rw [hdb] at hi
    exact hslot i hi
  · refine hb ?_
    change (Sys.dacefcAll _ s.cur).assoc (s.cur, b) = none
    cases b <;> simp [Sys.dacefcAll, assoc_dacefc, upper]

theorem delself (image keep : Acb → Bool) (hswp : s.cur ≠ s.db.swppcb) : Good x (s.delself image keep) := by
  have h' := h.rundown hidle image keep
  obtain ⟨hcur, hidle', hno⟩ := h.rundown_unknown hidle image keep hswp
  rw [← hcur] at hno
  exact h'.setDb (Db.Placed.sched ((((h'.db.release hidle').setHand (fun P => { P with state := .deleted }) rfl).insque
    (q := .del) (by simp [Pcb.Fits]) (by rintro (_ | _) ⟨⟩) nofun (by simpa using (h'.db.proc _).pri) (by simp)
    fun _ => hno).wake _))

theorem setimr (addr efn time ast reqidt mode) : Good x (s.setimr addr efn time ast reqidt mode) := by
  unfold Sys.setimr
  split
  · exact h
  · have h' := h.clref hidle efn
    exact h'.setTim (h'.tim.instimq nofun)

end

end Good

end Sys

end Sched
