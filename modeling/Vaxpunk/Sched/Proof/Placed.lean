/-
  The scheduler's database: each process is where its state says, and no process
  the CPU should have before the current one is left computable.  Inside a routine
  one process may be in hand, on no queue, whatever its state.

  `Db.Placed W s r d` is the database, with `d` in hand and, where `r` holds, the
  current process put aside; each thing a routine does with a process has a lemma.
-/
import Vaxpunk.Sched.Process

namespace Sched

open Queues

/-- Where a process waits for event flags, its own or a common event block's. -/
def Queue.ef : Option ℕ → Queue
  | none => .lef
  | some c => .cef c

/-- A PCB that belongs on a queue. -/
def Pcb.Fits (P : Pcb) : Queue → Prop
  | .com n => P.state = .com ∧ P.pri = n
  | .hib => P.state = .hib
  | .lef => P.state = .lef
  | .cef _ => P.state = .cef
  | .mwait _ => P.state = .mwait
  | .susp => P.state = .susp
  | .del => P.state = .deleted

/-- What the rest of the executive says of processes: who may wait for which event
    flags, and who has a common event block and so is neither deleted nor gone. -/
structure Ties where
  waits : ℕ → Option ℕ → Prop
  has : ℕ → Prop

namespace Db

variable {W : Ties} {s s' : Db} {c d : Option ℕ} {r : Bool} {p k : ℕ} {q : Queue} {f : Pcb → Pcb}

/-- The process the CPU runs, unless it has been put aside. -/
def cpu (s : Db) (r : Bool) : Option ℕ := if r || s.idle then none else some s.curpcb

/-- The current process is the one SCH$SCHED would take. -/
def Settled (s : Db) : Prop := s.resched = false ∧ s.login = false

/-- A process is in the slot of its PID's low word only. -/
def Slots (s : Db) : Prop :=
  s.maxpix ≤ 2 ^ 16 ∧ ∀ i p, s.pcbvec i = some p → (s.pcb p).pid % 2 ^ 16 = i

/-- A process that isn't in hand; `c` is the one that runs. -/
structure Home (W : Ties) (s : Db) (c : Option ℕ) (p : ℕ) : Prop where
  fits : ∀ q, p ∈ s.queue q → (s.pcb p).Fits q
  waits : ∀ o, p ∈ s.queue (.ef o) → W.waits p o
  queued : (s.pcb p).state ≠ .gone → (s.pcb p).state ≠ .cur → ∃ q, p ∈ s.queue q
  pri : (s.pcb p).pri < 32
  wakepen : (s.pcb p).state = .hib → (s.pcb p).wakepen = false
  cur : (s.pcb p).state = .cur ↔ c = some p
  yields : s.Settled → (s.pcb p).state = .com → ∀ k, c = some k → (s.pcb p).pri ≤ (s.pcb k).pri
  live : s.Known p ∨ W.has p → s.Live p

structure Placed (W : Ties) (s : Db) (r : Bool) (d : Option ℕ) : Prop where
  home : ∀ p, d ≠ some p → Home W s (s.cpu r) p
  hand : ∀ p, d = some p → s.cpu r ≠ some p ∧ ∀ q, p ∉ s.queue q
  apart : Apart s.queue
  bits : ∀ n, s.comqs.getLsbD n ↔ s.queue (.com n) ≠ []
  slots : s.Slots

/-- `s'` is `s` but for what is about `p`. -/
structure Others (s s' : Db) (p : ℕ) : Prop where
  pcb : ∀ k ≠ p, s'.pcb k = s.pcb k
  queue : ∀ k ≠ p, ∀ q, k ∈ s'.queue q ↔ k ∈ s.queue q
  known : ∀ k ≠ p, s'.Known k → s.Known k
  settled : s'.Settled → s.Settled
  cpu : ∀ r, s'.cpu r = s.cpu r

theorem cpu_eq (h : s.cpu r = some p) : s.curpcb = p := by
  unfold cpu at h
  split_ifs at h
  exact Option.some.inj h

theorem cpu_of_not_idle (h : s.idle = false) : s.cpu false = some s.curpcb := by simp [cpu, h]

@[simp] theorem set_pcb : (s.set p f).pcb k = if k = p then f (s.pcb p) else s.pcb k := by
  simp only [set, Function.update_apply]

@[simp] theorem inscom_pcb :
    (s.inscom p).pcb k = if k = p then { s.pcb p with state := .com, waitime := s.abstim } else s.pcb k := by
  simp [inscom, insque]

@[simp] theorem remque_pcb : (s.remque p).pcb = s.pcb := rfl

@[simp] theorem remcom_pcb : (s.remcom p).pcb = s.pcb := rfl

@[simp] theorem set_queue : (s.set p f).queue = s.queue := rfl

@[simp] theorem set_cpu : (s.set p f).cpu r = s.cpu r := rfl

theorem Fits.congr {P P' : Pcb} (hstate : P'.state = P.state) (hpri : P.state = .com → P'.pri = P.pri)
    (h : P.Fits q) : P'.Fits q := by
  cases q <;> simp_all [Pcb.Fits]

theorem getLsbD_clear {x : BitVec 32} {m : ℕ} (hm : m ≠ k) : (x &&& ~~~(1#32 <<< k)).getLsbD m = x.getLsbD m := by
  by_cases hlt : m < 32
  · simp [hlt]
    grind
  · simp [BitVec.getLsbD_of_ge x m (by omega)]

theorem bits_clearCom (h : ∀ m ≠ k, s.comqs.getLsbD m ↔ s.queue (.com m) ≠ [])
    (hk : s.queue (.com k) ≠ [] → s.comqs.getLsbD k) (m : ℕ) :
    (s.clearCom k).comqs.getLsbD m ↔ s.queue (.com m) ≠ [] := by
  unfold clearCom
  by_cases hm : m = k
  · subst hm
    by_cases hnil : s.queue (.com m) = []
    · simp [hnil]
    · simpa [hnil] using hk hnil
  · rw [← h m hm]
    dsimp only
    split_ifs
    exacts [by rw [getLsbD_clear hm], Iff.rfl]

theorem Others.refl (s : Db) (p : ℕ) : Others s s p :=
  ⟨fun _ _ => rfl, fun _ _ _ => Iff.rfl, fun _ _ h => h, id, fun _ => rfl⟩

theorem Others.set (s : Db) (p : ℕ) (f : Pcb → Pcb) : Others s (s.set p f) p :=
  { Others.refl s p with pcb := fun k hk => by simp [hk] }

theorem Slots.set (h : s.Slots) (hf : (f (s.pcb p)).pid = (s.pcb p).pid) : (s.set p f).Slots := by
  refine ⟨h.1, fun i k hk => ?_⟩
  rw [set_pcb]
  split_ifs with hkp
  · subst hkp
    exact hf ▸ h.2 i k hk
  · exact h.2 i k hk

theorem Home.other (h : Home W s c k) (o : Others s s' p) (hk : k ≠ p)
    (hcur : c = some p → s'.Settled → (s.pcb k).state = .com → (s.pcb k).pri ≤ (s'.pcb p).pri) :
    Home W s' c k where
  fits q hq := o.pcb k hk ▸ h.fits q ((o.queue k hk q).mp hq)
  waits i hi := h.waits i ((o.queue k hk _).mp hi)
  queued := by simpa only [o.queue k hk, o.pcb k hk] using h.queued
  pri := o.pcb k hk ▸ h.pri
  wakepen := o.pcb k hk ▸ h.wakepen
  cur := o.pcb k hk ▸ h.cur
  yields hre hcom j hj := by
    rw [o.pcb k hk] at hcom ⊢
    by_cases hjp : j = p
    · subst hjp
      exact hcur hj hre hcom
    · rw [o.pcb j hjp]
      exact h.yields (o.settled hre) hcom j hj
  live hkn := by simpa only [Live, o.pcb k hk] using h.live (hkn.imp_left (o.known k hk))

theorem Home.not_cur (h : Home W s c p) (hp : p ∈ s.queue q) : c ≠ some p := by
  intro hc
  have hfits := h.fits q hp
  have hcur := h.cur.mpr hc
  cases q <;> simp_all [Pcb.Fits]

namespace Placed

theorem toHand (h : Placed W s r d) (o : Others s s' p) (hd : ∀ k ≠ p, d ≠ some k) (hc : s.cpu r ≠ some p)
    (hno : ∀ q, p ∉ s'.queue q) (apart : Apart s'.queue)
    (bits : ∀ n, s'.comqs.getLsbD n ↔ s'.queue (.com n) ≠ []) (slots : s'.Slots) : Placed W s' r (some p) where
  home k hk := by
    have hk : k ≠ p := fun heq => hk (heq ▸ rfl)
    rw [o.cpu]
    exact (h.home k (hd k hk)).other o hk fun heq => absurd heq hc
  hand k hk := by
    obtain rfl := Option.some.inj hk
    exact ⟨o.cpu r ▸ hc, hno⟩
  apart := apart
  bits := bits
  slots := slots

/-! ## A process in hand -/

section hand
variable (h : Placed W s r (some p))
include h

theorem fromHand (o : Others s s' p) (hp : Home W s' (s.cpu r) p) (apart : Apart s'.queue)
    (bits : ∀ n, s'.comqs.getLsbD n ↔ s'.queue (.com n) ≠ []) (slots : s'.Slots) : Placed W s' r none where
  home k _ := by
    rw [o.cpu]
    by_cases hk : k = p
    · exact hk ▸ hp
    · exact (h.home k (by simpa using Ne.symm hk)).other o hk fun heq => absurd heq (h.hand p rfl).1
  hand := nofun
  apart := apart
  bits := bits
  slots := slots

theorem setHand (f : Pcb → Pcb) (hf : (f (s.pcb p)).pid = (s.pcb p).pid) : Placed W (s.set p f) r (some p) :=
  h.toHand (.set s p f) (fun k hk => by simpa using hk.symm) (h.hand p rfl).1 (h.hand p rfl).2 h.apart h.bits
    (h.slots.set hf)

theorem insque (hq : (s.pcb p).Fits q) (hW : ∀ o, q = .ef o → W.waits p o) (hn : ∀ n, q ≠ .com n)
    (hpri : (s.pcb p).pri < 32)
    (hwake : (s.pcb p).state = .hib → (s.pcb p).wakepen = false) (hdel : q = .del → ¬(s.Known p ∨ W.has p)) :
    Placed W (s.insque p q) r none := by
  obtain ⟨hc, hno⟩ := h.hand p rfl
  have hmem : ∀ j, p ∈ (s.insque p q).queue j ↔ j = q := fun j => by simp [Db.insque, mem_put, hno j]
  have hst : (s.pcb p).state ≠ .cur ∧ (s.pcb p).state ≠ .com ∧ (s.pcb p).state ≠ .gone ∧
      ((s.pcb p).state = .deleted → q = .del) := by
    cases q <;> simp_all [Pcb.Fits]
  refine h.fromHand { Others.refl s p with queue := fun k hk j => by simp [Db.insque, mem_put, hk] }
    ⟨fun j hj => (hmem j).mp hj ▸ hq, fun o ho => hW o ((hmem _).mp ho).symm, fun _ _ => ⟨q, (hmem q).mpr rfl⟩, hpri,
      hwake, ⟨fun h => absurd h hst.1, fun h => absurd h hc⟩, fun _ hcom => absurd hcom hst.2.1,
      fun hkn => ⟨hst.2.2.1, fun hd => hdel (hst.2.2.2 hd) hkn⟩⟩ (h.apart.put q hno) (fun n => ?_) h.slots
  rw [show (s.insque p q).comqs = s.comqs from rfl, h.bits n, Db.insque]
  simp [Queues.put, (hn n).symm]

theorem inscom (hpri : (s.pcb p).pri < 32)
    (hyields : s.Settled → ∀ k, s.cpu r = some k → (s.pcb p).pri ≤ (s.pcb k).pri) :
    Placed W (s.inscom p) r none := by
  obtain ⟨hc, hno⟩ := h.hand p rfl
  have hmem : ∀ j, p ∈ (s.inscom p).queue j ↔ j = .com (s.pcb p).pri := fun j => by
    simp [Db.inscom, Db.insque, mem_put, hno j]
  refine h.fromHand { Others.refl s p with
      pcb := fun k hk => by simp [hk]
      queue := fun k hk j => by simp [Db.inscom, Db.insque, mem_put, hk] }
    ⟨fun j hj => ?_, fun o ho => ?_, fun _ _ => ⟨_, (hmem _).mpr rfl⟩, by simpa using hpri, by simp, by simp [hc],
      fun hre _ k hk => ?_, fun _ => by simp [Live]⟩ (h.apart.put _ hno) (fun n => ?_)
    (h.slots.set (p := p) (f := fun P => { P with state := .com, waitime := s.abstim }) rfl)
  · rw [(hmem j).mp hj]
    simp [Pcb.Fits]
  · cases o <;> simp [hmem, Queue.ef] at ho
  · have hkp : k ≠ p := fun heq => hc (heq ▸ hk)
    simpa [hkp] using hyields hre k hk
  · by_cases hn : n = (s.pcb p).pri
    · subst hn
      simp [Db.inscom, Db.insque, Queues.put, hpri]
    · simp only [Db.inscom, Db.insque, Queues.put, BitVec.getLsbD_or, BitVec.getLsbD_shiftLeft, set_queue]
      rw [Function.update_of_ne (by simpa using hn), ← h.bits n]
      simp
      grind

theorem drop (hgone : (s.pcb p).state = .gone) (hpri : (s.pcb p).pri < 32) (hkn : ¬(s.Known p ∨ W.has p)) :
    Placed W s r none := by
  obtain ⟨hc, hno⟩ := h.hand p rfl
  refine h.fromHand (.refl s p)
    ⟨fun q hq => absurd hq (hno q), fun o ho => absurd ho (hno _), fun h => absurd hgone h, hpri,
    ?_, ?_, ?_, fun h => absurd h hkn⟩ h.apart h.bits h.slots
  all_goals simp [hgone, hc]

end hand

theorem run (h : Placed W s true (some p)) (hpri : (s.pcb p).pri < 32)
    (hmax : ∀ k ≠ p, (s.pcb k).state = .com → (s.pcb k).pri ≤ (s.pcb p).pri) :
    Placed W { s.set p (fun P => { P with state := .cur }) with curpcb := p, idle := false, login := false }
      false none where
  home k _ := by
    obtain ⟨-, hno⟩ := h.hand p rfl
    by_cases hk : k = p
    · subst hk
      exact ⟨fun q hq => absurd hq (hno q), fun o ho => absurd ho (hno _), by simp, by simpa using hpri, by simp,
        by simp [cpu], by simp, by simp [Live]⟩
    · have hk' := h.home k (by simpa using Ne.symm hk)
      have hcur : (s.pcb k).state ≠ .cur := fun hst => by simpa [cpu] using hk'.cur.mp hst
      refine ⟨by simpa [hk] using hk'.fits, hk'.waits, by simpa [hk] using hk'.queued, by simpa [hk] using hk'.pri,
        by simpa [hk] using hk'.wakepen, by simp [hk, hcur, cpu, Ne.symm hk], ?_,
        fun hkn => by simpa [Live, hk] using hk'.live hkn⟩
      simpa [hk, cpu] using fun _ => hmax k hk
  hand := nofun
  apart := h.apart
  bits := h.bits
  slots := h.slots.set (p := p) (f := fun P => { P with state := .cur }) rfl

/-! ## None in hand -/

section none
variable (h : Placed W s r none)
include h

theorem proc (p : ℕ) : Home W s (s.cpu r) p := h.home p nofun

theorem mono {W' : Ties} (hW : ∀ o, ∀ p ∈ s.queue (.ef o), W.waits p o → W'.waits p o)
    (hhas : ∀ p, W'.has p → W.has p ∨ s.Live p) : Placed W' s r none :=
  { h with home := fun p _ => { h.proc p with
    waits := fun o ho => hW o p ho ((h.proc p).waits o ho)
    live := fun hp => hp.elim (fun hk => (h.proc p).live (.inl hk)) fun hp =>
      (hhas p hp).elim (fun hp => (h.proc p).live (.inr hp)) id } }

theorem taken (hp : p ∈ s.queue q) (m : BitVec 32) (bits : ∀ n, m.getLsbD n ↔ take s.queue p (.com n) ≠ []) :
    Placed W { s.remque p with comqs := m } r (some p) :=
  h.toHand { Others.refl s p with queue := fun k hk j => by simp [Db.remque, h.apart.mem_take, hk] } (fun _ _ => nofun)
    ((h.proc p).not_cur hp) (fun _ hj => (h.apart.mem_take.mp hj).2 rfl) (h.apart.take p) bits h.slots

theorem remque (hp : p ∈ s.queue q) (hn : ∀ n, q ≠ .com n) : Placed W (s.remque p) r (some p) := by
  refine h.taken hp s.comqs fun n => ?_
  have hno : p ∉ s.queue (.com n) := fun h' => hn n (h.apart.once hp h')
  rw [h.bits n]
  simp [Queues.take, List.erase_of_not_mem hno]

theorem mem_com (hcom : (s.pcb p).state = .com) : p ∈ s.queue (.com (s.pcb p).pri) := by
  obtain ⟨q, hq⟩ := (h.proc p).queued (by simp [hcom]) (by simp [hcom])
  have := (h.proc p).fits q hq
  cases q <;> simp_all [Pcb.Fits]

theorem remcom (hcom : (s.pcb p).state = .com) : Placed W (s.remcom p) r (some p) := by
  have hp := h.mem_com hcom
  refine h.taken hp _ (bits_clearCom (s := s.remque p) (fun m hm => ?_) fun _ => ?_)
  · have hno : p ∉ s.queue (.com m) := fun h' => hm (by simpa using h.apart.once h' hp)
    simpa [Db.remque, Queues.take, List.erase_of_not_mem hno] using h.bits m
  · exact (h.bits _).mpr (List.ne_nil_of_mem hp)

theorem adopt (hgone : (s.pcb p).state = .gone) : Placed W s r (some p) := by
  have hp := h.proc p
  refine h.toHand (.refl s p) (fun _ _ => nofun) (fun hc => by simp [hp.cur.mpr hc] at hgone) (fun q hq => ?_) h.apart
    h.bits h.slots
  have := hp.fits q hq
  cases q <;> simp_all [Pcb.Fits]

end none

theorem release (h : Placed W s false none) (hidle : s.idle = false) : Placed W s true (some s.curpcb) where
  home k hk := by
    have hk' := h.proc k
    rw [cpu_of_not_idle hidle] at hk'
    exact { hk' with
      cur := ⟨fun hst => absurd (hk'.cur.mp hst) hk, by simp [cpu]⟩
      yields := by simp [cpu] }
  hand k hk := by
    obtain rfl := Option.some.inj hk
    exact ⟨by simp [cpu], fun q hq => (h.proc _).not_cur hq (cpu_of_not_idle hidle)⟩
  apart := h.apart
  bits := h.bits
  slots := h.slots

end Placed

theorem top_eq_some {m : BitVec 32} {n i : ℕ} (h : top m n = some i) :
    m.getLsbD i ∧ ∀ j, m.getLsbD j → j < n → j ≤ i := by
  induction n with
  | zero => simp [top] at h
  | succ n ih =>
    rw [top] at h
    split_ifs at h with hn
    · obtain rfl := Option.some.inj h
      exact ⟨hn, fun j _ hj => by omega⟩
    · obtain ⟨hi, hle⟩ := ih h
      refine ⟨hi, fun j hj hlt => ?_⟩
      have : j ≠ n := fun h => hn (h ▸ hj)
      exact hle j hj (by omega)

/-- **SCH$SCHED** gives the CPU to a process none computable goes before. -/
theorem Placed.sched (h : Placed W s true none) : Placed W s.sched false none := by
  unfold Db.sched
  split
  · exact ⟨fun p _ => { h.proc p with }, nofun, h.apart, h.bits, h.slots⟩
  · rename_i n hn
    obtain ⟨hbit, hmax⟩ := top_eq_some hn
    split
    · rename_i hnil
      exact absurd hnil ((h.bits n).mp hbit)
    · rename_i p ps hps
      have hmem : p ∈ s.queue (.com n) := by simp [hps]
      have hqueue := h.apart.take_head hps
      have hand := h.taken hmem _ (bits_clearCom (s := s.remque p) (k := n)
        (fun m hm => by simpa [Db.remque, hqueue, hm] using h.bits m) fun _ => hbit)
      simp only [Db.remque, hqueue] at hand
      refine hand.run (h.proc p).pri fun k _ hk => ?_
      have := hmax _ ((h.bits _).mpr (List.ne_nil_of_mem (h.mem_com hk))) (h.proc k).pri
      exact ((h.proc p).fits _ hmem).2 ▸ this

theorem Placed.dispatch (h : Placed W s false none) (hidle : s.idle) : Placed W s.sched false none := by
  have hcpu : s.cpu true = s.cpu false := by simp [cpu, hidle]
  exact sched ⟨fun p _ => hcpu ▸ h.proc p, by simp, h.apart, h.bits, h.slots⟩

end Db

end Sched
