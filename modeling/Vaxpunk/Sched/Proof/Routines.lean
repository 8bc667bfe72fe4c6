/-
  The scheduler's routines keep its database (`Db.Placed`).
-/
import Vaxpunk.Sched.Proof.Placed

namespace Sched

namespace Db

variable {W : Ties} {s : Db} {d : Option ℕ} {r : Bool} {p k n : ℕ} {q : Queue} {f : Pcb → Pcb}

@[simp] theorem makecom_pcb : (s.makecom p).pcb = (s.inscom p).pcb := by
  unfold makecom
  extract_lets
  split_ifs <;> rfl

theorem wakepcb_state (s : Db) (p : ℕ) : ((s.wakepcb p).pcb p).state = .com ∨ ((s.wakepcb p).pcb p).state = .susp := by
  unfold wakepcb
  extract_lets
  split_ifs
  · exact .inr (by simp [suspend, insque])
  · exact .inl (by simp)

theorem wakepcb_other (s : Db) (hk : k ≠ p) : (s.wakepcb p).pcb k = s.pcb k := by
  unfold wakepcb
  extract_lets t
  split_ifs
  · simp [suspend, insque, hk, t]
  · simp [hk, t]

/-- A priority: no more than the running process has, unless it is to lose the CPU. -/
def Modest (s : Db) (r : Bool) (n : ℕ) : Prop :=
  n < 32 ∧ ∀ k, s.cpu r = some k → s.Settled → n ≤ (s.pcb k).pri

namespace Placed

theorem ite {c : Prop} [Decidable c] {t : Db} (ht : c → Placed W t r d) (hs : Placed W s r d) :
    Placed W (if c then t else s) r d := by
  split_ifs with hc
  exacts [ht hc, hs]

theorem request (h : Placed W s r d) : Placed W { s with resched := true } r d :=
  ⟨fun p hp => { h.home p hp with yields := fun hs => nomatch hs.1 }, h.hand, h.apart, h.bits, h.slots⟩

section hand
variable (h : Placed W s r (some p)) (hpri : (s.pcb p).pri < 32)
include h hpri

theorem makecom : Placed W (s.makecom p) r none := by
  unfold Db.makecom
  extract_lets t
  split_ifs with hgt
  · exact h.request.inscom hpri fun hs => nomatch hs.1
  · refine h.inscom hpri fun _ k hk => ?_
    have hkp : k ≠ p := fun heq => (h.hand p rfl).1 (heq ▸ hk)
    rw [show t.curpcb = k from cpu_eq hk] at hgt
    simpa [t, hkp] using hgt

theorem suspend : Placed W (s.suspend p) r none :=
  (h.setHand (fun P => { P with state := .susp }) rfl).insque (q := .susp) (by simp [Pcb.Fits])
    (by rintro (_ | _) ⟨⟩) nofun
    (by simpa using hpri) (by simp) nofun

end hand

theorem wakepcbHand (h : Placed W (s.remque p) r (some p)) (hpri : (s.pcb p).pri < 32) :
    Placed W (s.wakepcb p) r none := by
  unfold Db.wakepcb
  extract_lets t
  split_ifs
  · exact (h.setHand (fun P => { P with suspen := false }) rfl).suspend (by simpa using hpri)
  · exact h.makecom hpri

section none
variable (h : Placed W s r none)
include h

theorem free (i : ℕ) : Placed W { s with pcbvec := Function.update s.pcbvec i none } r none := by
  have hfree : ∀ j p, Function.update s.pcbvec i none j = some p → s.pcbvec j = some p := fun j p hj => by
    by_cases hji : j = i <;> simp_all
  exact ⟨fun p _ => { h.proc p with
      live := fun hk => (h.proc p).live (hk.imp_left (·.imp id fun ⟨j, hj⟩ => ⟨j, hfree j p hj⟩)) },
    h.hand, h.apart, h.bits, h.slots.1, fun j p hj => h.slots.2 j p (hfree j p hj)⟩

theorem set (p : ℕ) (f : Pcb → Pcb) (hpid : (f (s.pcb p)).pid = (s.pcb p).pid)
    (hstate : (f (s.pcb p)).state = (s.pcb p).state) (hlt : (f (s.pcb p)).pri < 32)
    (hwake : (s.pcb p).state = .hib → (f (s.pcb p)).wakepen = false)
    (hpri : (s.pcb p).state = .com → (f (s.pcb p)).pri = (s.pcb p).pri)
    (hcur : s.cpu r = some p → s.Settled → ∀ k, (s.pcb k).state = .com → (s.pcb k).pri ≤ (f (s.pcb p)).pri) :
    Placed W (s.set p f) r none where
  home k _ := by
    have hp := h.proc p
    by_cases hk : k = p
    · subst hk
      refine ⟨fun q hq => ?_, hp.waits, by simpa [hstate] using hp.queued, by simpa using hlt,
        by simpa [hstate] using hwake,
        by simpa [hstate] using hp.cur, fun hre hcom j hj => ?_, fun hkn => by simpa [Live, hstate] using hp.live hkn⟩
      · rw [set_pcb, if_pos rfl]
        exact Fits.congr hstate hpri (hp.fits q hq)
      · simp only [set_pcb, if_true, hstate] at hcom ⊢
        have hjk : j ≠ k := fun heq => by simp [hp.cur.mpr (heq ▸ hj)] at hcom
        rw [if_neg hjk, hpri hcom]
        exact hp.yields hre hcom j hj
    · exact (h.proc k).other (.set s p f) hk fun hc hre hcom => by simpa using hcur hc hre k hcom
  hand := nofun
  apart := h.apart
  bits := h.bits
  slots := h.slots.set hpid

theorem keep (p : ℕ) (f : Pcb → Pcb) (hpid : (f (s.pcb p)).pid = (s.pcb p).pid)
    (hstate : (f (s.pcb p)).state = (s.pcb p).state)
    (hpri : (f (s.pcb p)).pri = (s.pcb p).pri) (hwake : (s.pcb p).state = .hib → (f (s.pcb p)).wakepen = false) :
    Placed W (s.set p f) r none :=
  h.set p f hpid hstate (hpri ▸ (h.proc p).pri) hwake (fun _ => hpri)
    fun hc hre k hk => hpri ▸ (h.proc k).yields hre hk p hc

theorem setPri (p : ℕ) (hlt : n < 32) (hcom : (s.pcb p).state ≠ .com)
    (hcur : s.cpu r = some p → s.Settled → ∀ k, (s.pcb k).state = .com → (s.pcb k).pri ≤ n) :
    Placed W (s.set p fun P => { P with pri := n }) r none :=
  h.set p _ rfl rfl hlt (h.proc p).wakepen (fun h => absurd h hcom) hcur

/-! ## Computable processes -/

theorem mem_wait (hst : (s.pcb p).state ∉ [.gone, .cur, .com]) : ∃ q, p ∈ s.queue q ∧ ∀ n, q ≠ .com n := by
  simp only [List.mem_cons, List.not_mem_nil, or_false, not_or] at hst
  obtain ⟨q, hq⟩ := (h.proc p).queued hst.1 hst.2.1
  exact ⟨q, hq, fun n hn => hst.2.2 ((h.proc p).fits (.com n) (hn ▸ hq)).1⟩

theorem wakepcb (hst : (s.pcb p).state ∉ [.gone, .cur, .com]) : Placed W (s.wakepcb p) r none := by
  obtain ⟨q, hq, hn⟩ := h.mem_wait hst
  exact (h.remque hq hn).wakepcbHand (h.proc p).pri

theorem wake (p : ℕ) : Placed W (s.wake p) r none := by
  unfold Db.wake
  extract_lets t
  split_ifs with hhib
  · have hhib : (s.pcb p).state = .hib := by simpa [t] using hhib
    obtain ⟨q, hq, hn⟩ := h.mem_wait (p := p) (by simp [hhib])
    exact wakepcbHand (s := t) ((h.remque hq hn).setHand (fun P => { P with wakepen := true }) rfl)
      (by simpa [t] using (h.proc p).pri)
  · exact h.keep p _ rfl rfl rfl fun hst => absurd (by simpa [t] using hst) hhib

/-! ## Priorities -/

theorem boost (p cls : ℕ) : Placed W (s.boost p cls) r none := by
  unfold Db.boost
  extract_lets P pri
  split_ifs with hc
  · exact h
  · obtain ⟨hcom, hcur, -⟩ := not_or.mp hc |>.imp_right not_or.mp
    exact h.setPri p (by simp only [pri]; omega) hcom fun hc => absurd ((h.proc p).cur.mpr hc) hcur

theorem scanPri_modest (hn : s.scanPri = some n) : Modest s r n := by
  unfold scanPri at hn
  extract_lets P high at hn
  have hhigh : Modest s r high := by
    cases htop : top s.comqs 16 with
    | none => simp [high, htop, Modest]
    | some i =>
      obtain ⟨j, hj⟩ := List.exists_mem_of_ne_nil _ ((h.bits i).mp (top_eq_some htop).1)
      obtain ⟨hcom, rfl⟩ := (h.proc j).fits _ hj
      simp only [high, htop, Option.getD_some]
      exact ⟨(h.proc j).pri, fun k hk hre => (h.proc j).yields hre hcom k hk⟩
  split_ifs at hn
  all_goals obtain rfl := Option.some.inj hn
  · exact hhigh
  · refine ⟨max_lt (h.proc _).pri hhigh.1, fun k hk hre => max_le ?_ (hhigh.2 k hk hre)⟩
    rw [← cpu_eq hk]

theorem scanSlot (hn : Modest s r n) (i : ℕ) : Placed W (s.scanSlot n i) r none ∧ Modest (s.scanSlot n i) r n := by
  unfold Db.scanSlot
  split
  · exact ⟨h, hn⟩
  · rename_i p _
    extract_lets P
    split_ifs with hp
    · have hand := h.remcom hp.1
      have hle : ∀ k, s.cpu r = some k → s.Settled → k ≠ p ∧ n ≤ (s.pcb k).pri := fun k hk hre =>
        ⟨fun heq => (hand.hand p rfl).1 (heq ▸ hk), hn.2 k hk hre⟩
      refine ⟨(hand.setHand (fun P => { P with pri := n }) rfl).inscom (by simpa using hn.1) fun hre k hk => ?_, hn.1,
        fun k hk hre => ?_⟩
      all_goals
        obtain ⟨hkp, hle⟩ := hle k hk hre
        simpa [hkp] using hle
    · exact ⟨h, hn⟩

theorem pixscan : Placed W s.pixscan r none := by
  unfold Db.pixscan
  split
  · exact h
  · rename_i n hn
    exact (List.foldlRecOn (motive := fun t => Placed W t r none ∧ Modest t r n) _ _ ⟨h, h.scanPri_modest hn⟩
      fun _ ht i _ => ht.1.scanSlot ht.2 i).1

theorem qend (hp : (s.pcb p).state = .cur) : Placed W (s.qend p) r none := by
  have hq : Placed W (s.set p fun P => { P with quant := -s.quantum }) r none :=
    h.keep p _ rfl rfl rfl (h.proc p).wakepen
  unfold Db.qend
  extract_lets t P pri u
  split_ifs with hrt hge
  · exact hq
  all_goals
    have hlt : pri < 32 := by
      have : (t.pcb p).pri < 32 := (hq.proc p).pri
      simp only [pri]
      split_ifs <;> omega
    have hcom : (t.pcb p).state ≠ .com := by simp [t, hp]
  · exact hq.request.setPri p hlt hcom fun _ hs => nomatch hs.1
  · refine hq.setPri p hlt hcom fun _ _ k hk => ?_
    have hbit := Nat.ge_two_pow_of_testBit ((hq.bits _).mpr (List.ne_nil_of_mem (hq.mem_com (p := k) hk)))
    have hlt : 2 ^ (t.pcb k).pri < 2 ^ pri := lt_of_le_of_lt hbit (not_le.mp hge)
    exact ((Nat.pow_lt_pow_iff_right (by norm_num)).mp hlt).le

theorem tick (second : Bool) : Placed W (s.tick second) r none := by
  unfold Db.tick
  extract_lets t
  have h' : Placed W t r none := ⟨fun p _ => { h.proc p with }, nofun, h.apart, h.bits, h.slots⟩
  split_ifs
  exacts [h'.keep t.curpcb _ rfl rfl rfl (h'.proc _).wakepen, h']

/-! ## Services -/

theorem resume (p : ℕ) : Placed W (s.resume p) r none := by
  unfold Db.resume
  split_ifs with hsusp
  exacts [h.wakepcb (by simp [hsusp]), h.keep p _ rfl rfl rfl (h.proc p).wakepen]

theorem setLogin (hcur : (s.pcb s.curpcb).state = .cur) (pri : ℕ) : Placed W (s.setLogin pri) r none := by
  have h' : Placed W { s with login := true } r none :=
    ⟨fun p hp => { h.home p hp with yields := fun hs => nomatch hs.2 }, h.hand, h.apart, h.bits, h.slots⟩
  exact h'.set s.curpcb (fun P => { P with pri := pri % 32, prib := pri % 32 }) rfl rfl (Nat.mod_lt _ (by norm_num))
    (h.proc _).wakepen (fun hc => by simp [hcur] at hc) fun _ hs => nomatch hs.2

theorem setpri (p pri : ℕ) : Placed W (s.setpri p pri) r none := by
  have h' : Placed W (s.set p fun P => { P with prib := pri % 32 }) r none := h.keep p _ rfl rfl rfl (h.proc p).wakepen
  have hlt : pri % 32 < 32 := Nat.mod_lt _ (by norm_num)
  unfold Db.setpri
  extract_lets n t u
  split_ifs with hcom hcur
  · exact ((h'.remcom hcom).setHand (fun P => { P with pri := n }) rfl).makecom (by simpa using hlt)
  · exact h'.request.setPri p hlt hcom fun _ hs => nomatch hs.1
  · exact h'.setPri p hlt hcom fun hc => absurd (cpu_eq hc).symm hcur

theorem enter (hgone : (s.pcb p).state = .gone) {P : Pcb} {i : ℕ} (hpri : P.pri < 32) (hpid : P.pid % 2 ^ 16 = i) :
    Placed W ((s.enter p i P).makecom p) r none := by
  have hand := h.adopt hgone
  have hkn : ∀ k, s.Known k → k ≠ p := fun k hk heq => ((h.proc k).live (.inl hk)).1 (heq ▸ hgone)
  refine makecom (hand.toHand { Others.refl s p with
      pcb := fun k hk => by simp [Db.enter, hk]
      known := fun k hk hkn => hkn.imp id fun ⟨j, hj⟩ => ⟨j, ?_⟩ }
    (fun k hk => by simpa using hk.symm) (hand.hand p rfl).1
    (hand.hand p rfl).2 h.apart h.bits ⟨h.slots.1, fun j k hj => ?_⟩) (by simpa [Db.enter] using hpri)
  · by_cases hji : j = i
    · simp [Db.enter, hji, Ne.symm hk] at hj
    · simpa [Db.enter, hji] using hj
  · by_cases hji : j = i
    · obtain rfl : p = k := by simpa [Db.enter, hji] using hj
      simpa [Db.enter, hji] using hpid
    · have hj : s.pcbvec j = some k := by simpa [Db.enter, hji] using hj
      simpa [Db.enter, hkn k (.inr ⟨j, hj⟩)] using h.slots.2 j k hj

end none

theorem woken_not_mem (h : Placed W (s.wakepcb p) r none) (o : Option ℕ) : p ∉ (s.wakepcb p).queue (.ef o) := by
  intro hp
  have := (h.proc p).fits _ hp
  cases o <;> rcases wakepcb_state s p with hst | hst <;> simp [Pcb.Fits, Queue.ef, hst] at this

/-! ## The CPU -/

section cpu
variable (h : Placed W s false none) (hidle : s.idle = false)
include h hidle

theorem cur_state : (s.pcb s.curpcb).state = .cur := (h.proc _).cur.mpr (cpu_of_not_idle hidle)

theorem block {st : State} (hfits : Pcb.Fits { s.pcb s.curpcb with state := st } q)
    (hW : ∀ o, q = .ef o → W.waits s.curpcb o)
    (hn : ∀ n, q ≠ .com n) (hdel : q ≠ .del) (hwake : st = .hib → (s.pcb s.curpcb).wakepen = false) :
    Placed W ((s.set s.curpcb fun P => { P with state := st }).block q) false none :=
  (((h.release hidle).setHand (fun P => { P with state := st }) rfl).insque (by simpa using hfits) hW hn
    (by simpa using (h.proc _).pri) (by simpa using hwake) fun h => absurd h hdel).sched

theorem reschedule : Placed W s.reschedule false none := by
  have h' : Placed W { s with resched := false } true (some s.curpcb) :=
    ⟨fun p hp => { (h.release hidle).home p hp with yields := by simp [cpu] }, (h.release hidle).hand, h.apart, h.bits,
      h.slots⟩
  exact (h'.inscom (h.proc _).pri (by simp [cpu])).sched

theorem suspnd (p : ℕ) : Placed W (s.suspnd p) false none := by
  unfold Db.suspnd
  split_ifs with hswp hself hcom hsusp
  · exact h
  · subst hself
    exact ((h.release hidle).suspend (h.proc _).pri).sched
  · exact (h.remcom hcom).suspend (h.proc p).pri
  · exact h
  · exact h.keep p _ rfl rfl rfl (h.proc p).wakepen

end cpu

end Placed

end Db

end Sched
