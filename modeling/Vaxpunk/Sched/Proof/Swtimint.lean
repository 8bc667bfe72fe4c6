/-
  The software timer interrupt: what is due is served, in order and once for each time
  it is due, and nothing else.
-/
import Vaxpunk.Sched.Proof.Run

namespace Sched

open Queues List

/-! ## Processes stay -/

namespace Db

variable {s : Db} {p : ℕ}

theorem find_set {f : Pcb → Pcb} (hf : ∀ P, (f P).pid = P.pid) : (s.set p f).find = s.find := by
  have hpid : ∀ k, ((s.set p f).pcb k).pid = (s.pcb k).pid := fun k => by
    by_cases hk : k = p
    · subst hk
      simp [set, hf]
    · simp [set, hk]
  funext pid
  simp only [find, hpid]
  rfl

theorem find_wakepcb : (s.wakepcb p).find = s.find := by
  unfold wakepcb makecom
  extract_lets t u
  have hu : u.find = s.find :=
    find_set (s := t) (p := p) (f := fun P => { P with state := .com, waitime := t.abstim }) fun _ => rfl
  split_ifs
  · exact (find_set (f := fun P => { P with state := .susp }) fun _ => rfl).trans
      (find_set (s := t) (f := fun P => { P with suspen := false }) fun _ => rfl)
  exacts [hu, hu]

theorem find_wake : (s.wake p).find = s.find := by
  unfold wake
  extract_lets t
  have ht : t.find = s.find := find_set fun _ => rfl
  split_ifs
  exacts [find_wakepcb.trans ht, ht]

end Db

namespace Sys

variable {s : Sys} {driver : Tqe → List Tqe} {now : BitVec 64} {p efn : ℕ} {e : Tqe} {q : List Tqe}

theorem find_chkwake {x : BitVec 32} {db : Db} : (s.chkwake x db p).find = db.find := by
  unfold chkwake
  split_ifs
  exacts [Db.find_wakepcb, rfl]

theorem post_keeps {k : Cluster} : (s.post p efn k).tim = s.tim ∧ (s.post p efn k).db.find = s.db.find := by
  cases k with
  | own n =>
    refine ⟨rfl, ?_⟩
    change (ite _ _ s.db : Db).find = _
    split_ifs
    exacts [find_chkwake, rfl]
  | common n c =>
    exact ⟨rfl, foldlRecOn (motive := fun db : Db => db.find = s.db.find) _ _ rfl fun _ h _ _ => find_chkwake.trans h⟩

theorem qast_keeps {b : Acb} : (s.qast b).tim = s.tim ∧ (s.qast b).db.find = s.db.find := by
  unfold qast
  split
  · exact ⟨rfl, rfl⟩
  · refine ⟨rfl, ?_⟩
    change (ite _ _ s.db : Db).find = _
    split_ifs
    exacts [Db.find_wakepcb, rfl]

/-! ## Entries -/

/-- What serving an entry puts on the queue. -/
def adds (s : Sys) (driver : Tqe → List Tqe) (e : Tqe) : List Tqe :=
  if e.rqtype = .sssngl then driver e
  else if e.rqtype = .wkrept ∧ (s.db.find e.pid).isSome then [{ e with time := subq e.time e.delta }]
  else []

theorem tqexpire_spec (s : Sys) (driver : Tqe → List Tqe) (e : Tqe) :
    (s.tqexpire driver e).tim = (s.adds driver e).foldl Tim.instimq s.tim ∧
      (s.tqexpire driver e).db.find = s.db.find := by
  unfold tqexpire adds
  split
  · exact ⟨rfl, rfl⟩
  split
  · simp_all
  rename_i p hp
  split
  · rename_i htm
    extract_lets t
    have ht : t.tim = s.tim ∧ t.db.find = s.db.find := by
      simp only [t]
      split
      · exact ⟨rfl, rfl⟩
      · split_ifs
        exacts [⟨rfl, rfl⟩, post_keeps]
    rw [if_neg (c := _ ∧ _) (by simp [htm])]
    split_ifs
    exacts [⟨qast_keeps.1.trans ht.1, qast_keeps.2.trans ht.2⟩, ht]
  · simp only [hp, Option.isSome_some, and_true]
    split_ifs
    exacts [⟨rfl, Db.find_wake⟩, ⟨rfl, Db.find_wake⟩]

/-- Which entry is served, and when it is due. -/
def service (e : Tqe) : Tqe × ℕ := ({ e with time := 0, seq := 0 }, Tim.due e)

/-- TQE$Q_DELTA is negative. -/
def period (e : Tqe) : ℕ := (-e.delta).toNat

/-- The times up to `now` for which an entry is to be served, unless it is a driver's:
    all of them if it repeats and its process is there. -/
def services (find : ℕ → Option ℕ) (now : ℕ) (x : Tqe × ℕ) : List (Tqe × ℕ) :=
  if x.1.rqtype = .sssngl then []
  else if x.1.rqtype = .wkrept ∧ (find x.1.pid).isSome then
    (range' x.2 ((now + period x.1 - x.2) / period x.1) (period x.1)).map (x.1, ·)
  else if x.2 ≤ now then [x] else []

/-- No time an entry repeats at passes 2^64. -/
def Within (now : BitVec 64) (e : Tqe) : Prop := e.rqtype = .wkrept → now.toNat + period e < 2 ^ 64

theorem foldl_instimq (l : List Tqe) (t : Tim) :
    ∃ l', l'.map service = l.map service ∧ (l.foldl Tim.instimq t).queue.Perm (l' ++ t.queue) := by
  induction l generalizing t with
  | nil => exact ⟨[], rfl, .refl _⟩
  | cons e l ih =>
    obtain ⟨l', hl', hperm⟩ := ih (t.instimq e)
    refine ⟨{ e with seq := t.count } :: l', congrArg (service e :: ·) hl', hperm.trans ?_⟩
    rw [Tim.queue_instimq]
    exact (insertAfter_perm.append_left l').trans perm_middle

theorem due_repeat (he : e.time ≤ now) (hw : now.toNat + period e < 2 ^ 64) :
    Tim.due { e with time := subq e.time e.delta } = Tim.due e + period e := by
  have he : e.time.toNat ≤ now.toNat := he
  have hlt := e.delta.isLt
  simp only [Tim.due, period, subq_eq, BitVec.toNat_sub, BitVec.toNat_neg] at hw ⊢
  omega

theorem period_pos (h : Tim.Repeats e.delta) : 0 < period e := by
  have hlt := e.delta.isLt
  simp only [Tim.Repeats, BitVec.toInt_eq_toNat_cond, TICK] at h
  simp only [period, BitVec.toNat_neg]
  split_ifs at h <;> omega

theorem services_repeat {find : ℕ → Option ℕ} {now : ℕ} {x : Tqe × ℕ}
    (hr : x.1.rqtype = .wkrept ∧ (find x.1.pid).isSome) (hpos : 0 < period x.1) (hle : x.2 ≤ now) :
    services find now x = x :: services find now (x.1, x.2 + period x.1) := by
  have hs : x.1.rqtype ≠ .sssngl := by simp [hr.1]
  have hn : (now + period x.1 - x.2) / period x.1 = (now + period x.1 - (x.2 + period x.1)) / period x.1 + 1 := by
    rw [← Nat.add_div_right _ hpos]
    congr 1
    omega
  simp only [services, if_neg hs, if_pos hr, hn, range'_succ, map_cons]

theorem services_none {find : ℕ → Option ℕ} {now : ℕ} {x : Tqe × ℕ} (h : now < x.2) : services find now x = [] := by
  have hn : (now + period x.1 - x.2) / period x.1 = 0 := Nat.div_eq_zero_iff.mpr (by omega)
  simp [services, hn, h]

section
variable (hdriver : Punctual now driver) (he : e.time ≤ now) (hw : Within now e)
include hdriver he hw

theorem of_mem_adds {e' : Tqe} (h : e' ∈ s.adds driver e) : Tim.due e ≤ Tim.due e' ∧ Within now e' := by
  unfold adds at h
  split_ifs at h with hs hr
  · obtain ⟨hs', hle⟩ := hdriver e he e' h
    exact ⟨hle, fun hr => by simp [hs'] at hr⟩
  · cases mem_singleton.mp h
    exact ⟨by simp [due_repeat he (hw hr.1)], hw⟩
  · cases h

theorem services_service (hrep : e.rqtype = .wkrept → Tim.Repeats e.delta) :
    services s.db.find now.toNat (service e) = [service e].filter (·.1.rqtype ≠ .sssngl) ++
      ((s.adds driver e).map service).flatMap (services s.db.find now.toNat) := by
  have hle : Tim.due e ≤ now.toNat := he
  unfold adds
  split_ifs with hs hr
  · have hnone : ((driver e).map service).flatMap (services s.db.find now.toNat) = [] := by
      simp only [flatMap_eq_nil_iff, mem_map, forall_exists_index, and_imp]
      rintro _ e' he' rfl
      exact if_pos (hdriver e he e' he').1
    simp [hnone, services, service, hs]
  · have hnext : service { e with time := subq e.time e.delta } = ((service e).1, (service e).2 + period e) :=
      congrArg (Prod.mk _) (due_repeat he (hw hr.1))
    have hown : [service e].filter (·.1.rqtype ≠ .sssngl) = [service e] := by simp [service, hs]
    rw [services_repeat (x := service e) hr (period_pos (hrep hr.1)) hle, hown, map_singleton, hnext,
      flatMap_singleton]
    rfl
  · simp [services, service, hs, hr, hle]

end

/-- Drivers put their own entries on the queue, due after `now`. -/
def Later (now : BitVec 64) (driver : Tqe → List Tqe) : Prop :=
  ∀ e, ∀ e' ∈ driver e, e'.rqtype = .sssngl ∧ now < e'.time

theorem Later.punctual (h : Later now driver) : Punctual now driver := fun e he e' he' =>
  ⟨(h e e' he').1, Nat.le_trans he (Nat.le_of_lt (h e e' he').2)⟩

/-- A bound on the turns of the loop: no entry is served again at an earlier time. -/
def work (now : BitVec 64) (q : List Tqe) : ℕ := ((q.map service).map fun x => now.toNat + 1 - x.2).sum

theorem work_adds (hdriver : Later now driver) (he : e.time ≤ now) (hw : Within now e)
    (hrep : e.rqtype = .wkrept → Tim.Repeats e.delta) : work now (s.adds driver e) < now.toNat + 1 - Tim.due e := by
  have hle : Tim.due e ≤ now.toNat := he
  unfold adds
  split_ifs with hs hr
  · have : work now (driver e) = 0 := sum_eq_zero fun n hn => by
      obtain ⟨_, hx, rfl⟩ := mem_map.mp hn
      obtain ⟨e', he', rfl⟩ := mem_map.mp hx
      have : now.toNat < Tim.due e' := (hdriver e e' he').2
      simp only [service]
      omega
    omega
  · have := due_repeat he (hw hr.1)
    have := period_pos (hrep hr.1)
    simp only [work, service, map_cons, map_nil, sum_singleton]
    omega
  · simp only [work, map_nil, sum_nil]
    omega

/-! ## The loop -/

/-- `r` is what is served of the queue `q`, and what it leaves. -/
structure Served (now : BitVec 64) (q : List Tqe) (r : List Tqe × Sys) : Prop where
  ordered : Ordered Tim.due r.1
  due : ∀ e ∈ r.1, e.time ≤ now
  all : ∀ e ∈ q, e.time ≤ now → e ∈ r.1
  kept : ∀ e ∈ q, now < e.time → e ∈ r.2.tim.queue
  left : ∀ e ∈ r.2.tim.queue, now < e.time
  /-- No entry is served before those there at the start. -/
  above : ∀ n, (∀ e ∈ q, n ≤ Tim.due e) → ∀ e ∈ r.1, n ≤ Tim.due e
  /-- Once for each time it is due. -/
  once : ((r.1.map service).filter (·.1.rqtype ≠ .sssngl)).Perm
    ((q.map service).flatMap (services r.2.db.find now.toNat))

theorem Served.none (h : ∀ e ∈ s.tim.queue, now < e.time) : Served now s.tim.queue ([], s) := by
  have hnone : (s.tim.queue.map service).flatMap (services s.db.find now.toNat) = [] := by
    simp only [flatMap_eq_nil_iff, mem_map, forall_exists_index, and_imp]
    rintro _ e he rfl
    exact services_none (h e he)
  exact ⟨.nil, nofun, fun e he hle => absurd (h e he) (BitVec.not_lt.mpr hle), fun _ he _ => he, h, nofun,
    by simp [hnone]⟩

section
variable (h : Good false s) (hw : ∀ e ∈ s.tim.queue, Within now e)
include h hw

/-- One turn: the first entry is due, and what it puts on the queue is due no sooner. -/
theorem turn (hdriver : Punctual now driver) (hq : s.tim.queue = e :: q) (he : e.time ≤ now) :
    let t := (s.onTim fun t => { t with queue := q }).tqexpire driver e
    Good false t ∧ (∀ e' ∈ t.tim.queue, Within now e') ∧ t.db.find = s.db.find ∧
      ∃ l, l.map service = (s.adds driver e).map service ∧ t.tim.queue.Perm (l ++ q) ∧
        ∀ e' ∈ l, Tim.due e ≤ Tim.due e' := by
  intro t
  obtain ⟨htim, hfind⟩ := tqexpire_spec (s.onTim fun t => { t with queue := q }) driver e
  obtain ⟨l, hl, hperm⟩ := foldl_instimq (s.adds driver e) (s.onTim fun t => { t with queue := q }).tim
  replace hperm : t.tim.queue.Perm (l ++ q) := (List.Perm.of_eq (congrArg Tim.queue htim)).trans hperm
  rw [hq, forall_mem_cons] at hw
  have hnew : ∀ e' ∈ l, Tim.due e ≤ Tim.due e' ∧ Within now e' := fun e' he' => by
    obtain ⟨b, hb, heq⟩ := mem_map.mp (hl ▸ mem_map_of_mem he')
    obtain ⟨hdue, hwb⟩ := of_mem_adds hdriver he hw.1 hb
    exact ⟨hdue.trans_eq (congrArg Prod.snd heq), show Within now (service e').1 from heq ▸ hwb⟩
  exact ⟨h.expire (fun e' he' => (hdriver e he e' he').1) hq,
    fun e' he' => (mem_append.mp (hperm.mem_iff.mp he')).elim (fun h => (hnew e' h).2) (hw.2 e'), hfind,
    l, hl, hperm, fun e' he' => (hnew e' he').1⟩

theorem serve_served (hdriver : Punctual now driver) {fuel : ℕ} {r : List Tqe × Sys}
    (hr : serve driver now fuel s = some r) : Served now s.tim.queue r ∧ r.2.db.find = s.db.find := by
  induction fuel generalizing s r with
  | zero => cases hr
  | succ fuel ih =>
    unfold serve at hr
    split at hr
    · rename_i hq
      cases hr
      exact ⟨.none (by simp [hq]), rfl⟩
    rename_i e q hq
    have hle : ∀ e' ∈ q, Tim.due e ≤ Tim.due e' := fun e' he' =>
      (rel_of_pairwise_cons (hq ▸ h.tim.ordered) he').le
    split_ifs at hr with hgt
    · cases hr
      refine ⟨.none fun e' he' => ?_, rfl⟩
      obtain rfl | he' := mem_cons.mp (hq ▸ he')
      exacts [later_iff.mp hgt, lt_of_lt_of_le (later_iff.mp hgt) (hle e' he')]
    have he : e.time ≤ now := BitVec.not_lt.mp (later_iff.not.mp hgt)
    obtain ⟨r', hr', rfl⟩ := Option.map_eq_some_iff.mp hr
    obtain ⟨ht, hwt, hfind, l, hl, hperm, hnew⟩ := turn h hw hdriver hq he
    set t := (s.onTim fun t => { t with queue := q }).tqexpire driver e
    have hge : ∀ e' ∈ t.tim.queue, Tim.due e ≤ Tim.due e' := fun e' he' =>
      (mem_append.mp (hperm.mem_iff.mp he')).elim (hnew e') (hle e')
    have hmem : ∀ e' ∈ q, e' ∈ t.tim.queue := fun e' he' => hperm.mem_iff.mpr (mem_append_right _ he')
    obtain ⟨hs, hfind'⟩ := ih ht hwt hr'
    rw [hfind] at hfind'
    rw [hq] at hw ⊢
    refine ⟨⟨pairwise_cons.mpr ⟨hs.above _ hge, hs.ordered⟩, by simpa [he] using hs.due,
      fun e' he' hdue => ?_, fun e' he' hlate => ?_, hs.left, fun n hn e' he' => ?_, ?_⟩, hfind'⟩
    · obtain rfl | he' := mem_cons.mp he'
      exacts [mem_cons_self, mem_cons_of_mem _ (hs.all e' (hmem e' he') hdue)]
    · obtain rfl | he' := mem_cons.mp he'
      exacts [absurd hlate (BitVec.not_lt.mpr he), hs.kept e' (hmem e' he') hlate]
    · have hn' := hn e (by simp)
      obtain rfl | he' := mem_cons.mp he'
      exacts [hn', hn'.trans (hs.above _ hge e' he')]
    · -- its own service, and those of what it puts on the queue
      have hone := services_service hdriver he (hw e (by simp)) (s := s) (h.tim.repeats e (by simp [hq]))
      have hrest := hs.once.trans ((hperm.map service).flatMap_right _)
      simp only [hfind', map_cons, flatMap_cons, hone, append_assoc] at hrest ⊢
      rw [← singleton_append, filter_append]
      simpa [hl] using hrest.append_left _

theorem serve_ends (hdriver : Later now driver) {fuel : ℕ} (hfuel : work now s.tim.queue < fuel) :
    ∃ r, serve driver now fuel s = some r := by
  induction fuel generalizing s with
  | zero => cases hfuel
  | succ fuel ih =>
    unfold serve
    split
    · exact ⟨_, rfl⟩
    rename_i e q hq
    split_ifs with hgt
    · exact ⟨_, rfl⟩
    have he : e.time ≤ now := BitVec.not_lt.mp (later_iff.not.mp hgt)
    obtain ⟨ht, hwt, -, l, hl, hperm, -⟩ := turn h hw hdriver.punctual hq he
    have hlt : work now l < now.toNat + 1 - Tim.due e := by
      rw [work, hl]
      exact work_adds hdriver he (hw e (by simp [hq])) (h.tim.repeats e (by simp [hq]))
    have hwork := ((hperm.map service).map fun x => now.toNat + 1 - x.2).sum_eq
    simp only [map_append, sum_append] at hwork
    rw [hq] at hfuel
    simp only [work, map_cons, sum_cons, service] at hfuel hlt hwork
    obtain ⟨r, hr⟩ := ih ht hwt (by simp only [work]; omega)
    exact ⟨_, congrArg (Option.map _) hr⟩

end

end Sys

open Sys

/-- **The timer queue** in every state: in the order its entries are due, those due at
    one time in the order they were put there, with EXE$GQ_1ST_TIME the time of the
    first; and EXE$SWTIMINT, when it ends, has served what was due in that order, once
    for each time it was, and leaves the rest. -/
theorem Reached.timq_served (s : Reached) :
    s.sys.tim.queue.Pairwise Tim.Before ∧ s.sys.tim.first = Tim.firstTime s.sys.tim.queue ∧
      ∀ driver fuel r, Punctual s.sys.tim.systime driver → (∀ e ∈ s.sys.tim.queue, Within s.sys.tim.systime e) →
        s.sys.swtimint driver fuel = some r → Served s.sys.tim.systime s.sys.tim.queue r := by
  refine ⟨s.good.tim.ordered, s.good.tim.first rfl, fun driver fuel r hdriver hw hr => ?_⟩
  obtain ⟨r', hr', rfl⟩ := Option.map_eq_some_iff.mp hr
  exact { (serve_served s.good.start hw hdriver hr').1 with }

/-- A wakeup asked for at 40 and every 10 ms from then on, at the time 350,000. -/
def wakeupDue : Reached where
  swapper := 0
  maxprcct := 8
  quantum := 20
  boottime := 350000
  sys := (Sys.init 0 8 20 350000).schdwk 1 0 40 (some (-100000))
  run := .single (.service _ rfl (.schdwk 1 0 40 (some (-100000))))

theorem within_wakeupDue : ∀ e ∈ wakeupDue.sys.tim.queue, Within wakeupDue.sys.tim.systime e := by
  unfold Within
  decide +kernel

/-- The wakeups of four times, in five turns of the loop. -/
theorem timq_served_wakeups : ∃ r, wakeupDue.sys.swtimint (fun _ => []) 5 = some r ∧
    Served 350000 wakeupDue.sys.tim.queue r ∧ r.1.map Tim.due = [40, 100040, 200040, 300040] := by
  obtain ⟨r, hr⟩ := Option.isSome_iff_exists.mp
    (show (wakeupDue.sys.swtimint (fun _ => []) 5).isSome by decide +kernel)
  have htimes : (wakeupDue.sys.swtimint (fun _ => []) 5).map (·.1.map Tim.due) =
      some [40, 100040, 200040, 300040] := by decide +kernel
  rw [hr] at htimes
  exact ⟨r, hr, wakeupDue.timq_served.2.2 _ _ r (by simp [Punctual]) within_wakeupDue hr, Option.some.inj htimes⟩

/-- **EXE$SWTIMINT ends**, if drivers put nothing on the queue that is due already, and
    has served what was due. -/
theorem Reached.swtimint_served (s : Reached) (driver : Tqe → List Tqe) (hdriver : Later s.sys.tim.systime driver)
    (hw : ∀ e ∈ s.sys.tim.queue, Within s.sys.tim.systime e) {fuel : ℕ}
    (hfuel : work s.sys.tim.systime s.sys.tim.queue < fuel) :
    ∃ r, s.sys.swtimint driver fuel = some r ∧ Served s.sys.tim.systime s.sys.tim.queue r := by
  obtain ⟨r, hr⟩ := serve_ends s.good.start hw hdriver hfuel
  exact ⟨_, congrArg (Option.map _) hr, { (serve_served s.good.start hw hdriver.punctual hr).1 with }⟩

theorem swtimint_wakes : ∃ r, wakeupDue.sys.swtimint (fun _ => []) 349962 = some r ∧
    Served 350000 wakeupDue.sys.tim.queue r ∧ r.1.map Tim.due = [40, 100040, 200040, 300040] := by
  obtain ⟨r, hr, hs⟩ := wakeupDue.swtimint_served (fun _ => []) nofun within_wakeupDue
    (show _ < 349962 by decide)
  have htimes : (wakeupDue.sys.swtimint (fun _ => []) 349962).map (·.1.map Tim.due) =
      some [40, 100040, 200040, 300040] := by decide +kernel
  rw [hr] at htimes
  exact ⟨r, hr, hs, Option.some.inj htimes⟩

end Sched
