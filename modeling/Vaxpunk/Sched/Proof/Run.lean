/-
  What holds in every state the executive can be in.
-/
import Vaxpunk.Sched.Proof.Calls

namespace Sched

namespace Sys

variable {swapper : ℕ} {maxprcct quantum : BitVec 16} {systime : BitVec 64} {s s' : Sys}

theorem Good.init : Good true (.init swapper maxprcct quantum systime) where
  db :=
    { home := fun p _ => by
        refine ⟨nofun, nofun, ?_, ?_, ?_, ?_, ?_, ?_⟩
        all_goals
          by_cases hp : p = swapper
          · simp_all [Sys.init, Db.Live, Db.cpu]
          · simp_all [Sys.init, Db.Known, Db.cpu, Ne.symm hp, ties, assoc, Flags.common, Flags.new]
      hand := nofun
      apart := ⟨fun _ => .nil, nofun⟩
      bits := by simp [Sys.init]
      slots := ⟨by simp [Sys.init]; omega, fun i p hi => by by_cases h1 : i = 1 <;> simp_all [Sys.init]⟩ }
  refs := ⟨nofun, fun c => ⟨by simp [Sys.init, assoc, Flags.common, Flags.new], by
    simp [Sys.init, assoc, Flags.common, Flags.new, Tally.tally]⟩⟩
  ast _ := ⟨.nil, by simp [Sys.init], rfl, .nil, by simp [Sys.init]⟩
  tim := ⟨.nil, nofun, nofun, fun _ => rfl⟩

theorem Good.service (h : Good true s) (hidle : s.db.idle = false) (hs : Service s s') : Good true s' := by
  cases hs with
  | hiber => exact h.hiber hidle ..
  | mwait => exact h.wait hidle _ rfl (by rintro (_ | _) ⟨⟩) nofun nofun nofun
  | stall => exact h.setDb (h.db.block hidle rfl (by rintro (_ | _) ⟨⟩) nofun nofun nofun)
  | suspnd => exact h.setDb (h.db.suspnd hidle ..)
  | resume => exact h.setDb (h.db.resume ..)
  | setpri => exact h.setDb (h.db.setpri ..)
  | creprc _ _ hp => exact h.creprc hp ..
  | login => exact h.setDb (h.db.setLogin (h.db.cur_state hidle) ..)
  | imgrundown => exact h.imgrundown hidle ..
  | delself _ _ hswp => exact h.delself hidle _ _ hswp
  | reap => exact h.reap
  | astdel => exact h.setAst _ (f := (·.deliver _)) ((h.ast _).deliver ..)
  | astexit => exact h.setAst _ (h.ast _).exit
  | cancel => exact h.setAst _ (f := (·.cancel _)) ((h.ast _).cancel ..)
  | setast => exact h.setAst _ (f := (·.setast _ _)) ((h.ast _).setast ..)
  | setef => exact h.setef ..
  | clref => exact h.clref hidle ..
  | efwait => exact h.efwait hidle ..
  | ascefc _ _ _ hblock => exact h.ascefc hidle _ _ hblock
  | dacefc =>
    split_ifs
    exacts [h, h.dacefc hidle ..]
  | setimr => exact h.setimr hidle ..
  | cantim => exact h.setTim (h.tim.sublist List.filter_sublist)
  | schdwk => exact h.schdwk ..
  | canwak => exact h.canwak ..

theorem Good.step (h : Good true s) (hs : Step s s') : Good true s' := by
  cases hs with
  | service _ hidle hs => exact h.service hidle hs
  | hwclkint => exact h.hwclkint
  | swtimint _ _ _ hdriver hr => exact h.swtimint hdriver hr
  | resched _ hidle => exact h.setDb (h.db.reschedule hidle)
  | dispatch hidle => exact h.setDb (h.db.dispatch hidle)
  | available _ hp => exact h.setDb (h.db.wakepcb (by simp [hp]))
  | wake => exact h.setDb (h.db.wake ..)
  | boost => exact h.setDb (h.db.boost ..)
  | delother => exact h.delother ..
  | qast => exact h.qast ..
  | instimq _ he => exact h.setTim (h.tim.instimq (by simp [he]))
  | rmvtqe => exact h.setTim (h.tim.sublist List.erase_sublist)

end Sys

namespace Reached

variable (s : Reached)

theorem good : s.sys.Good true := by
  obtain ⟨_, _, _, _, _, hr⟩ := s
  induction hr with
  | refl => exact .init
  | tail _ hs ih => exact ih.step hs

/-- **The state queues.**  A process that doesn't run is on one queue, once, and it is
    the one its state names; SCH$GL_COMQS has the bits of the COM queues with a
    process; and the process in the state CUR is the one that runs. -/
theorem on_its_queue :
    (∀ p, (s.sys.db.pcb p).state ≠ .gone → (s.sys.db.pcb p).state ≠ .cur → ∃! q, p ∈ s.sys.db.queue q) ∧
      (∀ p q, p ∈ s.sys.db.queue q → (s.sys.db.pcb p).Fits q) ∧ (∀ q, (s.sys.db.queue q).Nodup) ∧
        (∀ n, s.sys.db.comqs.getLsbD n ↔ s.sys.db.queue (.com n) ≠ []) ∧
          ∀ p, (s.sys.db.pcb p).state = .cur ↔ s.sys.db.idle = false ∧ p = s.sys.cur := by
  have h := s.good.db
  refine ⟨fun p hg hc => ?_, fun p => (h.proc p).fits, h.apart.nodup, h.bits, fun p => ?_⟩
  · obtain ⟨q, hq⟩ := (h.proc p).queued hg hc
    exact ⟨q, hq, fun q' hq' => h.apart.once hq' hq⟩
  · rw [(h.proc p).cur]
    by_cases hi : s.sys.db.idle <;> simp [Db.cpu, hi, eq_comm (a := p)]

/-- **Priorities.**  The CPU waits for a process, or a reschedule is requested, or
    EXE$LOGIN has set the current process's priority since it got the CPU, or no
    computable process has a higher priority than the current one. -/
theorem highest_runs : s.sys.db.idle ∨ s.sys.db.resched ∨ s.sys.db.login ∨
    ∀ p, (s.sys.db.pcb p).state = .com → (s.sys.db.pcb p).pri ≤ (s.sys.db.pcb s.sys.cur).pri := by
  by_contra! hno
  obtain ⟨hidle, hre, hlogin, p, hp, hlt⟩ := hno
  have hcpu := Db.cpu_of_not_idle (Bool.eq_false_of_not_eq_true hidle)
  have hsettled : s.sys.db.Settled := ⟨Bool.eq_false_of_not_eq_true hre, Bool.eq_false_of_not_eq_true hlogin⟩
  exact absurd ((s.good.db.proc p).yields hsettled hp _ hcpu) (not_le.mpr hlt)

/-- **No wait outlasts its reason.**  No process hibernates with a wakeup left to it,
    and none waits for event flags that are there, in its own clusters or a common
    one. -/
theorem waits_for_something (p : ℕ) :
    ((s.sys.db.pcb p).state = .hib → (s.sys.db.pcb p).wakepen = false) ∧
      ((s.sys.db.pcb p).state = .lef → (s.sys.flags p).met ((s.sys.flags p).own (s.sys.flags p).wefc) = false) ∧
        ((s.sys.db.pcb p).state = .cef →
          ∃ c, p ∈ s.sys.db.queue (.cef c) ∧ (s.sys.flags p).met (s.sys.ceb c).efc = false) := by
  have h := s.good.db.proc p
  refine ⟨h.wakepen, fun hst => ?_, fun hst => ?_⟩
  all_goals
    obtain ⟨q, hq⟩ := h.queued (by simp [hst]) (by simp [hst])
    have hfits := h.fits q hq
    cases q <;> simp only [Pcb.Fits, hst, reduceCtorEq, false_and] at hfits
  · exact (h.waits none hq).2
  · exact ⟨_, hq, (h.waits (some _) hq).2⟩

/-- **Slots.**  A process is in the slot of its PID's low word only; a PID finds no
    process that is deleted, nor memory that is no more a PCB; and the swapper is
    always there. -/
theorem found_is_live : (∀ i p, s.sys.db.pcbvec i = some p → (s.sys.db.pcb p).pid % 2 ^ 16 = i) ∧
    (∀ pid p, s.sys.db.find pid = some p → s.sys.db.Live p) ∧ s.sys.db.Live s.sys.db.swppcb := by
  refine ⟨s.good.db.slots.2, fun pid p hp => ?_, (s.good.db.proc _).live (.inl (.inl rfl))⟩
  unfold Db.find at hp
  split_ifs at hp
  exact (s.good.db.proc p).live (.inl (.inr ⟨_, (Option.filter_eq_some_iff.mp hp).1⟩))

/-- **The timer queue** is in the order its entries are due, and those due at one time
    are in the order they were put there; EXE$GQ_1ST_TIME, which the clock's interrupt
    compares, is when the first is, or never. -/
theorem timq_ordered : Queues.Ordered Tim.due s.sys.tim.queue ∧
    (s.sys.tim.queue.Pairwise fun a b => a.time = b.time → a.seq < b.seq) ∧
      s.sys.tim.first = Tim.firstTime s.sys.tim.queue :=
  ⟨s.good.tim.ordered.imp Tim.Before.le, s.good.tim.ordered.imp Tim.Before.seq_lt, s.good.tim.first rfl⟩

/-- **ASTs.**  A process's ACBs are queued by mode; HWPCB$B_ASTSR has the modes of
    those queued, HWPCB$B_ASTEN the modes enabled in which no AST routine runs; and
    in no mode do two AST routines run. -/
theorem ast_masks (p : ℕ) :
    Queues.Ordered Acb.rmod (s.sys.ast p).queue ∧
      (∀ m, m ∈ (s.sys.ast p).hwAstsr ↔ ∃ b ∈ (s.sys.ast p).queue, b.rmod = m) ∧
        (∀ m, m ∈ (s.sys.ast p).hwAsten ↔ m ∈ (s.sys.ast p).asten ∧ m ∉ (s.sys.ast p).running) ∧
          (s.sys.ast p).running.Nodup := by
  have h := s.good.ast p
  refine ⟨h.ordered, h.astsr, fun m => ?_, h.nodup⟩
  rw [h.asten, Finset.mem_sdiff, h.astact]

end Reached

end Sched
