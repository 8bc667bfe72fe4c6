/-
  A process's ASTs: its queue is by mode, the masks the PAL looks at say what is
  queued and what may be delivered, and no mode has two AST routines running.
-/
import Vaxpunk.Sched.Ast

namespace Sched

namespace Ast

open Queues

structure Good (a : Ast) : Prop where
  ordered : Ordered Acb.rmod a.queue
  astsr : ∀ m, m ∈ a.hwAstsr ↔ ∃ b ∈ a.queue, b.rmod = m
  asten : a.hwAsten = a.asten \ a.astact
  nodup : a.running.Nodup
  astact : ∀ m, m ∈ a.astact ↔ m ∈ a.running

variable {a : Ast}

theorem good_astbits (hordered : Ordered Acb.rmod a.queue) (hnodup : a.running.Nodup)
    (hact : ∀ m, m ∈ a.astact ↔ m ∈ a.running) : a.astbits.Good :=
  ⟨hordered, by simp [astbits], rfl, hnodup, hact⟩

theorem Good.new : Ast.new.Good := ⟨.nil, by simp [Ast.new], rfl, .nil, by simp [Ast.new]⟩

theorem Good.enqueue (h : a.Good) (b : Acb) : (a.enqueue b).Good :=
  good_astbits (h.ordered.insertAfter b) h.nodup h.astact

theorem Good.deliver (h : a.Good) (mode : ℕ) : (a.deliver mode).Good := by
  unfold Ast.deliver
  split
  · exact h
  · rename_i b hb
    have hen : b.rmod ∈ a.hwAsten := by simpa using List.find?_some hb
    have hordered : Ordered Acb.rmod (a.queue.erase b) := h.ordered.sublist List.erase_sublist
    extract_lets t
    split_ifs
    · exact good_astbits hordered h.nodup h.astact
    · -- a mode that is enabled has no routine running
      have hno : b.rmod ∉ a.running := by
        rw [h.asten, Finset.mem_sdiff, h.astact] at hen
        exact hen.2
      refine good_astbits hordered (List.nodup_cons.mpr ⟨hno, h.nodup⟩) fun m => ?_
      simp [t, astbits, h.astact]

theorem Good.exit (h : a.Good) : a.exit.Good := by
  unfold Ast.exit
  split
  · exact h
  · rename_i m ms hrun
    have hnodup := h.nodup
    rw [hrun, List.nodup_cons] at hnodup
    refine good_astbits h.ordered hnodup.2 fun k => ?_
    simp only [Finset.mem_erase, h.astact, hrun, List.mem_cons]
    grind

theorem Good.setast (h : a.Good) (mode : ℕ) (on : Bool) : (a.setast mode on).Good :=
  good_astbits h.ordered h.nodup h.astact

theorem Good.cancel (h : a.Good) (keep : Acb → Bool) : (a.cancel keep).Good :=
  good_astbits (h.ordered.sublist List.filter_sublist) h.nodup h.astact

theorem Good.flush (h : a.Good) (mode : ℕ) : (a.flush mode).Good :=
  good_astbits (h.ordered.sublist List.filter_sublist) .nil (by simp)

end Ast

end Sched
