/-
  Requests on a queue are granted in order, and new locks only when no
  conversion is queued.
-/
import Vaxpunk.Lock.Proof.Refine

namespace Lock

open List

variable {s s' : Db} {l r w a b : ℕ} {q : LkbState} {ok : Db → Request → Prop} {env : Env}

/-! ## What an act does to a queue of requests -/

/-- A request of `l` is granted or gone. -/
inductive Event.Ends (l : ℕ) : Event → Prop where
  | granted (was : LkbState) (cv : List ℕ) : Ends l (.granted l was cv)
  | left (was : LkbState) : Ends l (.left l was)

/-- What an act adds to the log, and what it does to queue `q` of `r`: a
    request comes at the end, or ends. -/
inductive Turn (s s' : Db) (r : ℕ) (q : LkbState) : Prop where
  | arrives (t : List ℕ) (hlog : s'.core.log = s.core.log)
      (hq : (s'.rs r).queue q = (s.rs r).queue q ++ t)
  | ends (l : ℕ) (e : Event) (he : e.Ends l) (hlog : s'.core.log = s.core.log ++ [e])
      (hhead : ∀ was cv, e = .granted l was cv → l ∈ (s.rs r).queue q → ((s.rs r).queue q).head? = some l)
      (hq : (s'.rs r).queue q = (s.rs r).queue q ∨ (s'.rs r).queue q = ((s.rs r).queue q).erase l)

theorem Turn.same (hlog : s'.core.log = s.core.log) (hq : (s'.rs r).queue q = (s.rs r).queue q) :
    Turn s s' r q := .arrives [] hlog (by simp [hq])

theorem Turn.congr {t : Db} (h : s'.core = t.core) (ht : Turn s t r q) : Turn s s' r q := by
  have hq : (s'.rs r).queue q = (t.rs r).queue q := by rw [queue_of_core h]
  cases ht with
  | arrives u hlog hu => exact .arrives u (h ▸ hlog) (hq.trans hu)
  | ends l e he hlog hhead hu => exact .ends l e he (h ▸ hlog) hhead (hq ▸ hu)

/-- **Every act is a turn of every queue of requests.** -/
theorem turn_of_act (hs : Struct s) (hq : q ≠ .granted) (h : Act w ok s s') : Turn s s' r q := by
  have hmove : ∀ {l f}, LkbState.granted ≠ (s.lk l).state →
      ((moveTo s l .granted f).rs r).queue q = (s.rs r).queue q ∨
      ((moveTo s l .granted f).rs r).queue q = ((s.rs r).queue q).erase l := by
    intro l f hl
    rw [queue_moveTo hl, if_neg (fun h => hq h.2)]
    split_ifs
    exacts [.inr rfl, .inl rfl]
  cases h with
  | rest h => exact .congr h (.same rfl rfl)
  | grant l cv hl hst hhead _ _ h =>
    refine .congr h (.ends l (.granted l (s.lk l).state cv) (.granted _ _) ?_ ?_ (hmove hst.symm))
    · exact congrArg Db.log (core_emit_move rfl)
    · intro was cv' _ hmem
      obtain ⟨-, rfl, rfl⟩ := (hs.on l r q).mp hmem
      exact hhead
  | convert l mode hl hst _ _ h => exact .congr h (.same rfl rfl)
  | queue l mode hl hst _ _ h =>
    have hne : LkbState.converting ≠ (s.lk l).state := by simp [hst]
    refine .congr h (.arrives (if r = (s.lk l).rsb ∧ q = .converting then [l] else []) rfl ?_)
    rw [queue_moveTo hne, hst]
    split_ifs with h1 h2
    · rw [h1.2]
    · exact absurd h2.2 hq
    · simp
  | giveUp l hl hst h =>
    refine .congr h (.ends l (.left l .converting) (.left _) ?_ (by simp) (hmove (by simp [hst])))
    exact congrArg Db.log (core_emit_move rfl)
  | remove l hl _ h =>
    refine .congr h (.ends l (.left l (s.lk l).state) (.left _) ?_ (by simp) ?_)
    · have hlog : (remove s l).log = s.log ++ [.left l (s.lk l).state] := log_countSub
      simp [Db.core, hlog, Event.isMove]
    · rw [queue_remove]
      split_ifs
      exacts [.inr rfl, .inl rfl]
  | grantNew l L i max _ hst _ _ _ _ h =>
    refine .congr h (.same ?_ ?_)
    · have hlog : (add s l L i max).log = s.log := log_countSub
      simp [Db.core, hlog]
    · rw [queue_add, if_neg (fun h => hq (h.2.trans hst))]
  | queueNew l L i max _ hst _ _ _ h =>
    refine .congr h (.arrives (if r = L.rsb ∧ q = L.state then [l] else []) ?_ ?_)
    · have hlog : (add s l L i max).log = s.log := log_countSub
      simp [Db.core, hlog]
    · rw [queue_add]
      split_ifs <;> simp
  | make x R _ hfresh hempty _ h =>
    refine .congr h (.same rfl ?_)
    by_cases hx : r = x
    · subst hx
      simp [make, hempty, hs.queue_empty hfresh]
    · simp [make, hx]
  | free x h =>
    refine .congr h ?_
    unfold freeRsb
    dsimp only
    split_ifs
    exacts [.same rfl rfl, .same rfl rfl]
  | tick l _ _ h | search l _ _ h => exact .congr h (.same rfl rfl)

/-! ## First in, first out -/

/-- `a` is ahead of `b`, and nothing has been granted to `b` since the log was
    `log`. -/
structure Ahead (r : ℕ) (q : LkbState) (a b : ℕ) (log : List Event) (s : Db) : Prop where
  order : [a, b].Sublist ((s.rs r).queue q)
  since : ∃ es, s.core.log = log ++ es ∧ ∀ was cv, .granted b was cv ∉ es

/-- The request of `a` ended, or that of `b` without being granted, before
    anything was granted to `b`. -/
def Over (a b : ℕ) (log : List Event) (s : Db) : Prop :=
  ∃ es e es', s.core.log = log ++ es ++ e :: es' ∧ (∀ was cv, .granted b was cv ∉ es) ∧
    (e.Ends a ∨ ∃ was, e = .left b was)

variable {log : List Event}

theorem Ahead.act (hs : Struct s) (hq : q ≠ .granted) (h : Ahead r q a b log s)
    (hact : Act w ok s s') : Ahead r q a b log s' ∨ Over a b log s' := by
  obtain ⟨horder, es, hlog, hes⟩ := h
  have hnodup := hs.nodup r q
  have hab : a ≠ b := by
    have := hnodup.sublist horder
    simpa using this
  cases turn_of_act (r := r) hs hq hact with
  | arrives t hlog' hq' =>
    exact .inl ⟨hq' ▸ horder.trans (sublist_append_left _ _), es, hlog'.trans hlog, hes⟩
  | ends l e he hlog' hhead hq' =>
    have hlog'' : s'.core.log = log ++ es ++ [e] := by rw [hlog', hlog]
    by_cases hla : l = a
    · exact .inr ⟨es, e, [], hlog'', hes, .inl (hla ▸ he)⟩
    by_cases hlb : l = b
    · subst hlb
      cases he with
      | left was => exact .inr ⟨es, _, [], hlog'', hes, .inr ⟨was, rfl⟩⟩
      | granted was cv =>
        -- the first of the queue is not behind another
        have hhead := hhead was cv rfl (horder.subset (by simp))
        cases hqueue : (s.rs r).queue q with
        | nil => simp [hqueue] at hhead
        | cons x t =>
          rw [hqueue] at hhead horder hnodup
          obtain rfl : x = l := by simpa using hhead
          rw [sublist_cons_iff] at horder
          rcases horder with h | ⟨u, hu, h⟩
          · exact absurd (h.subset (by simp)) (nodup_cons.mp hnodup).1
          · obtain ⟨rfl, -⟩ := List.cons.inj hu
            exact absurd rfl hab
    · refine .inl ⟨?_, es ++ [e], by rw [hlog'', append_assoc], ?_⟩
      · rcases hq' with hq' | hq'
        · exact hq' ▸ horder
        · have herase := horder.erase l
          rw [erase_of_not_mem (by simp [hla, hlb])] at herase
          exact hq' ▸ herase
      · intro was cv hmem
        rcases mem_append.mp hmem with h | h
        · exact hes was cv h
        · cases he <;> simp_all

theorem Over.act (hs : Struct s) (h : Over a b log s) (hact : Act w ok s s') : Over a b log s' := by
  obtain ⟨es, e, es', hlog, hes, he⟩ := h
  cases turn_of_act (r := 0) (q := .waiting) hs (by decide) hact with
  | arrives _ hlog' _ => exact ⟨es, e, es', hlog'.trans hlog, hes, he⟩
  | ends l e' _ hlog' => exact ⟨es, e, es' ++ [e'], by simp [hlog', hlog], hes, he⟩

variable {was : LkbState} {cv : List ℕ}

theorem moves_eq {pre post : List Event} (hlog : s'.log = s.log ++ pre ++ .granted b was cv :: post) :
    s'.core.log = s.core.log ++ (pre.filter Event.isMove ++
      .granted b was cv :: post.filter Event.isMove) := by
  change s'.log.filter Event.isMove = s.log.filter Event.isMove ++ _
  rw [hlog, filter_append, filter_append, filter_cons_of_pos rfl, append_assoc]

theorem exists_ends_of_over {pre post : List Event} (hab : a ≠ b)
    (h : Over a b s.core.log s') (hlog : s'.log = s.log ++ pre ++ .granted b was cv :: post)
    (hleft : ∀ was, .left b was ∉ pre) : ∃ e ∈ pre, e.Ends a := by
  obtain ⟨es, e, es', hover, hes, he⟩ := h
  rw [moves_eq hlog, append_assoc, append_cancel_left_eq] at hover
  rcases append_eq_append_iff.mp hover with ⟨u, hu, hrest⟩ | ⟨u, hu, hrest⟩
  · -- the grant to `b` comes at or before `e`
    cases u with
    | nil =>
      obtain ⟨rfl, -⟩ := List.cons.inj hrest
      rcases he with he | ⟨_, he⟩
      · cases he
        exact absurd rfl hab
      · cases he
    | cons x u =>
      obtain ⟨rfl, -⟩ := List.cons.inj hrest
      exact absurd (hu ▸ by simp) (hes was cv)
  · cases u with
    | nil =>
      obtain ⟨rfl, -⟩ := List.cons.inj hrest
      rcases he with he | ⟨_, he⟩
      · cases he
        exact absurd rfl hab
      · cases he
    | cons x u =>
      obtain ⟨rfl, -⟩ := List.cons.inj hrest
      have hmem : e ∈ pre := mem_of_mem_filter (p := Event.isMove) (by rw [hu]; simp)
      rcases he with he | ⟨was', rfl⟩
      · exact ⟨e, hmem, he⟩
      · exact absurd hmem (hleft was')

/-- Requests for new locks were granted when no conversion was queued. -/
def NewAfterConversions (s : Db) : Prop := ∀ l cv, .granted l .waiting cv ∈ s.log → cv = []

theorem newAfterConversions_act (h : NewAfterConversions s) (hact : Act w ok s s') :
    NewAfterConversions s' := by
  have hcore : ∀ t : Db, NewAfterConversions t ↔ ∀ l cv, .granted l .waiting cv ∈ t.core.log → cv = [] := by
    intro t
    simp [NewAfterConversions, Db.core, Event.isMove]
  have hsame : ∀ t : Db, s'.core = t.core → t.log = s.log → NewAfterConversions s' := by
    intro t ht hlog
    rw [hcore, ht, ← hcore]
    exact fun l cv hmem => h l cv (hlog ▸ hmem)
  have hleft : ∀ (t : Db) l was, s'.core = t.core → t.log = s.log ++ [.left l was] →
      NewAfterConversions s' := by
    intro t l was ht hlog
    rw [hcore, ht, ← hcore]
    intro l' cv hmem
    rw [hlog] at hmem
    exact h l' cv (by simpa using hmem)
  cases hact with
  | rest h' => exact hsame s h' rfl
  | grant l cv hl hst hhead hcv hg h' =>
    rw [hcore, h', ← hcore]
    intro l' cv' hmem
    rcases mem_append.mp hmem with hmem | hmem
    · exact h l' cv' hmem
    · simp only [mem_singleton, Event.granted.injEq] at hmem
      obtain ⟨-, hst, rfl⟩ := hmem
      exact (hcv hst.symm).2
  | convert l mode _ _ _ _ h' => exact hsame _ h' rfl
  | queue l mode _ _ _ _ h' => exact hsame _ h' rfl
  | giveUp l _ _ h' => exact hleft _ l .converting h' rfl
  | remove l _ _ h' => exact hleft _ l (s.lk l).state h' log_countSub
  | grantNew l L i max _ _ _ _ _ _ h' => exact hsame _ h' log_countSub
  | queueNew l L i max _ _ _ _ _ h' => exact hsame _ h' log_countSub
  | make x R _ _ _ _ h' => exact hsame _ h' rfl
  | free x h' =>
    refine hsame _ h' ?_
    unfold freeRsb
    dsimp only
    split_ifs <;> rfl
  | tick l _ _ h' => exact hsame _ h' rfl
  | search l _ _ h' => exact hsame _ h' rfl

/-- **First in, first out**: of two requests on a queue, the one behind isn't
    granted before the one ahead is granted or gone, unless it is gone itself;
    and a new lock that waits isn't granted while a conversion is queued. -/
theorem granted_in_order (h : Reached env anyCall s) :
    (∀ r q a b, q ≠ .granted → [a, b].Sublist ((s.rs r).queue q) → ∀ s', Run env anyCall s s' →
      ∀ pre was cv post, s'.log = s.log ++ pre ++ .granted b was cv :: post →
        (∀ was, .left b was ∉ pre) → ∃ e ∈ pre, e.Ends a) ∧
    NewAfterConversions s := by
  have hs := h.struct
  constructor
  · intro r q a b hq horder s' hrun pre was cv post hlog hleft
    have hab : a ≠ b := by simpa using (hs.nodup r q).sublist horder
    have hahead : Ahead r q a b s.core.log s := ⟨horder, [], by simp, by simp⟩
    have hstep : ∀ t t', Struct t → Ahead r q a b s.core.log t ∨ Over a b s.core.log t →
        Act env.waittime anyRequest t t' → Ahead r q a b s.core.log t' ∨ Over a b s.core.log t' :=
      fun t t' ht hP hact => hP.elim (fun h => h.act ht hq hact) fun h => .inr (h.act ht hact)
    obtain ⟨-, hend⟩ := Run.keep hrun (fun _ _ _ => Call.asks_any) hstep hs (.inl hahead)
    rcases hend with hahead | hover
    · obtain ⟨-, es, hes, hno⟩ := hahead
      rw [moves_eq hlog, append_cancel_left_eq] at hes
      exact absurd (hes ▸ by simp) (hno was cv)
    · exact exists_ends_of_over hab hover hlog hleft
  · exact h.keep_any (P := NewAfterConversions) (fun _ _ _ hP hact => newAfterConversions_act hP hact)
      (by simp [NewAfterConversions, Db.empty])

/-- The shared lock goes, and then the one that was granted. -/
def goneCalls : List Call :=
  [.deqall 1 0 none false 0, .deqall 2 0 none false 0, .deqall 3 0 none false 0]

theorem granted_in_order_waiting : ∃ e ∈ ([.left 11 .granted, .left 12 .granted, .granted 13 .waiting [],
    .qpost 103 .normal none, .left 13 .granted] : List Event), e.Ends 13 :=
  (granted_in_order reached_waiting).1 1 .waiting 13 14 nofun (by decide +kernel)
    (after ⟨10, 100⟩ goneCalls waiting) (run_after (by decide +kernel)) _ .waiting []
    [.qpost 104 .normal none] (by decide +kernel) (by simp)

end Lock
