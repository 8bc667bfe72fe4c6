/-
  The lock database between calls: resources with no lock are gone, and the lock
  ID table, the queues, the hash chains and the counts agree.  LCK$DEQALL, and UNDER
  in it, end within the fuel they have.
-/
import Vaxpunk.Lock.Proof.Refine

namespace Lock

open List

variable {s s' s'' : Db} {l r w p : ℕ} {q : LkbState} {ok : Db → Request → Prop} {env : Env}

/-! ## Resources have locks -/

/-- Every resource but those in `but` has a lock. -/
def Live (s : Db) (but : Set ℕ) : Prop := ∀ r ∈ s.rsbs, r ∉ but → ∃ l ∈ s.lkbs, (s.lk l).rsb = r

namespace Live

variable {but but' : Set ℕ}

theorem same_table (h : Live s but) (ht : SameTable s s') : Live s' but := by
  intro r hr hb
  obtain ⟨l, hl, hlr⟩ := h r (ht.rsbs ▸ hr) hb
  exact ⟨l, ht.lkbs ▸ hl, (ht.place l).rsb.trans hlr⟩

theorem remove (h : Live s ∅) : Live (remove s l) {(s.lk l).rsb} := by
  intro r hr hb
  simp only [remove_frame, remove_lk, lkbs_remove] at hr ⊢
  obtain ⟨x, hx, hxr⟩ := h r hr (by simp)
  refine ⟨x, ?_, hxr⟩
  refine Finset.mem_erase.mpr ⟨?_, hx⟩
  rintro rfl
  exact hb hxr.symm

theorem add {L : Lkb} {i max : ℕ} (hl : l ∉ s.lkbs) (h : Live s {L.rsb}) : Live (add s l L i max) ∅ := by
  intro r hr _
  simp only [add_frame, add_lk, lkbs_add] at hr ⊢
  by_cases hrL : r = L.rsb
  · exact ⟨l, Finset.mem_insert_self _ _, by rw [if_pos rfl, hrL]⟩
  · obtain ⟨x, hx, hxr⟩ := h r hr hrL
    exact ⟨x, Finset.mem_insert_of_mem hx, by rw [if_neg (Struct.ne_of_mem hl hx), hxr]⟩

theorem freeRsb (hs : Struct s) (h : Live s {r}) : Live (freeRsb s r) ∅ := by
  unfold Lock.freeRsb
  dsimp only
  split_ifs with hq
  · intro x hx _
    by_cases hxr : x = r
    · subst hxr
      have hmem : ∃ q, ∃ l, l ∈ (s.rs x).queue q := by
        rcases hq with hq | hq | hq <;> obtain ⟨l, hl⟩ := exists_mem_of_ne_nil _ hq <;>
          exact ⟨_, l, hl⟩
      obtain ⟨q, l, hl⟩ := hmem
      obtain ⟨hl, hlr, -⟩ := (hs.on l x q).mp hl
      exact ⟨l, hl, hlr⟩
    · exact h x hx hxr
  · intro x hx _
    obtain ⟨hne, hx⟩ := Finset.mem_erase.mp hx
    exact h x hx hne

end Live

namespace SameTable

theorem refl : SameTable s s := ⟨rfl, rfl, rfl, rfl, rfl, fun _ => .refl _, fun _ => rfl⟩

theorem trans (h : SameTable s s') (h' : SameTable s' s'') : SameTable s s'' where
  lkbs := h'.lkbs.trans h.lkbs
  rsbs := h'.rsbs.trans h.rsbs
  hash := h'.hash.trans h.hash
  idtbl := h'.idtbl.trans h.idtbl
  idmax := h'.idmax.trans h.idmax
  place x := ⟨(h'.place x).rsb.trans (h.place x).rsb, (h'.place x).id.trans (h.place x).id,
    (h'.place x).parent.trans (h.place x).parent, (h'.place x).subcnt.trans (h.place x).subcnt⟩
  key r := (h'.key r).trans (h.key r)

theorem of_core (h : s'.core = s.core) : SameTable s s' := by
  have hc : SameTable s s.core := ⟨rfl, rfl, rfl, rfl, rfl, fun _ => ⟨rfl, rfl, rfl, rfl⟩, fun _ => rfl⟩
  rw [← h] at hc
  exact { hc with place := fun x => { hc.place x with } }

theorem emit {e : Event} : SameTable s (s.emit e) := ⟨rfl, rfl, rfl, rfl, rfl, fun _ => .refl _, fun _ => rfl⟩

theorem regrant (hs : Struct s) : SameTable s (regrant s r) := by
  refine regrant_keep (P := SameTable s) (fun s₁ q p t hs₁ h hq hhead _ _ => h.trans ?_)
    (fun _ _ h => h.trans (of_core core_notify)) hs refl
  obtain ⟨-, rfl, rfl⟩ := (hs₁.on p r q).mp (hhead ▸ mem_cons_self)
  exact ((sameTable_moveTo ⟨rfl, rfl, rfl, rfl⟩).trans emit).trans (of_core core_grant)

end SameTable

theorem live_dequeue (hs : Struct s) (hl : l ∈ s.lkbs) (hsub : (s.lk l).subcnt = 0)
    {status : Option Status} {inv : Bool} {val : Option ValBlk} (h : Live s ∅) :
    Live (dequeue s l status inv val) ∅ := by
  refine Live.freeRsb (struct_regrant (hs.takeOut hl hsub)) ?_
  exact (h.remove.same_table (.of_core core_takeOut)).same_table (.regrant (hs.takeOut hl hsub))

theorem live_fail (hs : Struct s) (hl : l ∈ s.lkbs) (hq : (s.lk l).state ≠ .granted) (h : Live s ∅) :
    Live (fail s l) ∅ := by
  obtain ⟨hsub, heq⟩ | ⟨hcv, heq⟩ := fail_cases hs hl hq
  · exact heq ▸ live_dequeue hs hl hsub h
  · rw [heq]
    have ht : SameTable s (failConversion s l) :=
      ((sameTable_moveTo (f := Lkb.giveUp) (q := .granted) ⟨rfl, rfl, rfl, rfl⟩).trans .emit).trans
        (.of_core (core_failConversion hcv))
    exact h.same_table (ht.trans (.regrant (hs.failConversion hl hcv)))

/-- **Every job leaves every resource with a lock.** -/
theorem Live.job (hs : Struct s) (h : Live s ∅) (hjob : Job env ok s s') : Live s' ∅ := by
  cases hjob with
  | dequeue l status inv val hl hsub => exact live_dequeue hs hl hsub h
  | convertNow a l hl hst hnow hok =>
    have hact : Act 0 ok s (convertNow s a l) := .convert l a.lkmode hl hst hnow hok core_convertNow
    have ht : SameTable s (convertNow s a l) :=
      (sameTable_setLkb (l := l) (f := fun L => { L with grmode := a.lkmode, rqmode := a.lkmode })
        ⟨rfl, rfl, rfl, rfl⟩).trans (.of_core core_convertNow)
    exact h.same_table (ht.trans (.regrant (hs.act hact)))
  | convertWait a l hl hst hnow hok =>
    have ht : SameTable s (convertWait env s a l) :=
      (sameTable_moveTo (f := Lkb.ask a.lkmode env.waittime) (q := .converting)
        ⟨rfl, rfl, rfl, rfl⟩).trans (.of_core (core_convertWait hst))
    exact h.same_table (ht.trans (.of_core core_notify))
  | enqOn a g s₁ r p hf hok =>
    have hs₁ : Struct s₁ := hf.struct hs
    have h₁ : Live s₁ {r} := by
      rcases hf.found with rfl | ⟨R, hm, rfl⟩
      · exact fun x hx _ => h x hx (by simp)
      · intro x hx hxr
        exact h x ((Finset.mem_insert.mp hx).resolve_left hxr) (by simp)
    have henters := enqOn_enters env s₁ a g r p
    generalize enqOn env s₁ a g r p = res at henters
    cases henters with
    | notqueued hnow =>
      -- a resource that was just made is free for any request
      intro x hx _
      by_cases hxr : x = r
      · subst hxr
        by_contra hno
        refine hnow (now_iff.mpr ?_)
        have hempty : ∀ q, (s₁.rs x).queue q = [] := by
          intro q
          refine eq_nil_iff_forall_not_mem.mpr fun l hl => hno ?_
          obtain ⟨hl, hlr, -⟩ := (hs₁.on l x q).mp hl
          exact ⟨l, hl, hlr⟩
        simp [grantable, holds, hempty]
      · exact h₁ x hx hxr
    | insfmem s₂ hnew =>
      have hcore := newLkb_none hnew
      exact Live.freeRsb (hs₁.congr hcore) (h₁.same_table (.of_core hcore))
    | now s₂ l id hnew hnow =>
      obtain ⟨i, max, hfits, -, hcore, -⟩ := newLkb_fits env a hs₁ hf hnew
      exact (h₁.add (L := a.lockNow r p id) hfits.fresh).same_table (.of_core hcore)
    | wait s₂ l id hnew hnow =>
      obtain ⟨i, max, -, hfits, -, hcore⟩ := newLkb_fits env a hs₁ hf hnew
      exact ((h₁.add (L := a.lockWait env r p id) hfits.fresh).same_table (.of_core hcore)).same_table
        (.of_core core_notify)
  | tick l hl hwait => exact h.same_table (sameTable_setLkb ⟨rfl, rfl, rfl, rfl⟩)
  | searchFrom l hl hwait =>
    have h₁ : Live (tick s l) ∅ := h.same_table (sameTable_setLkb ⟨rfl, rfl, rfl, rfl⟩)
    refine searchFrom_keep (P := fun s => Live s ∅) (fun v => h₁.same_table (.of_core core_marked))
      fun v h₁ => ?_
    exact live_fail (hs.tick.congr core_marked) hl (tick_state hs hl (by omega)) h₁

/-! ## The database between calls -/

/-- What holds of the lock ID table, the queues and the hash chains between
    calls. -/
structure WellFormed (s : Db) : Prop where
  /-- A lock is once on the queue its state names, of its resource, and on no
      other. -/
  on_queue : ∀ i, s.idtbl i ≠ 0 → ∀ r q, ((s.rs r).queue q).count (s.idtbl i) =
    if r = (s.lk (s.idtbl i)).rsb ∧ q = (s.lk (s.idtbl i)).state then 1 else 0
  subcnt : ∀ i, s.idtbl i ≠ 0 → (s.lk (s.idtbl i)).subcnt =
    (s.entries.filter fun j => s.idtbl j ≠ 0 ∧ (s.lk (s.idtbl j)).parent = s.idtbl i).length
  has_lock : ∀ c, ∀ r ∈ s.hash c, (s.rs r).locks ≠ []
  on_chain : ∀ c, ∀ r ∈ s.hash c, (s.rs r).chain = c
  unique : ∀ c, ∀ r ∈ s.hash c, ∀ c', ∀ r' ∈ s.hash c', (s.rs r).key = (s.rs r').key → r = r'
  parent : ∀ c, ∀ r ∈ s.hash c, (s.rs r).parent ≠ 0 →
    (s.rs r).parent ∈ s.hash (s.rs (s.rs r).parent).chain

theorem card_sublocks (hs : Struct s) : (s.sublocks p).card =
    (s.entries.filter fun j => s.idtbl j ≠ 0 ∧ (s.lk (s.idtbl j)).parent = p).length := by
  set js := s.entries.filter fun j => s.idtbl j ≠ 0 ∧ (s.lk (s.idtbl j)).parent = p with hjs
  have hmem : ∀ j, j ∈ js ↔ s.idtbl j ≠ 0 ∧ (s.lk (s.idtbl j)).parent = p := by
    intro j
    simp only [hjs, mem_filter, decide_eq_true_eq, Db.entries, mem_range'_1]
    refine ⟨fun h => h.2, fun h => ⟨?_, h⟩⟩
    have := hs.bounds j h.1
    omega
  have hnodup : (js.map s.idtbl).Nodup := by
    refine List.Nodup.map_on ?_ ((nodup_range' 1).filter _)
    intro i hi j hj hij
    rw [← (hs.table i ((hmem i).mp hi).1).2, hij, (hs.table j ((hmem j).mp hj).1).2]
  rw [← @length_map _ _ js s.idtbl, ← toFinset_card_of_nodup hnodup]
  congr 1
  ext x
  simp only [Db.sublocks, Finset.mem_filter, mem_toFinset, mem_map, hmem]
  constructor
  · rintro ⟨hx, hxp⟩
    have he := hs.entry x hx
    exact ⟨_, ⟨he.symm ▸ fun h0 => hs.lkb_ne (h0 ▸ hx), he.symm ▸ hxp⟩, he⟩
  · rintro ⟨j, ⟨hj, hjp⟩, rfl⟩
    exact ⟨(hs.table j hj).1, hjp⟩

theorem WellFormed.of_struct (hs : Struct s) (h : Live s ∅) : WellFormed s where
  on_queue i hi r q := by
    have hl := (hs.table i hi).1
    split_ifs with h
    · exact count_eq_one_of_mem (hs.nodup r q) ((hs.on _ r q).mpr ⟨hl, h.1.symm, h.2.symm⟩)
    · exact count_eq_zero_of_not_mem fun hon =>
        h ⟨((hs.on _ r q).mp hon).2.1.symm, ((hs.on _ r q).mp hon).2.2.symm⟩
  subcnt i hi := by rw [hs.subcnt _ (hs.table i hi).1, card_sublocks hs]
  has_lock c r hr := by
    obtain ⟨l, hl, rfl⟩ := h r (hs.hash c r hr).1 (by simp)
    have hon := hs.mem_queue hl
    intro hnil
    simp only [Rsb.locks, append_eq_nil_iff] at hnil
    cases hq : (s.lk l).state <;> rw [hq] at hon <;> simp_all
  on_chain c r hr := (hs.hash c r hr).2
  unique c r hr c' r' hr' hk := hs.unique r (hs.hash c r hr).1 r' (hs.hash c' r' hr').1 hk
  parent c r hr hp := by
    obtain ⟨l, hl, rfl⟩ := h r (hs.hash c r hr).1 (by simp)
    have hprsb := hs.prsb l hl
    split_ifs at hprsb with h0
    · exact absurd hprsb hp
    · rw [hprsb]
      exact hs.chained _ (hs.rsb _ (hs.parent l hl h0))

/-- **The database is well-formed after every call**, whatever pool there is. -/
theorem wellFormed_of_reached (h : Reached env anyCall s) : WellFormed s :=
  .of_struct h.struct (Run.keep_jobs (P := fun s => Live s ∅) h
    (fun _ _ _ => Call.asks_any) (fun _ _ hs hlive hjob => hlive.job hs hjob) Struct.empty
    (by simp [Live, Db.empty])).2

theorem wellFormed_waiting : WellFormed waiting := wellFormed_of_reached reached_waiting

/-! ## LCK$DEQALL -/

section Deqall

variable {pid acmode n i : ℕ} {status : Option Status} {inv : Bool} {is : List ℕ}

section
variable (hs : Struct s)
include hs

theorem card_lkbs_le : s.lkbs.card ≤ s.idmax := by
  rw [← Finset.card_range s.idmax]
  refine Finset.card_le_card_of_injOn (fun l => indexOf (s.lk l).id) (fun l hl => ?_) fun l hl x hx h => ?_
  · have hentry := hs.entry l hl
    have hne : s.idtbl (indexOf (s.lk l).id) ≠ 0 := fun h0 => hs.lkb_ne (by rwa [← h0, hentry])
    exact Finset.mem_coe.mpr (Finset.mem_range.mpr (hs.bounds _ hne).2)
  · rw [← hs.entry l hl, ← hs.entry x hx]
    exact congrArg s.idtbl h

/-- **UNDER ends** at a lock without a parent: fuel beyond IDMAX changes nothing. -/
theorem under_fuel (hl : l ∈ s.lkbs) (more : ℕ) : under s p (s.idmax + more) l = under s p s.idmax l := by
  obtain ⟨depth, hdepth⟩ := hs.rooted
  -- the locks that are not deeper than `l` are what is left to go through
  have hle : (s.lkbs.filter (depth · ≤ depth l)).card ≤ s.idmax :=
    (Finset.card_filter_le _ _).trans (card_lkbs_le hs)
  generalize s.idmax = n at hle ⊢
  induction n generalizing l with
  | zero => exact absurd hle (Nat.not_le.mpr (Finset.card_pos.mpr ⟨l, Finset.mem_filter.mpr ⟨hl, le_rfl⟩⟩))
  | succ n ih =>
    rw [Nat.succ_add]
    unfold under
    split_ifs with h0 hp hpp
    · rfl
    · rfl
    · rfl
    · have hlt := hdepth l hl hp
      refine ih (hs.parent l hl hp) (Nat.lt_succ_iff.mp (lt_of_lt_of_le (Finset.card_lt_card ?_) hle))
      refine Finset.ssubset_iff_of_subset (fun x hx => ?_) |>.mpr ⟨l, Finset.mem_filter.mpr ⟨hl, le_rfl⟩, ?_⟩
      · obtain ⟨hx, hd⟩ := Finset.mem_filter.mp hx
        exact Finset.mem_filter.mpr ⟨hx, hd.trans hlt.le⟩
      · exact fun h => Nat.not_le.mpr hlt (Finset.mem_filter.mp h).2

theorem lkbs_dequeue (hl : l ∈ s.lkbs) (hsub : (s.lk l).subcnt = 0) {val : Option ValBlk} :
    (dequeue s l status inv val).lkbs = s.lkbs.erase l := by
  have hfree : ∀ (t : Db) r, (freeRsb t r).lkbs = t.lkbs := fun t r => by
    unfold freeRsb
    dsimp only
    split_ifs <;> rfl
  rw [dequeue, hfree, (SameTable.regrant (hs.takeOut hl hsub)).lkbs, ← lkbs_remove]
  exact congrArg (·.lkbs) core_takeOut

theorem deqallScan_cases : let s' := (deqallScan pid acmode status inv p is s).2
    Struct s' ∧ ((deqallScan pid acmode status inv p is s).1 = true ∧ s'.lkbs.card < s.lkbs.card ∨
      deqallScan pid acmode status inv p is s = (false, s) ∧ ∀ i ∈ is, ¬deqallTakes s pid acmode p i) := by
  induction is generalizing s with
  | nil => exact ⟨hs, .inr ⟨rfl, nofun⟩⟩
  | cons i is ih =>
    unfold deqallScan
    split_ifs with h
    · obtain ⟨hl, hsub⟩ := mem_of_deqallTakes hs h
      have hacts : Acts 0 (fun _ _ => True) s (dequeue s (s.idtbl i) status inv none) := acts_dequeue hs hl hsub
      have hlt : (dequeue s (s.idtbl i) status inv none).lkbs.card < s.lkbs.card := by
        rw [lkbs_dequeue hs hl hsub]
        exact Finset.card_erase_lt_of_mem hl
      obtain ⟨hs', ⟨-, hrest⟩ | ⟨hrest, -⟩⟩ := ih (hacts.struct hs)
      · exact ⟨hs', .inl ⟨rfl, hrest.trans hlt⟩⟩
      · exact ⟨hs', .inl ⟨rfl, hrest ▸ hlt⟩⟩
    · obtain ⟨hs', htrue | ⟨hfalse, hnone⟩⟩ := ih hs
      · exact ⟨hs', .inl htrue⟩
      · exact ⟨hs', .inr ⟨hfalse, forall_mem_cons.mpr ⟨h, hnone⟩⟩⟩

theorem deqallLoop_done (hn : s.lkbs.card < n) : let s' := deqallLoop pid acmode status inv p n s
    ∀ i ∈ s'.entries, ¬deqallTakes s' pid acmode p i := by
  induction n generalizing s with
  | zero => omega
  | succ n ih =>
    unfold deqallLoop
    obtain ⟨hs', ⟨htrue, hlt⟩ | ⟨hfalse, hnone⟩⟩ := deqallScan_cases hs
    · rw [← Prod.eta (deqallScan pid acmode status inv p s.entries s), htrue]
      exact ih hs' (by omega)
    · rw [hfalse]
      exact hnone

/-- **LCK$DEQALL ends** when no lock is left that it takes. -/
theorem deqall_done {parid : ℕ} (hp : if parid = 0 then p = 0 else ownLkb s parid pid acmode = some p) :
    let s' := (deqall s pid acmode status inv parid).2
    ∀ i ∈ s'.entries, ¬deqallTakes s' pid acmode p i := by
  have hfuel : s.lkbs.card < s.idmax + 1 := Nat.lt_succ_of_le (card_lkbs_le hs)
  unfold deqall
  by_cases h : parid = 0
  · rw [if_pos h] at hp
    rw [if_neg (not_not.mpr h), hp]
    exact deqallLoop_done hs hfuel
  · rw [if_neg h] at hp
    rw [if_pos h, hp]
    exact deqallLoop_done hs hfuel

end

end Deqall

end Lock
