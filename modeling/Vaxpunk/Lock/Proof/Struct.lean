/-
  The structure of the lock database: every lock is on the queue its state
  names, every resource on the chain its name hashes to, and the counts and the
  lock ID table agree with the locks there are.
-/
import Vaxpunk.Lock.Acts

namespace Lock

open List Rsb

variable {s s' : Db} {l r x i max : ℕ} {q q' : LkbState} {f : Lkb → Lkb} {L : Lkb} {R : Rsb}

/-! ## The invariant -/

def Rsb.key (R : Rsb) : List UInt8 × ℕ × ℤ × ℕ := (R.name, R.acmode, R.group, R.parent)

def Db.sublocks (s : Db) (p : ℕ) : Finset ℕ := s.lkbs.filter fun l => (s.lk l).parent = p

/-- The structure of the database between two acts. -/
structure Struct (s : Db) : Prop where
  /-- A lock is on the queue its state names, and on no other. -/
  on : ∀ l r q, l ∈ (s.rs r).queue q ↔ l ∈ s.lkbs ∧ (s.lk l).rsb = r ∧ (s.lk l).state = q
  nodup : ∀ r q, ((s.rs r).queue q).Nodup
  rsb : ∀ l ∈ s.lkbs, (s.lk l).rsb ∈ s.rsbs
  lkb_ne : 0 ∉ s.lkbs
  rsb_ne : 0 ∉ s.rsbs
  /-- A lock is in the entry its ID names. -/
  entry : ∀ l ∈ s.lkbs, s.idtbl (indexOf (s.lk l).id) = l
  table : ∀ i, s.idtbl i ≠ 0 → s.idtbl i ∈ s.lkbs ∧ indexOf (s.lk (s.idtbl i)).id = i
  bounds : ∀ i, s.idtbl i ≠ 0 → 0 < i ∧ i < s.idmax
  idmax : s.idmax ≤ 2 ^ IDBITS
  /-- A lock's parent is there, on its resource's parent. -/
  parent : ∀ l ∈ s.lkbs, (s.lk l).parent ≠ 0 → (s.lk l).parent ∈ s.lkbs
  /-- No lock is above itself. -/
  rooted : ∃ depth : ℕ → ℕ, ∀ l ∈ s.lkbs, (s.lk l).parent ≠ 0 → depth (s.lk l).parent < depth l
  prsb : ∀ l ∈ s.lkbs, (s.rs (s.lk l).rsb).parent =
    if (s.lk l).parent = 0 then 0 else (s.lk (s.lk l).parent).rsb
  subcnt : ∀ p ∈ s.lkbs, (s.lk p).subcnt = (s.sublocks p).card
  /-- A lock that waits to be granted has no sublocks. -/
  waiting : ∀ l ∈ s.lkbs, (s.lk l).state = .waiting → (s.lk l).subcnt = 0
  /-- Only a request that is queued is to be searched from. -/
  granted : ∀ l ∈ s.lkbs, (s.lk l).state = .granted → (s.lk l).wait = 0
  chained : ∀ r ∈ s.rsbs, r ∈ s.hash (s.rs r).chain
  hash : ∀ c, ∀ r ∈ s.hash c, r ∈ s.rsbs ∧ (s.rs r).chain = c
  hash_nodup : ∀ c, (s.hash c).Nodup
  unique : ∀ r ∈ s.rsbs, ∀ r' ∈ s.rsbs, (s.rs r).key = (s.rs r').key → r = r'

namespace Struct

theorem empty : Struct Db.empty := by
  constructor <;> simp [Db.empty, zero, Db.sublocks]

theorem of_core (hs : Struct s.core) : Struct s := { hs with }

theorem core (hs : Struct s) : Struct s.core := { hs with }

theorem congr (h : s'.core = s.core) (hs : Struct s) : Struct s' := of_core (h ▸ hs.core)

theorem queue_empty (hs : Struct s) (hr : r ∉ s.rsbs) : (s.rs r).queue q = [] := by
  refine eq_nil_iff_forall_not_mem.mpr fun l hon => hr ?_
  obtain ⟨hl, rfl, -⟩ := (hs.on l r q).mp hon
  exact hs.rsb l hl

theorem mem_queue (hs : Struct s) (hl : l ∈ s.lkbs) : l ∈ (s.rs (s.lk l).rsb).queue (s.lk l).state :=
  (hs.on l _ _).mpr ⟨hl, rfl, rfl⟩

theorem mem_locks (hs : Struct s) : l ∈ (s.rs r).locks ↔ l ∈ s.lkbs ∧ (s.lk l).rsb = r := by
  simp only [locks, mem_append, hs.on]
  cases (s.lk l).state <;> simp

end Struct

/-! ## Locks that change in place -/

/-- A change of a lock that doesn't touch what it belongs to. -/
structure Lkb.SamePlace (L L' : Lkb) : Prop where
  rsb : L'.rsb = L.rsb
  id : L'.id = L.id
  parent : L'.parent = L.parent
  subcnt : L'.subcnt = L.subcnt

theorem Lkb.SamePlace.refl (L : Lkb) : L.SamePlace L := ⟨rfl, rfl, rfl, rfl⟩

theorem Rsb.chain_eq {R R' : Rsb} (h : R'.key = R.key) : R'.chain = R.chain := by
  simp only [key, Prod.mk.injEq] at h
  simp only [chain, h]

theorem Rsb.parent_eq {R R' : Rsb} (h : R'.key = R.key) : R'.parent = R.parent := by
  simp only [key, Prod.mk.injEq] at h
  exact h.2.2.2

/-- The same locks and resources, and what belongs to what. -/
structure SameTable (s s' : Db) : Prop where
  lkbs : s'.lkbs = s.lkbs
  rsbs : s'.rsbs = s.rsbs
  hash : s'.hash = s.hash
  idtbl : s'.idtbl = s.idtbl
  idmax : s'.idmax = s.idmax
  place : ∀ x, (s.lk x).SamePlace (s'.lk x)
  key : ∀ r, (s'.rs r).key = (s.rs r).key

namespace Struct

theorem same_table (hs : Struct s) (h : SameTable s s')
    (hon : ∀ l r q, l ∈ (s'.rs r).queue q ↔ l ∈ s.lkbs ∧ (s.lk l).rsb = r ∧ (s'.lk l).state = q)
    (hnodup : ∀ r q, ((s'.rs r).queue q).Nodup)
    (hwait : ∀ l ∈ s.lkbs, (s'.lk l).state = .waiting → (s.lk l).state = .waiting)
    (hgr : ∀ l ∈ s.lkbs, (s'.lk l).state = .granted → (s'.lk l).wait = 0) : Struct s' := by
  constructor <;> try simp only [h.lkbs, h.rsbs, h.hash, h.idtbl, h.idmax, (h.place _).rsb, (h.place _).id,
    (h.place _).parent, (h.place _).subcnt, h.key, chain_eq (h.key _), parent_eq (h.key _), Db.sublocks]
  case on => exact hon
  case nodup => exact hnodup
  case waiting => exact fun l hl hst => hs.waiting l hl (hwait l hl hst)
  case granted => exact hgr
  exacts [hs.rsb, hs.lkb_ne, hs.rsb_ne, hs.entry, hs.table, hs.bounds, hs.idmax, hs.parent, hs.rooted, hs.prsb,
    hs.subcnt, hs.chained, hs.hash, hs.hash_nodup, hs.unique]

end Struct

/-! ## Locks that move -/

theorem lk_setLkb : (s.setLkb l f).lk x = if x = l then f (s.lk l) else s.lk x := by
  simp only [Db.setLkb, Function.update_apply]

theorem lk_moveTo : (moveTo s l q f).lk x = if x = l then f (s.lk l) else s.lk x := by
  simp only [moveTo, append, unlink, Db.setLkb, Db.setRsb, Function.update_apply]

theorem lk_moveTo_self : (moveTo s l q f).lk l = f (s.lk l) := by rw [lk_moveTo, if_pos rfl]

theorem lk_moveTo_of_ne (hx : x ≠ l) : (moveTo s l q f).lk x = s.lk x := by rw [lk_moveTo, if_neg hx]

theorem queue_moveTo (hq : q ≠ (s.lk l).state) : ((moveTo s l q f).rs r).queue q' =
    if r = (s.lk l).rsb ∧ q' = q then (s.rs r).queue q ++ [l]
    else if r = (s.lk l).rsb ∧ q' = (s.lk l).state then ((s.rs r).queue q').erase l
    else (s.rs r).queue q' := by
  simp only [moveTo, append, unlink, Db.setLkb, Db.setRsb, Function.update_apply]
  by_cases hr : r = (s.lk l).rsb <;> by_cases hq' : q' = q <;> by_cases hs : q' = (s.lk l).state <;>
    simp_all

theorem key_moveTo : ((moveTo s l q f).rs r).key = (s.rs r).key := by
  simp only [moveTo, append, unlink, Db.setLkb, Db.setRsb, Function.update_apply, key]
  split <;> simp_all

theorem sameTable_setLkb (hf : (s.lk l).SamePlace (f (s.lk l))) : SameTable s (s.setLkb l f) where
  lkbs := rfl
  rsbs := rfl
  hash := rfl
  idtbl := rfl
  idmax := rfl
  place x := by
    rw [lk_setLkb]
    split
    · simp_all
    · exact .refl _
  key _ := rfl

theorem sameTable_moveTo (hf : (s.lk l).SamePlace (f (s.lk l))) : SameTable s (moveTo s l q f) where
  lkbs := rfl
  rsbs := rfl
  hash := rfl
  idtbl := rfl
  idmax := rfl
  place x := by
    rw [lk_moveTo]
    split
    · simp_all
    · exact .refl _
  key _ := key_moveTo

namespace Struct

theorem setLkb (hs : Struct s) (hf : (s.lk l).SamePlace (f (s.lk l)))
    (hst : (f (s.lk l)).state = (s.lk l).state) (hwait : (f (s.lk l)).wait ≤ (s.lk l).wait) :
    Struct (s.setLkb l f) := by
  have hstate : ∀ x, ((s.setLkb l f).lk x).state = (s.lk x).state := by
    intro x
    rw [lk_setLkb]
    split <;> simp_all
  refine hs.same_table (sameTable_setLkb hf) (fun l r q => ?_) hs.nodup (fun l _ h => ?_)
    fun x hx h => ?_
  · rw [hstate]
    exact hs.on l r q
  · rwa [hstate] at h
  · rw [hstate] at h
    have h0 := hs.granted x hx h
    rw [lk_setLkb]
    split_ifs with hxl
    · exact Nat.eq_zero_of_le_zero (h0 ▸ hxl ▸ hwait)
    · exact h0

theorem mem_moveTo (hs : Struct s) (hl : l ∈ s.lkbs) (hq : q ≠ (s.lk l).state) :
    x ∈ ((Lock.moveTo s l q f).rs r).queue q' ↔
      x ∈ s.lkbs ∧ (s.lk x).rsb = r ∧ (if x = l then q else (s.lk x).state) = q' := by
  rw [queue_moveTo hq]
  split_ifs with h1 h2 h3 h4 h5 <;>
    simp only [mem_append, mem_singleton, (hs.nodup _ _).mem_erase_iff, hs.on] <;>
    grind

/-- **A lock that goes to another queue of its resource.** -/
theorem moveTo (hs : Struct s) (hl : l ∈ s.lkbs) (hq : q ≠ (s.lk l).state) (hw : q ≠ .waiting)
    (hf : (s.lk l).SamePlace (f (s.lk l))) (hst : (f (s.lk l)).state = q)
    (hwait : q = .granted → (f (s.lk l)).wait = 0) : Struct (moveTo s l q f) := by
  have hstate : ∀ x, ((Lock.moveTo s l q f).lk x).state = if x = l then q else (s.lk x).state := by
    intro x
    rw [lk_moveTo]
    split <;> simp_all
  refine hs.same_table (sameTable_moveTo hf) (fun x r q' => ?_) (fun r q' => ?_) (fun x _ h => ?_)
    fun x hx h => ?_
  · rw [hstate]
    exact hs.mem_moveTo hl hq
  · rw [queue_moveTo hq]
    split_ifs with h1 h2
    · refine nodup_append'.mpr ⟨hs.nodup r q, nodup_singleton l, ?_⟩
      simp only [disjoint_singleton, hs.on]
      exact fun h => hq h.2.2.symm
    · exact (hs.nodup _ _).erase l
    · exact hs.nodup _ _
  · rw [hstate] at h
    split_ifs at h
    · exact absurd h hw
    · exact h
  · rw [hstate] at h
    rw [lk_moveTo]
    split_ifs at h ⊢
    · exact hwait h
    · exact hs.granted x hx h

end Struct

/-! ## Locks that come and go -/

variable {p : ℕ}

theorem lk_countSub {f : ℕ → ℕ} : (countSub s p f).lk x =
    if x = p ∧ p ≠ 0 then { s.lk x with subcnt := f (s.lk x).subcnt } else s.lk x := by
  unfold countSub
  by_cases hp : p = 0
  · simp [hp]
  · rw [if_pos hp, lk_setLkb]
    by_cases hx : x = p <;> simp [hx, hp]

theorem countSub_frame {f : ℕ → ℕ} : (countSub s p f).rs = s.rs ∧ (countSub s p f).rsbs = s.rsbs ∧
    (countSub s p f).hash = s.hash ∧ (countSub s p f).idtbl = s.idtbl ∧ (countSub s p f).idmax = s.idmax := by
  unfold countSub; split <;> exact ⟨rfl, rfl, rfl, rfl, rfl⟩

theorem lkbs_countSub {f : ℕ → ℕ} : (countSub s p f).lkbs = s.lkbs := by
  unfold countSub; split <;> rfl

theorem log_countSub {f : ℕ → ℕ} : (countSub s p f).log = s.log := by
  unfold countSub; split <;> rfl

theorem lk_remove : (remove s l).lk x = if x = (s.lk l).parent ∧ (s.lk l).parent ≠ 0 then
    { s.lk x with subcnt := (s.lk x).subcnt - 1 } else s.lk x := lk_countSub

theorem queue_remove : ((remove s l).rs r).queue q =
    if r = (s.lk l).rsb ∧ q = (s.lk l).state then ((s.rs r).queue q).erase l else (s.rs r).queue q := by
  simp only [remove, countSub_frame, unlink, Db.setRsb, Db.emit, Function.update_apply]
  by_cases hr : r = (s.lk l).rsb <;> by_cases hq : q = (s.lk l).state <;> simp_all

theorem key_remove : ((remove s l).rs r).key = (s.rs r).key := by
  simp only [remove, countSub_frame, unlink, Db.setRsb, Db.emit, Function.update_apply, key]
  split <;> simp_all

theorem lkbs_remove : (remove s l).lkbs = s.lkbs.erase l := by
  simp only [remove, lkbs_countSub]; rfl

theorem remove_frame :
    (remove s l).rsbs = s.rsbs ∧ (remove s l).hash = s.hash ∧ (remove s l).idmax = s.idmax := by
  simp only [remove, countSub_frame]; exact ⟨rfl, rfl, rfl⟩

theorem idtbl_remove : (remove s l).idtbl i = if i = indexOf (s.lk l).id then 0 else s.idtbl i := by
  simp only [remove, countSub_frame, Function.update_apply]; rfl

theorem remove_lk : ((remove s l).lk x).rsb = (s.lk x).rsb ∧ ((remove s l).lk x).id = (s.lk x).id ∧
    ((remove s l).lk x).parent = (s.lk x).parent ∧ ((remove s l).lk x).state = (s.lk x).state ∧
    ((remove s l).lk x).wait = (s.lk x).wait ∧ ((remove s l).lk x).grmode = (s.lk x).grmode ∧
    ((remove s l).lk x).rqmode = (s.lk x).rqmode := by
  rw [lk_remove]; split <;> exact ⟨rfl, rfl, rfl, rfl, rfl, rfl, rfl⟩

namespace Struct

theorem idtbl_eq_iff (hs : Struct s) (hl : l ∈ s.lkbs) : s.idtbl i = l ↔ i = indexOf (s.lk l).id := by
  constructor
  · intro h
    have hne : s.idtbl i ≠ 0 := fun h0 => hs.lkb_ne (h0 ▸ h ▸ hl)
    exact h ▸ (hs.table i hne).2.symm
  · rintro rfl
    exact hs.entry l hl

theorem sublocks_remove : (Lock.remove s l).sublocks p = (s.sublocks p).erase l := by
  ext x
  simp only [Db.sublocks, Finset.mem_filter, Finset.mem_erase, lkbs_remove, remove_lk, and_assoc]

/-- **A lock without sublocks that goes.** -/
theorem remove (hs : Struct s) (hl : l ∈ s.lkbs) (hsub : (s.lk l).subcnt = 0) :
    Struct (remove s l) := by
  -- nothing else is under a lock whose count is zero
  have hkids : ∀ x ∈ s.lkbs, (s.lk x).parent ≠ l := by
    intro x hx hp
    have hcard := hs.subcnt l hl
    rw [hsub, eq_comm, Finset.card_eq_zero] at hcard
    exact Finset.notMem_empty x (hcard ▸ Finset.mem_filter.mpr ⟨hx, hp⟩)
  constructor <;> simp only [queue_remove, lkbs_remove, remove_frame, remove_lk, idtbl_remove, key_remove,
    chain_eq key_remove, parent_eq key_remove, sublocks_remove, Finset.mem_erase]
  case on =>
    intro x r q
    split_ifs with h
    · rw [(hs.nodup _ _).mem_erase_iff, hs.on, and_assoc]
    · rw [hs.on]
      refine ⟨fun hx => ⟨⟨?_, hx.1⟩, hx.2⟩, fun hx => ⟨hx.1.2, hx.2⟩⟩
      rintro rfl
      exact h ⟨hx.2.1.symm, hx.2.2.symm⟩
  case nodup =>
    intro r q
    split_ifs
    · exact (hs.nodup _ _).erase l
    · exact hs.nodup _ _
  case rsb => exact fun x hx => hs.rsb x hx.2
  case lkb_ne => exact fun h => hs.lkb_ne h.2
  case entry =>
    intro x hx
    rw [if_neg, hs.entry x hx.2]
    exact fun h => hx.1 (by rw [← hs.entry x hx.2, h, hs.entry l hl])
  case table =>
    intro i hi
    split_ifs at hi ⊢ with h
    · exact absurd rfl hi
    · obtain ⟨hm, hix⟩ := hs.table i hi
      exact ⟨⟨fun he => h ((hs.idtbl_eq_iff hl).mp he), hm⟩, hix⟩
  case bounds =>
    intro i hi
    split_ifs at hi with h
    · exact absurd rfl hi
    · exact hs.bounds i hi
  case parent => exact fun x hx hp => ⟨hkids x hx.2, hs.parent x hx.2 hp⟩
  case rooted => exact hs.rooted.imp fun _ h x hx => h x hx.2
  case prsb => exact fun x hx => hs.prsb x hx.2
  case subcnt =>
    intro p hp
    rw [lk_remove]
    split_ifs with h
    · have hmem : l ∈ s.sublocks p := Finset.mem_filter.mpr ⟨hl, h.1.symm⟩
      rw [Finset.card_erase_of_mem hmem, hs.subcnt p hp.2]
    · have hmem : l ∉ s.sublocks p := by
        intro hm
        have hpar := (Finset.mem_filter.mp hm).2
        exact h ⟨hpar.symm, fun h0 => hs.lkb_ne (by rw [← h0, hpar]; exact hp.2)⟩
      rw [Finset.erase_eq_of_notMem hmem, hs.subcnt p hp.2]
  case waiting =>
    intro x hx hst
    have h0 := hs.waiting x hx.2 hst
    rw [lk_remove]
    split_ifs <;> simp [h0]
  case granted => exact fun x hx => hs.granted x hx.2
  exacts [hs.rsb_ne, hs.idmax, hs.chained, hs.hash, hs.hash_nodup, hs.unique]

end Struct

theorem lk_add : (add s l L i max).lk x = if x = L.parent ∧ L.parent ≠ 0 then
    { (if x = l then L else s.lk x) with subcnt := (if x = l then L else s.lk x).subcnt + 1 }
    else if x = l then L else s.lk x := by
  simp only [add, append, Db.setRsb, lk_countSub, lk_setLkb]

theorem queue_add : ((add s l L i max).rs r).queue q =
    if r = L.rsb ∧ q = L.state then (s.rs r).queue q ++ [l] else (s.rs r).queue q := by
  simp only [add, append, Db.setRsb, countSub_frame, Db.setLkb, Function.update_apply]
  by_cases hr : r = L.rsb <;> by_cases hq : q = L.state <;> simp_all

theorem key_add : ((add s l L i max).rs r).key = (s.rs r).key := by
  simp only [add, append, Db.setRsb, countSub_frame, Db.setLkb, Function.update_apply, key]
  split <;> simp_all

theorem lkbs_add : (add s l L i max).lkbs = insert l s.lkbs := by
  simp only [add, append, Db.setRsb, lkbs_countSub]; rfl

theorem add_frame : (add s l L i max).rsbs = s.rsbs ∧ (add s l L i max).hash = s.hash ∧
    (add s l L i max).idmax = max := by
  simp only [add, append, Db.setRsb, countSub_frame]; exact ⟨rfl, rfl, rfl⟩

theorem idtbl_add : (add s l L i max).idtbl x = if x = i then l else s.idtbl x := by
  simp only [add, append, Db.setRsb, countSub_frame, Db.setLkb, Function.update_apply]

theorem add_lk : ((add s l L i max).lk x).rsb = (if x = l then L.rsb else (s.lk x).rsb) ∧
    ((add s l L i max).lk x).id = (if x = l then L.id else (s.lk x).id) ∧
    ((add s l L i max).lk x).parent = (if x = l then L.parent else (s.lk x).parent) ∧
    ((add s l L i max).lk x).state = (if x = l then L.state else (s.lk x).state) ∧
    ((add s l L i max).lk x).wait = (if x = l then L.wait else (s.lk x).wait) ∧
    ((add s l L i max).lk x).grmode = (if x = l then L.grmode else (s.lk x).grmode) ∧
    ((add s l L i max).lk x).rqmode = if x = l then L.rqmode else (s.lk x).rqmode := by
  rw [lk_add]; split_ifs <;> exact ⟨rfl, rfl, rfl, rfl, rfl, rfl, rfl⟩

namespace Struct

theorem ne_of_mem (hl : l ∉ s.lkbs) (hx : x ∈ s.lkbs) : x ≠ l := fun h => hl (h ▸ hx)

theorem sublocks_add (hl : l ∉ s.lkbs) : (Lock.add s l L i max).sublocks p =
    if L.parent = p then insert l (s.sublocks p) else s.sublocks p := by
  ext x
  split_ifs with hp <;>
    simp only [Db.sublocks, Finset.mem_filter, Finset.mem_insert, lkbs_add, add_lk] <;>
    grind

/-- **A new lock.** -/
theorem add (hs : Struct s) (hf : Fits s l L i max) (hwait : L.state = .granted → L.wait = 0) :
    Struct (add s l L i max) := by
  have hpne : L.parent ≠ l := by
    intro h
    exact hf.fresh (h ▸ (hf.parent (h ▸ hf.ne_zero)).1)
  constructor <;> simp only [queue_add, lkbs_add, add_frame, add_lk, idtbl_add, key_add, chain_eq key_add,
    parent_eq key_add, sublocks_add hf.fresh, Finset.mem_insert]
  case on =>
    intro x r q
    have := hs.on x r q
    have hfresh := hf.fresh
    have hmem : x ∈ (s.rs r).queue q ++ [l] ↔ x ∈ (s.rs r).queue q ∨ x = l := by simp
    split_ifs <;> grind
  case nodup =>
    intro r q
    split_ifs
    · refine nodup_append'.mpr ⟨hs.nodup r q, nodup_singleton l, ?_⟩
      simp only [disjoint_singleton, hs.on]
      exact fun h => hf.fresh h.1
    · exact hs.nodup _ _
  case rsb =>
    intro x hx
    split_ifs with hxl
    · exact hf.rsb
    · exact hs.rsb x (hx.resolve_left hxl)
  case lkb_ne => exact fun h => h.elim (hf.ne_zero ·.symm) hs.lkb_ne
  case entry =>
    intro x hx
    by_cases hxl : x = l
    · rw [if_pos hxl, if_pos hf.index, hxl]
    · have hx := hx.resolve_left hxl
      rw [if_neg hxl, if_neg, hs.entry x hx]
      intro h
      have := hs.entry x hx
      rw [h, hf.free] at this
      exact hs.lkb_ne (this ▸ hx)
  case table =>
    intro j hj
    split_ifs at hj ⊢ with h hjl hjl
    · exact ⟨.inl rfl, h ▸ hf.index⟩
    · exact absurd rfl hjl
    · exact absurd (hjl ▸ (hs.table j hj).1) hf.fresh
    · exact ⟨.inr (hs.table j hj).1, (hs.table j hj).2⟩
  case bounds =>
    intro j hj
    split_ifs at hj with h
    · exact h ▸ ⟨hf.pos, hf.lt⟩
    · exact ⟨(hs.bounds j hj).1, (hs.bounds j hj).2.trans_le hf.le⟩
  case idmax => exact hf.max
  case parent =>
    intro x hx h
    split_ifs at h ⊢ with hxl
    · exact .inr (hf.parent h).1
    · exact .inr (hs.parent x (hx.resolve_left hxl) h)
  case rooted =>
    obtain ⟨depth, hdepth⟩ := hs.rooted
    refine ⟨Function.update depth l (depth L.parent + 1), fun x hx h => ?_⟩
    split_ifs at h ⊢ with hxl
    · rw [hxl, Function.update_self, Function.update_of_ne hpne]
      exact Nat.lt_succ_self _
    · have hx := hx.resolve_left hxl
      rw [Function.update_of_ne hxl, Function.update_of_ne (ne_of_mem hf.fresh (hs.parent x hx h))]
      exact hdepth x hx h
  case prsb =>
    intro x hx
    by_cases hxl : x = l
    · rw [if_pos hxl, if_pos hxl, if_neg hpne]
      exact hf.prsb
    · have hx := hx.resolve_left hxl
      rw [if_neg hxl, if_neg hxl, hs.prsb x hx]
      split_ifs with h0 h1
      · rfl
      · exact absurd (h1 ▸ hs.parent x hx h0) hf.fresh
      · rfl
  case subcnt =>
    intro p hp
    rw [lk_add]
    have hnot : l ∉ s.sublocks p := fun h => hf.fresh (Finset.mem_filter.mp h).1
    by_cases hpl : p = l
    · -- nothing is under the new lock
      have hempty : s.sublocks p = ∅ := by
        refine Finset.eq_empty_of_forall_notMem fun x hx => ?_
        obtain ⟨hx, hpar⟩ := Finset.mem_filter.mp hx
        exact hf.fresh (hpl ▸ hpar ▸ hs.parent x hx (hpar ▸ hpl ▸ hf.ne_zero))
      subst hpl
      rw [if_neg (fun h => hpne h.1.symm), if_pos rfl, if_neg hpne, hf.subcnt, hempty, Finset.card_empty]
    · have hp := hp.resolve_left hpl
      have hp0 : p ≠ 0 := fun h => hs.lkb_ne (h ▸ hp)
      by_cases hpar : L.parent = p
      · rw [if_pos ⟨hpar.symm, hpar ▸ hp0⟩, if_pos hpar, if_neg hpl, Finset.card_insert_of_notMem hnot,
          hs.subcnt p hp]
      · rw [if_neg (fun h => hpar h.1.symm), if_neg hpar, if_neg hpl, hs.subcnt p hp]
  case waiting =>
    intro x hx hst
    rw [lk_add]
    by_cases hxl : x = l
    · rw [if_neg (fun h => hpne (h.1.symm.trans hxl)), if_pos hxl]
      exact hf.subcnt
    · rw [if_neg hxl] at hst
      rw [if_neg hxl, if_neg, hs.waiting x (hx.resolve_left hxl) hst]
      rintro ⟨rfl, h0⟩
      simp [(hf.parent h0).2] at hst
  case granted =>
    intro x hx hst
    split_ifs at hst ⊢ with hxl
    · exact hwait hst
    · exact hs.granted x (hx.resolve_left hxl) hst
  exacts [hs.rsb_ne, hs.chained, hs.hash, hs.hash_nodup, hs.unique]

end Struct

theorem Rsb.is_iff {name : List UInt8} {acmode parent : ℕ} {group : ℤ} :
    R.is name acmode group parent ↔ R.key = (name, acmode, group, parent) := by
  simp [is, key]

namespace Struct

/-- **A new resource.** -/
theorem make (hs : Struct s) (hr0 : r ≠ 0) (hr : r ∉ s.rsbs) (hempty : ∀ q, R.queue q = [])
    (hnew : ∀ x ∈ s.rsbs, ¬(s.rs x).is R.name R.acmode R.group R.parent) : Struct (make s r R) := by
  have hold : ∀ x ∈ s.rsbs, (Lock.make s r R).rs x = s.rs x := fun x hx =>
    Function.update_of_ne (fun h : x = r => hr (h ▸ hx)) _ _
  have hself : (Lock.make s r R).rs r = R := Function.update_self _ _ _
  have hkey : ∀ x ∈ s.rsbs, (s.rs x).key ≠ R.key := fun x hx h => hnew x hx (is_iff.mpr h)
  have hqueue : ∀ x q, ((Lock.make s r R).rs x).queue q = (s.rs x).queue q := by
    intro x q
    by_cases hx : x = r
    · rw [hx, hself, hempty, hs.queue_empty hr]
    · rw [Lock.make]
      simp only [Function.update_of_ne hx]
  refine { hs with
    on := fun l x q => hqueue x q ▸ hs.on l x q
    nodup := fun x q => hqueue x q ▸ hs.nodup x q
    rsb := fun l hl => Finset.mem_insert_of_mem (hs.rsb l hl)
    rsb_ne := fun h => (Finset.mem_insert.mp h).elim (hr0 ·.symm) hs.rsb_ne
    prsb := fun l hl => (congrArg Rsb.parent (hold _ (hs.rsb l hl))).trans (hs.prsb l hl)
    chained := fun x hx => ?_, hash := fun c x hx => ?_, hash_nodup := fun c => ?_
    unique := fun x hx y hy hk => ?_ }
  · simp only [Lock.make, Function.update_apply]
    rcases Finset.mem_insert.mp hx with rfl | hx
    · simp
    · have hne : x ≠ r := fun h => hr (h ▸ hx)
      rw [if_neg hne]
      split_ifs with hc
      · exact mem_cons_of_mem _ (hc ▸ hs.chained x hx)
      · exact hs.chained x hx
  · simp only [Lock.make, Function.update_apply] at hx ⊢
    by_cases hxr : x = r
    · refine ⟨hxr ▸ Finset.mem_insert_self _ _, ?_⟩
      rw [if_pos hxr]
      split_ifs at hx with hc
      · exact hc.symm
      · exact absurd (hxr ▸ (hs.hash c x hx).1) hr
    · have hx' : x ∈ s.hash c := by
        split_ifs at hx with hc
        · exact hc ▸ (mem_cons.mp hx).resolve_left hxr
        · exact hx
      rw [if_neg hxr]
      exact ⟨Finset.mem_insert_of_mem (hs.hash c x hx').1, (hs.hash c x hx').2⟩
  · simp only [Lock.make, Function.update_apply]
    split_ifs
    · exact nodup_cons.mpr ⟨fun h => hr (hs.hash _ r h).1, hs.hash_nodup _⟩
    · exact hs.hash_nodup c
  · rcases Finset.mem_insert.mp hx with hxr | hx <;> rcases Finset.mem_insert.mp hy with hyr | hy
    · rw [hxr, hyr]
    · rw [hxr, hself, hold y hy] at hk
      exact absurd hk.symm (hkey y hy)
    · rw [hyr, hself, hold x hx] at hk
      exact absurd hk (hkey x hx)
    · rw [hold x hx, hold y hy] at hk
      exact hs.unique x hx y hy hk

/-- **A resource that goes.** -/
theorem freeRsb (hs : Struct s) : Struct (freeRsb s r) := by
  unfold Lock.freeRsb
  dsimp only
  split_ifs with h
  · exact hs
  have hempty : ∀ q, (s.rs r).queue q = [] := by
    simp only [ne_eq, not_or, not_not] at h
    rintro (_ | _ | _)
    exacts [h.1, h.2.1, h.2.2]
  refine { hs with
    rsb := fun l hl => ?_, rsb_ne := fun h => hs.rsb_ne (Finset.mem_of_mem_erase h)
    chained := fun x hx => ?_, hash := fun c x hx => ?_, hash_nodup := fun c => ?_
    unique := fun x hx y hy => ?_ }
  · refine Finset.mem_erase.mpr ⟨fun (he : (s.lk l).rsb = r) => ?_, hs.rsb l hl⟩
    have hon := hs.mem_queue hl
    rw [he, hempty] at hon
    exact not_mem_nil hon
  · obtain ⟨hne, hx⟩ := Finset.mem_erase.mp hx
    simp only [Function.update_apply]
    split_ifs with hc
    · exact (mem_erase_of_ne hne).mpr (hc ▸ hs.chained x hx)
    · exact hs.chained x hx
  · simp only [Function.update_apply] at hx
    rw [Finset.mem_erase]
    split_ifs at hx with hc
    · obtain ⟨hne, hx⟩ := (hs.hash_nodup _).mem_erase_iff.mp hx
      exact ⟨⟨hne, (hs.hash _ x hx).1⟩, hc ▸ (hs.hash _ x hx).2⟩
    · refine ⟨⟨?_, (hs.hash c x hx).1⟩, (hs.hash c x hx).2⟩
      rintro rfl
      exact hc (hs.hash c x hx).2.symm
  · simp only [Function.update_apply]
    split_ifs
    · exact (hs.hash_nodup _).erase r
    · exact hs.hash_nodup c
  · exact hs.unique x (Finset.mem_of_mem_erase hx) y (Finset.mem_of_mem_erase hy)

theorem emit (hs : Struct s) (e : Event) : Struct (s.emit e) := { hs with }

/-- **Every act keeps the structure.** -/
theorem act {waittime : ℕ} {ok : Db → Request → Prop} (hs : Struct s) (h : Act waittime ok s s') :
    Struct s' := by
  cases h with
  | rest h => exact hs.congr h
  | grant l cv hl hq _ _ _ h =>
    exact congr h ((hs.moveTo hl hq.symm (by decide) ⟨rfl, rfl, rfl, rfl⟩ rfl fun _ => rfl).emit _)
  | convert l mode hl hq _ _ h => exact congr h (hs.setLkb ⟨rfl, rfl, rfl, rfl⟩ rfl le_rfl)
  | queue l mode hl hq _ _ h =>
    exact congr h (hs.moveTo hl (by simp [hq]) (by decide) ⟨rfl, rfl, rfl, rfl⟩ rfl nofun)
  | giveUp l hl hq h =>
    have hne : LkbState.granted ≠ (s.lk l).state := by simp [hq]
    exact congr h ((hs.moveTo hl hne (by decide) ⟨rfl, rfl, rfl, rfl⟩ rfl fun _ => rfl).emit _)
  | remove l hl hsub h => exact congr h (hs.remove hl hsub)
  | grantNew l L i max hf _ _ hwait _ _ h => exact congr h (hs.add hf fun _ => hwait)
  | queueNew l L i max hf hq _ _ _ h => exact congr h (hs.add hf (by simp [hq]))
  | make r R hr hfresh hempty hnew h => exact congr h (hs.make hr hfresh hempty hnew)
  | free r h => exact congr h hs.freeRsb
  | tick l _ _ h | search l _ _ h =>
    exact congr h (hs.setLkb ⟨rfl, rfl, rfl, rfl⟩ rfl (Nat.sub_le _ _))

end Struct

end Lock
