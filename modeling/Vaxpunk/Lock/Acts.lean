/-
  What the lock manager does to its queues, act by act.

  A call is a sequence of a few kinds of acts: a request is granted, queued,
  failed or removed, a resource is made or freed.  Between them the calls move
  ACBs and value blocks, which the queues don't depend on: `Db.core` leaves
  those out.
-/
import Vaxpunk.Lock.Calls

namespace Lock

/-! ## What the queues depend on -/

/-- Whether an event is about a request, not an ACB. -/
def Event.isMove : Event → Bool
  | .granted .. => true
  | .left .. => true
  | _ => false

/-- A lock without its ACBs. -/
def Lkb.core (L : Lkb) : Lkb := { L with acb := 0, blkacb := 0, valret := false }

/-- A resource without its value block. -/
def Rsb.core (R : Rsb) : Rsb := { R with valblk := [], valinv := false }

/-- The database without what the queues don't depend on. -/
def Db.core (s : Db) : Db :=
  { s with
    rs := fun r => (s.rs r).core
    lk := fun l => (s.lk l).core
    idnext := 0
    idseq := 0
    visited := fun _ => false
    log := s.log.filter Event.isMove }

/-! ## The acts -/

/-- `l` goes to the end of queue `q` of its resource, changed by `f`. -/
def moveTo (s : Db) (l : ℕ) (q : LkbState) (f : Lkb → Lkb) : Db :=
  append ((unlink s (s.lk l).rsb (s.lk l).state l).setLkb l f) (s.lk l).rsb q l

/-- The lock with its request granted. -/
def Lkb.grant (L : Lkb) : Lkb := { L with grmode := L.rqmode, state := .granted, wait := 0 }

/-- The lock with a request for `mode` that waits `wait` seconds for its
    search. -/
def Lkb.ask (mode : Mode) (wait : ℕ) (L : Lkb) : Lkb :=
  { L with rqmode := mode, state := .converting, wait := wait }

/-- The lock with its conversion given up. -/
def Lkb.giveUp (L : Lkb) : Lkb := { L with rqmode := L.grmode, state := .granted, wait := 0 }

/-- Counts a sublock more or less of `p`, or nothing for 0. -/
def countSub (s : Db) (p : ℕ) (f : ℕ → ℕ) : Db :=
  if p ≠ 0 then s.setLkb p fun P => { P with subcnt := f P.subcnt } else s

/-- `l` is gone, from its queue and the lock ID table. -/
def remove (s : Db) (l : ℕ) : Db :=
  let L := s.lk l
  let s := countSub ((unlink s L.rsb L.state l).emit (.left l L.state)) L.parent (· - 1)
  { s with idtbl := Function.update s.idtbl (indexOf L.id) 0, lkbs := s.lkbs.erase l }

/-- The new lock `L`, at the address `l`, in entry `i` of a lock ID table of
    `max` entries. -/
def add (s : Db) (l : ℕ) (L : Lkb) (i max : ℕ) : Db :=
  let s := { s with
    idtbl := Function.update s.idtbl i l
    idmax := max
    lkbs := insert l s.lkbs }
  append (countSub (s.setLkb l fun _ => L) L.parent (· + 1)) L.rsb L.state l

/-- The new resource `R`, at the address `r`. -/
def make (s : Db) (r : ℕ) (R : Rsb) : Db :=
  { s with
    rs := Function.update s.rs r R
    rsbs := insert r s.rsbs
    hash := Function.update s.hash R.chain (r :: s.hash R.chain) }

/-- Whether a request on `r` for `mode`, by the lock `l` or a new one, would be
    granted now if it had to pass the requests of the queues `qs`. -/
def Now (s : Db) (r l : ℕ) (mode : Mode) (qs : List LkbState) : Prop :=
  (∀ q ∈ qs, (s.rs r).queue q = []) ∧ grantable s r l mode

/-- A request, as it comes in: whose, on which resource, for what mode, what
    becomes of it, and whether it is a conversion. -/
structure Request where
  pid : ℕ
  rsb : ℕ
  mode : Mode
  state : LkbState
  convert : Bool

/-- A new lock that the database can take in. -/
structure Fits (s : Db) (l : ℕ) (L : Lkb) (i max : ℕ) : Prop where
  ne_zero : l ≠ 0
  fresh : l ∉ s.lkbs
  rsb : L.rsb ∈ s.rsbs
  subcnt : L.subcnt = 0
  parent : L.parent ≠ 0 → L.parent ∈ s.lkbs ∧ (s.lk L.parent).state = .granted
  prsb : (s.rs L.rsb).parent = if L.parent = 0 then 0 else (s.lk L.parent).rsb
  index : indexOf L.id = i
  pos : 0 < i
  lt : i < max
  le : s.idmax ≤ max
  max : max ≤ 2 ^ IDBITS
  free : s.idtbl i = 0

/-- One act, with requests that meet `ok`; `waittime` is what a queued one
    waits for its search. -/
inductive Act (waittime : ℕ) (ok : Db → Request → Prop) (s s' : Db) : Prop where
  /-- Nothing the queues depend on. -/
  | rest (h : s'.core = s.core)
  /-- The first request of a queue is granted. -/
  | grant (l : ℕ) (cv : List ℕ) (hl : l ∈ s.lkbs) (hq : (s.lk l).state ≠ .granted)
      (hhead : ((s.rs (s.lk l).rsb).queue (s.lk l).state).head? = some l)
      (hcv : (s.lk l).state = .waiting → (s.rs (s.lk l).rsb).queue .converting = [] ∧ cv = [])
      (hg : grantable s (s.lk l).rsb l (s.lk l).rqmode)
      (h : s'.core = ((moveTo s l .granted Lkb.grant).emit (.granted l (s.lk l).state cv)).core)
  /-- A conversion is granted at once. -/
  | convert (l : ℕ) (mode : Mode) (hl : l ∈ s.lkbs) (hq : (s.lk l).state = .granted)
      (hnow : Now s (s.lk l).rsb l mode [.converting])
      (hok : ok s ⟨(s.lk l).pid, (s.lk l).rsb, mode, .granted, true⟩)
      (h : s'.core = (s.setLkb l fun L => { L with grmode := mode, rqmode := mode }).core)
  /-- A conversion is queued. -/
  | queue (l : ℕ) (mode : Mode) (hl : l ∈ s.lkbs) (hq : (s.lk l).state = .granted)
      (hnow : ¬Now s (s.lk l).rsb l mode [.converting])
      (hok : ok s ⟨(s.lk l).pid, (s.lk l).rsb, mode, .converting, true⟩)
      (h : s'.core = (moveTo s l .converting (Lkb.ask mode waittime)).core)
  /-- A conversion is given up. -/
  | giveUp (l : ℕ) (hl : l ∈ s.lkbs) (hq : (s.lk l).state = .converting)
      (h : s'.core = ((moveTo s l .granted Lkb.giveUp).emit (.left l .converting)).core)
  /-- A lock goes. -/
  | remove (l : ℕ) (hl : l ∈ s.lkbs) (hsub : (s.lk l).subcnt = 0) (h : s'.core = (remove s l).core)
  /-- A new lock is granted at once. -/
  | grantNew (l : ℕ) (L : Lkb) (i max : ℕ) (hf : Fits s l L i max) (hq : L.state = .granted)
      (hmode : L.grmode = L.rqmode) (hwait : L.wait = 0)
      (hnow : Now s L.rsb 0 L.rqmode [.converting, .waiting])
      (hok : ok s ⟨L.pid, L.rsb, L.rqmode, .granted, false⟩) (h : s'.core = (add s l L i max).core)
  /-- A new lock is queued. -/
  | queueNew (l : ℕ) (L : Lkb) (i max : ℕ) (hf : Fits s l L i max) (hq : L.state = .waiting)
      (hwait : L.wait = waittime)
      (hnow : ¬Now s L.rsb 0 L.rqmode [.converting, .waiting])
      (hok : ok s ⟨L.pid, L.rsb, L.rqmode, .waiting, false⟩) (h : s'.core = (add s l L i max).core)
  /-- A resource is made. -/
  | make (r : ℕ) (R : Rsb) (hr : r ≠ 0) (hfresh : r ∉ s.rsbs) (hempty : ∀ q, R.queue q = [])
      (hnew : ∀ x ∈ s.rsbs, ¬(s.rs x).is R.name R.acmode R.group R.parent)
      (h : s'.core = (make s r R).core)
  /-- A resource with no lock is deleted. -/
  | free (r : ℕ) (h : s'.core = (freeRsb s r).core)
  /-- A second of a request's wait. -/
  | tick (l : ℕ) (hl : l ∈ s.lkbs) (hwait : 1 < (s.lk l).wait)
      (h : s'.core = (s.setLkb l fun L => { L with wait := L.wait - 1 }).core)
  /-- A request is searched from. -/
  | search (l : ℕ) (hl : l ∈ s.lkbs) (hwait : (s.lk l).wait = 1)
      (h : s'.core = (s.setLkb l fun L => { L with wait := L.wait - 1 }).core)

end Lock
