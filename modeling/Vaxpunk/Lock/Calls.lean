/-
  The lock manager's calls (`locking.b64`): LCK$ENQ, LCK$DEQ, LCK$DEQALL and
  LCK$SEARCH, and the runs of an executive that makes them.
-/
import Vaxpunk.Lib.Search
import Vaxpunk.Lock.Db

namespace Lock

/-! ## DEQUEUE -/

/-- What a lock's going writes to its resource's value block. -/
def Rsb.dequeueVal (R : Rsb) (L : Lkb) (invvalblk : Bool) (valblk : Option ValBlk) : Rsb :=
  if L.state ≠ .waiting ∧ L.grmode.code ≥ Mode.pw.code then
    let R := match valblk with
      | some v => if L.state = .granted then { R with valblk := v, valinv := false } else R
      | none => R
    if invvalblk then { R with valinv := true } else R
  else R

/-- Ends the request of a lock that goes, with `status`, or, for none, as its
    process goes, not at all. -/
def endRequest (s : Db) (L : Lkb) (status : Option Status) : Db :=
  if L.acb = 0 then s
  else match status with
    | some st => s.emit (.qpost L.acb st none)
    | none => s.emit (.free L.acb)

/-- Gives the blocking AST's ACB of a lock back to pool. -/
def freeBlkacb (s : Db) (L : Lkb) : Db := if L.blkacb ≠ 0 then s.emit (.free L.blkacb) else s

/-- DEQUEUE up to where it grants what can be: the lock goes from its queue and
    from the lock ID table. -/
def takeOut (s : Db) (l : ℕ) (status : Option Status) (invvalblk : Bool) (valblk : Option ValBlk) : Db :=
  let L := s.lk l
  let s := s.setRsb L.rsb fun R => R.dequeueVal L invvalblk valblk
  let s := (unlink s L.rsb L.state l).emit (.left l L.state)
  let s := freeBlkacb (endRequest s L status) L
  let s := if L.parent ≠ 0 then s.setLkb L.parent fun P => { P with subcnt := P.subcnt - 1 } else s
  { s with idtbl := Function.update s.idtbl (indexOf L.id) 0, lkbs := s.lkbs.erase l }

/-- Dequeues the lock, which has no sublocks, and grants what that lets be
    granted. -/
def dequeue (s : Db) (l : ℕ) (status : Option Status) (invvalblk : Bool) (valblk : Option ValBlk) : Db :=
  let r := (s.lk l).rsb
  freeRsb (regrant (takeOut s l status invvalblk valblk) r) r

/-- Whether `l` is a sublock of `parent`, at any depth, or `parent` is 0. -/
def under (s : Db) (parent : ℕ) : ℕ → ℕ → Bool
  | 0, _ => parent = 0
  | n + 1, l =>
    if parent = 0 then true
    else if (s.lk l).parent = 0 then false
    else if (s.lk l).parent = parent then true
    else under s parent n (s.lk l).parent

/-! ## LCK$ENQ -/

/-- The executive's cells the lock manager reads. -/
structure Env where
  /-- LCK$GL_WAITTIME, in seconds. -/
  waittime : ℕ
  /-- SCH$GL_MAXPIX. -/
  maxpix : ℕ

/-- The arguments of LCK$ENQ; of the lock status block, the lock ID and the
    value block. -/
structure EnqArgs where
  pid : ℕ
  lkmode : Mode
  lksbId : ℕ
  lksbVal : ValBlk
  /-- LCK$M_CONVERT. -/
  convert : Bool
  /-- LCK$M_NOQUEUE. -/
  noqueue : Bool
  /-- LCK$M_VALBLK. -/
  valblk : Bool
  name : List UInt8
  acmode : ℕ
  group : ℤ
  acb : ℕ
  parid : ℕ
  blkacb : ℕ

/-- What pool gives to one call: the address of an RSB, of an LKB, and whether
    there is room for a bigger lock ID table. -/
structure Gets where
  rsb : Option ℕ
  lkb : Option ℕ
  table : Bool

/-- Whether a conversion writes the value block. -/
def EnqArgs.writesVal (a : EnqArgs) (L : Lkb) : Bool :=
  a.valblk ∧ L.grmode.code ≥ Mode.pw.code ∧ a.lkmode.code ≤ L.grmode.code

/-- The conversion's lock, with the request in it. -/
def EnqArgs.request (a : EnqArgs) (L : Lkb) : Lkb :=
  { L with
    valret := a.valblk ∧ ¬a.writesVal L ∧ a.lkmode.code ≥ L.grmode.code
    blkacb := a.blkacb
    rqmode := a.lkmode
    acb := a.acb }

/-- The value block a conversion writes. -/
def writeVal (s : Db) (a : EnqArgs) (l : ℕ) : Db :=
  if a.writesVal (s.lk l) then
    s.setRsb (s.lk l).rsb fun R => { R with valblk := a.lksbVal, valinv := false }
  else s

/-- The part of a conversion that is the same for one granted now and one that
    waits. -/
def startConversion (s : Db) (a : EnqArgs) (l : ℕ) : Db :=
  (freeBlkacb (writeVal s a l) (s.lk l)).setLkb l a.request

/-- A conversion granted now, up to where it grants what can be. -/
def convertNow (s : Db) (a : EnqArgs) (l : ℕ) : Db :=
  post ((startConversion s a l).setLkb l fun L => { L with grmode := a.lkmode }) (s.lk l).rsb l

def convertWait (env : Env) (s : Db) (a : EnqArgs) (l : ℕ) : Db :=
  let r := (s.lk l).rsb
  let s := unlink (startConversion s a l) r .granted l
  append (s.setLkb l fun L => { L with state := .converting, wait := env.waittime }) r .converting l

/-- LCK$ENQ with LCK$M_CONVERT. -/
def enqConvert (env : Env) (s : Db) (a : EnqArgs) : Status × Db :=
  match ownLkb s a.lksbId a.pid a.acmode with
  | none => (.ivlockid, s)
  | some l =>
    if (s.lk l).state ≠ .granted then (.cvtungrant, s)
    else
      let r := (s.lk l).rsb
      let now := (s.rs r).queue .converting = [] ∧ grantable s r l a.lkmode
      if ¬now ∧ a.noqueue then (.notqueued, s)
      else if now then (.synch, regrant (convertNow s a l) r)
      else (.normal, notify (convertWait env s a l) r)

/-- A new lock, on no queue yet. -/
def EnqArgs.lock (a : EnqArgs) (r p id : ℕ) : Lkb :=
  { Lkb.zero with
    rsb := r
    pid := a.pid
    id := id
    acmode := a.acmode
    rqmode := a.lkmode
    parent := p
    blkacb := a.blkacb
    valret := a.valblk
    acb := a.acb }

/-- The new lock `l` filled in, and counted in its parent. -/
def makeLkb (s : Db) (a : EnqArgs) (r p l id : ℕ) : Db :=
  let s := s.setLkb l fun _ => a.lock r p id
  if p ≠ 0 then s.setLkb p fun P => { P with subcnt := P.subcnt + 1 } else s

def enqNow (s : Db) (a : EnqArgs) (r p l id : ℕ) : Db :=
  let s := (makeLkb s a r p l id).setLkb l fun L => { L with grmode := a.lkmode, state := .granted }
  post (append s r .granted l) r l

def enqWait (env : Env) (s : Db) (a : EnqArgs) (r p l id : ℕ) : Db :=
  let s := (makeLkb s a r p l id).setLkb l fun L => { L with state := .waiting, wait := env.waittime }
  append s r .waiting l

/-- A block of pool for a lock and a lock ID for it. -/
def newLkb (s : Db) (g : Gets) : Option (ℕ × ℕ) × Db :=
  match g.lkb with
  | none => (none, s)
  | some l =>
    match newId s l g.table with
    | (none, s) => (none, s)
    | (some id, s) => (some (l, id), { s with lkbs := insert l s.lkbs })

/-- LCK$ENQ on the resource `r`, under the lock `p`.  Returns the new lock's ID
    too, which goes in the lock status block. -/
def enqOn (env : Env) (s : Db) (a : EnqArgs) (g : Gets) (r p : ℕ) : Status × Option ℕ × Db :=
  let now := (s.rs r).queue .converting = [] ∧ (s.rs r).queue .waiting = [] ∧ grantable s r 0 a.lkmode
  if ¬now ∧ a.noqueue then (.notqueued, none, s)
  else match newLkb s g with
    | (none, s) => (.insfmem, none, freeRsb s r)
    | (some (l, id), s) =>
      if now then (.synch, some id, enqNow s a r p l id)
      else (.normal, some id, notify (enqWait env s a r p l id) r)

def enqNew (env : Env) (s : Db) (a : EnqArgs) (g : Gets) : Status × Option ℕ × Db :=
  if a.parid ≠ 0 then
    match ownLkb s a.parid a.pid a.acmode with
    | none => (.ivlockid, none, s)
    | some p =>
      if (s.lk p).state ≠ .granted then (.parnotgrant, none, s)
      else
        let prsb := (s.lk p).rsb
        match findRsb s a.name (s.rs prsb).acmode (s.rs prsb).group prsb g.rsb with
        | (none, s) => (.insfmem, none, s)
        | (some r, s) => enqOn env s a g r p
  else
    match findRsb s a.name a.acmode a.group 0 g.rsb with
    | (none, s) => (.insfmem, none, s)
    | (some r, s) => enqOn env s a g r 0

/-- LCK$ENQ: its status, the lock ID it writes in the lock status block, and
    the database after it. -/
def enq (env : Env) (s : Db) (a : EnqArgs) (g : Gets) : Status × Option ℕ × Db :=
  if a.convert then
    let (st, s) := enqConvert env s a
    (st, none, s)
  else enqNew env s a g

/-! ## LCK$DEQ -/

def deq (s : Db) (pid lkid acmode : ℕ) (invvalblk : Bool) (valblk : Option ValBlk) : Status × Db :=
  match ownLkb s lkid pid acmode with
  | none => (.ivlockid, s)
  | some l =>
    if (s.lk l).subcnt ≠ 0 then (.sublocks, s)
    else (.normal, dequeue s l (some .abort) invvalblk valblk)

/-- Whether LCK$DEQALL dequeues the lock in entry `i`. -/
def deqallTakes (s : Db) (pid acmode p i : ℕ) : Bool :=
  let l := s.idtbl i
  l ≠ 0 ∧ (s.lk l).pid = pid ∧ (s.lk l).acmode ≥ acmode ∧ (s.lk l).subcnt = 0 ∧ under s p s.idmax l

/-- One scan of the lock ID table, and whether it dequeued a lock. -/
def deqallScan (pid acmode : ℕ) (status : Option Status) (invvalblk : Bool) (p : ℕ) :
    List ℕ → Db → Bool × Db
  | [], s => (false, s)
  | i :: is, s =>
    if deqallTakes s pid acmode p i then
      (true, (deqallScan pid acmode status invvalblk p is
        (dequeue s (s.idtbl i) status invvalblk none)).2)
    else deqallScan pid acmode status invvalblk p is s

/-- The entries of the lock ID table, 1 to IDMAX - 1. -/
def Db.entries (s : Db) : List ℕ := List.range' 1 (s.idmax - 1)

/-- Scans of the lock ID table until one dequeues nothing. -/
def deqallLoop (pid acmode : ℕ) (status : Option Status) (invvalblk : Bool) (p : ℕ) : ℕ → Db → Db
  | 0, s => s
  | n + 1, s =>
    match deqallScan pid acmode status invvalblk p s.entries s with
    | (true, s) => deqallLoop pid acmode status invvalblk p n s
    | (false, s) => s

/-- LCK$DEQALL.  Each scan but the last dequeues a lock, so the table's size
    bounds them. -/
def deqall (s : Db) (pid acmode : ℕ) (status : Option Status) (invvalblk : Bool) (parid : ℕ) :
    Status × Db :=
  if parid ≠ 0 then
    match ownLkb s parid pid acmode with
    | none => (.ivlockid, s)
    | some p => (.normal, deqallLoop pid acmode status invvalblk p (s.idmax + 1) s)
  else (.normal, deqallLoop pid acmode status invvalblk 0 (s.idmax + 1) s)

/-! ## LCK$SEARCH -/

/-- A process's index, the low word of its ID. -/
def pix (pid : ℕ) : ℕ := pid % 2 ^ 16

/-- The locks of a resource, queue by queue. -/
def Rsb.locks (R : Rsb) : List ℕ := R.queue .granted ++ R.queue .converting ++ R.queue .waiting

/-- The requests of a process, by index in the lock ID table. -/
def requests (s : Db) (pid : ℕ) : List ℕ :=
  (s.entries.map s.idtbl).filter fun l => l ≠ 0 ∧ (s.lk l).pid = pid ∧ (s.lk l).state ≠ .granted

/-- What a deadlock search goes through: the processes' requests, and the locks
    that block them, queue by queue. -/
def waitGraph (s : Db) : Search.Graph ℕ ℕ ℕ where
  requests := requests s
  blockers q := (s.rs (s.lk q).rsb).locks.filter fun b => blocks s b q
  owner b := (s.lk b).pid
  mark := pix

/-- Whether `q`'s request waits for a lock of process `origin`'s, and the
    processes gone through.  A process is gone through once, which bounds how
    deep the calls nest. -/
def reaches (s : Db) (origin q : ℕ) (visited : ℕ → Bool) : Bool × (ℕ → Bool) :=
  (waitGraph s).reaches origin (2 ^ 16 + 1) q visited

/-- The end of a conversion that fails, up to where it grants what can be. -/
def failConversion (s : Db) (l : ℕ) : Db :=
  let r := (s.lk l).rsb
  let s := (unlink s r .converting l).emit (.left l .converting)
  let s := s.setLkb l fun L => { L with rqmode := L.grmode, state := .granted, wait := 0 }
  let s := append s r .granted l
  (s.emit (.qpost (s.lk l).acb .deadlock none)).setLkb l fun L => { L with acb := 0 }

/-- Ends the lock's request, converting or waiting, with SS$_DEADLOCK: a new
    lock goes, a conversion keeps its granted mode. -/
def fail (s : Db) (l : ℕ) : Db :=
  if (s.lk l).state = .waiting then dequeue s l (some .deadlock) false none
  else regrant (failConversion s l) (s.lk l).rsb

/-- Searches from the request of `l`, and fails it if it leads back to its own
    process. -/
def searchFrom (env : Env) (s : Db) (l : ℕ) : Db :=
  let found := reaches s (s.lk l).pid l fun p => if p < env.maxpix then false else s.visited p
  let s := { s with visited := found.2 }
  if found.1 then fail s l else s

/-- A second of a request's wait, for the lock in entry `i`; true if a request
    is still to be searched from. -/
def searchEntry (env : Env) (m : Bool × Db) (i : ℕ) : Bool × Db :=
  let (more, s) := m
  let l := s.idtbl i
  if l ≠ 0 ∧ (s.lk l).wait > 0 then
    let s := s.setLkb l fun L => { L with wait := L.wait - 1 }
    if (s.lk l).wait > 0 then (true, s) else (more, searchFrom env s l)
  else (more, s)

/-- LCK$SEARCH: whether a request is still to be searched from, and the
    database after it. -/
def search (env : Env) (s : Db) : Bool × Db := s.entries.foldl (searchEntry env) (false, s)

/-! ## Runs -/

/-- A call of the lock manager, at IPL$_SYNCH. -/
inductive Call where
  | enq (a : EnqArgs) (g : Gets)
  | deq (pid lkid acmode : ℕ) (invvalblk : Bool) (valblk : Option ValBlk)
  | deqall (pid acmode : ℕ) (status : Option Status) (invvalblk : Bool) (parid : ℕ)
  | search

def Call.run (env : Env) (s : Db) : Call → Db
  | .enq a g => (Lock.enq env s a g).2.2
  | .deq pid lkid acmode inv val => (Lock.deq s pid lkid acmode inv val).2
  | .deqall pid acmode status inv parid => (Lock.deqall s pid acmode status inv parid).2
  | .search => (Lock.search env s).2

/-- Pool gives only blocks that aren't in use. -/
structure Gets.Fresh (g : Gets) (s : Db) : Prop where
  rsb : ∀ r ∈ g.rsb, r ≠ 0 ∧ r ∉ s.rsbs
  lkb : ∀ l ∈ g.lkb, l ≠ 0 ∧ l ∉ s.lkbs

/-- Pool does its part of a call. -/
def Call.Fits (s : Db) : Call → Prop
  | .enq _ g => g.Fresh s
  | _ => True

/-- One call that meets `ok`. -/
def Step (env : Env) (ok : Db → Call → Prop) (s s' : Db) : Prop :=
  ∃ c : Call, c.Fits s ∧ ok s c ∧ s' = c.run env s

/-- Calls that meet `ok`, one after another. -/
def Run (env : Env) (ok : Db → Call → Prop) : Db → Db → Prop := Relation.ReflTransGen (Step env ok)

def anyCall : Db → Call → Prop := fun _ _ => True

/-- The databases that calls that meet `ok` lead to. -/
def Reached (env : Env) (ok : Db → Call → Prop) (s : Db) : Prop := Run env ok Db.empty s

/-! ### Calls one by one -/

instance (g : Gets) (s : Db) : Decidable (g.Fresh s) :=
  decidable_of_iff ((∀ r ∈ g.rsb.toList, r ≠ 0 ∧ r ∉ s.rsbs) ∧ ∀ l ∈ g.lkb.toList, l ≠ 0 ∧ l ∉ s.lkbs)
    ⟨fun h => ⟨by simpa using h.1, by simpa using h.2⟩, fun h => ⟨by simpa using h.rsb, by simpa using h.lkb⟩⟩

instance (s : Db) (c : Call) : Decidable (c.Fits s) :=
  match c with
  | .enq _ g => inferInstanceAs (Decidable (g.Fresh s))
  | .deq .. => .isTrue trivial
  | .deqall .. => .isTrue trivial
  | .search => .isTrue trivial

def after (env : Env) (cs : List Call) (s : Db) : Db := cs.foldl (Call.run env) s

/-- Each of some calls meets `ok` when it is made, and pool does its part. -/
def Allowed (env : Env) (ok : Db → Call → Prop) : List Call → Db → Prop
  | [], _ => True
  | c :: cs, s => c.Fits s ∧ ok s c ∧ Allowed env ok cs (c.run env s)

instance : DecidableRel anyCall := fun _ _ => .isTrue trivial

instance decidableAllowed (env : Env) (ok : Db → Call → Prop) [DecidableRel ok] :
    ∀ (cs : List Call) (s : Db), Decidable (Allowed env ok cs s)
  | [], _ => .isTrue trivial
  | c :: cs, s =>
    have := decidableAllowed env ok cs (c.run env s)
    inferInstanceAs (Decidable (c.Fits s ∧ ok s c ∧ Allowed env ok cs (c.run env s)))

theorem run_after {env : Env} {ok : Db → Call → Prop} {cs : List Call} {s : Db} (h : Allowed env ok cs s) :
    Run env ok s (after env cs s) := by
  induction cs generalizing s with
  | nil => exact .refl
  | cons c cs ih => exact .head ⟨c, h.1, h.2.1, rfl⟩ (ih h.2.2)

/-- A request for a new lock on a system resource from user mode, with no
    flags. -/
def EnqArgs.new (pid : ℕ) (name : List UInt8) (lkmode : Mode) (acb : ℕ) : EnqArgs where
  pid := pid
  lkmode := lkmode
  lksbId := 0
  lksbVal := []
  convert := false
  noqueue := false
  valblk := false
  name := name
  acmode := 3
  group := -1
  acb := acb
  parid := 0
  blkacb := 0

/-- A conversion of the lock in entry `i` with the sequence number `seq`. -/
def EnqArgs.conversion (pid i seq : ℕ) (lkmode : Mode) (acb : ℕ) : EnqArgs :=
  { EnqArgs.new pid [] lkmode acb with lksbId := i + seq <<< IDBITS, convert := true }

/-- Two processes share a lock that two others wait for. -/
def waitCalls : List Call :=
  [.enq (.new 1 [65] .pr 101) ⟨some 1, some 11, true⟩,
    .enq (.new 2 [65] .pr 102) ⟨none, some 12, true⟩,
    .enq (.new 3 [65] .ex 103) ⟨none, some 13, true⟩,
    .enq (.new 4 [65] .ex 104) ⟨none, some 14, true⟩]

def waiting : Db := after ⟨10, 100⟩ waitCalls .empty

theorem reached_waiting : Reached ⟨10, 100⟩ anyCall waiting := run_after (by decide +kernel)

end Lock
