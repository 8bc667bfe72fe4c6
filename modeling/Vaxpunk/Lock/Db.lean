/-
  The lock database of one node (`locking.b64`): resources, locks, and the
  order they are granted in.

  A resource's queues are lists of LKB addresses, where the source links them
  through LKB_NEXT; so are the hash chains of RSBs.  Memory holds an LKB and an
  RSB at every address; those that are blocks of pool in use are in two sets.
-/
import Mathlib

namespace Lock

/-! ## Modes -/

/-- The lock modes, LCK$K_NLMODE to LCK$K_EXMODE. -/
inductive Mode where
  | nl
  | cr
  | cw
  | pr
  | pw
  | ex
  deriving DecidableEq, Repr

def Mode.code : Mode → ℕ
  | .nl => 0
  | .cr => 1
  | .cw => 2
  | .pr => 3
  | .pw => 4
  | .ex => 5

/-- Byte `m`: the modes compatible with mode `m`, a bit each. -/
def COMPAT : ℕ := 0x01030B071F3F

/-- Whether a lock in mode `a` may be granted while another holds mode `b`. -/
def compatible (a b : Mode) : Bool := COMPAT.testBit (a.code * 8 + b.code)

/-! ## Blocks -/

/-- What a lock is doing; each names the queue of its resource it is on. -/
inductive LkbState where
  | granted
  | converting
  | waiting
  deriving DecidableEq, Repr

abbrev ValBlk := List UInt8

/-- A lock.  An address of zero is none. -/
structure Lkb where
  rsb : ℕ
  /-- Its process. -/
  pid : ℕ
  id : ℕ
  /-- A waiting request's ACB, else 0. -/
  acb : ℕ
  state : LkbState
  /-- The mode granted. -/
  grmode : Mode
  /-- The mode asked for. -/
  rqmode : Mode
  /-- The access mode it belongs to. -/
  acmode : ℕ
  /-- The parent lock, or 0. -/
  parent : ℕ
  /-- The blocking AST's ACB while armed, else 0. -/
  blkacb : ℕ
  /-- Its sublocks. -/
  subcnt : ℕ
  /-- Seconds until its request is searched for a deadlock, or 0. -/
  wait : ℕ
  /-- Whether granting its request returns the value block. -/
  valret : Bool
  deriving DecidableEq, Repr

def Lkb.zero : Lkb := ⟨0, 0, 0, 0, .granted, .nl, .nl, 0, 0, 0, 0, 0, false⟩

structure Rsb where
  queue : LkbState → List ℕ
  /-- The UIC group, or -1, the system's. -/
  group : ℤ
  /-- The parent resource, or 0. -/
  parent : ℕ
  acmode : ℕ
  name : List UInt8
  valblk : ValBlk
  /-- Whether the value block isn't valid. -/
  valinv : Bool

def Rsb.zero : Rsb := ⟨fun _ => [], 0, 0, 0, [], List.replicate 16 0, false⟩

/-- The condition values the lock manager returns and posts. -/
inductive Status where
  | normal
  | synch
  | notqueued
  | ivlockid
  | cvtungrant
  | parnotgrant
  | insfmem
  | sublocks
  | abort
  | deadlock
  | valnotvalid
  deriving DecidableEq, Repr

/-- What a call does that shows outside the database, and what it does to the
    requests on the queues. -/
inductive Event where
  /-- LCK$QPOST, with the value block it returns. -/
  | qpost (acb : ℕ) (status : Status) (val : Option ValBlk)
  /-- SCH$QAST. -/
  | qast (acb : ℕ)
  /-- An ACB given back to pool. -/
  | free (acb : ℕ)
  /-- A request granted, what it was before, and the conversions then queued
      on its resource. -/
  | granted (l : ℕ) (was : LkbState) (conversions : List ℕ)
  /-- A request dequeued or failed. -/
  | left (l : ℕ) (was : LkbState)
  deriving DecidableEq, Repr

structure Db where
  rs : ℕ → Rsb
  lk : ℕ → Lkb
  /-- The RSBs in use. -/
  rsbs : Finset ℕ
  /-- The LKBs in use. -/
  lkbs : Finset ℕ
  /-- The RSBs' hash chains. -/
  hash : ℕ → List ℕ
  /-- The lock ID table: LKBs by index, or 0. -/
  idtbl : ℕ → ℕ
  /-- Its entries; index 0 isn't used. -/
  idmax : ℕ
  /-- Where the search for a free one starts. -/
  idnext : ℕ
  /-- The last lock ID's sequence number. -/
  idseq : ℕ
  /-- The processes a deadlock search went through, by index. -/
  visited : ℕ → Bool
  /-- What has been done, in order. -/
  log : List Event

namespace Db

def empty : Db where
  rs _ := Rsb.zero
  lk _ := Lkb.zero
  rsbs := ∅
  lkbs := ∅
  hash _ := []
  idtbl _ := 0
  idmax := 0
  idnext := 0
  idseq := 0
  visited _ := false
  log := []

def setRsb (s : Db) (r : ℕ) (f : Rsb → Rsb) : Db := { s with rs := Function.update s.rs r (f (s.rs r)) }

def setLkb (s : Db) (l : ℕ) (f : Lkb → Lkb) : Db := { s with lk := Function.update s.lk l (f (s.lk l)) }

def emit (s : Db) (e : Event) : Db := { s with log := s.log ++ [e] }

end Db

/-! ## Queues -/

def append (s : Db) (r : ℕ) (q : LkbState) (l : ℕ) : Db :=
  s.setRsb r fun R => { R with queue := Function.update R.queue q (R.queue q ++ [l]) }

def unlink (s : Db) (r : ℕ) (q : LkbState) (l : ℕ) : Db :=
  s.setRsb r fun R => { R with queue := Function.update R.queue q ((R.queue q).erase l) }

/-- Whether a lock on the queue, other than `l`, holds a mode that `mode` isn't
    compatible with. -/
def holds (s : Db) (r : ℕ) (q : LkbState) (l : ℕ) (mode : Mode) : Bool :=
  ((s.rs r).queue q).any fun p => p ≠ l && !compatible mode (s.lk p).grmode

/-- Whether `l`, or a new lock for 0, may have `mode` with the modes the
    resource's granted and converting locks hold. -/
def grantable (s : Db) (r l : ℕ) (mode : Mode) : Bool :=
  !holds s r .granted l mode && !holds s r .converting l mode

/-- The part of a queue behind `b`. -/
def behind (q : List ℕ) (b : ℕ) : List ℕ := (q.dropWhile fun p => p ≠ b).tail

/-- Whether `b`, converting or waiting, is ahead of `q`, converting or waiting
    too, on their resource's queues. -/
def ahead (s : Db) (b q : ℕ) : Bool :=
  if (s.lk b).state ≠ (s.lk q).state then (s.lk b).state = .converting
  else q ∈ behind ((s.rs (s.lk b).rsb).queue (s.lk b).state) b

/-- Whether `b`, another lock on `q`'s resource, keeps `q`'s request from being
    granted: it holds a mode the request isn't compatible with, or asks for one
    ahead of it. -/
def blocks (s : Db) (b q : ℕ) : Bool :=
  if b = q ∨ (s.lk q).state = .granted then false
  else if (s.lk b).state ≠ .waiting ∧ !compatible (s.lk q).rqmode (s.lk b).grmode then true
  else if (s.lk b).state ≠ .granted ∧ !compatible (s.lk q).rqmode (s.lk b).rqmode then ahead s b q
  else false

/-! ## Granting -/

/-- Delivers the blocking AST of `p` if it is armed and `p`, another lock than
    `q`, holds a mode `q`'s request isn't compatible with. -/
def blockOne (q : ℕ) (s : Db) (p : ℕ) : Db :=
  if p ≠ q ∧ (s.lk p).blkacb ≠ 0 ∧ !compatible (s.lk q).rqmode (s.lk p).grmode then
    (s.emit (.qast (s.lk p).blkacb)).setLkb p fun L => { L with blkacb := 0 }
  else s

/-- Delivers the blocking ASTs of the locks on a queue that block `q`. -/
def blockAst (s : Db) (r : ℕ) (h : LkbState) (q : ℕ) : Db := ((s.rs r).queue h).foldl (blockOne q) s

/-- Delivers the blocking ASTs of the locks that block a request on the
    resource's conversion or waiting queue. -/
def notify (s : Db) (r : ℕ) : Db :=
  let each (s : Db) (q : ℕ) : Db := blockAst (blockAst s r .granted q) r .converting q
  let s := ((s.rs r).queue .converting).foldl each s
  ((s.rs r).queue .waiting).foldl each s

/-- How `L`'s granted request on `R` completes: with the value block, if the
    request returns it, and SS$_VALNOTVALID for one that isn't valid. -/
def completion (R : Rsb) (L : Lkb) : Event :=
  if ¬L.valret then .qpost L.acb .normal none
  else if R.valinv then .qpost L.acb .valnotvalid (some R.valblk)
  else .qpost L.acb .normal (some R.valblk)

/-- Completes `l`'s granted request through its ACB.  A request with no ACB,
    the file system's, has nothing to complete. -/
def post (s : Db) (r l : ℕ) : Db :=
  if (s.lk l).acb = 0 then s
  else (s.emit (completion (s.rs r) (s.lk l))).setLkb l fun L => { L with acb := 0 }

/-- Grants `l`, waiting or converting and off its queue, the mode it asked for,
    and completes its request. -/
def grant (s : Db) (r l : ℕ) : Db :=
  let s := s.emit (.granted l (s.lk l).state ((s.rs r).queue .converting))
  let s := s.setLkb l fun L => { L with grmode := L.rqmode, state := .granted, wait := 0 }
  post (append s r .granted l) r l

/-- Grants the requests of a queue that can be, in order, up to the first that
    can't.  Each grant takes one off the queue, so its length bounds the loop. -/
def regrantQueue (r : ℕ) (q : LkbState) : ℕ → Db → Db
  | 0, s => s
  | n + 1, s =>
    match (s.rs r).queue q with
    | [] => s
    | p :: _ =>
      if ¬grantable s r p (s.lk p).rqmode then s
      else regrantQueue r q n (grant (unlink s r q p) r p)

/-- Grants the conversions that now can be, then, if none is left, the waiting
    requests, and delivers the blocking ASTs of the locks that block what is
    left. -/
def regrant (s : Db) (r : ℕ) : Db :=
  let s := regrantQueue r .converting ((s.rs r).queue .converting).length s
  let s := if (s.rs r).queue .converting = [] then
      regrantQueue r .waiting ((s.rs r).queue .waiting).length s else s
  notify s r

/-! ## Resources -/

def HASHSIZE : ℕ := 128

/-- The hash chain of a name under a parent resource. -/
def chain (name : List UInt8) (parent : ℕ) : ℕ :=
  name.foldl (fun h b => h * 31 + b.toNat) (name.length + parent) % HASHSIZE

def Rsb.chain (R : Rsb) : ℕ := Lock.chain R.name R.parent

/-- Whether `R` is the resource a qualified name names. -/
def Rsb.is (R : Rsb) (name : List UInt8) (acmode : ℕ) (group : ℤ) (parent : ℕ) : Bool :=
  R.name = name ∧ R.acmode = acmode ∧ R.group = group ∧ R.parent = parent

/-- The resource a qualified name names, made at the address `got` if there
    isn't one, or none if there is no pool for it. -/
def findRsb (s : Db) (name : List UInt8) (acmode : ℕ) (group : ℤ) (parent : ℕ) (got : Option ℕ) :
    Option ℕ × Db :=
  let c := chain name parent
  match (s.hash c).find? fun r => (s.rs r).is name acmode group parent with
  | some r => (some r, s)
  | none =>
    match got with
    | none => (none, s)
    | some r =>
      let R := { Rsb.zero with group := group, parent := parent, acmode := acmode, name := name }
      (some r, { s with
        rs := Function.update s.rs r R
        rsbs := insert r s.rsbs
        hash := Function.update s.hash c (r :: s.hash c) })

/-- Deletes the resource if no lock is left on it. -/
def freeRsb (s : Db) (r : ℕ) : Db :=
  let R := s.rs r
  if R.queue .granted ≠ [] ∨ R.queue .converting ≠ [] ∨ R.queue .waiting ≠ [] then s
  else
    let c := R.chain
    { s with
      rsbs := s.rsbs.erase r
      hash := Function.update s.hash c ((s.hash c).erase r) }

/-! ## Lock IDs -/

/-- The bits of the index in a lock ID; the sequence number is above it. -/
def IDBITS : ℕ := 24

/-- A free entry of the table, looked for from `next` on, `n` times, and where
    the next search starts. -/
def scanIds (tbl : ℕ → ℕ) (max : ℕ) : ℕ → ℕ → Option ℕ × ℕ
  | 0, next => (none, next)
  | n + 1, next =>
    let next := if next = 0 ∨ next ≥ max then 1 else next
    if tbl next = 0 then (some next, next) else scanIds tbl max n (next + 1)

/-- Puts `l` in entry `i` of the table and makes its lock ID. -/
def enterId (s : Db) (l i : ℕ) : Option ℕ × Db :=
  let seq := (s.idseq + 1) % 128
  (some (i + seq <<< IDBITS),
    { s with idtbl := Function.update s.idtbl i l, idnext := i + 1, idseq := seq })

/-- A lock ID for `l`, from a free entry of the lock ID table, which doubles
    when it is full, or none if there is no pool for that (`got`). -/
def newId (s : Db) (l : ℕ) (got : Bool) : Option ℕ × Db :=
  match scanIds s.idtbl s.idmax (s.idmax - 1) s.idnext with
  | (some i, next) => enterId { s with idnext := next } l i
  | (none, next) =>
    let s := { s with idnext := next }
    let size := if s.idmax * 2 = 0 then 64 else s.idmax * 2
    if size > 1 <<< IDBITS ∨ ¬got then (none, s)
    else
      let i := if s.idmax ≠ 0 then s.idmax else 1
      let s := { s with
        idtbl := fun i => if i < s.idmax then s.idtbl i else 0
        idmax := size }
      enterId s l i

def indexOf (id : ℕ) : ℕ := id % 2 ^ IDBITS

def findLkb (s : Db) (id : ℕ) : Option ℕ :=
  let i := indexOf id
  if i = 0 ∨ i ≥ s.idmax then none
  else
    let l := s.idtbl i
    if l = 0 ∨ (s.lk l).id ≠ id then none else some l

/-- The lock with that ID if it is process `pid`'s and of `acmode` or an outer
    mode. -/
def ownLkb (s : Db) (id pid acmode : ℕ) : Option ℕ :=
  match findLkb s id with
  | none => none
  | some l => if (s.lk l).pid ≠ pid ∨ (s.lk l).acmode < acmode then none else some l

end Lock
