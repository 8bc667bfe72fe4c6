/-
  Physical pages (`memory.mar`): the PFN database, PTEs as WRPTE leaves them
  (`main.c` of the PAL), and the routines that make, delete, protect and lock
  pages.

  Addresses are page numbers.  Every WRPTE that maps a page is told whether the
  PAL has room for it.
-/
import Mathlib

namespace Mem

/-! ## PTEs -/

/-- A PTE: its low longword (valid, fault on execute, each mode's read and write
    enables) and its PFN, the high one. -/
structure Pte where
  low : BitVec 32
  pfn : ℕ
  deriving DecidableEq, Repr

def Pte.zero : Pte := ⟨0, 0⟩

/-- PTE$V_VALID. -/
def isValid (low : BitVec 32) : Bool := low.getLsbD 0

/-- PTE$V_KWE. -/
def kernelWrites (low : BitVec 32) : Bool := low.getLsbD 12

def Pte.valid (e : Pte) : Bool := isValid e.low

/-- `mapped`: valid, and some mode may read it. -/
def Pte.mapped (e : Pte) : Bool := e.valid && e.low &&& 0xf00 != 0

/-- PTE$M_VALID ! PTE$M_FOE ! PTE$C_KW. -/
def KW : BitVec 32 := 0x1109

/-- PTE$M_VALID ! PTE$M_FOE ! PTE$C_UW. -/
def UW : BitVec 32 := 0xff09

/-- PTE$M_VALID ! PTE$M_FOE ! PTE$C_UR. -/
def UR : BitVec 32 := 0x0f09

/-- Where a PTE is: in S0's tables, or in a process's for P0 and P1. -/
structure Slot where
  space : Option ℕ
  page : ℕ
  deriving DecidableEq, Repr

def isS0 (page : ℕ) : Bool := 0x40000 ≤ page ∧ page < 0x60000

/-- `pte_at`: the PTE of a page for the process `cur`. -/
def slotOf (cur page : ℕ) : Slot := if isS0 page then ⟨none, page⟩ else ⟨some cur, page⟩

def ZEROVA : ℕ := 0x4FFE0

/-! ## The PFN database -/

/-- A global section: of its GSD, what these routines use.  `pfns` are the
    GSD$L_PAGCNT longwords of GSD$AL_PFN. -/
structure Gsd where
  pfns : List ℕ
  refcnt : ℕ
  wrt : Bool
  perm : Bool
  sysgbl : Bool
  uic : ℕ
  prot : ℕ
  ident : ℕ
  name : List UInt8
  deriving DecidableEq, Repr

structure Sys where
  ptes : Slot → Pte
  /-- The free stack, its top first. -/
  free : List ℕ
  freecnt : ℕ
  highpfn : ℕ
  maxpfn : ℕ
  /-- MMG$GL_PFNGSD: by PFN, a GSD or 0. -/
  pfngsd : ℕ → ℕ
  /-- MMG$GL_PFNREFCNT: by PFN, a word: locks, and DELCON. -/
  pfnrefcnt : ℕ → ℕ
  gsd : ℕ → Gsd
  /-- MMG$GQ_GSDHD; a GSD's GSD$L_GSDFL is 0 if it isn't on it. -/
  gsdhd : List ℕ
  /-- The GSDs allocated from pool. -/
  sections : Finset ℕ
  /-- PCB$L_FREP0VA and PCB$L_FREP1VA, by process. -/
  frep0va : ℕ → ℕ
  frep1va : ℕ → ℕ
  npagedyn : ℕ
  npagnext : ℕ
  npagevir : ℕ

namespace Sys

def setPte (s : Sys) (i : Slot) (e : Pte) : Sys := { s with ptes := Function.update s.ptes i e }

def setGsd (s : Sys) (g : ℕ) (f : Gsd → Gsd) : Sys :=
  { s with gsd := Function.update s.gsd g (f (s.gsd g)) }

end Sys

inductive Status where
  | normal
  | created
  | accvio
  | exquota
  | insfmem
  | ivsecflg
  | ivchnlsec
  | ivchan
  | nopriv
  | illpagcnt
  | ivgsdnam
  | ivsecidctl
  | nosuchsec
  | endoffile
  | vasfull
  | pagownvio
  deriving DecidableEq, Repr

def PAGESIZE : ℕ := 4096

/-- In MMG$GL_PFNREFCNT: deleted while locked. -/
def DELCON : ℕ := 0x8000

/-- WRPTE: the PTE replaced; none, -1, changes nothing. -/
def wrpte (s : Sys) (cur page : ℕ) (e : Pte) (room : Bool) : Option Pte × Sys :=
  if e.mapped ∧ ¬room then (none, s)
  else (some (s.ptes (slotOf cur page)), s.setPte (slotOf cur page) e)

/-- MMG$ALLOCPFN: 0 if there is none. -/
def allocpfn (s : Sys) : ℕ × Sys :=
  if s.freecnt = 0 then (0, s)
  else match s.free with
    | p :: ps => (p, { s with freecnt := s.freecnt - 1, free := ps })
    | [] => (s.highpfn, { s with freecnt := s.freecnt - 1, highpfn := s.highpfn + 1 })

def deallocpfn (s : Sys) (p : ℕ) : Sys := { s with free := p :: s.free, freecnt := s.freecnt + 1 }

/-- Frees a PFN no PTE maps any more, unless its page is locked. -/
def freepfn (s : Sys) (p : ℕ) : Sys :=
  if s.pfnrefcnt p = 0 then deallocpfn s p
  else { s with pfnrefcnt := Function.update s.pfnrefcnt p (s.pfnrefcnt p ||| DELCON) }

def freePage (s : Sys) (p : ℕ) : Sys := freepfn { s with pfngsd := Function.update s.pfngsd p 0 } p

/-- CHKGSD: deletes the section if no PTE maps its pages, and it is temporary or
    off the list. -/
def chkgsd (s : Sys) (g : ℕ) : Sys :=
  if (s.gsd g).refcnt ≠ 0 then s
  else if g ∈ s.gsdhd ∧ (s.gsd g).perm then s
  else
    let s' := (s.gsd g).pfns.foldl freePage { s with gsdhd := s.gsdhd.erase g }
    { s' with sections := s'.sections.erase g }

/-- FREEOLD: the end of a PTE WRPTE replaced. -/
def freeold (s : Sys) : Option Pte → Sys
  | none => s
  | some e =>
    if ¬e.valid then s
    else
      let g := s.pfngsd e.pfn
      if g = 0 then freepfn s e.pfn
      else chkgsd (s.setGsd g fun G => { G with refcnt := G.refcnt - 1 }) g

/-- MMG$CREPAG: `n` pages from `page` up.  `room` says of the pages left whether
    there is room for each of the two WRPTEs of one. -/
def crepag (cur : ℕ) (low : BitVec 32) (room : ℕ → Bool × Bool) : ℕ → ℕ → Sys → Status × Sys
  | 0, _, s => (.normal, s)
  | n + 1, page, s =>
    let (p, s) := allocpfn s
    if p = 0 then (.insfmem, s)
    else
      -- writable first, to zero it
      match wrpte s cur page ⟨if kernelWrites low then low else KW, p⟩ (room n).1 with
      | (none, s) => (.insfmem, deallocpfn s p)
      | (some old, s) =>
        let s := freeold s (some old)
        if kernelWrites low then crepag cur low room n (page + 1) s
        else match wrpte s cur page ⟨low, p⟩ (room n).2 with
          | (none, s) => (.insfmem, s)
          | (some _, s) => crepag cur low room n (page + 1) s

def delpag (cur : ℕ) : ℕ → ℕ → Sys → Sys
  | 0, _, s => s
  | n + 1, page, s =>
    let (old, s) := wrpte s cur page .zero true
    delpag cur n (page + 1) (freeold s old)

/-- MMG$SETPRT.  The PTE goes while its protection changes. -/
def setprt (cur : ℕ) (low : BitVec 32) (room : ℕ → Bool) : ℕ → ℕ → Sys → Sys
  | 0, _, s => s
  | n + 1, page, s =>
    match wrpte s cur page .zero true with
    | (some old, s) =>
      if old.valid then setprt cur low room n (page + 1) (wrpte s cur page ⟨low, old.pfn⟩ (room n)).2
      else setprt cur low room n (page + 1) s
    | (none, s) => setprt cur low room n (page + 1) s

/-! ## Locked pages -/

def unlockPfn (s : Sys) (p : ℕ) : Sys :=
  let w := (s.pfnrefcnt p + (2 ^ 16 - 1)) % 2 ^ 16
  if w = DELCON then deallocpfn { s with pfnrefcnt := Function.update s.pfnrefcnt p 0 } p
  else { s with pfnrefcnt := Function.update s.pfnrefcnt p w }

def unlock (s : Sys) (pfns : List ℕ) : Sys := pfns.foldl unlockPfn s

/-- The pages of a buffer locked one by one, `locked` so far; what was locked
    goes back if one can't be. -/
def lockPages (cur enable : ℕ) : ℕ → ℕ → List ℕ → Sys → Status × List ℕ × Sys
  | 0, _, locked, s => (.normal, locked, s)
  | n + 1, page, locked, s =>
    let e := s.ptes (slotOf cur page)
    if ¬e.valid ∨ ¬e.low.getLsbD enable ∨ e.pfn ≥ s.maxpfn then (.accvio, [], unlock s locked)
    else if s.pfnrefcnt e.pfn % DELCON ≥ DELCON - 1 then (.exquota, [], unlock s locked)
    else lockPages cur enable n (page + 1) (locked ++ [e.pfn])
      { s with pfnrefcnt := Function.update s.pfnrefcnt e.pfn ((s.pfnrefcnt e.pfn + 1) % 2 ^ 16) }

/-- MMG$IOLOCK of `size` bytes at `buf` for `mode`; `write` if the I/O writes the
    buffer.  Returns the PFNs locked. -/
def iolock (s : Sys) (cur buf size : ℕ) (write : Bool) (mode : ℕ) : Status × List ℕ × Sys :=
  let n := if size = 0 then 0 else (buf % PAGESIZE + size + PAGESIZE - 1) / PAGESIZE
  lockPages cur ((if write then 12 else 8) + mode) n (buf / PAGESIZE) [] s

end Mem
