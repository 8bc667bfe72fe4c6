/-
  Global sections (`memory.mar`): $CRMPSC, $MGBLSC and $DGBLSC, the pool they
  grow, and the runs of an executive that makes these calls and those of
  `Mem.Pages`.

  Left out is what a page holds, and how a process may read its arguments:
  whether it may is an argument itself.
-/
import Vaxpunk.Mem.Pages

namespace Mem

/-! ## Pool -/

def POOL_END : ℕ := 0x4FF00000

def POOL_GROW : ℕ := 256 * 1024

def roundPages (n : ℕ) : ℕ := (n + PAGESIZE - 1) / PAGESIZE * PAGESIZE

def growpool (s : Sys) (cur bytes : ℕ) (room : ℕ → Bool × Bool) : Status × Sys :=
  let bytes := roundPages bytes
  if s.npagnext + bytes - s.npagedyn > s.npagevir then (.insfmem, s)
  else
    match crepag cur KW room (bytes / PAGESIZE) (s.npagnext / PAGESIZE) s with
    | (.normal, s) => (.normal, { s with npagnext := s.npagnext + bytes })
    | (st, s) => (st, s)

/-- What pool gives for a GSD: whether a free block fits, before pool grows and
    after, the room there is for its growing, and the block. -/
structure PoolGet where
  fits : Bool
  fitsGrown : Bool
  room : ℕ → Bool × Bool
  addr : ℕ

def alononpaged (s : Sys) (cur size : ℕ) (g : PoolGet) : Option ℕ × Sys :=
  if g.fits then (some g.addr, s)
  else
    match growpool s cur (max size POOL_GROW) g.room with
    | (.normal, s) => (if g.fitsGrown then some g.addr else none, s)
    | (_, s) => (none, s)

/-! ## Arguments -/

/-- VA$C_P0BASE, VA$C_S0BASE, VA$C_P1BASE and VA$C_CLI. -/
def P0BASE : ℕ := 4096
def S0BASE : ℕ := 0x40000000
def P1BASE : ℕ := 0x60000000
def CLI : ℕ := 0x7FF00000

/-- The arguments of $CRMPSC, $MGBLSC and $DGBLSC, and what they read of the
    process that calls. -/
structure SecArgs where
  cur : ℕ
  uic : ℕ
  prmgbl : Bool
  sysgblPriv : Bool
  gbl : Bool
  dzro : Bool
  wrt : Bool
  perm : Bool
  sysgbl : Bool
  expreg : Bool
  pagfil : Bool
  /-- Any other flag. -/
  otherFlags : Bool
  inadr : ℕ × ℕ
  readsInadr : Bool
  /-- No retadr, or one it may write. -/
  writesRetadr : Bool
  /-- None for no gsdnam. -/
  gsdnam : Option (List UInt8)
  readsGsdnam : Bool
  /-- A match control and a version; none for no ident. -/
  ident : Option (ℕ × ℕ)
  readsIdent : Bool
  relpag : ℕ
  chan : ℕ
  pagcnt : ℕ
  prot : ℕ
  /-- FIL$CHKPRO lets it. -/
  allowed : Bool

/-- INADR: the first page of the range and the page count. -/
def inadr (a : SecArgs) : Except Status (ℕ × ℕ) :=
  if ¬a.writesRetadr ∨ ¬a.readsInadr then .error .accvio
  else
    let first := a.inadr.1 / PAGESIZE * PAGESIZE
    let last := a.inadr.2 / PAGESIZE * PAGESIZE + (PAGESIZE - 1)
    let n := (last - first + 1) / PAGESIZE
    if last < first ∨ first < P0BASE then .error .pagownvio
    else if last < S0BASE then .ok (first / PAGESIZE, n)
    else if first < P1BASE ∨ last ≥ CLI then .error .pagownvio
    else .ok (first / PAGESIZE, n)

/-- The range of `n` pages past the end of inadr's region. -/
def pastRegion (s : Sys) (a : SecArgs) (n : ℕ) : Except Status (ℕ × ℕ) :=
  if ¬a.writesRetadr ∨ ¬a.readsInadr then .error .accvio
  else
    let bytes := n * PAGESIZE % 2 ^ 32
    if a.inadr.1 < P1BASE then
      let first := s.frep0va a.cur
      if (bytes + first) % 2 ^ 32 > S0BASE then .error .vasfull else .ok (first / PAGESIZE, n)
    else
      let first := (s.frep1va a.cur + 2 ^ 32 - bytes) % 2 ^ 32
      if first < P1BASE then .error .vasfull else .ok (first / PAGESIZE, n)

/-- GROW: the process's region takes the range in. -/
def grow (s : Sys) (cur page n : ℕ) : Sys :=
  if page * PAGESIZE < S0BASE then
    if (page + n) * PAGESIZE ≤ s.frep0va cur then s
    else { s with frep0va := Function.update s.frep0va cur ((page + n) * PAGESIZE) }
  else if page * PAGESIZE ≥ s.frep1va cur then s
  else { s with frep1va := Function.update s.frep1va cur (page * PAGESIZE) }

def GSDNAMMAX : ℕ := 43

def gsdargs (a : SecArgs) : Except Status (List UInt8) :=
  if a.ident.isSome ∧ ¬a.readsIdent then .error .accvio
  else if a.ident.any (·.1 > 2) then .error .ivsecidctl
  else match a.gsdnam with
    | none => .error .ivgsdnam
    | some name =>
      if ¬a.readsGsdnam then .error .accvio
      else if name = [] ∨ name.length > GSDNAMMAX then .error .ivgsdnam
      else .ok name

def findgsd (s : Sys) (a : SecArgs) (name : List UInt8) : Option ℕ :=
  s.gsdhd.find? fun g =>
    let G := s.gsd g
    G.sysgbl = a.sysgbl ∧ (a.sysgbl ∨ G.uic / 2 ^ 16 = a.uic / 2 ^ 16) ∧ G.name = name

/-- CHKIDENT: whether the section's version matches. -/
def chkident (G : Gsd) : Option (ℕ × ℕ) → Bool
  | none => true
  | some (control, version) =>
    control = 0 ∨ version = G.ident ∨
      (control ≠ 1 ∧ version / 2 ^ 24 = G.ident / 2 ^ 24 ∧ version ≤ G.ident)

/-! ## Services -/

/-- The loop of MAPGSD: each PTE is counted before it is written, so that the
    page it replaces can't take the count to 0. -/
def mapPages (cur g : ℕ) (low : BitVec 32) (room : ℕ → Bool) : List ℕ → ℕ → Sys → Sys
  | [], _, s => s
  | p :: ps, page, s =>
    let s := s.setGsd g fun G => { G with refcnt := G.refcnt + 1 }
    let (old, s) := wrpte s cur page ⟨low, p⟩ (room ps.length)
    mapPages cur g low room ps (page + 1) (freeold s old)

def mapgsd (s : Sys) (a : SecArgs) (g : ℕ) (room : ℕ → Bool) : Status × Sys :=
  let pfns := (s.gsd g).pfns.drop a.relpag
  if a.relpag ≥ (s.gsd g).pfns.length then (.endoffile, s)
  else if (a.wrt ∧ ¬(s.gsd g).wrt) ∨ ¬a.allowed then (.nopriv, s)
  else
    match if a.expreg then pastRegion s a pfns.length else inadr a with
    | .error st => (st, s)
    | .ok (page, n) =>
      let pfns := pfns.take n
      (.normal, mapPages a.cur g (if a.wrt then UW else UR) room pfns page (grow s a.cur page pfns.length))

def zeropfn (s : Sys) (p : ℕ) (room : Bool) : Sys :=
  (wrpte (wrpte s 0 ZEROVA ⟨KW, p⟩ room).2 0 ZEROVA .zero true).2

def addPage (s : Sys) (g p : ℕ) : Sys :=
  { s.setGsd g (fun G => { G with pfns := G.pfns ++ [p] }) with
    pfngsd := Function.update s.pfngsd p g }

/-- The pages of a new section, zeroed; false if the PFNs run out. -/
def makePages (g : ℕ) (room : ℕ → Bool) : ℕ → Sys → Bool × Sys
  | 0, s => (true, s)
  | n + 1, s =>
    let (p, s) := allocpfn s
    if p = 0 then (false, s)
    else makePages g room n (zeropfn (addPage s g p) p (room n))

def SecArgs.gsd (a : SecArgs) (name : List UInt8) : Gsd where
  pfns := []
  refcnt := 0
  wrt := a.wrt
  perm := a.perm
  sysgbl := a.sysgbl
  uic := a.uic
  prot := a.prot % 2 ^ 16
  ident := (a.ident.map Prod.snd).getD 0
  name := name

def GSDLENGTH : ℕ := 80

/-- What the PAL and pool give to one $CRMPSC. -/
structure SecGets where
  pool : PoolGet
  zero : ℕ → Bool
  map : ℕ → Bool

/-- The end of $CRMPSC: the section mapped, and gone again if it is a new
    temporary one that isn't. -/
def mapNew (s : Sys) (a : SecArgs) (g : ℕ) (room : ℕ → Bool) (done : Status) : Status × Sys :=
  match mapgsd s a g room with
  | (.normal, s) => (done, chkgsd s g)
  | (st, s) => (st, chkgsd s g)

def crmpsc (s : Sys) (a : SecArgs) (get : SecGets) : Status × Sys :=
  if a.otherFlags then (.ivsecflg, s)
  else if a.chan ≠ 0 then (.ivchnlsec, s)
  else if ¬a.pagfil then (.ivchan, s)
  else if ¬a.gbl then (.ivsecflg, s)
  else
    let a := { a with wrt := true }
    if (a.perm ∧ ¬a.prmgbl) ∨ (a.sysgbl ∧ ¬a.sysgblPriv) then (.nopriv, s)
    else if a.pagcnt = 0 then (.illpagcnt, s)
    else if a.pagcnt > s.maxpfn then (.insfmem, s)
    else match gsdargs a with
      | .error st => (st, s)
      | .ok name =>
        match findgsd s a name with
        | some g =>
          if chkident (s.gsd g) a.ident then mapNew s a g get.map .normal else (.nosuchsec, s)
        | none =>
          match alononpaged s a.cur (4 * a.pagcnt + GSDLENGTH) get.pool with
          | (none, s) => (.insfmem, s)
          | (some g, s) =>
            let s := { s.setGsd g (fun _ => a.gsd name) with sections := insert g s.sections }
            match makePages g get.zero a.pagcnt s with
            | (false, s) => (.insfmem, chkgsd s g)
            | (true, s) => mapNew { s with gsdhd := s.gsdhd ++ [g] } a g get.map .created

def mgblsc (s : Sys) (a : SecArgs) (room : ℕ → Bool) : Status × Sys :=
  if a.otherFlags ∨ a.dzro ∨ a.perm ∨ a.pagfil then (.ivsecflg, s)
  else match gsdargs a with
    | .error st => (st, s)
    | .ok name =>
      match findgsd s a name with
      | none => (.nosuchsec, s)
      | some g => if chkident (s.gsd g) a.ident then mapgsd s a g room else (.nosuchsec, s)

def dgblsc (s : Sys) (a : SecArgs) : Status × Sys :=
  if a.sysgbl ∧ ¬a.sysgblPriv then (.nopriv, s)
  else match gsdargs a with
    | .error st => (st, s)
    | .ok name =>
      match findgsd s a name with
      | none => (.nosuchsec, s)
      | some g =>
        if ¬chkident (s.gsd g) a.ident then (.nosuchsec, s)
        else if (s.gsd g).perm ∧ ¬a.prmgbl then (.nopriv, s)
        else (.normal, chkgsd { s with gsdhd := s.gsdhd.erase g } g)

/-! ## Runs -/

inductive Call where
  | crepag (cur : ℕ) (low : BitVec 32) (n page : ℕ) (room : ℕ → Bool × Bool)
  | delpag (cur n page : ℕ)
  | setprt (cur : ℕ) (low : BitVec 32) (n page : ℕ) (room : ℕ → Bool)
  | iolock (cur buf size : ℕ) (write : Bool) (mode : ℕ)
  | unlock (pfns : List ℕ)
  | crmpsc (a : SecArgs) (get : SecGets)
  | mgblsc (a : SecArgs) (room : ℕ → Bool)
  | dgblsc (a : SecArgs)

def Call.run (s : Sys) : Call → Sys
  | .crepag cur low n page room => (Mem.crepag cur low room n page s).2
  | .delpag cur n page => Mem.delpag cur n page s
  | .setprt cur low n page room => Mem.setprt cur low room n page s
  | .iolock cur buf size write mode => (Mem.iolock s cur buf size write mode).2.2
  | .unlock pfns => Mem.unlock s pfns
  | .crmpsc a get => (Mem.crmpsc s a get).2
  | .mgblsc a room => (Mem.mgblsc s a room).2
  | .dgblsc a => (Mem.dgblsc s a).2

/-- One call that meets `ok`. -/
def Step (ok : Sys → Call → Prop) (s s' : Sys) : Prop := ∃ c : Call, ok s c ∧ s' = c.run s

/-- Calls that meet `ok`, one after another. -/
def Run (ok : Sys → Call → Prop) : Sys → Sys → Prop := Relation.ReflTransGen (Step ok)

theorem Run.call {ok : Sys → Call → Prop} {s₀ s : Sys} (h : Run ok s₀ s) (c : Call) (hc : ok s c) :
    Run ok s₀ (c.run s) :=
  h.tail ⟨c, hc, rfl⟩

end Mem
