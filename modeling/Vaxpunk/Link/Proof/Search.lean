/-
  What a search of a library takes from it (`search`).

  `search` goes from one reference to the next, and takes the module the index names
  for a symbol that is strongly referenced and not defined at that time.

  * `Takes`: modules taken one after another, each asked for when it is taken.
  * `Closed`: a set of modules of the library that leaves nothing to ask for.
  * `search_takes`: a search ends, takes no module twice, and leaves nothing to ask
    for; when the modules keep to the symbols the index gives them, what it takes is
    the least closed set.  Otherwise a module taken later may define what an earlier
    one was taken for (`search_takes_needless`).
-/
import Vaxpunk.Link.Proof.Collect

open Obj (Name Record Gsd has)

/-! ## What a module defines and needs -/

namespace Obj

/-- The symbol a subrecord defines, weakly or not. -/
def Gsd.defines : Gsd → List Name
  | .sdef d => [d.name]
  | _ => []

/-- The symbol a subrecord refers to, unless weakly. -/
def Gsd.needs : Gsd → List Name
  | .sref r => if has r.flags sym.WEAK then [] else [r.name]
  | _ => []

def Record.defines : Record → List Name
  | .gsd subs => subs.flatMap Gsd.defines
  | _ => []

def Record.needs : Record → List Name
  | .gsd subs => subs.flatMap Gsd.needs
  | _ => []

def Module.defines (m : Module) : List Name := m.object.flatMap Record.defines

def Module.needs (m : Module) : List Name := m.object.flatMap Record.needs

/-- The module the symbol index has for a symbol: the last that lists it. -/
def Library.index (lib : Library) (s : Name) : Option Module := lib.reverse.find? (s ∈ ·.symbols)

end Obj

namespace Link

open Exec (bind_eq_ok)
open Linker List

/-- The symbols the modules so far define. -/
def Linker.defined (l : Linker) : List Name := l.rawDefs.map (·.name)

/-- The symbols they refer to strongly. -/
def Linker.needed (l : Linker) : List Name := (l.refs.filter (!·.weak)).map (·.name)

variable {l l₁ l' : Linker} {file : Name} {lib : Obj.Library} {m : Obj.Module} {ms : List Obj.Module}

/-- `l'` has what `l` has and defines `ds` and needs `ns` too. -/
structure Brings (l : Linker) (ds ns : List Name) (l' : Linker) : Prop where
  defined : l'.defined = l.defined ++ ds
  needed : l'.needed = l.needed ++ ns

theorem Brings.nothing (hd : l'.rawDefs = l.rawDefs) (hr : l'.refs = l.refs) : Brings l [] [] l' :=
  ⟨by simp [Linker.defined, hd], by simp [Linker.needed, hr]⟩

theorem Brings.trans {ds ns ds' ns' : List Name} (h : Brings l ds ns l₁)
    (h' : Brings l₁ ds' ns' l') : Brings l (ds ++ ds') (ns ++ ns') l' :=
  ⟨by rw [h'.defined, h.defined, append_assoc],
    by rw [h'.needed, h.needed, append_assoc]⟩

theorem psect_brings {name : Name} {flags : BitVec 16} {align i : ℕ}
    (h : l.psect name flags align = .ok (i, l')) : Brings l [] [] l' := by
  unfold Linker.psect at h
  split_ifs at h
  split at h
  · split_ifs at h
    cases h
    exact .nothing rfl rfl
  · cases h
    exact .nothing rfl rfl

theorem addGsd_brings {m m' : Module} {sub : Gsd} (h : addGsd file (m, l) sub = .ok (m', l')) :
    Brings l sub.defines sub.needs l' := by
  cases sub with
  | psc p =>
    obtain ⟨⟨i, l₁⟩, hps, h⟩ := bind_eq_ok.mp h
    cases h
    exact (psect_brings hps).trans (.nothing rfl rfl)
  | sdef d =>
    cases h
    exact ⟨by simp [Linker.defined, Gsd.defines], by simp [Linker.needed, Gsd.needs]⟩
  | sref r =>
    cases h
    refine ⟨by simp [Linker.defined, Gsd.defines], ?_⟩
    by_cases hw : has r.flags Obj.sym.WEAK = true <;> simp [Linker.needed, Gsd.needs, hw]
  | other gsdtyp data => cases h

theorem foldlM_brings {α σ : Type} {f : σ → α → Except Msg σ} (linker : σ → Linker) {ds ns : α → List Name}
    (hf : ∀ a s s', f s a = .ok s' → Brings (linker s) (ds a) (ns a) (linker s')) {as : List α}
    {s s' : σ} (h : as.foldlM f s = .ok s') :
    Brings (linker s) (as.flatMap ds) (as.flatMap ns) (linker s') := by
  induction as generalizing s with
  | nil =>
    cases h
    exact .nothing rfl rfl
  | cons a as ih =>
    obtain ⟨s₁, hstep, hrest⟩ := bind_eq_ok.mp h
    exact (hf a s s₁ hstep).trans (ih hrest)

theorem addRecord_brings {cl cl' : Option Module × Linker} {record : Record}
    (h : addRecord file cl record = .ok cl') :
    Brings cl.2 record.defines record.needs cl'.2 := by
  obtain ⟨current, l⟩ := cl
  cases current with
  | none =>
    cases record <;> cases h
    exact .nothing rfl rfl
  | some m =>
    cases record with
    | gsd subs =>
      obtain ⟨⟨m', l'⟩, hfold, h⟩ := bind_eq_ok.mp h
      cases h
      exact foldlM_brings Prod.snd (fun sub ml ml' hok => addGsd_brings hok) hfold
    | eom e transfer =>
      simp only [Linker.addRecord] at h
      split_ifs at h
      cases h
      exact .nothing rfl rfl
    | mhd h' => cases h
    | tir _ | dbg _ | tbt _ | text _ _ =>
      cases h
      exact .nothing rfl rfl

theorem add_brings {records : List Record} (h : l.add file records = .ok l') :
    Brings l (records.flatMap Record.defines) (records.flatMap Record.needs) l' := by
  unfold Linker.add at h
  obtain ⟨⟨current, l₁⟩, hfold, h⟩ := bind_eq_ok.mp h
  have hl₁ := foldlM_brings Prod.snd (fun r cl cl' hok => addRecord_brings hok) hfold
  cases current with
  | some m => cases h
  | none =>
    cases h
    exact hl₁

/-! ## One module taken -/

/-- The end of the loop of `search`: the module's records are read and added. -/
def Linker.take (l : Linker) (file : Name) (m : Obj.Module) : Except Msg Linker :=
  match Obj.parse m.object with
  | none => .error (.notModule m.name file)
  | some records => l.add file records

theorem take_brings (h : l.take file m = .ok l') : Brings l m.defines m.needs l' := by
  unfold Linker.take at h
  split at h
  · cases h
  · next records hparse =>
    rw [parse_eq hparse] at h
    exact add_brings h

/-- A symbol that is strongly referenced and not defined is in the index for `m`. -/
def Asks (l : Linker) (lib : Obj.Library) (m : Obj.Module) : Prop :=
  ∃ s ∈ l.needed, s ∉ l.defined ∧ lib.index s = some m

theorem Asks.mem (h : Asks l lib m) : m ∈ lib := by
  obtain ⟨s, -, -, hs⟩ := h
  exact mem_reverse.mp (mem_of_find?_eq_some hs)

theorem mem_open {r : Ref} :
    r ∈ l.refs.filter (fun r => !r.weak && l.rawDefs.all (·.name ≠ r.name)) ↔
      r ∈ l.refs.filter (!·.weak) ∧ r.name ∉ l.defined := by
  simp only [mem_filter, Bool.and_eq_true, all_eq_true, decide_eq_true_eq,
    Linker.defined, mem_map, not_exists, not_and, ← and_assoc]

variable {taken : List Name}

theorem next_asks (h : l.next lib taken = some m) : Asks l lib m ∧ m.name ∉ taken := by
  unfold Linker.next at h
  obtain ⟨before, r, after, hr, hfind, -⟩ := findSome?_eq_some_iff.mp h
  obtain ⟨hfind, hname⟩ := Option.filter_eq_some_iff.mp hfind
  obtain ⟨hneeded, hundef⟩ := mem_open.mp (hr ▸ (by simp : r ∈ before ++ r :: after))
  exact ⟨⟨r.name, mem_map_of_mem hneeded, hundef, hfind⟩, of_decide_eq_true hname⟩

theorem taken_of_next (h : l.next lib taken = none) (hm : Asks l lib m) : m.name ∈ taken := by
  obtain ⟨s, hneeded, hundef, hs⟩ := hm
  obtain ⟨r, hr, rfl⟩ := mem_map.mp hneeded
  have hnone := findSome?_eq_none_iff.mp h r (mem_open.mpr ⟨hr, hundef⟩)
  have hname := Option.filter_eq_none_iff.mp hnone m hs
  simpa using hname

/-! ## Modules taken one after another -/

/-- Modules taken from a library, each asked for when it is taken. -/
inductive Takes (file : Name) (lib : Obj.Library) : Linker → List Obj.Module → Linker → Prop
  | done {l : Linker} : Takes file lib l [] l
  | take {l l₁ l' : Linker} {m : Obj.Module} {ms : List Obj.Module} (asks : Asks l lib m)
      (ok : l.take file m = .ok l₁) (rest : Takes file lib l₁ ms l') :
      Takes file lib l (m :: ms) l'

theorem Takes.brings (h : Takes file lib l ms l') :
    Brings l (ms.flatMap (·.defines)) (ms.flatMap (·.needs)) l' := by
  induction h with
  | done => exact .nothing rfl rfl
  | take asks ok rest ih => exact (take_brings ok).trans ih

theorem Takes.mem (h : Takes file lib l ms l') (hm : m ∈ ms) : m ∈ lib := by
  induction h with
  | done => cases hm
  | take asks ok rest ih =>
    rcases mem_cons.mp hm with rfl | hm
    exacts [asks.mem, ih hm]

/-- What a search of a library does, having taken `taken`: it takes modules of other
    names until the library has nothing more to give, or ends with the error of the
    first it cannot add. -/
inductive Searched (file : Name) (lib : Obj.Library) (taken : List Name) (l : Linker) :
    Except Msg Linker → Prop
  | ok {ms : List Obj.Module} {l' : Linker} (takes : Takes file lib l ms l')
      (nodup : (ms.map (·.name)).Nodup) (fresh : ∀ m ∈ ms, m.name ∉ taken)
      (all : ∀ m, Asks l' lib m → m.name ∈ taken ∨ m.name ∈ ms.map (·.name)) :
      Searched file lib taken l (.ok l')
  | error {ms : List Obj.Module} {l₁ : Linker} {m : Obj.Module} {e : Msg}
      (takes : Takes file lib l ms l₁) (nodup : ((ms ++ [m]).map (·.name)).Nodup)
      (fresh : ∀ k ∈ ms ++ [m], k.name ∉ taken) (asks : Asks l₁ lib m)
      (fails : l₁.take file m = .error e) :
      Searched file lib taken l (.error e)

theorem Searched.cons {res : Except Msg Linker} (asks : Asks l lib m)
    (hname : m.name ∉ taken) (ok : l.take file m = .ok l₁)
    (h : Searched file lib (m.name :: taken) l₁ res) : Searched file lib taken l res := by
  have hfront : ∀ {ks : List Obj.Module}, (∀ k ∈ ks, k.name ∉ m.name :: taken) →
      m.name ∉ ks.map (·.name) ∧ ∀ k ∈ m :: ks, k.name ∉ taken := by
    intro ks hks
    constructor
    · intro hmem
      obtain ⟨k, hk, hkm⟩ := mem_map.mp hmem
      exact hks k hk (hkm ▸ mem_cons_self)
    · intro k hk
      rcases mem_cons.mp hk with rfl | hk
      exacts [hname, fun ht => hks k hk (mem_cons_of_mem _ ht)]
  cases h with
  | ok takes nodup fresh all =>
    obtain ⟨hnot, hfresh⟩ := hfront fresh
    refine .ok (.take asks ok takes) (nodup_cons.mpr ⟨hnot, nodup⟩) hfresh fun k hk => ?_
    rcases all k hk with ht | ht
    · rcases mem_cons.mp ht with hkm | ht
      exacts [.inr (hkm ▸ mem_cons_self), .inl ht]
    · exact .inr (mem_cons_of_mem _ ht)
  | error takes nodup fresh asks' fails =>
    obtain ⟨hnot, hfresh⟩ := hfront fresh
    exact .error (.take asks ok takes) (nodup_cons.mpr ⟨hnot, nodup⟩) hfresh asks' fails

theorem search_none (fuel : ℕ) (h : l.next lib taken = none) :
    search file lib (fuel + 1) taken l = .ok l := by
  rw [search, h]

theorem search_some (fuel : ℕ) (h : l.next lib taken = some m) : search file lib (fuel + 1) taken l =
      l.take file m >>= search file lib fuel (m.name :: taken) := by
  rw [search, h]
  simp only [Linker.take]
  cases Obj.parse m.object <;> rfl

/-- The names taken are names of modules of the library, so that there are no more of
    them. -/
structure Names (lib : Obj.Library) (taken : List Name) : Prop where
  nodup : taken.Nodup
  sub : ∀ n ∈ taken, n ∈ lib.map (·.name)

theorem Names.length_le (h : Names lib taken) : taken.length ≤ lib.length := by
  have hle := (subperm_of_subset h.nodup h.sub).length_le
  rwa [length_map] at hle

theorem Names.cons (h : Names lib taken) (hm : m ∈ lib)
    (hname : m.name ∉ taken) : Names lib (m.name :: taken) := by
  refine ⟨nodup_cons.mpr ⟨hname, h.nodup⟩, fun n hn => ?_⟩
  rcases mem_cons.mp hn with rfl | hn
  exacts [mem_map_of_mem hm, h.sub n hn]

theorem searched (fuel : ℕ) (ht : Names lib taken) (hfuel : lib.length < fuel + taken.length) :
    Searched file lib taken l (search file lib fuel taken l) := by
  induction fuel generalizing taken l with
  | zero =>
    have := ht.length_le
    omega
  | succ fuel ih =>
    cases hnext : l.next lib taken with
    | none =>
      rw [search_none fuel hnext]
      exact .ok .done nodup_nil (by simp) fun m hm => .inl (taken_of_next hnext hm)
    | some m =>
      obtain ⟨asks, hname⟩ := next_asks hnext
      rw [search_some fuel hnext]
      cases htake : l.take file m with
      | error e => exact .error .done (by simp) (by simpa using hname) asks htake
      | ok l₁ =>
        refine .cons asks hname htake (ih (ht.cons asks.mem hname) ?_)
        simp only [length_cons]
        omega

theorem search_fuel (fuel more : ℕ) (ht : Names lib taken) (hfuel : lib.length < fuel + taken.length) :
    search file lib (fuel + more) taken l = search file lib fuel taken l := by
  induction fuel generalizing taken l with
  | zero =>
    have := ht.length_le
    omega
  | succ fuel ih =>
    rw [Nat.add_right_comm]
    cases hnext : l.next lib taken with
    | none => rw [search_none _ hnext, search_none _ hnext]
    | some m =>
      obtain ⟨asks, hname⟩ := next_asks hnext
      rw [search_some _ hnext, search_some _ hnext]
      cases htake : l.take file m with
      | error e => rfl
      | ok l₁ =>
        refine ih (ht.cons asks.mem hname) ?_
        simp only [length_cons]
        omega

/-! ## The least set -/

/-- Once the modules `S` are added, the index has nothing more for what is strongly
    referenced and undefined. -/
def Closed (l : Linker) (lib : Obj.Library) (S : Set Obj.Module) : Prop :=
  ∀ s, (s ∈ l.needed ∨ ∃ m ∈ S, s ∈ m.needs) → s ∉ l.defined → (∀ m ∈ S, s ∉ m.defines) →
    ∀ m, lib.index s = some m → m ∈ S

/-- What a module of the library defines, the index has for no other module. -/
def Owned (lib : Obj.Library) : Prop :=
  ∀ m ∈ lib, ∀ s ∈ m.defines, ∀ k, lib.index s = some k → k = m

theorem eq_of_name (hlib : (lib.map (·.name)).Nodup) {k : Obj.Module} (hm : m ∈ lib) (hk : k ∈ lib)
    (h : m.name = k.name) : m = k :=
  inj_on_of_nodup_map hlib hm hk h

theorem Takes.closed (h : Takes file lib l ms l') (hlib : (lib.map (·.name)).Nodup)
    (all : ∀ m, Asks l' lib m → m.name ∈ ms.map (·.name)) : Closed l lib {m | m ∈ ms} := by
  intro s hneeded hundef hms m hm
  have hasks : Asks l' lib m := by
    refine ⟨s, ?_, ?_, hm⟩
    · rw [h.brings.needed, mem_append, mem_flatMap]
      exact hneeded
    · rw [h.brings.defined, mem_append, mem_flatMap]
      rintro (hd | ⟨k, hk, hd⟩)
      exacts [hundef hd, hms k hk hd]
  obtain ⟨k, hk, hname⟩ := mem_map.mp (all m hasks)
  exact eq_of_name hlib (h.mem hk) hasks.mem hname ▸ hk

variable {pre : List Obj.Module} {S : Set Obj.Module}

/-- What was asked for is in every closed set, since nothing else defines it. -/
theorem Asks.mem_closed (hown : Owned lib) (hS : ∀ m ∈ S, m ∈ lib)
    (hclosed : Closed l lib S) (hpre : ∀ k ∈ pre, k ∈ S)
    (hl : Brings l (pre.flatMap (·.defines)) (pre.flatMap (·.needs)) l₁) (h : Asks l₁ lib m) :
    m ∈ S := by
  obtain ⟨s, hneeded, hundef, hs⟩ := h
  rw [hl.needed, mem_append, mem_flatMap] at hneeded
  rw [hl.defined, mem_append, not_or] at hundef
  by_cases hd : ∃ k ∈ S, s ∈ k.defines
  · obtain ⟨k, hk, hd⟩ := hd
    exact hown k (hS k hk) s hd m hs ▸ hk
  · refine hclosed s ?_ hundef.1 (fun k hk hsk => hd ⟨k, hk, hsk⟩) m hs
    rcases hneeded with hl | ⟨k, hk, hsk⟩
    exacts [.inl hl, .inr ⟨k, hpre k hk, hsk⟩]

theorem Takes.subset (hown : Owned lib) (hS : ∀ m ∈ S, m ∈ lib) (hclosed : Closed l lib S) (hpre : ∀ k ∈ pre, k ∈ S)
    (hl : Brings l (pre.flatMap (·.defines)) (pre.flatMap (·.needs)) l₁)
    (h : Takes file lib l₁ ms l') : ∀ m ∈ ms, m ∈ S := by
  -- the modules taken so far go from `ms` to `pre`
  induction h generalizing pre with
  | done => simp
  | @take _ _ _ m ms asks ok rest ih =>
    have hm := asks.mem_closed hown hS hclosed hpre hl
    have hpre' : ∀ k ∈ pre ++ [m], k ∈ S := by
      intro k hk
      rcases mem_append.mp hk with hk | hk
      exacts [hpre k hk, mem_singleton.mp hk ▸ hm]
    have hl' := hl.trans (take_brings ok)
    have hms := ih hpre' (by simpa using hl')
    intro k hk
    rcases mem_cons.mp hk with rfl | hk
    exacts [hm, hms k hk]

/-- **What a search takes from a library.**  It ends, whatever the modules and the
    library: fuel above the number of modules changes nothing.  When it ends with an
    error, that is the error of a module that was asked for.  Otherwise the modules it
    took, each asked for when it was taken and no name twice, leave nothing to ask for
    but modules of a name taken; if the names in the library differ, what it took is
    closed, and if besides the index gives no module what another defines, it is the
    least closed set. -/
theorem search_takes (file : Name) (lib : Obj.Library) (l : Linker) :
    (∀ more, search file lib (lib.length + 1 + more) [] l = search file lib (lib.length + 1) [] l) ∧
    (∀ e, search file lib (lib.length + 1) [] l = .error e →
      ∃ ms l₁ m, Takes file lib l ms l₁ ∧ m.name ∉ ms.map (·.name) ∧ Asks l₁ lib m ∧
        l₁.take file m = .error e) ∧
    ∀ l', search file lib (lib.length + 1) [] l = .ok l' →
      ∃ ms, Takes file lib l ms l' ∧ (ms.map (·.name)).Nodup ∧
        (∀ m, Asks l' lib m → m.name ∈ ms.map (·.name)) ∧
        ((lib.map (·.name)).Nodup → Closed l lib {m | m ∈ ms} ∧
          (Owned lib → IsLeast {S | (∀ m ∈ S, m ∈ lib) ∧ Closed l lib S} {m | m ∈ ms})) := by
  have hnames : Names lib [] := ⟨nodup_nil, by simp⟩
  have hfuel : lib.length < lib.length + 1 + ([] : List Name).length := by simp
  have hsearched : Searched file lib [] l (search file lib (lib.length + 1) [] l) :=
    searched (lib.length + 1) hnames hfuel
  refine ⟨fun more => search_fuel (lib.length + 1) more hnames hfuel, fun e he => ?_, fun l' hl' => ?_⟩
  · rw [he] at hsearched
    cases hsearched with
    | @error ms l₁ m _ takes nodup fresh asks fails =>
      rw [map_append, map_singleton] at nodup
      refine ⟨ms, l₁, m, takes, fun hm => ?_, asks, fails⟩
      exact (disjoint_of_nodup_append nodup) hm (by simp)
  · rw [hl'] at hsearched
    cases hsearched with
    | @ok ms _ takes nodup fresh all =>
      have hall : ∀ m, Asks l' lib m → m.name ∈ ms.map (·.name) := fun m hm =>
        (all m hm).resolve_left (by simp)
      refine ⟨ms, takes, nodup, hall, fun hlib => ⟨takes.closed hlib hall, fun hown => ?_⟩⟩
      refine ⟨⟨fun m hm => takes.mem hm, takes.closed hlib hall⟩, fun S hS => ?_⟩
      have hnone : ∀ k ∈ ([] : List Obj.Module), k ∈ S := by simp
      exact takes.subset hown hS.1 hS.2 hnone (.nothing rfl rfl)

/-- A module of a library that defines `defs` and refers to `refs`, with `symbols` in
    the index. -/
def bareModule (name : Name) (symbols defs refs : List Name) : Obj.Module where
  name := name
  ident := []
  inserted := 0
  symbols := symbols
  object := [.mhd { name := name, version := [] },
    .gsd (defs.map (fun s => .sdef { flags := Obj.sym.DEF, value := 0, psindx := 0, name := s }) ++
      refs.map (fun s => .sref { flags := 0, name := s })),
    .eom { comcod := 0 } none]

/-- A module that refers to `refs` was collected. -/
def referring (refs : List Name) : Linker :=
  { Linker.new with refs := refs.map fun s => ⟨s, 0, false⟩ }

/-- One module needs another; nothing needs the third. -/
def chainLibrary : Obj.Library :=
  [bareModule [0x41] [[1]] [[1]] [[2]], bareModule [0x42] [[2]] [[2]] [],
    bareModule [0x43] [[3]] [[3]] []]

theorem search_takes_chain : ∃ l' ms,
    search [] chainLibrary 4 [] (referring [[1]]) = .ok l' ∧
    Takes [] chainLibrary (referring [[1]]) ms l' ∧ (ms.map (·.name)).Nodup ∧
    IsLeast {S | (∀ m ∈ S, m ∈ chainLibrary) ∧ Closed (referring [[1]]) chainLibrary S}
      {m | m ∈ ms} := by
  have hown : Owned chainLibrary := by
    have h : ∀ m ∈ chainLibrary, ∀ s ∈ m.defines, chainLibrary.index s = some m := by decide
    exact fun m hm s hs k hk => Option.some.inj (hk.symm.trans (h m hm s hs))
  obtain ⟨ms, htakes, hnodup, -, hlib⟩ :=
    (search_takes [] chainLibrary (referring [[1]])).2.2 _ rfl
  exact ⟨_, ms, rfl, htakes, hnodup, (hlib (by decide)).2 hown⟩

/-- The second module defines what the index has for the first, as when the librarian
    put the first in before it. -/
def doubleLibrary : Obj.Library :=
  [bareModule [0x42] [[2]] [[2]] [], bareModule [0x41] [[1]] [[1], [2]] []]

/-- Two modules of one name. -/
def twinLibrary : Obj.Library := [bareModule [0x41] [[1]] [[1]] [], bareModule [0x41] [[2]] [[2]] []]

/-- The first reference takes a module that the second would have done without; and of
    two modules of one name, the second is not taken. -/
theorem search_takes_needless :
    (∃ l', search [] doubleLibrary 3 [] (referring [[2], [1]]) = .ok l' ∧
      Takes [] doubleLibrary (referring [[2], [1]]) doubleLibrary l' ∧
      Closed (referring [[2], [1]]) doubleLibrary {bareModule [0x41] [[1]] [[1], [2]] []} ∧
      ¬ IsLeast {S | (∀ m ∈ S, m ∈ doubleLibrary) ∧
        Closed (referring [[2], [1]]) doubleLibrary S} {m | m ∈ doubleLibrary}) ∧
    ∃ l', search [] twinLibrary 3 [] (referring [[1], [2]]) = .ok l' ∧
      Takes [] twinLibrary (referring [[1], [2]]) [bareModule [0x41] [[1]] [[1]] []] l' ∧
      ¬ Closed (referring [[1], [2]]) twinLibrary {bareModule [0x41] [[1]] [[1]] []} := by
  have hclosed :
      Closed (referring [[2], [1]]) doubleLibrary {bareModule [0x41] [[1]] [[1], [2]] []} := by
    intro s hneeded _ hundef
    have hs : s ∈ (bareModule [0x41] [[1]] [[1], [2]] []).defines := by
      rcases hneeded with h | ⟨m, rfl, h⟩
      · exact (by decide : ∀ s ∈ (referring [[2], [1]]).needed,
          s ∈ (bareModule [0x41] [[1]] [[1], [2]] []).defines) s h
      · cases h
    exact absurd hs (hundef _ rfl)
  refine ⟨⟨_, rfl, ?_, hclosed, fun h => ?_⟩, _, rfl, ?_, fun h => ?_⟩
  · exact .take ⟨[2], by decide, by decide, by decide⟩ rfl
      (.take ⟨[1], by decide, by decide, by decide⟩ rfl .done)
  · have hsub : ∀ m ∈ ({bareModule [0x41] [[1]] [[1], [2]] []} : Set Obj.Module),
        m ∈ doubleLibrary := by
      rintro m rfl
      decide
    have hmem : bareModule [0x42] [[2]] [[2]] [] = bareModule [0x41] [[1]] [[1], [2]] [] :=
      h.2 ⟨hsub, hclosed⟩ (by decide : bareModule [0x42] [[2]] [[2]] [] ∈ doubleLibrary)
    exact absurd hmem (by decide)
  · exact .take ⟨[1], by decide, by decide, by decide⟩ rfl .done
  · have hmem : bareModule [0x41] [[2]] [[2]] [] = bareModule [0x41] [[1]] [[1]] [] :=
      h [2] (.inl (by decide)) (by decide) (by rintro m rfl; decide) _ (by decide)
    exact absurd hmem (by decide)

end Link
