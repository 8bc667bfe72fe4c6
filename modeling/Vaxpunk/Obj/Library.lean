/-
  Object libraries (`vms-obj/src/olb.rs`) and the librarian that puts modules into
  them (`vlib/src/lib.rs`).

  A library has an index of its modules' strong global symbols, kept as the
  `symbols` of each module.  `replace` gives a module the symbols no other module
  has at that time, and never returns to a module it has put in.

  * `Sound`: what the index says is true, and it names one module for a symbol.
    Every replacement keeps it (`Sound.insert`).
  * `Indexed`: the index has every symbol some module defines.  A replacement
    keeps it exactly when it `Keeps` what the index says of the module it replaces
    (`indexed_iff_keeps`).
-/
import Vaxpunk.Obj.Record

namespace Obj

open List

variable {time : BitVec 64} {modules : List (List Record)}

/-! ## Libraries -/

structure Module where
  name : Name
  ident : Name
  inserted : BitVec 64
  /-- The symbols that the symbol index has for this module. -/
  symbols : List Name
  /-- The object module. -/
  object : List Record
  deriving DecidableEq, Repr

abbrev Library := List Module

def MAX_KEY : ℕ := 128

/-! ## `replace` -/

/-- What `replace` says: its errors, and the warning. -/
inductive LibMsg where
  /-- `%VLIB-F-BADOBJ, not an object file` -/
  | notObject
  /-- `%VLIB-F-BADOBJ, no modules` -/
  | noModules
  /-- `%VLIB-F-BADOBJ, a module lacks its header or end record` -/
  | noHeader
  /-- `%VLIB-F-KEYLNG, name is longer than 128 characters` -/
  | keyLng (name : Name)
  /-- `%VLIB-W-DUPGLOBAL, global symbol from a module is already in the library` -/
  | dupGlobal (symbol from_ at_ : Name)
  deriving DecidableEq, Repr

def isEom : Record → Bool
  | .eom _ _ => true
  | _ => false

/-- `split_inclusive`: the runs of `l` that end with a `p`, the last maybe not. -/
def splitInclusive {α : Type} (p : α → Bool) : List α → List (List α)
  | [] => []
  | x :: xs => if p x then [x] :: splitInclusive p xs else
    match splitInclusive p xs with
    | [] => [[x]]
    | run :: runs => (x :: run) :: runs

/-- The names a record defines strongly. -/
def Record.strong : Record → List Name
  | .gsd subs => subs.filterMap fun
    | .sdef d => if has d.flags sym.WEAK then none else some d.name
    | _ => none
  | _ => []

/-- The strong global symbols of an object module, sorted, each once. -/
def strong (module : List Record) : List Name :=
  ((module.flatMap Record.strong).insertionSort (· ≤ ·)).dedup

/-- `symbols.retain` in `replace`: the symbols that no module has, and a warning
    for each of the others. -/
def retain (lib : Library) (name : Name) : List Name → List Name × List LibMsg
  | [] => ([], [])
  | s :: ss =>
    let (kept, warnings) := retain lib name ss
    match lib.find? (s ∈ ·.symbols) with
    | some m => (kept, .dupGlobal s name m.name :: warnings)
    | none => (s :: kept, warnings)

/-- The loop of `replace`: puts one object module into the library. -/
def insert (lib : Library) (time : BitVec 64) (module : List Record) :
    Except LibMsg (Library × List LibMsg) :=
  match module.head?, module.getLast? with
  | some (.mhd h), some (.eom _ _) =>
    let symbols := strong module
    match (symbols ++ [h.name]).find? (MAX_KEY < ·.length) with
    | some long => .error (.keyLng long)
    | none =>
      let lib := lib.filter (·.name ≠ h.name)
      let (symbols, warnings) := retain lib h.name symbols
      .ok (lib ++ [⟨h.name, h.version.take 31, time, symbols, module⟩], warnings)
  | _, _ => .error .noHeader

/-- `insert` of one object module after another, up to the first error. -/
def insertAll (time : BitVec 64) : Library → List (List Record) →
    Library × Except LibMsg (List LibMsg)
  | lib, [] => (lib, .ok [])
  | lib, module :: modules => match insert lib time module with
    | .error e => (lib, .error e)
    | .ok (lib, warnings) =>
      let (lib, rest) := insertAll time lib modules
      (lib, rest.map (warnings ++ ·))

/-- Puts the modules of an object file into `lib`, replacing modules of the same
    name. -/
def replace (lib : Library) (file : List Record) (time : BitVec 64) :
    Library × Except LibMsg (List LibMsg) :=
  match parse file with
  | none => (lib, .error .notObject)
  | some [] => (lib, .error .noModules)
  | some records => insertAll time lib (splitInclusive isEom records)

/-- A library built from empty by successful `replace` calls. -/
inductive Built : Library → Prop
  | new : Built []
  | replace {lib lib' : Library} {file : List Record} {time : BitVec 64}
      {warnings : List LibMsg} (built : Built lib)
      (ok : replace lib file time = (lib', .ok warnings)) : Built lib'

theorem retain_fst (lib : Library) (name : Name) (ss : List Name) :
    (retain lib name ss).1 = ss.filter fun s => ∀ m ∈ lib, s ∉ m.symbols := by
  induction ss with
  | nil => rfl
  | cons s ss ih =>
    simp only [retain]
    cases hfind : lib.find? (s ∈ ·.symbols) with
    | none =>
      have hno : ∀ m ∈ lib, s ∉ m.symbols := by simpa using List.find?_eq_none.mp hfind
      simp only [ih]
      rw [filter_cons_of_pos (by simpa using hno)]
    | some m =>
      have hm : s ∈ m.symbols := by simpa using List.find?_some hfind
      have hyes : ¬ ∀ m ∈ lib, s ∉ m.symbols := fun h =>
        h m (mem_of_find?_eq_some hfind) hm
      simp only [ih]
      rw [filter_cons_of_neg (by simpa using hyes)]

variable {lib lib' : Library} {module : List Record} {warnings : List LibMsg}

theorem insert_ok (ok : insert lib time module = .ok (lib', warnings)) :
    ∃ h new, module.head? = some (.mhd h) ∧ new.name = h.name ∧ new.object = module ∧
      lib' = lib.filter (·.name ≠ h.name) ++ [new] ∧
      ∀ s, s ∈ new.symbols ↔
        s ∈ strong module ∧ ∀ m ∈ lib, m.name ≠ h.name → s ∉ m.symbols := by
  unfold insert at ok
  split at ok
  · next h _ _ hhead _ =>
    simp only at ok
    split at ok
    · exact absurd ok (by simp)
    · rw [Except.ok.injEq, Prod.mk.injEq] at ok
      refine ⟨h, _, hhead, rfl, rfl, ok.1.symm, fun s => ?_⟩
      simp only [retain_fst, mem_filter, decide_eq_true_eq, and_imp, ne_eq]
  · exact absurd ok (by simp)

/-! ## The symbol index -/

/-- The index lists a symbol once, and for a module that defines it. -/
structure Sound (lib : Library) : Prop where
  defines : ∀ m ∈ lib, ∀ s ∈ m.symbols, s ∈ strong m.object
  once : ∀ s, (lib.filter (s ∈ ·.symbols)).length ≤ 1

/-- Every strong global symbol that some module defines is listed for exactly one
    module, which defines it. -/
def Indexed (lib : Library) : Prop :=
  ∀ m ∈ lib, ∀ s ∈ strong m.object,
    ∃ k, lib.filter (s ∈ ·.symbols) = [k] ∧ s ∈ strong k.object

/-- What the index lists for the module that `module` replaces, and `module` no
    longer defines, no other module defines. -/
def Keeps (lib : Library) (module : List Record) : Prop :=
  ∀ h, module.head? = some (.mhd h) → ∀ old ∈ lib, old.name = h.name →
    ∀ s ∈ old.symbols, s ∉ strong module →
      ∀ m ∈ lib, m.name ≠ h.name → s ∉ strong m.object

/-- `Keeps` for one object module after another. -/
def KeepsAll (time : BitVec 64) : Library → List (List Record) → Prop
  | _, [] => True
  | lib, module :: modules =>
    Keeps lib module ∧ ∀ lib' warnings, insert lib time module = .ok (lib', warnings) →
      KeepsAll time lib' modules

/-- A library built from empty by successful `replace` calls, each insertion of
    which keeps what the index says. -/
inductive BuiltKeeping : Library → Prop
  | new : BuiltKeeping []
  | replace {lib lib' : Library} {file : List Record} {time : BitVec 64}
      {warnings : List LibMsg} (built : BuiltKeeping lib)
      (ok : replace lib file time = (lib', .ok warnings))
      (keeps : KeepsAll time lib (splitInclusive isEom file)) : BuiltKeeping lib'

theorem Sound.unique (hs : Sound lib) {m k : Module} (hm : m ∈ lib) (hk : k ∈ lib) {s : Name}
    (hsm : s ∈ m.symbols) (hsk : s ∈ k.symbols) : m = k := by
  have hm' : m ∈ lib.filter (s ∈ ·.symbols) := mem_filter.mpr ⟨hm, by simpa using hsm⟩
  have hk' : k ∈ lib.filter (s ∈ ·.symbols) := mem_filter.mpr ⟨hk, by simpa using hsk⟩
  have hone := hs.once s
  generalize lib.filter (s ∈ ·.symbols) = l at hm' hk' hone
  match l, hone with
  | [], _ => exact absurd hm' not_mem_nil
  | [x], _ =>
    rw [mem_singleton] at hm' hk'
    rw [hm', hk']
  | _ :: _ :: _, hone => simp at hone

theorem Sound.indexed_iff (hs : Sound lib) :
    Indexed lib ↔ ∀ m ∈ lib, ∀ s ∈ strong m.object, ∃ k ∈ lib, s ∈ k.symbols := by
  constructor
  · intro h m hm s hsm
    obtain ⟨k, hk, -⟩ := h m hm s hsm
    have : k ∈ lib.filter (s ∈ ·.symbols) := by simp [hk]
    rw [mem_filter, decide_eq_true_eq] at this
    exact ⟨k, this⟩
  · intro h m hm s hsm
    obtain ⟨k, hk, hsk⟩ := h m hm s hsm
    have hk' : k ∈ lib.filter (s ∈ ·.symbols) := mem_filter.mpr ⟨hk, by simpa using hsk⟩
    have hone : (lib.filter (s ∈ ·.symbols)).length = 1 :=
      le_antisymm (hs.once s) (length_pos_of_mem hk')
    obtain ⟨x, hx⟩ := length_eq_one_iff.mp hone
    rw [hx, mem_singleton] at hk'
    exact ⟨k, by rw [hx, hk'], hs.defines k hk s hsk⟩

theorem Sound.insert (hs : Sound lib) (ok : insert lib time module = .ok (lib', warnings)) :
    Sound lib' := by
  obtain ⟨h, new, -, -, hobj, rfl, hnew⟩ := insert_ok ok
  refine ⟨fun m hm s hsm => ?_, fun s => ?_⟩
  · rcases mem_append.mp hm with hm | hm
    · exact hs.defines m (mem_of_mem_filter hm) s hsm
    · rw [mem_singleton] at hm
      subst hm
      rw [hobj]
      exact ((hnew s).mp hsm).1
  · have hold : ((lib.filter (·.name ≠ h.name)).filter (s ∈ ·.symbols)).length ≤ 1 :=
      ((filter_sublist.filter _).length_le).trans (hs.once s)
    rw [filter_append, length_append]
    by_cases hsn : s ∈ new.symbols
    · -- the new module only lists what no other one does
      have hnone : (lib.filter (·.name ≠ h.name)).filter (s ∈ ·.symbols) = [] := by
        refine filter_eq_nil_iff.mpr fun m hm => ?_
        rw [mem_filter, decide_eq_true_eq] at hm
        simpa using ((hnew s).mp hsn).2 m hm.1 hm.2
      rw [hnone]
      simp [hsn]
    · simpa [hsn] using hold

/-- **One insertion.**  The index still has every symbol exactly when the insertion
    keeps what the index says of the module it replaces. -/
theorem Indexed.insert_iff (hs : Sound lib) (hi : Indexed lib)
    (ok : insert lib time module = .ok (lib', warnings)) :
    Indexed lib' ↔ Keeps lib module := by
  have hs' := hs.insert ok
  obtain ⟨h, new, hhead, -, hobj, rfl, hnew⟩ := insert_ok ok
  rw [hs'.indexed_iff]
  rw [hs.indexed_iff] at hi
  have hmem : ∀ m, m ∈ lib.filter (·.name ≠ h.name) ++ [new] ↔
      m ∈ lib ∧ m.name ≠ h.name ∨ m = new := by simp
  have hlisted : ∀ s ∈ strong module,
      ∃ k ∈ lib.filter (·.name ≠ h.name) ++ [new], s ∈ k.symbols := by
    intro s hsm
    by_cases hother : ∀ m ∈ lib, m.name ≠ h.name → s ∉ m.symbols
    · exact ⟨new, (hmem new).mpr (.inr rfl), (hnew s).mpr ⟨hsm, hother⟩⟩
    · push Not at hother
      obtain ⟨m, hm, hne, hsm⟩ := hother
      exact ⟨m, (hmem m).mpr (.inl ⟨hm, hne⟩), hsm⟩
  constructor
  · intro hi' h₁ hh₁ old hold hname s hso hsn m hm hne hsm
    obtain rfl : h = h₁ := by simpa [hhead] using hh₁
    obtain ⟨k, hk, hsk⟩ := hi' m ((hmem m).mpr (.inl ⟨hm, hne⟩)) s hsm
    rcases (hmem k).mp hk with ⟨hk, hkne⟩ | rfl
    · rw [hs.unique hold hk hso hsk] at hname
      exact hkne hname
    · exact hsn ((hnew s).mp hsk).1
  · intro hkeep m hm s hsm
    rcases (hmem m).mp hm with ⟨hm, hne⟩ | rfl
    · obtain ⟨k, hk, hsk⟩ := hi m hm s hsm
      by_cases hkn : k.name = h.name
      · by_cases hsn : s ∈ strong module
        · exact hlisted s hsn
        · exact absurd hsm (hkeep h hhead k hk hkn s hsk hsn m hm hne)
      · exact ⟨k, (hmem k).mpr (.inl ⟨hk, hkn⟩), hsk⟩
    · rw [hobj] at hsm
      exact hlisted s hsm

/-! ## Whole libraries -/

theorem insertAll_cons_ok (ok : insertAll time lib (module :: modules) = (lib', .ok warnings)) :
    ∃ lib₁ w₁ w₂, insert lib time module = .ok (lib₁, w₁) ∧
      insertAll time lib₁ modules = (lib', .ok w₂) := by
  rw [insertAll] at ok
  split at ok
  · exact absurd (congrArg Prod.snd ok) (by simp)
  · next lib₁ w₁ hins =>
    generalize hrest : insertAll time lib₁ modules = rest at ok
    obtain ⟨lib₂, res⟩ := rest
    cases res with
    | error e => exact absurd (congrArg Prod.snd ok) (by simp [Except.map])
    | ok w₂ =>
      obtain rfl : lib₂ = lib' := congrArg Prod.fst ok
      exact ⟨lib₁, w₁, w₂, hins, hrest⟩

theorem Sound.insertAll (hs : Sound lib)
    (ok : insertAll time lib modules = (lib', .ok warnings)) : Sound lib' := by
  induction modules generalizing lib warnings with
  | nil =>
    rw [Obj.insertAll, Prod.mk.injEq] at ok
    exact ok.1 ▸ hs
  | cons module modules ih =>
    obtain ⟨lib₁, w₁, w₂, hins, hrest⟩ := insertAll_cons_ok ok
    exact ih (hs.insert hins) hrest

theorem Indexed.insertAll (hs : Sound lib) (hi : Indexed lib) (keeps : KeepsAll time lib modules)
    (ok : insertAll time lib modules = (lib', .ok warnings)) : Indexed lib' := by
  induction modules generalizing lib warnings with
  | nil =>
    rw [Obj.insertAll, Prod.mk.injEq] at ok
    exact ok.1 ▸ hi
  | cons module modules ih =>
    obtain ⟨lib₁, w₁, w₂, hins, hrest⟩ := insertAll_cons_ok ok
    exact ih (hs.insert hins) ((hi.insert_iff hs hins).mpr keeps.1) (keeps.2 lib₁ w₁ hins) hrest

theorem replace_ok {file : List Record} (ok : replace lib file time = (lib', .ok warnings)) :
    insertAll time lib (splitInclusive isEom file) = (lib', .ok warnings) := by
  unfold replace parse at ok
  split at ok
  · exact absurd (congrArg Prod.snd ok) (by simp)
  · exact absurd (congrArg Prod.snd ok) (by simp)
  · next records hrec hparse =>
    obtain rfl : file = records := by
      split_ifs at hparse
      exact Option.some.inj hparse
    exact ok

theorem Sound.nil : Sound [] := ⟨by simp, by simp⟩

theorem Built.sound (h : Built lib) : Sound lib := by
  induction h with
  | new => exact Sound.nil
  | replace _ ok ih => exact ih.insertAll (replace_ok ok)

theorem BuiltKeeping.built (h : BuiltKeeping lib) : Built lib := by
  induction h with
  | new => exact .new
  | replace _ ok _ ih => exact .replace ih ok

theorem BuiltKeeping.indexed (h : BuiltKeeping lib) : Indexed lib := by
  induction h with
  | new => exact fun m hm => absurd hm not_mem_nil
  | replace built ok keeps ih => exact ih.insertAll built.built.sound keeps (replace_ok ok)

/-- **The symbol index.**  In a library built by replacements that keep what the
    index says, every strong global symbol is listed for exactly one module, which
    defines it; and the first insertion that does not keep it loses a symbol. -/
theorem indexed_iff_keeps (lib : Library) :
    (Built lib → Sound lib) ∧ (BuiltKeeping lib → Indexed lib) ∧
    ∀ time module lib' warnings, Built lib → Indexed lib →
      insert lib time module = .ok (lib', warnings) → (Indexed lib' ↔ Keeps lib module) :=
  ⟨Built.sound, fun h => h.indexed, fun _ _ _ _ hb hi ok => hi.insert_iff hb.sound ok⟩

/-! A is inserted with the symbol X, then B, which defines X too, then an A without
    X: B's X is in no index. -/

/-- An object module that defines the symbols `names`. -/
def moduleOf (name : Name) (names : List Name) : List Record :=
  [.mhd { name := name, version := [] },
    .gsd (names.map fun s => .sdef { flags := sym.DEF, value := 0, psindx := 0, name := s }),
    .eom { comcod := 0 } none]

def libraryModule (name : Name) (symbols names : List Name) : Module :=
  ⟨name, [], 0, symbols, moduleOf name names⟩

def nameA : Name := [0x41]
def nameB : Name := [0x42]
def nameX : Name := [0x58]

theorem keeps_iff {h : Mhd} {rest : List Record} :
    Keeps lib (.mhd h :: rest) ↔ ∀ old ∈ lib, old.name = h.name → ∀ s ∈ old.symbols,
      s ∉ strong (.mhd h :: rest) → ∀ m ∈ lib, m.name ≠ h.name → s ∉ strong m.object := by
  constructor
  · intro hk
    exact hk h rfl
  · intro hk h₁ hh₁
    obtain rfl : h = h₁ := by simpa using hh₁
    exact hk

theorem keepsAll_moduleOf {name : Name} {names : List Name} (hk : Keeps lib (moduleOf name names)) :
    KeepsAll time lib (splitInclusive isEom (moduleOf name names)) :=
  ⟨hk, fun _ _ _ => trivial⟩

theorem built_dup :
    BuiltKeeping [libraryModule nameA [nameX] [nameX], libraryModule nameB [] [nameX]] := by
  have hA : replace [] (moduleOf nameA [nameX]) 0 =
      ([libraryModule nameA [nameX] [nameX]], .ok []) := by decide
  have hB : replace [libraryModule nameA [nameX] [nameX]] (moduleOf nameB [nameX]) 0 =
      ([libraryModule nameA [nameX] [nameX], libraryModule nameB [] [nameX]],
        .ok [.dupGlobal nameX nameB nameA]) := by decide
  have hA' := BuiltKeeping.new.replace hA (keepsAll_moduleOf (keeps_iff.mpr (by decide)))
  exact hA'.replace hB (keepsAll_moduleOf (keeps_iff.mpr (by decide)))

theorem not_indexed : ¬ ∀ lib, Built lib → Indexed lib := by
  intro h
  have hA : replace [libraryModule nameA [nameX] [nameX], libraryModule nameB [] [nameX]]
      (moduleOf nameA []) 0 =
      ([libraryModule nameB [] [nameX], libraryModule nameA [] []], .ok []) := by decide
  obtain ⟨k, hk, -⟩ := h _ (built_dup.built.replace hA) (libraryModule nameB [] [nameX])
    (by decide) nameX (by decide)
  have hnone : [libraryModule nameB [] [nameX], libraryModule nameA [] []].filter
      (nameX ∈ ·.symbols) = [] := by decide
  rw [hnone] at hk
  exact absurd hk.symm (cons_ne_nil _ _)

theorem indexed_again :
    Indexed [libraryModule nameB [] [nameX], libraryModule nameA [nameX] [nameX]] ∧
    (Indexed [libraryModule nameB [] [nameX], libraryModule nameA [nameX] [nameX]] ↔
      Keeps [libraryModule nameA [nameX] [nameX], libraryModule nameB [] [nameX]]
        (moduleOf nameA [nameX])) := by
  have hA : replace [libraryModule nameA [nameX] [nameX], libraryModule nameB [] [nameX]]
      (moduleOf nameA [nameX]) 0 =
      ([libraryModule nameB [] [nameX], libraryModule nameA [nameX] [nameX]], .ok []) := by decide
  have hagain := built_dup.replace hA (keepsAll_moduleOf (keeps_iff.mpr (by decide)))
  exact ⟨(indexed_iff_keeps _).2.1 hagain, (indexed_iff_keeps _).2.2 0 (moduleOf nameA [nameX]) _ []
    built_dup.built built_dup.indexed (by decide)⟩

end Obj
