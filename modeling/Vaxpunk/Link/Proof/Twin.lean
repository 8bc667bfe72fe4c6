/-
  The same commands run in two layouts of the same modules.  Values move as their
  weights say, and what the linker notes tells the contents apart.
-/
import Vaxpunk.Link.Proof.Mirror
import Vaxpunk.Link.Proof.Moved

namespace Link

open Obj (Relocated Moves)
open Exec Words List

variable {A B : ℕ} {l l' : Linker} {top m : ℕ} {r r' r₁ r₁' : Run}
variable {at_ at' n : ℕ} {bytes bytes' : List (BitVec 8)} {cmd : Obj.Tir} {k : Obj.Weight}
    {address : Obj.Need} {u u' : Unit} {kind : Obj.Kind} {insn : BitVec 32}

/-- Two layouts of the modules of an image that may move. -/
structure Setting (A B : ℕ) (l l' : Linker) (top : ℕ) : Prop where
  low : 2 ^ 16 ∣ A
  low' : 2 ^ 16 ∣ B
  moved : Moved A B l l'
  ordered : Ordered l.sections top
  bound : ∀ s ∈ l.sections, s.stop < 2 ^ 64
  fits : ∀ s ∈ l'.sections, s.stop < 2 ^ 64
  relocatable : l.relocatable = true
  veneers : OwnPlaced l l.veneers

/-- The state of the commands in both. -/
structure Twin (A B : ℕ) (l : Linker) (r r' : Run) : Prop where
  stack : List.Forall₂ (Moves (disp A B)) r.stack r'.stack
  loc : r'.loc = r.loc.map (· + disp A B)
  dataImport : r'.dataImport = r.dataImport
  far : r'.far = r.far
  mirrors : Mirrors (disp A B) l.sections r.stored r.data r'.data

/-! ## Stores -/

theorem InSection.site {i : ℕ} {s : ImageSection} (h : InSection l at_ n i s) :
    Site l.sections at_ n i s := ⟨h.get, h.full, h.low, h.high⟩

theorem Moved.sectionOf (hl : Moved A B l l') (hat : Shifted A B at_ at') :
    sectionOf l' at' (at' + n) = sectionOf l at_ (at_ + n) := by
  refine findIdx?_moved (hl.sections.imp fun s t hst => ?_)
  have h₁ := hst.start
  have h₂ := hst.stop
  unfold Shifted at h₁ h₂ hat
  exact decide_eq_decide.mpr (by omega)

/-- **A store** goes to the same place in both. -/
theorem Setting.store (hS : Setting A B l l' top) (ht : Twin A B l r r')
    (hlen : bytes'.length = bytes.length) (h : store l m bytes r = .ok at_ r₁)
    (h' : store l' m bytes' r' = .ok at' r₁') :
    Shifted A B at_ at' ∧ ∃ (i : ℕ) (s s' : ImageSection), InSection l at_ bytes.length i s ∧
      r₁ = r.write at_ i s.start bytes ∧ r₁' = r'.write at' i s'.start bytes' ∧
      at' - s'.start = at_ - s.start := by
  obtain ⟨loc, i, s, hloc, rfl, hin, rfl⟩ := store_ok h
  obtain ⟨loc', i', s', hloc', rfl, hin', rfl⟩ := store_ok h'
  have hd : loc' = loc + disp A B := by
    have := ht.loc
    rw [hloc, hloc'] at this
    exact Option.some.inj this
  obtain ⟨hilen, -⟩ := List.getElem?_eq_some_iff.mp hin.get
  have hilen' : i < l'.sections.length := by rw [← hS.moved.sections.length_eq]; exact hilen
  have hst := forall₂_getElem? hS.moved.sections hin.get (getElem?_eq_getElem hilen')
  have hfits := hS.fits _ (getElem_mem hilen')
  generalize l'.sections[i] = t at hst hfits
  have h₁ := hst.start
  have h₂ := hst.stop
  have hlow := hin.low
  have hhigh := hin.high
  -- where the image at `B` has it: the sum does not wrap
  have hat : Shifted A B loc.toNat (t.start + (loc.toNat - s.start)) := by
    unfold Shifted at *
    omega
  have hto : loc'.toNat = t.start + (loc.toNat - s.start) := by
    have hnat : BitVec.ofNat 64 (t.start + (loc.toNat - s.start)) = loc' := by
      rw [hat.ofNat, hd, BitVec.ofNat_toNat, BitVec.setWidth_eq]
    rw [← hnat, BitVec.toNat_ofNat, Nat.mod_eq_of_lt]
    unfold Shifted at *
    omega
  rw [← hto] at hat
  have hfound := hS.moved.sectionOf (n := bytes.length) hat
  rw [hin.found, ← hlen, hin'.found] at hfound
  obtain rfl : i' = i := Option.some.inj hfound
  have hst' := forall₂_getElem? hS.moved.sections hin.get hin'.get
  have h₃ := hst'.start
  refine ⟨hat, _, s, s', hin, rfl, rfl, ?_⟩
  unfold Shifted at *
  omega

theorem Twin.write (ht : Twin A B l r r') {i start start' : ℕ} (hlen : bytes'.length = bytes.length)
    (hat : Shifted A B at_ at') (hoff : at' - start' = at_ - start)
    (stored stored' : List (ℕ × Stored)) (log log' : List Event)
    (hm : Mirrors (disp A B) l.sections stored (put r.data i (at_ - start) bytes)
      (put r'.data i (at_ - start) bytes')) :
    Twin A B l { r.write at_ i start bytes with stored, log }
      { r'.write at' i start' bytes' with stored := stored', log := log' } := by
  refine ⟨ht.stack, ?_, ht.dataImport, ht.far, ?_⟩
  · change some (BitVec.ofNat 64 (at' + bytes'.length)) = some (BitVec.ofNat 64 _ + disp A B)
    rw [hlen, (hat.add _).ofNat]
  · change Mirrors _ _ _ (put r.data i (at_ - start) bytes) (put r'.data i (at' - start') bytes')
    rw [hoff]
    exact hm

theorem Setting.storeSame (hS : Setting A B l l' top) (bytes : List (BitVec 8)) :
    Paired (Twin A B l) (Shifted A B) (Link.store l m bytes) (Link.store l' m bytes) := by
  intro r r' ht at_ r₁ at' r₁' h h'
  obtain ⟨hat, i, s, s', hin, rfl, rfl, hoff⟩ := hS.store ht rfl h h'
  exact ⟨ht.write rfl hat hoff _ _ _ _
    (ht.mirrors.putSame hS.ordered hin.site (.over ht.mirrors.apart _ _)), hat⟩

/-- **A store and its note**: what moves has a note, and what has none is the same in
    both. -/
theorem Setting.storeFix (hS : Setting A B l l' top) (hpos : 0 < n) (hn : bytes.length = n)
    (hn' : bytes'.length = n) (v v' : BitVec 64) (hsame : Obj.need cmd k = .nothing → bytes' = bytes)
    (hmoves : ∀ size, Obj.need cmd k = .fixup size → Relocated (disp A B) bytes bytes') :
    Paired (Twin A B l) (fun _ _ => True)
      (do
        let at_ ← Link.store l m bytes
        fix m at_ n cmd v k)
      (do
        let at_ ← Link.store l' m bytes'
        fix m at_ n cmd v' k) := by
  subst hn
  intro r r' ht u r₁ u' r₁' h h'
  obtain ⟨at_, r₂, hst, hfix⟩ := bind_ok.mp h
  obtain ⟨at', r₂', hst', hfix'⟩ := bind_ok.mp h'
  obtain ⟨hat, i, s, s', hin, rfl, rfl, hoff⟩ := hS.store ht hn' hst hst'
  rw [fix_eq] at hfix hfix'
  cases hfix
  cases hfix'
  refine ⟨?_, trivial⟩
  have hover := Cleared.over ht.mirrors.apart at_ bytes.length
  cases hneed : Obj.need cmd k with
  | nothing =>
    obtain rfl := hsame hneed
    exact ht.write rfl hat hoff _ _ _ _ (ht.mirrors.putSame hS.ordered hin.site hover)
  | fixup size =>
    exact ht.write hn' hat hoff _ _ _ _ (ht.mirrors.putNoted hS.ordered hin.site hpos hn' hover rfl
      fun _ => hmoves size hneed)
  | impossible =>
    exact ht.write hn' hat hoff _ _ _ _ (ht.mirrors.putNoted hS.ordered hin.site hpos hn' hover rfl
      nofun)

/-! ## Commands -/

theorem pop_twin : Paired (Twin A B l) (Moves (disp A B)) (pop l m) (pop l' m) := by
  intro r r' ht v r₁ v' r₁' h h'
  rw [pop_eq] at h h'
  have hstack := ht.stack
  cases hr : r.stack with
  | nil =>
    rw [hr] at h
    cases h
  | cons x xs =>
    cases hr' : r'.stack with
    | nil =>
      rw [hr'] at h'
      cases h'
    | cons y ys =>
      rw [hr] at h
      rw [hr'] at h'
      rw [hr, hr'] at hstack
      cases h
      cases h'
      obtain ⟨hxy, hxys⟩ := forall₂_cons.mp hstack
      exact ⟨{ ht with stack := hxys }, hxy⟩

theorem push_twin {v v' : Obj.Value} (h : Moves (disp A B) v v') :
    Paired (Twin A B l) (fun _ _ => True) (push v) (push v') :=
  .modify fun _ _ ht => { ht with stack := .cons h ht.stack }

theorem Moved.symbol_twin (hl : Moved A B l l') {name : Obj.Name} (hp : SymbolPlaced l name) :
    Paired (Twin A B l) (Moves (disp A B)) (symbol l name) (symbol l' name) := by
  unfold symbol
  rw [hl.alike.defs]
  split
  · exact .pure (.const 0)
  · next d hd =>
    cases hv : l.value name with
    | none => exact .throw _
    | some v => cases hv' : l'.value name with
      | none => exact .throw_right _
      | some v' =>
        refine .pure ?_
        have hvv := hl.value hp hd hv hv'
        split_ifs with hps
        · rw [if_pos hps] at hvv
          exact .address hvv
        · rw [if_neg hps] at hvv
          rw [hvv]
          exact .const v

section
variable (hS : Setting A B l l' top)
include hS

theorem Setting.dataRef (j : ℕ) : Paired (Twin A B l) (fun _ _ => True) (dataRef l m j) (dataRef l' m j) := by
  unfold Link.dataRef
  refine (hS.storeSame _).bind fun at_ at' _ => ?_
  split
  · exact .throw _
  · split
    · exact .throw_right _
    · exact .modify fun _ _ ht => { ht with }

theorem Setting.storeTimes (data : List (BitVec 8)) (n : ℕ) :
    Paired (Twin A B l) (fun _ _ => True) (storeTimes l m data n) (storeTimes l' m data n) := by
  induction n with
  | zero => exact .pure trivial
  | succ n ih => exact (hS.storeSame data).bind fun _ _ _ => ih

theorem Setting.storeQuad
    (hcmd : ∀ k, Obj.need cmd k = Obj.needData k (.fixup 8)) {v v' : Obj.Value} (hv : Moves (disp A B) v v') :
    Paired (Twin A B l) (fun _ _ => True) (storeQuad l m cmd v) (storeQuad l' m cmd v') := by
  unfold Link.storeQuad
  rw [hv.1]
  refine hS.storeFix (by omega) (length_le _ _) (length_le _ _) _ _ (fun hneed => ?_)
    fun size hneed => ?_
  · rw [hcmd] at hneed
    rw [hv.eq_of_zero (Obj.needData_nothing (by simp) hneed)]
  · rw [hcmd] at hneed
    rw [hv.eq_add (Obj.needData_fixup hneed).1]
    exact Obj.relocated_quad _

theorem Setting.storeNarrow {bits : ℕ} (hbits : 0 < bits / 8)
    (ha : address ≠ .nothing) (hlong : ∀ size, address = .fixup size → size = 4 ∧ bits = 32)
    (hcmd : ∀ k, Obj.need cmd k = Obj.needData k address) :
    Paired (Twin A B l) (fun _ _ => True) (storeNarrow l m cmd bits) (storeNarrow l' m cmd bits) := by
  unfold Link.storeNarrow
  refine pop_twin.bind fun v v' hv => ?_
  obtain ⟨v, k⟩ := v
  obtain ⟨v', k'⟩ := v'
  obtain rfl : k' = k := hv.1
  simp only
  split
  · next hfits =>
    split
    · next hfits' =>
      refine hS.storeFix hbits (length_le _ _) (length_le _ _) _ _ (fun hneed => ?_)
        fun size hneed => ?_
      · rw [hcmd] at hneed
        obtain rfl : v' = v :=
          congrArg Prod.fst (hv.eq_of_zero (Obj.needData_nothing ha hneed))
        rfl
      · have hneed₁ := hneed
        rw [hcmd] at hneed
        obtain ⟨hk, haddr⟩ := Obj.needData_fixup hneed
        obtain ⟨rfl, rfl⟩ := hlong size haddr
        have hd : v' = v + disp A B := hv.eq_add hk
        subst hd
        rw [hneed₁] at hfits hfits'
        exact Obj.relocated_long (by simpa [Link.fits] using hfits)
          (by simpa [Link.fits] using hfits')
    · intro r r' _ _ _ _ _ _ h'
      obtain ⟨_, _, _, h'⟩ := bind_ok.mp h'
      cases h'
  · intro r r' _ _ _ _ _ h
    obtain ⟨_, _, _, h⟩ := bind_ok.mp h
    cases h

end

/-- The instruction an ARM64 store puts at `loc` to refer to `s` of weight `k`, in an
    image that may move, the weight it is noted with, and the far addresses then. -/
inductive Patched (l : Linker) (far : List (BitVec 64)) (kind : Obj.Kind) (insn : BitVec 32)
    (s : BitVec 64) (k : Obj.Weight) (loc : BitVec 64) :
    BitVec 32 → Obj.Weight → List (BitVec 64) → Prop
  /-- A fixed address that has no veneer yet. -/
  | noted (hfixed : kind = .jump26 ∧ k = some 0) (hnone : l.veneer s = none) :
    Patched l far kind insn s k loc insn k (addFar s far)
  /-- A fixed address, through its veneer. -/
  | veneer {v : ℕ} {word : BitVec 32} (hfixed : kind = .jump26 ∧ k = some 0)
    (hsome : l.veneer s = some v)
    (hword : Obj.apply kind insn (BitVec.ofNat 64 v) loc = .ok word) :
    Patched l far kind insn s k loc word (some 1) far
  | plain {word : BitVec 32} (hfixed : ¬ (kind = .jump26 ∧ k = some 0))
    (hword : Obj.apply kind insn s loc = .ok word) :
    Patched l far kind insn s k loc word k far

theorem storeFix_loc {v : BitVec 64}
    (h : (do
      let at_ ← store l m bytes
      fix m at_ n cmd v k) r = .ok u r₁) : ∃ loc, r.loc = some loc := by
  obtain ⟨at_, r₂, hst, -⟩ := bind_ok.mp h
  obtain ⟨loc, -, -, hloc, -⟩ := store_ok hst
  exact ⟨loc, hloc⟩

theorem storeInsn_ok (hrel : l.relocatable = true) (h : storeInsn l m cmd kind insn r = .ok u r₁) :
    ∃ s k stack loc word k' far, r.stack = (s, k) :: stack ∧ r.loc = some loc ∧
      Patched l r.far kind insn s k loc word k' far ∧
      (do
        let at_ ← store l m (le 4 word.toNat)
        fix m at_ 4 cmd s k') { r with stack, far } = .ok u r₁ := by
  unfold storeInsn at h
  obtain ⟨⟨s, k⟩, r₂, hpop, h⟩ := bind_ok.mp h
  rw [pop_eq] at hpop
  cases hstack : r.stack with
  | nil =>
    rw [hstack] at hpop
    cases hpop
  | cons x stack =>
    rw [hstack] at hpop
    cases hpop
    obtain ⟨r₃, r₄, hget, h⟩ := bind_ok.mp h
    cases hget
    simp only [hrel, Bool.or_true, Bool.true_and, Bool.and_eq_true, decide_eq_true_eq] at h
    split_ifs at h with hfixed
    · cases hv : l.veneer s with
      | none =>
        rw [hv] at h
        obtain ⟨u', r₅, hmod, h⟩ := bind_ok.mp h
        cases hmod
        obtain ⟨loc, hloc⟩ := storeFix_loc h
        exact ⟨s, k, stack, loc, insn, k, _, rfl, hloc, .noted hfixed hv, h⟩
      | some v =>
        simp only [hv] at h
        cases hword : Obj.apply kind insn (BitVec.ofNat 64 v) (r.loc.getD 0) with
        | error e =>
          rw [hword] at h
          cases h
        | ok word =>
          rw [hword] at h
          obtain ⟨loc, hloc⟩ := storeFix_loc h
          simp only at hloc
          rw [hloc] at hword
          exact ⟨s, k, stack, loc, word, some 1, _, rfl, hloc, .veneer hfixed hv hword, h⟩
    · cases hword : Obj.apply kind insn s (r.loc.getD 0) with
      | error e =>
        rw [hword] at h
        cases h
      | ok word =>
        rw [hword] at h
        obtain ⟨loc, hloc⟩ := storeFix_loc h
        simp only at hloc
        rw [hloc] at hword
        exact ⟨s, k, stack, loc, word, k, _, rfl, hloc, .plain hfixed hword, h⟩

theorem Setting.patched (hS : Setting A B l l' top) {far far₁ far₁' : List (BitVec 64)}
    {word word' : BitVec 32} {s s' loc : BitVec 64} {k₁ k₁' : Obj.Weight}
    (hs : Moves (disp A B) (s, k) (s', k)) (h : Patched l far kind insn s k loc word k₁ far₁)
    (h' : Patched l' far kind insn s' k (loc + disp A B) word' k₁' far₁') :
    far₁' = far₁ ∧ k₁' = k₁ ∧ (kind.moves k₁ → word' = word) := by
  have hd := disp_dvd hS.low hS.low'
  cases h with
  | noted hfixed hnone =>
    obtain rfl : s' = s := congrArg Prod.fst (hs.eq_of_zero hfixed.2)
    cases h' with
    | noted _ _ => exact ⟨rfl, rfl, fun _ => rfl⟩
    | veneer _ hsome' _ =>
      rw [hS.moved.veneer_none.mpr hnone] at hsome'
      cases hsome'
    | plain hfixed' _ => exact absurd hfixed hfixed'
  | @veneer v _ hfixed hsome hword =>
    obtain rfl : s' = s := congrArg Prod.fst (hs.eq_of_zero hfixed.2)
    cases h' with
    | noted _ hnone' =>
      rw [hS.moved.veneer_none.mp hnone'] at hsome
      cases hsome
    | @veneer v' _ _ hsome' hword' =>
      refine ⟨rfl, rfl, fun hm => ?_⟩
      have hv := hS.moved.veneer hS.veneers hsome hsome'
      rw [Obj.apply_moves hm hd (.address hv.ofNat) rfl, hword] at hword'
      exact (Except.ok.inj hword').symm
    | plain hfixed' _ => exact absurd hfixed hfixed'
  | plain hfixed hword =>
    cases h' with
    | noted hfixed' _ | veneer hfixed' _ _ => exact absurd hfixed' hfixed
    | plain _ hword' =>
      refine ⟨rfl, rfl, fun hm => ?_⟩
      rw [Obj.apply_moves hm hd hs rfl, hword] at hword'
      exact (Except.ok.inj hword').symm

/-- **An ARM64 store.** -/
theorem Setting.storeInsn (hS : Setting A B l l' top) (hkind : Obj.Kind.of cmd = some (kind, insn)) :
    Paired (Twin A B l) (fun _ _ => True) (storeInsn l m cmd kind insn)
      (storeInsn l' m cmd kind insn) := by
  intro r r' ht u r₁ u' r₁' h h'
  have hrel' : l'.relocatable = true := by rw [hS.moved.alike.relocatable, hS.relocatable]
  obtain ⟨s, k, stack, loc, word, k₁, far, hstack, hloc, hp, hrest⟩ :=
    storeInsn_ok hS.relocatable h
  obtain ⟨s', k', stack', loc', word', k₁', far', hstack', hloc', hp', hrest'⟩ :=
    storeInsn_ok hrel' h'
  have hstacks := ht.stack
  rw [hstack, hstack'] at hstacks
  obtain ⟨hs, hrests⟩ := forall₂_cons.mp hstacks
  obtain rfl : k' = k := hs.1
  obtain rfl : loc' = loc + disp A B := by
    have := ht.loc
    rw [hloc, hloc'] at this
    exact Option.some.inj this
  rw [ht.far] at hp'
  obtain ⟨rfl, rfl, hword⟩ := hS.patched hs hp hp'
  have htwin : Twin A B l { r with stack, far := far' } { r' with stack := stack', far := far' } :=
    { ht with stack := hrests, far := rfl }
  refine hS.storeFix (by omega) (length_le _ _) (length_le _ _) s s' (fun hneed => ?_)
    (fun size hneed => ?_) _ _ htwin u r₁ u' r₁' hrest hrest'
  · rw [(Obj.need_insn hkind).1] at hneed
    split_ifs at hneed with hm
    rw [hword hm]
  · rw [(Obj.need_insn hkind).1] at hneed
    split_ifs at hneed

theorem Setting.stepOther (hS : Setting A B l l' top) (cmd : Obj.Tir) :
    Paired (Twin A B l) (fun _ _ => True) (stepOther l m cmd) (stepOther l' m cmd) := by
  unfold Link.stepOther
  cases hop : Obj.operands cmd with
  | some n =>
    intro r r' ht u r₁ u' r₁' h h'
    obtain ⟨r₂, r₃, hget, h⟩ := bind_ok.mp h
    obtain ⟨r₂', r₃', hget', h'⟩ := bind_ok.mp h'
    cases hget
    cases hget'
    split_ifs at h with hlen
    · cases h
    · split_ifs at h' with hlen'
      · cases h'
      · cases h
        cases h'
        have htake := rel_reverse (forall₂_take n ht.stack)
        have hargs : (r.stack.take n).reverse.length = n := by
          rw [length_reverse, length_take]
          omega
        exact ⟨{ ht with
          stack := .cons (Obj.operate_moves hop hargs htake) (forall₂_drop n ht.stack) },
          trivial⟩
  | none =>
    cases hkind : Obj.Kind.of cmd with
    | none => exact .throw _
    | some ki => exact hS.storeInsn hkind

/-! ## Steady commands -/

/-- A command whose place and count do not depend on where the image is, and whose
    addresses are in psects that have a place in it. -/
def Steady (l : Linker) (m : ℕ) (r : Run) : Obj.Tir → Prop
  | .ctlSetrb => ∀ v ∈ r.stack.head?, v.2 = some 1
  | .stoImmr _ => ∀ v ∈ r.stack.head?, v.2 = some 0
  | .staGbl name | .stoGbl name | .stoCa name => SymbolPlaced l name
  | .staPq psect _ => ∀ q ∈ l.psectOf m psect.toNat,
    Obj.has q.flags Obj.psc.REL = true → Placed l.sections q
  | _ => True

instance (l : Linker) (m : ℕ) (r : Run) (cmd : Obj.Tir) : Decidable (Steady l m r cmd) := by
  cases cmd <;> (dsimp only [Steady]; infer_instance)

theorem Moved.dataOf (hl : Moved A B l l') (name : Obj.Name) : dataOf l' name = dataOf l name := by
  unfold Link.dataOf
  rw [hl.alike.dataImports]

theorem Setting.global (hS : Setting A B l l' top)
    (hcmd : ∀ k, Obj.need cmd k = Obj.needData k (.fixup 8)) {name : Obj.Name} (hp : SymbolPlaced l name) :
    Paired (Twin A B l) (fun _ _ => True)
      (match Link.dataOf l name with
        | some j => Link.dataRef l m j
        | none => do Link.storeQuad l m cmd (← symbol l name))
      (match Link.dataOf l' name with
        | some j => Link.dataRef l' m j
        | none => do Link.storeQuad l' m cmd (← symbol l' name)) := by
  rw [hS.moved.dataOf]
  cases Link.dataOf l name with
  | some j => exact hS.dataRef j
  | none => exact (hS.moved.symbol_twin hp).bind fun _ _ hv => hS.storeQuad hcmd hv

theorem Moved.staPq (hl : Moved A B l l') {psect : BitVec 32} {offset : BitVec 64}
    (hp : Steady l m r (.staPq psect offset)) :
    Paired (Twin A B l) (fun _ _ => True) (stepPlain l m (.staPq psect offset))
      (stepPlain l' m (.staPq psect offset)) := by
  rw [stepPlain_staPq, stepPlain_staPq]
  cases hb : l.partBase m psect.toNat with
  | none => exact .throw _
  | some b => cases hb' : l'.partBase m psect.toNat with
    | none => exact .throw_right _
    | some b' =>
      obtain ⟨q, q', hq, hq', hflags, habs, hrel⟩ := hl.partBase hb hb'
      simp only
      rw [psectOf_rel hq, psectOf_rel hq', hflags]
      refine push_twin ?_
      cases hr : Obj.has q.flags Obj.psc.REL with
      | false =>
        rw [habs hr]
        exact .const _
      | true =>
        refine .address ?_
        rw [(hrel hr (hp q hq hr)).ofNat]
        ring

/-- **One command**, in both. -/
theorem Setting.stepPlain (hS : Setting A B l l' top) (ht : Twin A B l r r')
    (hsteady : Steady l m r cmd) (h : stepPlain l m cmd r = .ok u r₁)
    (h' : stepPlain l' m cmd r' = .ok u' r₁') : Twin A B l r₁ r₁' := by
  have paired {x y : Exec Unit} (hxy : Paired (Twin A B l) (fun _ _ => True) x y)
      (hx : x r = .ok u r₁) (hy : y r' = .ok u' r₁') : Twin A B l r₁ r₁' :=
    (hxy r r' ht u r₁ u' r₁' hx hy).1
  rcases own_or_other cmd with hown | hother
  · cases hown with
    | staGbl name =>
      rw [stepPlain_staGbl] at h h'
      rw [hS.moved.dataOf] at h'
      cases hj : dataOf l name with
      | some j =>
        rw [hj] at h h'
        refine paired ((push_twin (.const 0)).bind fun _ _ _ => ?_) h h'
        exact .modify fun _ _ ht => { ht with dataImport := rfl }
      | none =>
        rw [hj] at h h'
        exact paired ((hS.moved.symbol_twin hsteady).bind fun _ _ hv => push_twin hv) h h'
    | stoGbl name | stoCa name => exact paired (hS.global (fun _ => rfl) hsteady) h h'
    | staLw value | staQw value => exact paired (push_twin (.const _)) h h'
    | staPq psect offset => exact paired (hS.moved.staPq hsteady) h h'
    | stoB | stoW =>
      exact paired (hS.storeNarrow (by omega) (by simp) (by simp) fun _ => rfl) h h'
    | stoLw =>
      refine paired (hS.storeNarrow (by omega) (by simp) (fun size hs => ?_) fun _ => rfl) h h'
      cases hs
      exact ⟨rfl, rfl⟩
    | stoQw | stoOff =>
      exact paired (pop_twin.bind fun _ _ hv => hS.storeQuad (fun _ => rfl) hv) h h'
    | stoImmr data =>
      obtain ⟨v, r₂, hpop, h⟩ := bind_ok.mp h
      obtain ⟨v', r₂', hpop', h'⟩ := bind_ok.mp h'
      obtain ⟨ht₂, hv⟩ := pop_twin r r' ht v r₂ v' r₂' hpop hpop'
      have h0 : v.2 = some 0 := hsteady v (pop_head hpop)
      obtain rfl := hv.eq_of_zero h0
      obtain ⟨_, _, hget, h⟩ := bind_ok.mp h
      obtain ⟨_, _, hget', h'⟩ := bind_ok.mp h'
      cases hget
      cases hget'
      obtain ⟨_, r₃, htimes, h⟩ := bind_ok.mp h
      obtain ⟨_, r₃', htimes', h'⟩ := bind_ok.mp h'
      obtain ⟨ht₃, -⟩ := hS.storeTimes data _ r₂ r₂' ht₂ _ r₃ _ r₃' htimes htimes'
      rw [fix_eq, h0] at h h'
      cases h
      cases h'
      exact ht₃
    | stoImm data =>
      exact paired ((hS.storeSame data).bind fun _ _ _ => .pure trivial) h h'
    | oprNop => exact paired (.pure trivial) h h'
    | ctlSetrb =>
      obtain ⟨v, r₂, hpop, h⟩ := bind_ok.mp h
      obtain ⟨v', r₂', hpop', h'⟩ := bind_ok.mp h'
      obtain ⟨ht₂, hv⟩ := pop_twin r r' ht v r₂ v' r₂' hpop hpop'
      have hloc := hv.eq_add (hsteady v (pop_head hpop))
      cases h
      cases h'
      exact { ht₂ with loc := by rw [hloc]; rfl }
    | ctlAugrb offset =>
      obtain ⟨_, _, hget, h⟩ := bind_ok.mp h
      obtain ⟨_, _, hget', h'⟩ := bind_ok.mp h'
      cases hget
      cases hget'
      have hloc := ht.loc
      cases hr : r.loc with
      | none =>
        rw [hr] at h
        cases h
      | some loc =>
        rw [hr] at h hloc
        rw [hloc] at h'
        cases h
        cases h'
        refine { ht with loc := ?_ }
        simp only [Option.map_some, Option.some.injEq]
        ring
  · rw [hother] at h h'
    exact paired (hS.stepOther cmd) h h'

theorem Setting.step (hS : Setting A B l l' top) (ht : Twin A B l r r') (hsteady : Steady l m r cmd)
    (h : step l m cmd r = .ok u r₁) (h' : step l' m cmd r' = .ok u' r₁') : Twin A B l r₁ r₁' := by
  rw [step_eq] at h h'
  rw [ht.dataImport] at h'
  cases hj : r.dataImport with
  | none =>
    rw [hj] at h h'
    exact hS.stepPlain ht hsteady h h'
  | some j =>
    rw [hj] at h h'
    simp only at h h'
    have ht' : Twin A B l { r with dataImport := none } { r' with dataImport := none } :=
      { ht with dataImport := rfl }
    split_ifs at h h' with hquad
    · exact ((pop_twin.bind fun _ _ _ => hS.dataRef j) _ _ ht' u r₁ u' r₁' h h').1
    · cases h

/-- A module's commands are steady, and none fails. -/
def CalmSteps (l : Linker) (m : ℕ) : List Obj.Tir → Run → Prop
  | [], _ => True
  | cmd :: cmds, r => Steady l m r cmd ∧ match step l m cmd r with
    | .ok _ r' => CalmSteps l m cmds r'
    | .error _ _ => False

instance decCalmSteps (l : Linker) (m : ℕ) :
    (cmds : List Obj.Tir) → (r : Run) → Decidable (CalmSteps l m cmds r)
  | [], _ => .isTrue trivial
  | cmd :: cmds, r => by
    unfold CalmSteps
    cases step l m cmd r with
    | error e r' => infer_instance
    | ok u r' =>
      have := decCalmSteps l m cmds r'
      infer_instance

/-- The same for modules one after another. -/
def CalmModules (l : Linker) : List (Module × ℕ) → Outcome → Prop
  | [], _ => True
  | mi :: mis, o =>
    CalmSteps l mi.2 mi.1.commands o.run.fresh ∧ CalmModules l mis (runModule l o mi)

instance decCalmModules (l : Linker) :
    (mis : List (Module × ℕ)) → (o : Outcome) → Decidable (CalmModules l mis o)
  | [], _ => .isTrue trivial
  | mi :: mis, o =>
    have := decCalmModules l mis (runModule l o mi)
    inferInstanceAs (Decidable (_ ∧ _))

theorem CalmSteps.ok {cmds : List Obj.Tir} (h : CalmSteps l m cmds r) :
    ∃ r₁, steps l m cmds r = .ok () r₁ := by
  induction cmds generalizing r with
  | nil => exact ⟨r, rfl⟩
  | cons cmd cmds ih =>
    unfold CalmSteps at h
    cases hstep : Link.step l m cmd r with
    | error e r₂ =>
      rw [hstep] at h
      exact h.2.elim
    | ok u r₂ =>
      rw [hstep] at h
      obtain ⟨r₁, hr₁⟩ := ih h.2
      exact ⟨r₁, bind_ok.mpr ⟨u, r₂, hstep, hr₁⟩⟩

theorem Setting.steps (hS : Setting A B l l' top) {cmds : List Obj.Tir} (ht : Twin A B l r r')
    (hcalm : CalmSteps l m cmds r) (h : steps l m cmds r = .ok u r₁)
    (h' : steps l' m cmds r' = .ok u' r₁') : Twin A B l r₁ r₁' := by
  induction cmds generalizing r r' with
  | nil =>
    cases h
    cases h'
    exact ht
  | cons cmd cmds ih =>
    obtain ⟨v, r₂, hstep, h⟩ := bind_ok.mp h
    obtain ⟨v', r₂', hstep', h'⟩ := bind_ok.mp h'
    unfold CalmSteps at hcalm
    rw [hstep] at hcalm
    exact ih (hS.step ht hcalm.1 hstep hstep') hcalm.2 h h'

theorem Twin.fresh (ht : Twin A B l r r') : Twin A B l r.fresh r'.fresh :=
  { ht with stack := .nil, loc := rfl, dataImport := rfl }

theorem CalmSteps.runModule {o : Outcome} {mi : Module × ℕ} (h : CalmSteps l mi.2 mi.1.commands o.run.fresh) :
    Link.steps l mi.2 mi.1.commands o.run.fresh = .ok () (Link.runModule l o mi).run ∧
      (Link.runModule l o mi).errors = o.errors := by
  obtain ⟨r₁, hr₁⟩ := h.ok
  unfold Link.runModule
  simp only [hr₁]
  exact ⟨trivial, trivial⟩

/-- **All modules' commands**, in both. -/
theorem Setting.modules (hS : Setting A B l l' top) {mis : List (Module × ℕ)} {o o' : Outcome}
    (ht : Twin A B l o.run o'.run) (hcalm : CalmModules l mis o) (hcalm' : CalmModules l' mis o') :
    Twin A B l (mis.foldl (runModule l) o).run (mis.foldl (runModule l') o').run := by
  induction mis generalizing o o' with
  | nil => exact ht
  | cons mi mis ih =>
    exact ih (hS.steps ht.fresh hcalm.1 hcalm.1.runModule.1 hcalm'.1.runModule.1) hcalm.2 hcalm'.2

theorem map_eq_of_forall₂ {α β γ : Type} {f : α → γ} {g : β → γ} {xs : List α} {ys : List β}
    (h : List.Forall₂ (fun x y => g y = f x) xs ys) : ys.map g = xs.map f := by
  induction h with
  | nil => rfl
  | cons hxy _ ih => rw [map_cons, map_cons, hxy, ih]

theorem Setting.blank (hS : Setting A B l l' top) : Twin A B l l.blank l'.blank := by
  have hdata : l'.blank.data = l.blank.data := by
    refine map_eq_of_forall₂ (hS.moved.sections.imp fun s t hst => ?_)
    have h₁ := hst.start
    have h₂ := hst.stop
    have hsize : t.stop - t.start = s.stop - s.start := by
      unfold Shifted at h₁ h₂
      omega
    rw [hst.cls, hsize]
  refine ⟨.nil, rfl, rfl, rfl, .nil, fun i s hs => ?_, fun e he => absurd he not_mem_nil,
    fun i s b b' hs hb hb' x _ => ?_⟩
  · have hget : l.blank.data[i]? =
        some (if s.cls = .zero then [] else replicate (s.stop - s.start) 0) := by
      change (l.sections.map _)[i]? = _
      rw [getElem?_map, hs]
      rfl
    refine ⟨_, _, hget, by rw [hdata]; exact hget, rfl, ?_⟩
    split_ifs
    · rfl
    · exact length_replicate
  · rw [hdata, hb] at hb'
    rw [Option.some.inj hb']

/-- **What the commands leave**, in both. -/
theorem Setting.runModules (hS : Setting A B l l' top) (hcalm : CalmModules l l.modules.zipIdx ⟨l.blank, [], []⟩)
    (hcalm' : CalmModules l' l'.modules.zipIdx ⟨l'.blank, [], []⟩) :
    Twin A B l l.runModules.run l'.runModules.run := by
  unfold Linker.runModules
  rw [hS.moved.alike.modules] at hcalm' ⊢
  exact hS.modules hS.blank hcalm hcalm'

end Link
