/-
  What each part of a command does to a run.
-/
import Vaxpunk.Link.Proof.Layout
import Vaxpunk.Link.Run
import Vaxpunk.Obj.Proof.Weigh

namespace Link

open Exec

variable {l : Linker} {m : ℕ} {r r' : Run} {e : Msg}
variable {bytes : List (BitVec 8)} {cmd : Obj.Tir} {j : ℕ}

theorem store_eq : store l m bytes r = match r.loc with
    | none => .error (.noLoc (l.moduleName m)) r
    | some loc => match sectionOf l loc.toNat (loc.toNat + bytes.length) with
      | none => .error (.outside (l.moduleName m) loc.toNat) r
      | some i => match l.sections[i]? with
        | none => .error .panic r
        | some s => if s.cls = .zero then .error (.dzro loc.toNat) r
          else .ok loc.toNat (r.write loc.toNat i s.start bytes) := by
  unfold store
  simp only [bind, EStateM.bind, get, getThe, MonadStateOf.get, EStateM.get]
  cases r.loc with
  | none => rfl
  | some loc =>
    simp only
    cases sectionOf l loc.toNat (loc.toNat + bytes.length) with
    | none => rfl
    | some i =>
      simp only
      cases l.sections[i]? with
      | none => rfl
      | some s =>
        simp only
        split_ifs <;> rfl

theorem store_error (h : store l m bytes r = .error e r') : r' = r := by
  rw [store_eq] at h
  split at h
  · cases h
    rfl
  · split at h
    · cases h
      rfl
    · split at h
      · cases h
        rfl
      · split_ifs at h
        cases h
        rfl

/-- The `n` bytes from `at_` on are in section `i` of the image, which has contents. -/
structure InSection (l : Linker) (at_ n i : ℕ) (s : ImageSection) : Prop where
  found : sectionOf l at_ (at_ + n) = some i
  get : l.sections[i]? = some s
  full : s.cls ≠ .zero
  low : s.start ≤ at_
  high : at_ + n ≤ s.stop

theorem store_ok {at_ : ℕ} (h : store l m bytes r = .ok at_ r') :
    ∃ loc i s, r.loc = some loc ∧ loc.toNat = at_ ∧ InSection l at_ bytes.length i s ∧
      r' = r.write at_ i s.start bytes := by
  rw [store_eq] at h
  split at h
  · cases h
  · next loc hloc =>
    split at h
    · cases h
    · next i hi =>
      split at h
      · cases h
      · next s hs =>
        split_ifs at h with hz
        cases h
        obtain ⟨hlen, hin, -⟩ := List.findIdx?_eq_some_iff_getElem.mp hi
        rw [List.getElem?_eq_getElem hlen, Option.some.injEq] at hs
        rw [hs, decide_eq_true_eq] at hin
        have hget : l.sections[i]? = some s := by rw [List.getElem?_eq_getElem hlen, hs]
        exact ⟨loc, i, s, hloc, rfl, ⟨hi, hget, hz, hin.1, hin.2⟩, rfl⟩

theorem pop_eq : pop l m r = match r.stack with
    | [] => .error (.stack (l.moduleName m)) r
    | v :: stack => .ok v { r with stack } := by
  unfold pop
  simp only [bind, EStateM.bind, get, getThe, MonadStateOf.get, EStateM.get]
  cases r.stack with
  | nil => rfl
  | cons v stack => rfl

theorem pop_head {v : Obj.Value} (h : pop l m r = .ok v r') : v ∈ r.stack.head? := by
  rw [pop_eq] at h
  cases hs : r.stack with
  | nil =>
    rw [hs] at h
    cases h
  | cons x stack =>
    rw [hs] at h
    cases h
    rfl

theorem fix_eq {at_ size : ℕ} {v : BitVec 64} {k : Obj.Weight} :
    fix m at_ size cmd v k r = .ok () (match Obj.need cmd k with
      | .nothing => r
      | .fixup _ => { r with
        stored := SortedMap.insert at_ ⟨size, m, v, none⟩ r.stored
        log := r.log ++ [.address at_ size] }
      | .impossible =>
        { r with stored := SortedMap.insert at_ ⟨size, m, v, some (.store cmd k at_)⟩ r.stored }) := by
  unfold fix
  cases Obj.need cmd k <;> rfl

theorem need_stoImmr {data : List (BitVec 8)} {k : Obj.Weight} {size : ℕ} :
    Obj.need (.stoImmr data) k ≠ .fixup size := by
  intro h
  cases (Obj.needData_fixup h).2

theorem dataRef_eq :
    dataRef l m j r = match store l m (List.replicate 8 0) r with
      | .error e r => .error e r
      | .ok at_ r => if l.isPic at_ then .error (.notPic at_) r
        else .ok () { r with
          dataRefs := r.dataRefs ++ [(at_, j)]
          log := r.log ++ [.ref at_ j] } := by
  unfold dataRef
  simp only [bind, EStateM.bind]
  cases store l m (List.replicate 8 0) r with
  | error e r => rfl
  | ok at_ r =>
    simp only
    split_ifs <;> rfl

/-- The commands `step` has a branch of its own for. -/
inductive Own : Obj.Tir → Prop
  | staGbl (name : Obj.Name) : Own (.staGbl name)
  | stoGbl (name : Obj.Name) : Own (.stoGbl name)
  | stoCa (name : Obj.Name) : Own (.stoCa name)
  | staLw (value : BitVec 32) : Own (.staLw value)
  | staQw (value : BitVec 64) : Own (.staQw value)
  | staPq (psect : BitVec 32) (offset : BitVec 64) : Own (.staPq psect offset)
  | stoB : Own .stoB
  | stoW : Own .stoW
  | stoLw : Own .stoLw
  | stoQw : Own .stoQw
  | stoOff : Own .stoOff
  | stoImmr (data : List (BitVec 8)) : Own (.stoImmr data)
  | stoImm (data : List (BitVec 8)) : Own (.stoImm data)
  | oprNop : Own .oprNop
  | ctlSetrb : Own .ctlSetrb
  | ctlAugrb (offset : BitVec 32) : Own (.ctlAugrb offset)

theorem own_or_other (cmd : Obj.Tir) :
    Own cmd ∨ ∀ l m, stepPlain l m cmd = stepOther l m cmd := by
  cases cmd <;> first | exact .inr fun _ _ => rfl | exact .inl (by constructor)

theorem stepPlain_staGbl {name : Obj.Name} : stepPlain l m (.staGbl name) =
    match dataOf l name with
    | some j => do
      push (0, some 0)
      modify fun r => { r with dataImport := some j }
    | none => (do push (← symbol l name)) := rfl

theorem stepPlain_staPq {psect : BitVec 32} {offset : BitVec 64} :
    stepPlain l m (.staPq psect offset) = match l.partBase m psect.toNat with
    | none => throw (.modulePsect (l.moduleName m) psect.toNat)
    | some base =>
      let rel := ((l.modules[m]?).bind (·.psects[psect.toNat]?)).any fun (p, _) =>
        (l.psects[p]?).any (Obj.has ·.flags Obj.psc.REL)
      push (BitVec.ofNat 64 base + offset, some (if rel then 1 else 0)) := rfl

theorem step_eq : step l m cmd r = match r.dataImport with
    | none => stepPlain l m cmd r
    | some j => (if cmd = .stoQw ∨ cmd = .stoOff then (do
          let _ ← pop l m
          dataRef l m j)
        else throw (.shrData (((l.dataImports[j]?).map (·.name)).getD [])
          (((l.dataImports[j]?).bind fun imp => (l.shared[imp.image]?).map (·.name)).getD [])
          (l.moduleName m)) : Exec Unit) { r with dataImport := none } := by
  unfold step
  simp only [bind, EStateM.bind, get, getThe, MonadStateOf.get, EStateM.get]
  cases r.dataImport with
  | none => rfl
  | some j =>
    simp only
    split_ifs <;> rfl

/-! ## Logs -/

theorem append_singleton_eq {α : Type} {as pre post : List α} {a b : α} (h : as ++ [a] = pre ++ b :: post) :
    (post = [] ∧ as = pre ∧ a = b) ∨ ∃ post', post = post' ++ [a] ∧ as = pre ++ b :: post' := by
  rcases List.eq_nil_or_concat post with rfl | ⟨post', c, rfl⟩
  · obtain ⟨h₁, h₂⟩ := List.append_inj' h rfl
    exact .inl ⟨rfl, h₁, by simpa using h₂⟩
  · rw [List.concat_eq_append, ← List.cons_append, ← List.append_assoc] at h
    obtain ⟨h₁, h₂⟩ := List.append_inj' h rfl
    refine .inr ⟨post', ?_, h₁⟩
    rw [List.concat_eq_append, show a = c by simpa using h₂]

/-! ## Invariants of a run -/

/-- What each thing a command does must keep, for the commands that store some bytes to
    keep `P`.  `J` holds of the data imports. -/
structure Kept (l : Linker) (J : ℕ → Prop) (P : Run → Prop) : Prop where
  own : ∀ r stack loc far, P r → P { r with stack, loc, far }
  imports : ∀ j < l.dataImports.length, J j
  dataImport : ∀ r j, J j → P r → P { r with dataImport := some j }
  write : ∀ r at_ i s bytes, bytes ≠ [] → InSection l at_ bytes.length i s → P r →
    P (r.write at_ i s.start bytes)
  /-- A store of an address. -/
  fixup : ∀ r at_ i s bytes m v, bytes.length = 8 ∨ bytes.length = 4 →
    InSection l at_ bytes.length i s → P r →
    P { r.write at_ i s.start bytes with
      stored := SortedMap.insert at_ ⟨bytes.length, m, v, none⟩
        (r.write at_ i s.start bytes).stored
      log := (r.write at_ i s.start bytes).log ++ [.address at_ bytes.length] }
  /-- A store of what can't move. -/
  stuck : ∀ r at_ i s bytes m v why, bytes ≠ [] → InSection l at_ bytes.length i s → P r →
    P { r.write at_ i s.start bytes with
      stored := SortedMap.insert at_ ⟨bytes.length, m, v, some why⟩
        (r.write at_ i s.start bytes).stored }
  /-- A data import's quadword. -/
  ref : ∀ r at_ i s j, InSection l at_ 8 i s → J j → P r →
    P { r.write at_ i s.start (List.replicate 8 0) with
      dataRefs := r.dataRefs ++ [(at_, j)]
      log := (r.write at_ i s.start (List.replicate 8 0)).log ++ [.ref at_ j] }

namespace Kept

variable {J : ℕ → Prop} {P : Run → Prop}

theorem pop (hP : Kept l J P) : Keeps P (pop l m) := by
  intro r hr
  rw [pop_eq]
  cases r.stack with
  | nil =>
    refine ⟨fun a r' h => ?_, fun e r' h => ?_⟩ <;> cases h
    exact hr
  | cons v stack =>
    refine ⟨fun a r' h => ?_, fun e r' h => ?_⟩ <;> cases h
    exact hP.own r stack r.loc r.far hr

theorem push (hP : Kept l J P) (v : Obj.Value) : Keeps P (push v) :=
  .modify fun r hr => hP.own r _ r.loc r.far hr

theorem symbol (name : Obj.Name) : Keeps P (symbol l name) := by
  unfold Link.symbol
  split
  · exact .pure _
  · split
    · exact .pure _
    · exact .throw _

section
variable (hP : Kept l J P)
include hP

theorem store (hb : bytes ≠ []) : Keeps P (store l m bytes) := by
  refine fun r hr => ⟨fun at_ r' h => ?_, fun e r' h => ?_⟩
  · obtain ⟨loc, i, s, -, -, hin, rfl⟩ := store_ok h
    exact hP.write r at_ i s bytes hb hin hr
  · rw [store_error h]
    exact hr

theorem storeFix {n : ℕ} (hn : bytes.length = n) (hpos : 0 < n) (v : BitVec 64)
    (k : Obj.Weight) (hsize : ∀ size, Obj.need cmd k = .fixup size → n = 8 ∨ n = 4) :
    Keeps P (do
      let at_ ← Link.store l m bytes
      fix m at_ n cmd v k) := by
  subst hn
  have hb : bytes ≠ [] := List.ne_nil_of_length_pos hpos
  refine fun r hr => ⟨fun _ r' h => ?_, fun e r' h => ?_⟩
  · obtain ⟨at_, r₁, hst, hfix⟩ := bind_ok.mp h
    obtain ⟨loc, i, s, -, -, hin, rfl⟩ := store_ok hst
    rw [fix_eq] at hfix
    cases hfix
    cases hneed : Obj.need cmd k with
    | nothing => exact hP.write r at_ i s bytes hb hin hr
    | fixup size => exact hP.fixup r at_ i s bytes m v (hsize size hneed) hin hr
    | impossible => exact hP.stuck r at_ i s bytes m v _ hb hin hr
  · rcases bind_error.mp h with hst | ⟨at_, r₁, hst, hfix⟩
    · rw [store_error hst]
      exact hr
    · rw [fix_eq] at hfix
      cases hfix

theorem dataRef (hj : J j) : Keeps P (dataRef l m j) := by
  refine fun r hr => ⟨fun _ r' h => ?_, fun e r' h => ?_⟩
  · rw [dataRef_eq] at h
    split at h
    · cases h
    · next at_ r₁ hst =>
      obtain ⟨loc, i, s, -, -, hin, rfl⟩ := store_ok hst
      split_ifs at h
      cases h
      exact hP.ref r at_ i s j hin hj hr
  · rw [dataRef_eq] at h
    split at h
    · next e₁ r₁ hst =>
      cases h
      rw [store_error hst]
      exact hr
    · next at_ r₁ hst =>
      split_ifs at h
      cases h
      exact (hP.store (m := m) (by simp) r hr).1 at_ _ hst

theorem storeTimes {data : List (BitVec 8)} (hdata : data ≠ []) (n : ℕ) : Keeps P (storeTimes l m data n) := by
  induction n with
  | zero => exact .pure _
  | succ n ih => exact (hP.store hdata).bind fun _ => ih

theorem storeNarrow {bits : ℕ} (hbits : 0 < bits / 8)
    (hsize : ∀ k size, Obj.need cmd k = .fixup size → bits / 8 = 8 ∨ bits / 8 = 4) :
    Keeps P (storeNarrow l m cmd bits) := by
  unfold Link.storeNarrow
  refine hP.pop.bind fun v => ?_
  simp only
  split
  · exact hP.storeFix (Words.length_le _ _) hbits _ _ (hsize _)
  · exact .bind .get fun r => .throw _

theorem storeQuad (cmd : Obj.Tir) (v : Obj.Value) : Keeps P (storeQuad l m cmd v) :=
  hP.storeFix (Words.length_le _ _) (by omega) _ _ fun _ _ => .inl rfl

theorem storeInsn (cmd : Obj.Tir) (kind : Obj.Kind) (insn : BitVec 32) : Keeps P (storeInsn l m cmd kind insn) := by
  have hfix : ∀ (word : BitVec 32) (v : BitVec 64) (k : Obj.Weight), Keeps P (do
      let at_ ← Link.store l m (Words.le 4 word.toNat)
      fix m at_ 4 cmd v k) := fun word v k =>
    hP.storeFix (Words.length_le _ _) (by omega) _ _ fun _ _ => .inr rfl
  unfold Link.storeInsn
  refine hP.pop.bind fun v => .bind .get fun r => ?_
  simp only
  split
  · split
    · exact .bind (.modify fun r hr => hP.own r r.stack r.loc _ hr) fun _ => hfix _ _ _
    · split
      · exact .throw _
      · exact hfix _ _ _
  · split
    · exact .throw _
    · exact hfix _ _ _

theorem stepOther (cmd : Obj.Tir) : Keeps P (stepOther l m cmd) := by
  unfold Link.stepOther
  split
  · refine .bind .get fun r => ?_
    simp only
    split
    · exact .throw _
    · exact .modify fun r hr => hP.own r _ r.loc r.far hr
  · split
    · exact .throw _
    · exact hP.storeInsn _ _ _

theorem of_dataOf {name : Obj.Name} (h : dataOf l name = some j) : J j :=
  hP.imports j (List.findIdx?_eq_some_iff_getElem.mp h).1

theorem global (cmd : Obj.Tir) (name : Obj.Name) : Keeps P (match dataOf l name with
      | some j => Link.dataRef l m j
      | none => do Link.storeQuad l m cmd (← Link.symbol l name)) := by
  split
  · next j hj => exact hP.dataRef (hP.of_dataOf hj)
  · exact (symbol _).bind fun v => hP.storeQuad _ v

theorem stepPlain (himm : ∀ data, cmd ≠ .stoImm data)
    (himmr : ∀ data, cmd ≠ .stoImmr data) : Keeps P (stepPlain l m cmd) := by
  rcases own_or_other cmd with hown | hother
  · cases hown with
    | staGbl name =>
      rw [stepPlain_staGbl]
      split
      · next j hj =>
        exact (hP.push _).bind fun _ => .modify fun r hr => hP.dataImport r j (hP.of_dataOf hj) hr
      · exact (symbol _).bind fun v => hP.push v
    | stoGbl name | stoCa name => exact hP.global _ name
    | staLw value => exact hP.push _
    | staQw value => exact hP.push _
    | staPq psect offset =>
      rw [stepPlain_staPq]
      split
      · exact .throw _
      · exact hP.push _
    | stoB | stoW =>
      exact hP.storeNarrow (by omega) fun k size h => by cases (Obj.needData_fixup h).2
    | stoLw => exact hP.storeNarrow (by omega) fun _ _ _ => .inr rfl
    | stoQw | stoOff => exact hP.pop.bind fun v => hP.storeQuad _ v
    | stoImmr data => exact absurd rfl (himmr data)
    | stoImm data => exact absurd rfl (himm data)
    | oprNop => exact .pure _
    | ctlSetrb => exact hP.pop.bind fun v => .modify fun r hr => hP.own r r.stack _ r.far hr
    | ctlAugrb offset =>
      refine .bind .get fun r => ?_
      cases r.loc with
      | none => exact .throw _
      | some at_ => exact .modify fun r hr => hP.own r r.stack _ r.far hr
  · rw [hother]
    exact hP.stepOther cmd

end

end Kept

/-- What each thing a command does must keep, for the commands to keep `P`. -/
structure Invariant (l : Linker) (P : Run → Prop) : Prop where
  own : ∀ r stack loc far, P r → P { r with stack, loc, far }
  valid : ∀ r j, P r → r.dataImport = some j → j < l.dataImports.length
  noImport : ∀ r, P r → P { r with dataImport := none }
  dataImport : ∀ r j, j < l.dataImports.length → P r → P { r with dataImport := some j }
  write : ∀ r at_ i s bytes, InSection l at_ bytes.length i s → P r →
    P (r.write at_ i s.start bytes)
  /-- A store of an address. -/
  fixup : ∀ r at_ i s bytes m v, InSection l at_ bytes.length i s → P r →
    P { r.write at_ i s.start bytes with
      stored := SortedMap.insert at_ ⟨bytes.length, m, v, none⟩
        (r.write at_ i s.start bytes).stored
      log := (r.write at_ i s.start bytes).log ++ [.address at_ bytes.length] }
  /-- A store of what can't move. -/
  stuck : ∀ r at_ size m v why, P r →
    P { r with stored := SortedMap.insert at_ ⟨size, m, v, some why⟩ r.stored }
  /-- A data import's quadword. -/
  ref : ∀ r at_ i s j, InSection l at_ 8 i s → j < l.dataImports.length → P r →
    P { r.write at_ i s.start (List.replicate 8 0) with
      dataRefs := r.dataRefs ++ [(at_, j)]
      log := (r.write at_ i s.start (List.replicate 8 0)).log ++ [.ref at_ j] }

namespace Invariant

variable {P : Run → Prop}

section
variable (hP : Invariant l P)
include hP

theorem kept : Kept l (· < l.dataImports.length) P where
  own := hP.own
  imports _ hj := hj
  dataImport := hP.dataImport
  write r at_ i s bytes _ := hP.write r at_ i s bytes
  fixup r at_ i s bytes m v _ := hP.fixup r at_ i s bytes m v
  stuck r at_ i s bytes _ _ _ _ hin h := hP.stuck _ _ _ _ _ _ (hP.write r at_ i s bytes hin h)
  ref := hP.ref

theorem store (bytes : List (BitVec 8)) : Keeps P (store l m bytes) := by
  refine fun r hr => ⟨fun at_ r' h => ?_, fun e r' h => ?_⟩
  · obtain ⟨loc, i, s, -, -, hin, rfl⟩ := store_ok h
    exact hP.write r at_ i s bytes hin hr
  · rw [store_error h]
    exact hr

theorem fixCount (at_ size : ℕ) (v : BitVec 64) (k : Obj.Weight)
    (data : List (BitVec 8)) : Keeps P (fix m at_ size (.stoImmr data) v k) := by
  refine fun r hr => ⟨fun _ r' h => ?_, fun e r' h => ?_⟩
  · rw [fix_eq] at h
    cases h
    cases hn : Obj.need (.stoImmr data) k with
    | nothing => exact hr
    | fixup size => exact absurd hn need_stoImmr
    | impossible => exact hP.stuck r at_ size m v _ hr
  · rw [fix_eq] at h
    cases h

theorem stepPlain (cmd : Obj.Tir) : Keeps P (stepPlain l m cmd) := by
  cases cmd with
  | stoImmr data =>
    refine hP.kept.pop.bind fun v => .bind .get fun r => .bind ?_ fun _ => hP.fixCount _ _ _ _ data
    induction v.1.toNat with
    | zero => exact .pure _
    | succ n ih => exact (hP.store data).bind fun _ => ih
  | stoImm data => exact (hP.store data).bind fun _ => .pure _
  | _ => exact hP.kept.stepPlain nofun nofun

theorem step (cmd : Obj.Tir) : Keeps P (step l m cmd) := by
  intro r hr
  rw [step_eq]
  cases himp : r.dataImport with
  | none => exact hP.stepPlain cmd r hr
  | some j =>
    simp only
    split_ifs
    · exact (hP.kept.pop.bind fun _ => hP.kept.dataRef (hP.valid r j hr himp)) _ (hP.noImport r hr)
    · exact Keeps.throw _ _ (hP.noImport r hr)

theorem steps (cmds : List Obj.Tir) : Keeps P (steps l m cmds) := by
  induction cmds with
  | nil => exact .pure _
  | cons cmd cmds ih => exact (hP.step cmd).bind fun _ => ih

theorem runModule {o : Outcome} (ho : P o.run) (mi : Module × ℕ) : P (runModule l o mi).run := by
  obtain ⟨m, i⟩ := mi
  have hfresh : P o.run.fresh := hP.noImport _ (hP.own o.run [] none o.run.far ho)
  have hsteps := hP.steps (m := i) m.commands o.run.fresh hfresh
  unfold Link.runModule
  simp only
  cases hs : Link.steps l i m.commands o.run.fresh with
  | ok a r => exact hsteps.1 a r hs
  | error e r => exact hsteps.2 e r hs

/-- **A run of all the commands** keeps what each of them keeps. -/
theorem runModules (hblank : P l.blank) : P l.runModules.run := by
  unfold Linker.runModules
  generalize l.modules.zipIdx = mis
  generalize ho : (⟨l.blank, [], []⟩ : Outcome) = o
  have hPo : P o.run := by rw [← ho]; exact hblank
  clear ho
  induction mis generalizing o with
  | nil => exact hPo
  | cons mi mis ih => exact ih _ (hP.runModule hPo mi)

end

end Invariant

end Link
