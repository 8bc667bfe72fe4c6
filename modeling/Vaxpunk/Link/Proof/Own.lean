/-
  What the linker itself writes into an image, veneers and the symbol vector, in two
  layouts of the same modules.
-/
import Vaxpunk.Link.Proof.Twin

namespace Link

open Obj (Relocated)
open Linker Words List Option Option

variable {A B : ℕ} {l l' : Linker} {top : ℕ} {stored : List (ℕ × Stored)}
variable {data data' : List (List (BitVec 8))} {i k : ℕ} {bytes : List (BitVec 8)}
    {c c' c₁ c₁' : Contents} {r r' : Linker × List (List (BitVec 8))}

theorem set_eq_put {off : ℕ} {c : List (BitVec 8)} (h : data[i]? = some c) :
    data.set i (splice c off bytes) = put data i off bytes := by
  obtain ⟨hi, rfl⟩ := List.getElem?_eq_some_iff.mp h
  refine ext_getElem? fun j => ?_
  by_cases hj : j = i
  · subst hj
    rw [getElem?_set_self hi, put_self h]
  · rw [getElem?_set_ne (Ne.symm hj), put_ne hj]

theorem Setting.putBytes (hS : Setting A B l l' top)
    (hm : Mirrors (disp A B) l.sections stored c.1 c'.1) {at_ at' : ℕ} (hat : Shifted A B at_ at')
    {bytes' : List (BitVec 8)} (hpos : 0 < bytes.length) (h : l.putBytes c at_ bytes = some c₁)
    (h' : l'.putBytes c' at' bytes' = some c₁') :
    ∃ (i : ℕ) (s : ImageSection), Site l.sections at_ bytes.length i s ∧
      c₁.1 = put c.1 i (at_ - s.start) bytes ∧ c₁'.1 = put c'.1 i (at_ - s.start) bytes' := by
  unfold Linker.putBytes at h h'
  simp only [bind_eq_bind, bind_eq_some_iff, ite_none_right_eq_some,
    some.injEq] at h h'
  obtain ⟨i, hi, s, hs, b, hb, hlen, rfl⟩ := h
  obtain ⟨i', hi', s', hs', b', hb', -, rfl⟩ := h'
  have hfound : l'.sections.findIdx? (fun s => s.start ≤ at' ∧ at' < s.stop) =
      l.sections.findIdx? fun s => s.start ≤ at_ ∧ at_ < s.stop := by
    refine findIdx?_moved (hS.moved.sections.imp fun s t hst => ?_)
    have h₁ := hst.start
    have h₂ := hst.stop
    unfold Shifted at h₁ h₂ hat
    exact decide_eq_decide.mpr (by omega)
  rw [hi, hi'] at hfound
  obtain rfl : i' = i := some.inj hfound
  obtain ⟨hilen, hin, -⟩ := findIdx?_eq_some_iff_getElem.mp hi
  rw [getElem?_eq_getElem hilen, some.injEq] at hs
  rw [hs, decide_eq_true_eq] at hin
  have hget : l.sections[i']? = some s := by rw [getElem?_eq_getElem hilen, hs]
  obtain ⟨-, hsize⟩ := hm.lengths hget hb hb'
  have hfull : s.cls ≠ .zero := fun hz => by
    rw [if_pos hz] at hsize
    omega
  rw [if_neg hfull] at hsize
  have hst := forall₂_getElem? hS.moved.sections hget hs'
  have hoff : at' - s'.start = at_ - s.start := by
    have h₁ := hst.start
    unfold Shifted at h₁ hat
    omega
  refine ⟨i', s, ⟨hget, hfull, hin.1, by omega⟩, set_eq_put hb, ?_⟩
  rw [hoff]
  exact set_eq_put hb'

theorem Setting.putOwn (hS : Setting A B l l' top)
    (hm : Mirrors (disp A B) l.sections stored c.1 c'.1) {at_ at' : ℕ} (hat : Shifted A B at_ at')
    (hpos : 0 < bytes.length) (hclear : Clear stored at_ bytes.length)
    (h : l.putBytes c at_ bytes = some c₁) (h' : l'.putBytes c' at' bytes = some c₁') :
    Mirrors (disp A B) l.sections stored c₁.1 c₁'.1 := by
  obtain ⟨i, s, hw, hc, hc'⟩ := hS.putBytes hm hat hpos h h'
  rw [hc, hc']
  exact hm.putSame hS.ordered hw (.self hm.apart hclear)

theorem Clear.sub {m : List (ℕ × Stored)} {a n b : ℕ} (h : Clear m a n) (hab : a ≤ b)
    (hk : b + k ≤ a + n) : Clear m b k := by
  intro e he
  have := h e he
  omega

/-! ## Veneers -/

/-- The slots the veneers jump through, if there are any, are in a psect that has a
    place. -/
def SlotsPlaced (l : Linker) : Prop :=
  l.imports ≠ [] → ∀ m ∈ l.module nameVENEERS, PartPlaced l m 1

instance (l : Linker) : Decidable (SlotsPlaced l) :=
  inferInstanceAs (Decidable (l.imports ≠ [] → ∀ m ∈ l.module nameVENEERS, PartPlaced l m 1))

theorem Moved.slot (hl : Moved A B l l') (hp : SlotsPlaced l) (himports : l.imports ≠ []) {a a' : ℕ}
    (h : l.slot i = some a) (h' : l'.slot i = some a') : Shifted A B a a' := by
  unfold Linker.slot Linker.module at h h'
  rw [hl.alike.modules] at h'
  simp only [bind_eq_bind, bind_eq_some_iff, some.injEq] at h h'
  obtain ⟨m, hm, b, hb, rfl⟩ := h
  obtain ⟨m', hm', b', hb', rfl⟩ := h'
  obtain rfl := some.inj (hm.symm.trans hm')
  exact (hl.partBase_placed (hp himports m hm) hb hb').add _

theorem Setting.importVeneer (hS : Setting A B l l' top) (hslots : SlotsPlaced l)
    (himports : l.imports ≠ []) {p p' : Psect} (hp : Shifted A B p.base p'.base)
    (hclear : Clear stored (p.base + VENEER * i) VENEER)
    (hm : Mirrors (disp A B) l.sections stored c.1 c'.1) (h : l.importVeneer p c i = some c₁)
    (h' : l'.importVeneer p' c' i = some c₁') :
    Mirrors (disp A B) l.sections stored c₁.1 c₁'.1 := by
  have hd := disp_dvd hS.low hS.low'
  unfold Linker.importVeneer at h h'
  simp only [bind_eq_bind, bind_eq_some_iff] at h h'
  obtain ⟨slot, hslot, adrp, hadrp, ldr, hldr, h⟩ := h
  obtain ⟨slot', hslot', adrp', hadrp', ldr', hldr', h'⟩ := h'
  have hs := (hS.moved.slot hslots himports hslot hslot').ofNat
  have hat := hp.add (VENEER * i)
  rw [Obj.apply_moves (k := some 1) rfl hd (.address hs) hat.ofNat, hadrp] at hadrp'
  rw [Obj.apply_moves (k := some 1) rfl hd (.address hs) (hat.add 4).ofNat, hldr] at hldr'
  obtain rfl := some.inj hadrp'
  obtain rfl := some.inj hldr'
  exact hS.putOwn hm hat (by simp) (by simpa [VENEER] using hclear) h h'

theorem Setting.farVeneer (hS : Setting A B l l' top) {target : BitVec 64}
    (hclear : ∀ a, l.veneer target = some a → Clear stored a VENEER)
    (hm : Mirrors (disp A B) l.sections stored c.1 c'.1) (h : l.farVeneer c target = some c₁)
    (h' : l'.farVeneer c' target = some c₁') :
    Mirrors (disp A B) l.sections stored c₁.1 c₁'.1 := by
  unfold Linker.farVeneer at h h'
  simp only [bind_eq_bind, bind_eq_some_iff] at h h'
  obtain ⟨a, ha, c₂, hput, h⟩ := h
  obtain ⟨a', ha', c₂', hput', h'⟩ := h'
  have hat := hS.moved.veneer hS.veneers ha ha'
  have hclr := hclear a ha
  have hm₂ := hS.putOwn hm hat (by simp) (hclr.sub le_rfl (by simp [VENEER])) hput hput'
  exact hS.putOwn hm₂ (hat.add 8) (by simp) (hclr.sub (by omega) (by simp [VENEER])) h h'

/-- The veneers are clear of what is noted. -/
def VeneersClear (l : Linker) (stored : List (ℕ × Stored)) : Prop :=
  ∀ p ∈ l.veneers, ∀ q ∈ l.psects[p]?,
    Clear stored q.base (VENEER * (l.imports.length + l.veneered))

instance (l : Linker) (stored : List (ℕ × Stored)) : Decidable (VeneersClear l stored) :=
  inferInstanceAs (Decidable (∀ p ∈ l.veneers, ∀ q ∈ l.psects[p]?, _))

/-- **The veneers**, in both. -/
theorem Setting.putVeneers (hS : Setting A B l l' top) (hslots : SlotsPlaced l)
    (hclear : VeneersClear l stored) (hm : Mirrors (disp A B) l.sections stored c.1 c'.1)
    (h : l.putVeneers c = some c₁) (h' : l'.putVeneers c' = some c₁') :
    Mirrors (disp A B) l.sections stored c₁.1 c₁'.1 := by
  unfold Linker.putVeneers at h h'
  rw [hS.moved.alike.veneers, hS.moved.alike.imports, hS.moved.alike.far,
    hS.moved.alike.veneered] at h'
  cases hv : l.veneers with
  | none =>
    rw [hv] at h h'
    cases h
    cases h'
    exact hm
  | some p =>
    rw [hv] at h h'
    simp only [bind_eq_bind, bind_eq_some_iff] at h h'
    obtain ⟨q, hq, c₂, hfold, h⟩ := h
    obtain ⟨q', hq', c₂', hfold', h'⟩ := h'
    have hclr := hclear p hv q hq
    obtain ⟨hrel, hplaced⟩ := hS.veneers p hv q hq
    have hbase := (forall₂_getElem? hS.moved.psects hq hq').rel hrel hplaced
    have hm₂ : Mirrors (disp A B) l.sections stored c₂.1 c₂'.1 := by
      refine Exec.foldlM_some_paired
        (R := fun c c' : Contents => Mirrors (disp A B) l.sections stored c.1 c'.1)
        (fun i hi s t s' t' hst hs ht => ?_) hm hfold hfold'
      rw [mem_range] at hi
      have himports : l.imports ≠ [] := length_pos_iff.mp (by omega)
      refine hS.importVeneer hslots himports hbase (hclr.sub (by omega) ?_) hst hs ht
      unfold VENEER
      omega
    refine Exec.foldlM_some_paired
      (R := fun c c' : Contents => Mirrors (disp A B) l.sections stored c.1 c'.1)
      (fun target _ s t s' t' hst hs ht => ?_) hm₂ h h'
    refine hS.farVeneer (fun a ha => ?_) hst hs ht
    unfold Linker.veneer at ha
    simp only [bind_eq_bind, bind_eq_some_iff, some.injEq] at ha
    obtain ⟨p₁, hp₁, q₁, hq₁, i, hi, rfl⟩ := ha
    obtain rfl := some.inj (hv.symm.trans hp₁)
    obtain rfl := some.inj (hq.symm.trans hq₁)
    obtain ⟨hilen, -, -⟩ := findIdx?_eq_some_iff_getElem.mp hi
    rw [length_take] at hilen
    refine hclr.sub (by omega) ?_
    unfold VENEER
    omega

/-! ## The symbol vector -/

/-- A symbol that is an address, in a psect that has a place. -/
def EntryPlaced (l : Linker) (name : Obj.Name) : Prop :=
  (∀ d ∈ l.defs.lookup name, d.psect.isSome = true) ∧ SymbolPlaced l name

instance (l : Linker) (name : Obj.Name) : Decidable (EntryPlaced l name) :=
  inferInstanceAs (Decidable (_ ∧ _))

theorem Setting.writeEntry (hS : Setting A B l l' top) {base base' module : ℕ}
    (hbase : Shifted A B base base') {st st' : List (ℕ × Stored)} {log log' : List Event} {name : Obj.Name} {n : ℕ}
    (hentry : EntryPlaced l name) (hm : Mirrors (disp A B) l.sections st data data')
    (hclear : Clear st (base + 8 * k) (8 * (n + 1)))
    (h : Linker.writeEntry base module ({ l with stored := st, log }, data) (name, k) = some r)
    (h' : Linker.writeEntry base' module ({ l' with stored := st', log := log' }, data') (name, k) =
      some r') :
    (∃ st log, r.1 = { l with stored := st, log }) ∧
    (∃ st log, r'.1 = { l' with stored := st, log }) ∧
    Mirrors (disp A B) l.sections r.1.stored r.2 r'.2 ∧
    Clear r.1.stored (base + 8 * (k + 1)) (8 * n) := by
  unfold Linker.writeEntry at h h'
  simp only [bind_eq_bind, bind_eq_some_iff, some.injEq] at h h'
  obtain ⟨v, hv, ⟨data₁, log₁⟩, hput, rfl⟩ := h
  obtain ⟨v', hv', ⟨data₁', log₁'⟩, hput', rfl⟩ := h'
  refine ⟨⟨_, _, rfl⟩, ⟨_, _, rfl⟩, ?_, ?_⟩
  · have hat := hbase.add (8 * k)
    obtain ⟨i, s, hw, hc, hc'⟩ :=
      hS.putBytes (show Mirrors _ _ _ (data, log).1 (data', log').1 from hm) hat (by simp) hput hput'
    simp only at hc hc' ⊢
    rw [hc, hc']
    refine hm.putNoted hS.ordered hw (by simp) (by simp)
      (.self hm.apart (hclear.sub le_rfl ?_)) (by simp) fun _ => ?_
    · rw [length_le]
      omega
    · -- the entry's symbol is an address
      cases hd : l.defs.lookup name with
      | none =>
        have : l.value name = none := by
          unfold Linker.value
          rw [hd]
          rfl
        rw [show l.value name = some v from hv] at this
        cases this
      | some d =>
        have hvv := hS.moved.value hentry.2 hd hv hv'
        rw [if_pos (hentry.1 d hd)] at hvv
        rw [hvv]
        exact Obj.relocated_quad v
  · intro e he
    rcases (SortedMap.mem_insert hm.apart.sorted).mp he with rfl | ⟨he, -⟩
    · left
      simp only
      omega
    · have := hclear e he
      omega

theorem Setting.writeEntries (hS : Setting A B l l' top) {base base' module : ℕ}
    (hbase : Shifted A B base base') {names : List Obj.Name}
    (hentries : ∀ name ∈ names, EntryPlaced l name) {st st' : List (ℕ × Stored)} {log log' : List Event}
    (hm : Mirrors (disp A B) l.sections st data data') (hclear : Clear st (base + 8 * k) (8 * names.length))
    (h : (names.zipIdx k).foldlM (Linker.writeEntry base module) ({ l with stored := st, log }, data) =
      some r)
    (h' : (names.zipIdx k).foldlM (Linker.writeEntry base' module)
      ({ l' with stored := st', log := log' }, data') = some r') :
    (∃ st log, r.1 = { l with stored := st, log }) ∧
    (∃ st log, r'.1 = { l' with stored := st, log }) ∧
    Mirrors (disp A B) l.sections r.1.stored r.2 r'.2 := by
  induction names generalizing k st st' log log' data data' with
  | nil =>
    cases h
    cases h'
    exact ⟨⟨_, _, rfl⟩, ⟨_, _, rfl⟩, hm⟩
  | cons name names ih =>
    obtain ⟨hentry, hentries⟩ := forall_mem_cons.mp hentries
    rw [zipIdx_cons, foldlM_cons] at h h'
    obtain ⟨⟨l₁, data₁⟩, hw, h⟩ := bind_eq_some_iff.mp h
    obtain ⟨⟨l₁', data₁'⟩, hw', h'⟩ := bind_eq_some_iff.mp h'
    obtain ⟨⟨st₁, log₁, rfl⟩, ⟨st₁', log₁', rfl⟩, hm₁, hclear₁⟩ :=
      hS.writeEntry hbase hentry hm hclear hw hw'
    exact ih hentries hm₁ hclear₁ h h'

/-- The symbol vector is clear of what is noted. -/
def VectorClear (l : Linker) (stored : List (ℕ × Stored)) (n : ℕ) : Prop :=
  ∀ p ∈ l.vector, ∀ q ∈ l.psects[p]?, Clear stored q.base (8 * n)

instance (l : Linker) (stored : List (ℕ × Stored)) (n : ℕ) : Decidable (VectorClear l stored n) :=
  inferInstanceAs (Decidable (∀ p ∈ l.vector, ∀ q ∈ l.psects[p]?, _))

/-- **The symbol vector**, in both. -/
theorem Setting.writeVector (hS : Setting A B l l' top) {names : List (Obj.Name × Bool)}
    (hvector : names ≠ [] → OwnPlaced l l.vector) (hentries : ∀ x ∈ names, EntryPlaced l x.1)
    (hclear : VectorClear l l.stored names.length)
    (hm : Mirrors (disp A B) l.sections l.stored data data') (h : l.writeVector names data = some r)
    (h' : l'.writeVector names data' = some r') :
    (∃ st log, r.1 = { l with stored := st, log }) ∧
    (∃ st log, r'.1 = { l' with stored := st, log }) ∧
    Mirrors (disp A B) l.sections r.1.stored r.2 r'.2 := by
  unfold Linker.writeVector Linker.module at h h'
  rw [hS.moved.alike.vector, hS.moved.alike.modules] at h'
  simp only [bind_eq_bind, bind_eq_some_iff] at h h'
  obtain ⟨p, hp, q, hq, m, hmod, h⟩ := h
  obtain ⟨p', hp', q', hq', m', hmod', h'⟩ := h'
  obtain rfl := some.inj (hp.symm.trans hp')
  obtain rfl := some.inj (hmod.symm.trans hmod')
  by_cases hnil : names = []
  · subst hnil
    cases h
    cases h'
    exact ⟨⟨_, _, rfl⟩, ⟨_, _, rfl⟩, hm⟩
  obtain ⟨hrel, hplaced⟩ := hvector hnil p hp q hq
  have hbase := (forall₂_getElem? hS.moved.psects hq hq').rel hrel hplaced
  refine hS.writeEntries hbase (fun name hname => ?_) hm ?_ h h'
  · obtain ⟨x, hx, rfl⟩ := mem_map.mp hname
    exact hentries x hx
  · rw [length_map]
    exact hclear p hp q hq

end Link
