/-
  A link that ends well, part by part.
-/
import Vaxpunk.Link.Proof.Run

namespace Link

open Exec (bind_eq_ok)

variable {fuel : ℕ} {inputs : List (Obj.Name × Input)} {opts : Options} {linked : Linked}
  {l l' : Linker} {base : ℕ} {data data' : List (List (BitVec 8))} {errors : List Msg}

theorem unwrap_eq_ok {α : Type} {x : Option α} {a : α} : unwrap x = .ok a ↔ x = some a := by
  cases x <;> simp [unwrap]

theorem one_eq_ok {α : Type} {x : Except Msg α} {a : α} : one x = .ok a ↔ x = .ok a := by
  cases x <;> simp [one, Except.mapError]

theorem collect_ok (h : collect inputs opts = .ok l) :
    ∃ l₁ l₂ l₃,
      inputs.foldlM (fun (l : Linker) (x : Obj.Name × Input) => one (l.input x.1 x.2)) Linker.new =
        .ok l₁ ∧
      Linker.resolve { l₁ with relocatable := opts.relocatable || opts.shareable.isSome } = .ok l₂ ∧
      (l₃ = l₂ ∨ l₂.addVeneers = .ok l₃) ∧
      (l = l₃ ∨ ∃ names, opts.shareable = some names ∧ l₃.addVector names = .ok l) := by
  unfold collect at h
  obtain ⟨l₁, hin, h⟩ := bind_eq_ok.mp h
  obtain ⟨l₂, hres, h⟩ := bind_eq_ok.mp h
  simp only at h
  cases hs : opts.shareable with
  | none =>
    simp only [hs] at h hres
    split_ifs at h
    · cases h
      exact ⟨l₁, _, _, hin, hres, .inl rfl, .inl rfl⟩
    · obtain ⟨l₃, hven, h⟩ := bind_eq_ok.mp h
      cases h
      exact ⟨l₁, l₂, _, hin, hres, .inr (one_eq_ok.mp hven), .inl rfl⟩
  | some names =>
    simp only [hs] at h hres
    split_ifs at h
    · exact ⟨l₁, l₂, l₂, hin, hres, .inl rfl, .inr ⟨names, rfl, h⟩⟩
    · obtain ⟨l₃, hven, h⟩ := bind_eq_ok.mp h
      exact ⟨l₁, l₂, l₃, hin, hres, .inr (one_eq_ok.mp hven), .inr ⟨names, rfl, h⟩⟩

theorem pass_ok {errors : List Msg} (h : pass base l = .ok (l', data, errors)) :
    ∃ l₁, l.layout base = .ok l₁ ∧ l₁.execute = some (l', data, errors) := by
  obtain ⟨l₁, hlay, hexec⟩ := bind_eq_ok.mp h
  exact ⟨l₁, one_eq_ok.mp hlay, unwrap_eq_ok.mp hexec⟩

theorem passes_ok (h : passes base fuel l = some (.ok (l', data, errors))) :
    ∃ l₁, pass base l₁ = .ok (l', data, errors) ∧ l'.far.length ≤ l'.veneered := by
  induction fuel generalizing l with
  | zero => cases h
  | succ fuel ih =>
    unfold passes at h
    split at h
    · cases h
    · next l₂ data₂ errors₂ hpass =>
      split_ifs at h with hmore
      · split at h
        · cases h
        · exact ih h
      · cases h
        exact ⟨l, hpass, by omega⟩

theorem execute_ok (h : l.execute = some (l', data, errors)) :
    errors = l.runModules.errors ∧ ∃ log,
      Linker.putVeneers { l with
          warnings := l.warnings ++ l.runModules.warnings
          stored := l.runModules.run.stored
          dataRefs := l.runModules.run.dataRefs }
        (l.runModules.run.data, l.runModules.run.log) = some (data, log) ∧
      l' = { l with
        warnings := l.warnings ++ l.runModules.warnings
        stored := l.runModules.run.stored
        dataRefs := l.runModules.run.dataRefs
        far := l.runModules.run.far.foldl (fun far t => addFar t far) l.far
        log } := by
  unfold Linker.execute at h
  simp only [Option.bind_eq_bind, Option.bind_eq_some_iff, Option.some.injEq, Prod.mk.injEq] at h
  obtain ⟨⟨data₁, log⟩, hput, hl, rfl, rfl⟩ := h
  exact ⟨rfl, log, hput, hl.symm⟩

theorem link_ok (h : link fuel inputs opts = some (.ok linked)) :
    ∃ l₀ l data errors, collect inputs opts = .ok l₀ ∧
      passes opts.base fuel l₀ = some (.ok (l, data, errors)) ∧
      finish opts l data errors = .ok linked := by
  unfold link at h
  split at h
  · cases h
  · next l₀ hcol =>
    rw [Option.map_eq_some_iff] at h
    obtain ⟨r, hpass, hfin⟩ := h
    obtain ⟨⟨l, data, errors⟩, rfl, hfin⟩ := bind_eq_ok.mp hfin
    exact ⟨l₀, l, data, errors, hcol, hpass, hfin⟩

theorem finish_ok (h : finish opts l data errors = .ok linked) :
    ∃ l₁ data₁ fixups transfer noTransfer vector shareables warnings,
      withVector opts l data = .ok (l₁, data₁) ∧ errorsOf opts l₁ errors = [] ∧
      fixupsOf opts l₁ = .ok fixups ∧ Link.transfer opts l₁ = .ok (transfer, noTransfer) ∧
      vectorOf opts l₁ = some vector ∧ l₁.shlList = some shareables ∧
      linked = ⟨⟨opts.name.take 39, l₁.ident, opts.linkTime, transfer, l₁.imageSections data₁,
        fixups, shareables, vector⟩, { l₁ with warnings }⟩ := by
  obtain ⟨⟨l₁, data₁⟩, hvec, h⟩ := bind_eq_ok.mp h
  simp only at h
  split_ifs at h with herr
  unfold image at h
  obtain ⟨fixups, hfix, h⟩ := bind_eq_ok.mp h
  obtain ⟨⟨transfer, noTransfer⟩, htfr, h⟩ := bind_eq_ok.mp h
  obtain ⟨vector, hvector, h⟩ := bind_eq_ok.mp h
  obtain ⟨shareables, hshl, h⟩ := bind_eq_ok.mp h
  cases h
  exact ⟨l₁, data₁, fixups, transfer, noTransfer, vector, shareables, _, hvec,
    List.isEmpty_iff.mp herr, hfix, htfr, unwrap_eq_ok.mp hvector, unwrap_eq_ok.mp hshl, rfl⟩

theorem linked_of {ε α β : Type} {x : Option (Except ε α)} {f : α → β} {b : β}
    (h : (x.map fun y => y.toOption.map f) = some (some b)) : ∃ a, x = some (.ok a) ∧ f a = b := by
  obtain ⟨y, rfl, hy⟩ := Option.map_eq_some_iff.mp h
  cases y with
  | error e => cases hy
  | ok a => exact ⟨a, rfl, Option.some.inj hy⟩

/-- An image that may move, linked at `base`. -/
def optsAt (base : ℕ) : Options := ⟨base, [], none, 0, true, none⟩

end Link
