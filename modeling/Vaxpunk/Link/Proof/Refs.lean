/-
  The fixups of shareable images' data.

  Every reference of a module to such data is a store of zeros with a note of where
  and to what (`Event.ref`), and each note becomes a fixup.  Later stores do not take
  a note back.

  * `Noted`: the notes of a run are its references, each right after its store.
  * `dataFixups_iff`: the fixups are those of the references still there, each once,
    exactly when nothing was stored over a reference and none is 4 GB or more into
    the image.
-/
import Vaxpunk.Link.Proof.Whole

namespace Link

open List Option

variable {α : Type} {at_ j : ℕ} {l : Linker}

/-! ## Notes -/

/-- A reference to data import `j`, in a log. -/
def Event.ref? : Event → Option (ℕ × ℕ)
  | .ref at_ j => some (at_, j)
  | _ => none

/-- A log and the references noted with it: each right after the store of its zeros,
    from `low` up and to one of `n` imports. -/
inductive Noted (low n : ℕ) : List Event → List (ℕ × ℕ) → Prop
  | nil : Noted low n [] []
  | other {log : List Event} {refs : List (ℕ × ℕ)} {e : Event} (h : Noted low n log refs) (he : e.ref? = none) :
      Noted low n (log ++ [e]) refs
  | ref {log : List Event} {refs : List (ℕ × ℕ)} {at_ j : ℕ} (h : Noted low n log refs)
      (hlow : low ≤ at_) (hj : j < n) :
      Noted low n (log ++ [.store at_ 8] ++ [.ref at_ j]) (refs ++ [(at_, j)])

/-- A store of `size` bytes at `a` changes the quadword at `at_`. -/
def Touches (at_ a size : ℕ) : Prop := max a at_ < min (a + size) (at_ + 8)

/-- Nothing in `post` is stored over the quadword at `at_`. -/
def Survives (at_ : ℕ) (post : List Event) : Prop :=
  ∀ a size, .store a size ∈ post → ¬ Touches at_ a size

section
variable {low n : ℕ} {log : List Event} {refs : List (ℕ × ℕ)}

theorem Noted.refs_eq (h : Noted low n log refs) : refs = log.filterMap Event.ref? := by
  induction h with
  | nil => rfl
  | other _ he ih => simp [ih, he]
  | ref _ _ _ ih => simp [ih, Event.ref?, filterMap_cons]

theorem Noted.after_store (h : Noted low n log refs) {pre post : List Event}
    (hlog : log = pre ++ .ref at_ j :: post) :
    low ≤ at_ ∧ j < n ∧ ∃ pre', pre = pre' ++ [.store at_ 8] := by
  induction h generalizing pre post with
  | nil => simp at hlog
  | other _ he ih =>
    rcases append_singleton_eq hlog with ⟨-, -, rfl⟩ | ⟨post', -, hlog'⟩
    · cases he
    · exact ih hlog'
  | ref _ hlow hj ih =>
    rcases append_singleton_eq hlog with ⟨-, hpre, heq⟩ | ⟨post', -, hlog'⟩
    · cases heq
      exact ⟨hlow, hj, _, hpre.symm⟩
    · rcases append_singleton_eq hlog' with ⟨-, -, hne⟩ | ⟨post₂, -, hlog₂⟩
      · cases hne
      · exact ih hlog₂

end

/-- What a run of commands keeps. -/
def Notes (l : Linker) (r : Run) : Prop :=
  Noted l.start l.dataImports.length r.log r.dataRefs ∧
    ∀ j, r.dataImport = some j → j < l.dataImports.length

theorem notes_invariant (hlow : ∀ s ∈ l.sections, l.start ≤ s.start) :
    Invariant l (Notes l) where
  own _ _ _ _ h := h
  valid _ _ h := h.2 _
  noImport r h := ⟨h.1, fun j hj => by cases hj⟩
  dataImport r j hj h := ⟨h.1, fun j' hj' => by cases hj'; exact hj⟩
  write r at_ i s bytes _ h := ⟨h.1.other rfl, h.2⟩
  fixup r at_ i s bytes m v _ h := ⟨(h.1.other rfl).other rfl, h.2⟩
  stuck _ _ _ _ _ _ h := h
  ref r at_ i s j hin hj h :=
    ⟨h.1.ref ((hlow s (mem_of_getElem? hin.get)).trans hin.low) hj, h.2⟩

/-! ## The linker's own bytes are stores too -/

section
variable {l l' : Linker} {low n : ℕ} {refs : List (ℕ × ℕ)}

theorem Noted.putBytes {c c' : Linker.Contents} {bytes : List (BitVec 8)}
    (hc : Noted low n c.2 refs) (h : l.putBytes c at_ bytes = some c') : Noted low n c'.2 refs := by
  unfold Linker.putBytes at h
  simp only [bind_eq_bind, bind_eq_some_iff, ite_none_right_eq_some,
    Option.some.injEq] at h
  obtain ⟨i, -, s, -, d, -, -, rfl⟩ := h
  exact hc.other rfl

theorem Noted.putVeneers {c c' : Linker.Contents} (hc : Noted low n c.2 refs)
    (h : l.putVeneers c = some c') : Noted low n c'.2 refs := by
  unfold Linker.putVeneers at h
  split at h
  · cases h
    exact hc
  · simp only [bind_eq_bind, bind_eq_some_iff] at h
    obtain ⟨p, -, c₁, himp, hfar⟩ := h
    have hc₁ : Noted low n c₁.2 refs := by
      refine Exec.foldlM_some_keeps (P := fun c => Noted low n c.2 refs) ?_ hc himp
      intro c i c' hc hi
      unfold Linker.importVeneer at hi
      simp only [bind_eq_bind, bind_eq_some_iff] at hi
      obtain ⟨slot, -, adrp, -, ldr, -, hput⟩ := hi
      exact hc.putBytes hput
    refine Exec.foldlM_some_keeps (P := fun c => Noted low n c.2 refs) ?_ hc₁ hfar
    intro c i c' hc hi
    unfold Linker.farVeneer at hi
    simp only [bind_eq_bind, bind_eq_some_iff] at hi
    obtain ⟨at_, -, c₂, hput, hput₂⟩ := hi
    exact (hc.putBytes hput).putBytes hput₂

/-- What is noted of the image so far. -/
def Linker.Noted (l : Linker) : Prop := Link.Noted l.start l.dataImports.length l.log l.dataRefs

theorem execute_noted {data : List (List (BitVec 8))} {errors : List Msg}
    (hlow : ∀ s ∈ l.sections, l.start ≤ s.start) (h : l.execute = some (l', data, errors)) :
    l'.Noted := by
  obtain ⟨-, log, hput, rfl⟩ := execute_ok h
  have hrun : Notes l l.runModules.run :=
    (notes_invariant hlow).runModules ⟨.nil, fun j hj => by cases hj⟩
  exact Noted.putVeneers (c := (l.runModules.run.data, l.runModules.run.log)) hrun.1 hput

theorem writeVector_noted {names : List (Obj.Name × Bool)} {data data' : List (List (BitVec 8))}
    (hl : l.Noted) (h : l.writeVector names data = some (l', data')) : l'.Noted := by
  unfold Linker.writeVector at h
  simp only [bind_eq_bind, bind_eq_some_iff] at h
  obtain ⟨v, -, p, -, module, -, hfold⟩ := h
  refine Exec.foldlM_some_keeps (P := fun ld : Linker × _ => ld.1.Noted) ?_ hl hfold
  rintro ⟨l, data⟩ ni ⟨l', data'⟩ hl hw
  unfold Linker.writeEntry at hw
  simp only [bind_eq_bind, bind_eq_some_iff, Option.some.injEq, Prod.mk.injEq] at hw
  obtain ⟨value, -, ⟨data₁, log⟩, hput, rfl, -⟩ := hw
  exact Noted.putBytes (c := (data, l.log)) hl hput

end

theorem link_noted {fuel : ℕ} {inputs : List (Obj.Name × Input)} {opts : Options}
    {linked : Linked} (h : link fuel inputs opts = some (.ok linked)) :
    linked.linker.Noted ∧ linked.linker.shlList = some linked.image.shareables := by
  obtain ⟨l₀, l, data, errors, -, hpasses, hfin⟩ := link_ok h
  obtain ⟨l₁, hpass, -⟩ := passes_ok hpasses
  obtain ⟨l₂, hlay, hexec⟩ := pass_ok hpass
  obtain ⟨at_, hord⟩ := layout_ordered hlay
  have hl : l.Noted := execute_noted (fun s hs => hord.head_le hs) hexec
  obtain ⟨l₃, data₃, fixups, transfer, noTransfer, vector, shareables, warnings, hvec, -, -, -, -,
    hshl, rfl⟩ := finish_ok hfin
  have hl₃ : l₃.Noted := by
    unfold withVector at hvec
    split at hvec
    · exact writeVector_noted hl (unwrap_eq_ok.mp hvec)
    · cases hvec
      exact hl
  exact ⟨hl₃, hshl⟩

/-! ## The fixups -/

/-- The fixup of a reference to `imp` in the quadword at `at_`. -/
def Linker.fixupOf (l : Linker) (at_ : ℕ) (imp : Import) : BitVec 32 × BitVec 32 :=
  (BitVec.ofNat 32 (at_ - l.start), BitVec.ofNat 32 (8 * imp.entry))

/-- Each data fixup is at a quadword whose last store was the reference it is of,
    and each reference still there has its fixup once. -/
def RefsRight (l : Linker) : Prop :=
  (∀ i, ∀ q ∈ l.dataQuads i, ∃ pre at_ j post imp,
    l.log = pre ++ .ref at_ j :: post ∧ Survives at_ post ∧ l.dataImports[j]? = some imp ∧
    imp.image = i ∧ q = l.fixupOf at_ imp ∧ q.1.toNat = at_ - l.start) ∧
  ∀ pre at_ j post imp, l.log = pre ++ .ref at_ j :: post → Survives at_ post →
    l.dataImports[j]? = some imp →
    ∃ q ∈ l.dataQuads imp.image, q = l.fixupOf at_ imp ∧ q.1.toNat = at_ - l.start ∧
      (l.dataQuads imp.image).count q = 1

/-- Nothing is stored over a reference, and none is 4 GB or more into the image. -/
def Untouched (l : Linker) : Prop :=
  ∀ pre at_ j post, l.log = pre ++ .ref at_ j :: post →
    Survives at_ post ∧ at_ - l.start < 2 ^ 32

theorem pairwise_of_split {R : α → α → Prop} {as : List α}
    (h : ∀ pre a post, as = pre ++ a :: post → ∀ b ∈ post, R a b) : as.Pairwise R := by
  induction as with
  | nil => exact .nil
  | cons a as ih =>
    refine pairwise_cons.mpr ⟨h [] a as rfl, ih fun pre b post hsplit => ?_⟩
    exact h (a :: pre) b post (by rw [hsplit, cons_append])

theorem split_cases {pre pre' post post' : List α} {a a' : α} (h : pre ++ a :: post = pre' ++ a' :: post') :
    a ∈ pre' ∨ a ∈ post' ∨ (pre = pre' ∧ a = a' ∧ post = post') := by
  rcases append_eq_append_iff.mp h with ⟨as, rfl, has⟩ | ⟨bs, rfl, hbs⟩
  · cases as with
    | nil =>
      obtain ⟨rfl, rfl⟩ := cons.inj has
      exact .inr (.inr ⟨(append_nil _).symm, rfl, rfl⟩)
    | cons c as =>
      obtain ⟨rfl, -⟩ := cons.inj has
      exact .inl (by simp)
  · cases bs with
    | nil =>
      obtain ⟨rfl, rfl⟩ := cons.inj hbs
      exact .inr (.inr ⟨append_nil _, rfl, rfl⟩)
    | cons c bs =>
      obtain ⟨-, rfl⟩ := cons.inj hbs
      exact .inr (.inl (by simp))

/-- The fixup in image `i` of a reference. -/
def Linker.quad? (l : Linker) (i : ℕ) : ℕ × ℕ → Option (BitVec 32 × BitVec 32) := fun (at_, j) =>
  match l.dataImports[j]? with
  | some imp => if imp.image = i then some (l.fixupOf at_ imp) else none
  | none => none

theorem quad?_of {imp : Import} (h : l.dataImports[j]? = some imp) :
    l.quad? imp.image (at_, j) = some (l.fixupOf at_ imp) := by
  simp only [Linker.quad?, h, if_true]

theorem mem_dataQuads {i : ℕ} {q : BitVec 32 × BitVec 32} :
    q ∈ l.dataQuads i ↔ ∃ at_ j imp, (at_, j) ∈ l.dataRefs ∧ l.dataImports[j]? = some imp ∧
      imp.image = i ∧ q = l.fixupOf at_ imp := by
  rw [Linker.dataQuads, mem_filterMap]
  constructor
  · rintro ⟨⟨at_, j⟩, hmem, hq⟩
    simp only at hq
    split at hq
    · next imp himp =>
      split_ifs at hq with hi
      exact ⟨at_, j, imp, hmem, himp, hi, (Option.some.inj hq).symm⟩
    · cases hq
  · rintro ⟨at_, j, imp, hmem, himp, hi, rfl⟩
    refine ⟨(at_, j), hmem, ?_⟩
    simp only [himp, hi, if_true]
    rfl

section
variable {l : Linker}

theorem Linker.Noted.mem_dataRefs (hl : l.Noted) :
    (at_, j) ∈ l.dataRefs ↔ ∃ pre post, l.log = pre ++ .ref at_ j :: post := by
  rw [hl.refs_eq, mem_filterMap]
  constructor
  · rintro ⟨e, he, heq⟩
    cases e with
    | store a size | address a size => cases heq
    | ref a k =>
      cases heq
      exact append_of_mem he
  · rintro ⟨pre, post, hlog⟩
    exact ⟨.ref at_ j, by simp [hlog], rfl⟩

theorem Linker.Noted.pairwise (hl : l.Noted) (hu : Untouched l) :
    l.dataRefs.Pairwise fun x y => x.1 ≠ y.1 := by
  rw [hl.refs_eq, pairwise_filterMap]
  refine pairwise_of_split fun pre e post hlog e' he' x hx y hy hxy => ?_
  cases e with
  | store a size | address a size => cases hx
  | ref at_ j =>
    cases e' with
    | store a size | address a size => cases hy
    | ref at' j' =>
      cases hx
      cases hy
      obtain rfl : at_ = at' := hxy
      -- the second one's zeros were stored over the first
      obtain ⟨post₁, post₂, rfl⟩ := append_of_mem he'
      have hlog' : l.log = (pre ++ .ref at_ j :: post₁) ++ .ref at_ j' :: post₂ := by
        rw [hlog, append_assoc, cons_append]
      obtain ⟨-, -, pre', hpre'⟩ := Link.Noted.after_store hl hlog'
      rcases append_singleton_eq hpre'.symm with ⟨-, -, hne⟩ | ⟨post', rfl, -⟩
      · cases hne
      · refine (hu pre at_ j _ hlog).1 at_ 8 (by simp) ?_
        unfold Touches
        omega

theorem Linker.Noted.fixup_inj (hl : l.Noted) (hu : Untouched l) {x y : ℕ × ℕ}
    (hx : x ∈ l.dataRefs) (hy : y ∈ l.dataRefs) (hxy : x.1 ≠ y.1) :
    BitVec.ofNat 32 (x.1 - l.start) ≠ BitVec.ofNat 32 (y.1 - l.start) := by
  obtain ⟨pre, post, hlogx⟩ := hl.mem_dataRefs.mp hx
  obtain ⟨pre', post', hlogy⟩ := hl.mem_dataRefs.mp hy
  have hlowx := (Link.Noted.after_store hl hlogx).1
  have hlowy := (Link.Noted.after_store hl hlogy).1
  have hbx := (hu _ _ _ _ hlogx).2
  have hby := (hu _ _ _ _ hlogy).2
  intro heq
  have hnat := congrArg BitVec.toNat heq
  rw [BitVec.toNat_ofNat, BitVec.toNat_ofNat, Nat.mod_eq_of_lt hbx, Nat.mod_eq_of_lt hby] at hnat
  omega

theorem Linker.Noted.nodup (hl : l.Noted) (hu : Untouched l) (i : ℕ) : (l.dataQuads i).Nodup := by
  rw [Linker.dataQuads, nodup_iff_pairwise_ne, pairwise_filterMap]
  refine (hl.pairwise hu).imp_of_mem fun {x y} hx hy hxy q hq q' hq' hqq => ?_
  subst hqq
  have hinj := hl.fixup_inj hu hx hy hxy
  obtain ⟨at_, j⟩ := x
  obtain ⟨at', j'⟩ := y
  simp only at hq hq'
  split at hq
  · split_ifs at hq
    split at hq'
    · split_ifs at hq'
      rw [Option.some.injEq] at hq hq'
      exact hinj (congrArg Prod.fst (hq.trans hq'.symm))
    · cases hq'
  · cases hq

theorem Linker.Noted.right_of_untouched (hl : l.Noted) (hu : Untouched l) : RefsRight l := by
  have hoff : ∀ {pre at_ j post} imp, l.log = pre ++ .ref at_ j :: post →
      (l.fixupOf at_ imp).1.toNat = at_ - l.start := by
    intro pre at_ j post imp hlog
    rw [Linker.fixupOf, BitVec.toNat_ofNat, Nat.mod_eq_of_lt (hu _ _ _ _ hlog).2]
  constructor
  · intro i q hq
    obtain ⟨at_, j, imp, hmem, himp, hi, rfl⟩ := mem_dataQuads.mp hq
    obtain ⟨pre, post, hlog⟩ := hl.mem_dataRefs.mp hmem
    exact ⟨pre, at_, j, post, imp, hlog, (hu _ _ _ _ hlog).1, himp, hi, rfl, hoff imp hlog⟩
  · intro pre at_ j post imp hlog _ himp
    have hq : l.fixupOf at_ imp ∈ l.dataQuads imp.image :=
      mem_dataQuads.mpr ⟨at_, j, imp, hl.mem_dataRefs.mpr ⟨pre, post, hlog⟩, himp, rfl, rfl⟩
    exact ⟨_, hq, rfl, hoff imp hlog, count_eq_one_of_mem (hl.nodup hu _) hq⟩

theorem Linker.Noted.untouched_of_right (hl : l.Noted) (hr : RefsRight l) : Untouched l := by
  intro pre at_ j post hlog
  obtain ⟨hlow, hj, -⟩ := Link.Noted.after_store hl hlog
  obtain ⟨imp, himp⟩ : ∃ imp, l.dataImports[j]? = some imp := ⟨_, getElem?_eq_getElem hj⟩
  have hq : l.fixupOf at_ imp ∈ l.dataQuads imp.image :=
    mem_dataQuads.mpr ⟨at_, j, imp, hl.mem_dataRefs.mpr ⟨pre, post, hlog⟩, himp, rfl, rfl⟩
  -- the reference its fixup is right for
  obtain ⟨pre₂, at₂, j₂, post₂, imp₂, hlog₂, hsurv₂, himp₂, himage, hq₂, hoff₂⟩ :=
    hr.1 imp.image _ hq
  obtain ⟨q, -, rfl, -, hcount⟩ := hr.2 pre₂ at₂ j₂ post₂ imp₂ hlog₂ hsurv₂ himp₂
  have hquads : l.dataQuads imp₂.image =
      (pre₂.filterMap Event.ref?).filterMap (l.quad? imp₂.image) ++
        l.fixupOf at₂ imp₂ :: (post₂.filterMap Event.ref?).filterMap (l.quad? imp₂.image) := by
    have hcons : (Event.ref at₂ j₂ :: post₂).filterMap Event.ref? =
        (at₂, j₂) :: post₂.filterMap Event.ref? := rfl
    change l.dataRefs.filterMap (l.quad? imp₂.image) = _
    rw [hl.refs_eq, hlog₂, filterMap_append, filterMap_append, hcons,
      filterMap_cons_some (quad?_of himp₂)]
  rw [hquads, count_append, count_cons_self] at hcount
  -- so it is the reference itself: another one would make a second fixup
  have hmem : ∀ es : List Event, .ref at_ j ∈ es →
      l.fixupOf at₂ imp₂ ∈ (es.filterMap Event.ref?).filterMap (l.quad? imp₂.image) := by
    intro es hes
    refine mem_filterMap.mpr ⟨(at_, j), mem_filterMap.mpr ⟨_, hes, rfl⟩, ?_⟩
    rw [himage, ← hq₂]
    exact quad?_of himp
  rcases split_cases (hlog.symm.trans hlog₂) with hin | hin | ⟨rfl, heq, rfl⟩
  · have := count_pos_iff.mpr (hmem _ hin)
    omega
  · have := count_pos_iff.mpr (hmem _ hin)
    omega
  · cases heq
    refine ⟨hsurv₂, ?_⟩
    rw [← hoff₂]
    exact BitVec.isLt _

end

/-- **The data fixups of a linked image** are right exactly when no store is over a
    reference and none is 4 GB or more into the image. -/
theorem dataFixups_iff {fuel : ℕ} {inputs : List (Obj.Name × Input)} {opts : Options}
    {linked : Linked} (h : link fuel inputs opts = some (.ok linked)) :
    linked.linker.shlList = some linked.image.shareables ∧
      (RefsRight linked.linker ↔ Untouched linked.linker) := by
  obtain ⟨hl, hshl⟩ := link_noted h
  exact ⟨hshl, hl.untouched_of_right, hl.right_of_untouched⟩

/-- A module with one read-only psect of 16 bytes that refers to X, and runs
    `cmds`. -/
def refersToX (cmds : List Obj.Tir) : List Obj.Record :=
  [.mhd { name := [0x41], version := [] },
    .gsd [.psc { align := 3, flags := Obj.psc.REL ||| Obj.psc.RD, alloc := 16, name := Linker.nameLINK },
      .sref { flags := 0, name := [0x58] }],
    .tir cmds, .eom { comcod := 0 } none]

/-- A shareable image whose data is X. -/
def holdsX : Obj.Image := ⟨[0x53], [], 0, 0, [], none, [], some ⟨0, [([0x58], 0, true)]⟩⟩

/-- The module's psect holds the address of X, and then bytes that are stored over
    it. -/
theorem not_refsRight : ¬ ∀ fuel inputs opts linked, link fuel inputs opts = some (.ok linked) →
    RefsRight linked.linker := by
  intro hall
  obtain ⟨linked, hlink, hlog⟩ := linked_of (f := fun k => k.linker.log)
    (x := link 1 [([], .object (refersToX [.staPq 0 0, .ctlSetrb, .stoGbl [0x58], .staPq 0 0,
      .ctlSetrb, .stoImm (replicate 8 1)])), ([], .image holdsX)] (optsAt 0x10000))
    (b := [.store 0x10000 8, .ref 0x10000 0, .store 0x10000 8]) (by decide +kernel)
  have hu := (link_noted hlink).1.untouched_of_right (hall _ _ _ _ hlink)
  refine (hu [.store 0x10000 8] 0x10000 0 [.store 0x10000 8] hlog).1 0x10000 8 (by simp) ?_
  unfold Touches
  omega

/-- Bytes are stored after the address of X, not over it. -/
theorem refsRight_of_beside : ∃ linked, link 1 [([], .object (refersToX [.staPq 0 0, .ctlSetrb,
      .stoGbl [0x58], .stoImm (replicate 8 1)])), ([], .image holdsX)] (optsAt 0x10000) = some (.ok linked) ∧
    RefsRight linked.linker := by
  obtain ⟨linked, hlink, hval⟩ := linked_of (f := fun k => (k.linker.log, k.linker.start))
    (x := link 1 [([], .object (refersToX [.staPq 0 0, .ctlSetrb, .stoGbl [0x58],
      .stoImm (replicate 8 1)])), ([], .image holdsX)] (optsAt 0x10000))
    (b := ([.store 0x10000 8, .ref 0x10000 0, .store 0x10008 8], 0x10000)) (by decide +kernel)
  obtain ⟨hlog, hstart⟩ := Prod.mk.inj hval
  refine ⟨linked, hlink, (dataFixups_iff hlink).2.mpr fun pre at_ j post hsplit => ?_⟩
  rw [hlog] at hsplit
  rw [hstart]
  match pre, hsplit with
  | [_], hsplit =>
    simp only [cons_append, nil_append, cons.injEq, Event.ref.injEq] at hsplit
    obtain ⟨-, ⟨rfl, -⟩, rfl⟩ := hsplit
    refine ⟨fun a size hmem => ?_, by omega⟩
    simp only [mem_singleton, Event.store.injEq] at hmem
    unfold Touches
    omega
  | [_, _], hsplit => simp at hsplit
  | _ :: _ :: _ :: _, hsplit => simp at hsplit

end Link
