/-
  Operations as runs on a disk: the states an operation starts from, block
  writes, and what reading headers and maps returns.
-/
import Vaxpunk.Lib.Runs
import Vaxpunk.Ods.Proof.Header
import Vaxpunk.Ods.Proof.Map
import Vaxpunk.Ods.File

namespace Ods

/-- Volumes as states that show a disk: a device without a fault performs every
    write. -/
def world : Prog.World Volume Error Write Disk where
  store v := v.dev.blocks
  write := Disk.write
  calm v := v.dev.fault = none
  loud e := e = .device

/-- The errors only writing ends in: the device refuses, or a map does not fit
    its header. -/
@[simp] def Error.OfWrite : Error → Prop
  | .device => True
  | .invalid what => what = "map pointers overflow the header"
  | _ => False

/-- An operation that only looks. -/
abbrev Op.Looks {α : Type} (m : Op α) : Prop := Prog.Looks Error.OfWrite m

theorem Op.Looks.loud {α : Type} {m : Op α} (hm : Op.Looks m) : Prog.Looks world.loud m :=
  hm.mono fun _ he => by rw [he]; trivial

/-- `v'` is `v` but for its blocks and the fault of its device. -/
structure Volume.Same (v v' : Volume) : Prop where
  geom : v'.geom = v.geom
  blockSize : v'.dev.blockSize = v.dev.blockSize
  writable : v'.writable = v.writable
  indexMap : v'.indexMap = v.indexMap
  clock : v'.clock = v.clock

theorem Volume.Same.refl (v : Volume) : v.Same v := ⟨rfl, rfl, rfl, rfl, rfl⟩

theorem Volume.Same.trans {v v' v'' : Volume} (h : v.Same v') (h' : v'.Same v'') : v.Same v'' :=
  ⟨h'.geom.trans h.geom, h'.blockSize.trans h.blockSize, h'.writable.trans h.writable,
    h'.indexMap.trans h.indexMap, h'.clock.trans h.clock⟩

/-- `v'` is `v` but for its blocks, the fault of its device and the index file's
    map. -/
structure Volume.Kin (v v' : Volume) : Prop where
  geom : v'.geom = v.geom
  blockSize : v'.dev.blockSize = v.dev.blockSize
  writable : v'.writable = v.writable
  clock : v'.clock = v.clock

theorem Volume.Kin.trans {v v' v'' : Volume} (h : v.Kin v') (h' : v'.Kin v'') : v.Kin v'' :=
  ⟨h'.geom.trans h.geom, h'.blockSize.trans h.blockSize, h'.writable.trans h.writable,
    h'.clock.trans h.clock⟩

theorem Volume.Same.kin {v v' : Volume} (h : v.Same v') : v.Kin v' := { h with }

namespace Op

variable {G : Geom} {I : Disk → Prop} {v : Volume} {ls : ℕ → List DirEntry} {l : ℕ} {b : Block}
  {E : Error → Volume → Prop} {α β : Type}

/-! ## Block writes -/

theorem devWrite_cases (l : ℕ) (b : Block) (v : Volume) :
    (∃ v', v.Same v' ∧ v'.dev.blocks = v.dev.blocks.write (l, b) ∧
      (v.dev.fault = none → v'.dev.fault = none) ∧ devWrite l b v = ⟨.ok (), v', [(l, b)]⟩) ∨
    ∃ v', v.Same v' ∧ v'.dev.blocks = v.dev.blocks ∧ v.dev.fault ≠ none ∧
      devWrite l b v = ⟨.error .device, v', []⟩ := by
  unfold devWrite
  rcases hf : v.dev.fault with _ | _ | k
  · exact Or.inl ⟨{ v with dev := { v.dev with blocks := v.dev.blocks.write (l, b) } },
      ⟨rfl, rfl, rfl, rfl, rfl⟩, rfl, fun _ => hf, rfl⟩
  · exact Or.inr ⟨{ v with dev := { v.dev with fault := none } }, ⟨rfl, rfl, rfl, rfl, rfl⟩, rfl,
      by simp, rfl⟩
  · exact Or.inl ⟨{ v with dev := { v.dev with blocks := v.dev.blocks.write (l, b), fault := some k } },
      ⟨rfl, rfl, rfl, rfl, rfl⟩, rfl, by simp, rfl⟩

theorem devWrite_runs {A : Disk → Prop} {Q : Unit → Volume → Prop}
    (hI : A (v.dev.blocks.write (l, b)) → I (v.dev.blocks.write (l, b)))
    (hQ : ∀ v', v.Same v' → v'.dev.blocks = v.dev.blocks.write (l, b) → A v'.dev.blocks → Q () v')
    (hE : ∀ v', v.Same v' → v'.dev.blocks = v.dev.blocks → E .device v') :
    Prog.Runs world A I (devWrite l b) v Q E := by
  unfold Prog.Runs
  obtain ⟨v', hv, hd, hf, he⟩ | ⟨v', hv, hd, hf, he⟩ := devWrite_cases l b v <;> rw [he]
  · refine ⟨fun hA => ⟨hI hA, trivial⟩, fun _ => hd, fun _ hc => ⟨hf hc, fun _ he => by cases he⟩,
      fun hs _ _ => hQ v' hv hd ?_, fun _ _ he => by cases he⟩
    rw [hd]; exact hs.1
  · exact ⟨trivial, fun _ => hd, fun _ hc => absurd hc hf, fun _ _ he => (by cases he),
      fun _ _ he => by cases he; exact hE v' hv hd⟩

theorem writeBlock_runs {A : Disk → Prop} {Q : Unit → Volume → Prop} (hw : v.writable = true)
    (hI : l < v.dev.count → A (v.dev.blocks.write (l, b)) → I (v.dev.blocks.write (l, b)))
    (hQ : l < v.dev.count → ∀ v', v.Same v' → v'.dev.blocks = v.dev.blocks.write (l, b) →
      A v'.dev.blocks → Q () v')
    (hE : ∀ e v', v.Same v' → v'.dev.blocks = v.dev.blocks → (e ≠ .device → v.dev.count ≤ l) → E e v') :
    Prog.Runs world A I (writeBlock l b) v Q E := by
  unfold writeBlock
  refine .state_bind ?_
  rw [if_neg (by simp [hw])]
  split_ifs with hl
  · exact .fail (by simp [world]) (hE _ _ (.refl _) rfl fun _ => hl)
  · exact devWrite_runs (hI (by omega)) (hQ (by omega))
      fun v' hv hd => hE _ v' hv hd fun h => absurd rfl h

/-! ## Reading blocks and headers -/

theorem looks_ofExcept {x : Except Error α} (h : ∀ e, x = .error e → ¬e.OfWrite) : Looks (ofExcept x) := by
  cases x with
  | ok a => exact .pure a
  | error e => exact .fail (h e rfl)

theorem result_ofExcept (x : Except Error α) (v : Volume) : (ofExcept x v).result = x := by
  cases x <;> rfl

theorem looks_readBlock (l : ℕ) : Looks (readBlock l) :=
  .bind .state_ fun v => by
    split_ifs
    · exact .fail (by simp)
    · exact .gets _

theorem readBlock_ok : (readBlock l v).result = .ok b ↔ l < v.dev.count ∧ b = v.dev.blocks l := by
  unfold readBlock
  rw [Prog.Looks.state_bind]
  split_ifs with h
  · simp only [Prog.fail, reduceCtorEq, false_iff]; omega
  · simp only [devRead, Prog.gets, Except.ok.injEq]
    constructor
    · rintro rfl; exact ⟨by omega, rfl⟩
    · rintro ⟨-, rfl⟩; rfl

theorem checkHeader_error {e : Error} (l : ℕ) (want : Option Fid) (h : Header)
    (he : checkHeader l want h = .error e) : ¬e.OfWrite := by
  unfold checkHeader at he
  split at he
  · split_ifs at he <;> cases he <;> simp
  · cases he; simp
  · split_ifs at he
    cases he; simp
  · cases he

theorem looks_readHeaderAt (l : ℕ) (want : Option Fid) : Looks (readHeaderAt l want) :=
  .bind (looks_readBlock l) fun _ => looks_ofExcept fun _ => checkHeader_error _ _ _

/-- The header is the one a file ID names; a zero sequence number matches any. -/
def Names (f : Fid) (h : Header) : Prop := h.fid.num = f.num ∧ (f.seq = 0 ∨ h.fid.seq = f.seq)

theorem readHeaderAt_ok {f : Fid} {h : Header} : (readHeaderAt l (some f) v).result = .ok h ↔
    l < v.dev.count ∧ h = ⟨v.dev.blocks l⟩ ∧ h.invalid = none ∧ Names f h := by
  unfold readHeaderAt
  simp only [(looks_readBlock l).bind_ok, readBlock_ok, result_ofExcept]
  constructor
  · rintro ⟨b, ⟨hl, rfl⟩, hc⟩
    rcases hv : (Header.mk (v.dev.blocks l)).invalid with _ | what
    · simp only [checkHeader, hv] at hc
      split_ifs at hc with hn
      cases hc
      push Not at hn
      exact ⟨hl, rfl, hv, hn.1, or_iff_not_imp_left.2 hn.2⟩
    · simp only [checkHeader, hv] at hc
      split_ifs at hc
  · rintro ⟨hl, rfl, hv, hn, hs⟩
    refine ⟨_, ⟨hl, rfl⟩, ?_⟩
    simp only [checkHeader, hv]
    rw [if_neg]
    push Not
    exact ⟨hn, fun h0 => hs.resolve_left h0⟩

theorem looks_readHeader (f : Fid) : Looks (readHeader f) := by
  unfold readHeader
  split_ifs
  · exact .fail (by simp)
  · refine .bind .state_ fun v => .bind (.orFail (by simp) _)
      fun l => .bind (looks_readHeaderAt _ _) fun h => ?_
    split_ifs
    · exact .fail (by simp)
    · exact .pure _

theorem looks_orFail {e : Error} (he : ¬e.OfWrite) (o : Option α) : Looks (Prog.orFail e o : Op α) := by
  cases o with
  | none => exact .fail he
  | some a => exact .pure a

theorem orFail_bind_ok {e : Error} {o : Option α} {g : α → Op β} {b : β} :
    ((Prog.orFail e o >>= g) v).result = .ok b ↔ ∃ a, o = some a ∧ (g a v).result = .ok b := by
  cases o with
  | none =>
    simp only [reduceCtorEq, false_and, exists_false, iff_false]
    exact fun h => by cases h
  | some x =>
    simp only [Option.some.injEq, exists_eq_left']
    exact Iff.rfl

theorem readHeader_ok {f : Fid} {h : Header} : (readHeader f v).result = .ok h ↔
    f.rvn ≤ 1 ∧ ∃ l, v.headerLbn f.num = some l ∧ l < v.dev.count ∧ h = ⟨v.dev.blocks l⟩ ∧
      h.invalid = none ∧ Names f h ∧ h.segNum = 0 := by
  unfold readHeader
  split_ifs with hr
  · simp only [Prog.fail, reduceCtorEq, false_iff]; omega
  · rw [Prog.Looks.state_bind]
    simp only [orFail_bind_ok, (looks_readHeaderAt _ _).bind_ok, readHeaderAt_ok]
    constructor
    · rintro ⟨l, hl, x, ⟨hlt, hx, hv, hn⟩, hok⟩
      split_ifs at hok with hseg
      · cases hok
      · cases hok
        exact ⟨by omega, l, hl, hlt, hx, hv, hn, not_not.1 hseg⟩
    · rintro ⟨-, l, hl, hlt, hx, hv, hn, hseg⟩
      refine ⟨l, hl, h, ⟨hlt, hx, hv, hn⟩, ?_⟩
      rw [if_neg (not_not.2 hseg)]; rfl

end Op

theorem Header.segNum_lt (h : Header) : h.segNum < 2 ^ 16 := Field.get_lt _ _ _

namespace Op

variable {G : Geom} {v : Volume} {ls : ℕ → List DirEntry} {f : Fid}

theorem looks_extHeaders : ∀ (fuel lbn : ℕ) (h : Header), Looks (extHeaders fuel lbn h)
  | 0, _, _ => .fail (by simp)
  | fuel + 1, lbn, h => by
    unfold extHeaders
    split_ifs
    · exact .pure _
    · refine .bind .state_ fun v => .bind (.orFail (by simp) _)
        fun l => .bind (looks_readHeaderAt _ _) fun x => ?_
      split_ifs
      · exact .fail (by simp)
      · exact .bind (looks_extHeaders fuel _ _) fun _ => .pure _

theorem looks_headers (f : Fid) : Looks (headers f) :=
  .bind (looks_readHeader f) fun _ => .bind .state_ fun _ =>
    .bind (looks_extHeaders _ _ _) fun _ => .pure _

/-! ## Maps -/

theorem pointerRuns_ok {n lbn : ℕ} : ∀ {ps : List Pointer},
    (∀ r ∈ ptrRuns ps, r.lbn ≠ 2 ^ 32 - 1 ∧ r.lbn + r.count ≤ n) →
    Volume.pointerRuns n lbn ps = .ok (ptrRuns ps)
  | [], _ => rfl
  | .placement w :: ps, h => by
    exact (pointerRuns_ok h : Volume.pointerRuns n lbn ps = .ok (ptrRuns ps))
  | .extent fm count start :: ps, h => by
    have hr : ptrRuns (.extent fm count start :: ps) = ⟨start, count⟩ :: ptrRuns ps := rfl
    rw [hr] at h ⊢
    obtain ⟨⟨h1, h2⟩, h3⟩ := List.forall_mem_cons.1 h
    simp only [Volume.pointerRuns]
    rw [if_neg h1, if_neg (by simpa using h2), pointerRuns_ok h3]
    rfl

theorem pointerRuns_iff {n lbn : ℕ} {ps : List Pointer} {rs : List Run} :
    Volume.pointerRuns n lbn ps = .ok rs ↔
      rs = ptrRuns ps ∧ ∀ r ∈ ptrRuns ps, r.lbn ≠ 2 ^ 32 - 1 ∧ r.lbn + r.count ≤ n := by
  induction ps generalizing rs with
  | nil => simp [Volume.pointerRuns, ptrRuns, eq_comm]
  | cons p ps ih =>
    cases p with
    | placement w => exact ih
    | extent fm count start =>
      have hr : ptrRuns (.extent fm count start :: ps) = ⟨start, count⟩ :: ptrRuns ps := rfl
      constructor
      · intro h
        simp only [Volume.pointerRuns] at h
        split_ifs at h with h1 h2
        cases hp : Volume.pointerRuns n lbn ps with
        | error e => rw [hp] at h; cases h
        | ok qs =>
          rw [hp] at h
          cases h
          obtain ⟨rfl, hall⟩ := ih.1 hp
          exact ⟨rfl, hr ▸ List.forall_mem_cons.2 ⟨⟨h1, by simpa using h2⟩, hall⟩⟩
      · rintro ⟨rfl, hall⟩
        exact pointerRuns_ok hall

theorem pointerRuns_error {n l : ℕ} {e : Error} : ∀ {ps : List Pointer},
    Volume.pointerRuns n l ps = .error e → ¬e.OfWrite
  | [], he => by cases he
  | .placement _ :: ps, he => @pointerRuns_error n l e ps he
  | .extent _ _ _ :: ps, he => by
    simp only [Volume.pointerRuns] at he
    split_ifs at he
    · cases he; simp
    · cases he; simp
    · cases hr : Volume.pointerRuns n l ps with
      | ok a => rw [hr] at he; cases he
      | error e' => rw [hr] at he; cases he; exact pointerRuns_error hr

theorem headerRuns_error {e : Error} (v : Volume) (h : Header) (l : ℕ) (he : v.headerRuns h l = .error e) :
    ¬e.OfWrite := by
  unfold Volume.headerRuns at he
  split at he
  · cases he; simp
  · exact pointerRuns_error he

theorem looks_runsOf (hs : List (ℕ × Header)) : Looks (runsOf hs) :=
  .bind .state_ fun _ => .bind (.collect (fun _ =>
    looks_ofExcept fun _ => headerRuns_error _ _ _) _) fun _ => .pure _

theorem looks_fileMap (f : Fid) : Looks (fileMap f) :=
  .bind (looks_headers f) fun hs => looks_runsOf hs

end Op

end Ods
