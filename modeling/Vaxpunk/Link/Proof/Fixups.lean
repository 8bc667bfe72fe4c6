/-
  The addresses a run has recorded: which of them are still there after more commands.

  * `Standing`: a log has an address that nothing was stored over since.
  * `Accurate`: the addresses recorded are those that stand.
  * `Careful`: the commands that keep them so.  Two kinds of command that store no
    bytes do not: a store of nothing inside an address, and a repeated store whose count
    is 0 but not a constant.
  * `fixups_tracked`: in a run of careful commands, the addresses are apart from each
    other, and the fixups are those of the addresses that no later store went over.
-/
import Vaxpunk.Link.Proof.Mirror
import Vaxpunk.Link.Proof.Run

namespace Link

open Exec SortedMap List

variable {a n at_ i : ℕ} {l : Linker} {bytes data : List (BitVec 8)} {cmd : Obj.Tir}
    {f : Obj.Fixups} {log : List Event} {e : Event}

/-! ## Addresses in a log -/

/-- The event goes over some of the `n` bytes at `a`. -/
def Event.Covers (a n : ℕ) : Event → Prop
  | .store at_ size => max at_ a < min (at_ + size) (a + n)
  | _ => False

/-- An address of `n` bytes was stored at `a`, and no store went over it since. -/
def Standing (log : List Event) (a n : ℕ) : Prop :=
  ∃ pre post, log = pre ++ .address a n :: post ∧ ∀ e ∈ post, ¬ e.Covers a n

theorem standing_append : Standing (log ++ [e]) a n ↔ Standing log a n ∧ ¬ e.Covers a n ∨ e = .address a n := by
  constructor
  · rintro ⟨pre, post, hlog, hpost⟩
    rcases append_singleton_eq hlog with ⟨-, -, rfl⟩ | ⟨post', rfl, rfl⟩
    · exact .inr rfl
    · obtain ⟨hpost, he⟩ := forall_mem_append.mp hpost
      exact .inl ⟨⟨pre, post', rfl, hpost⟩, he e mem_cons_self⟩
  · rintro (⟨⟨pre, post, rfl, hpost⟩, he⟩ | rfl)
    · refine ⟨pre, post ++ [e], by rw [append_assoc, cons_append], ?_⟩
      exact forall_mem_append.mpr ⟨hpost, forall_mem_singleton.mpr he⟩
    · exact ⟨log, [], rfl, fun e he => absurd he not_mem_nil⟩

/-! ## Entries and the log -/

/-- The entries `m` are right after `log`: apart, in the image, and the addresses among
    them are those that stand. -/
structure Accurate (l : Linker) (m : List (ℕ × Stored)) (log : List Event) : Prop where
  apart : Apart m
  low : ∀ e ∈ m, l.start ≤ e.1
  size : ∀ e ∈ m, e.2.stuck = none → e.2.size = 8 ∨ e.2.size = 4
  stands : ∀ e ∈ m, e.2.stuck = none → Standing log e.1 e.2.size
  has : ∀ a n, Standing log a n → ∃ e ∈ m, e.2.stuck = none ∧ e.1 = a ∧ e.2.size = n

/-- What a run keeps. -/
abbrev Run.Accurate (l : Linker) (r : Run) : Prop := Link.Accurate l r.stored r.log

/-- No address has the place `at_` inside it. -/
def Outside (m : List (ℕ × Stored)) (at_ : ℕ) : Prop :=
  ∀ e ∈ m, e.2.stuck = none → at_ ≤ e.1 ∨ e.1 + e.2.size ≤ at_

section
variable {m : List (ℕ × Stored)}

theorem Accurate.over (h : Accurate l m log) (hn : n = 0 → Outside m at_) :
    Accurate l ((hits at_ (at_ + n) m).foldl (cut at_ (at_ + n)) m) (log ++ [.store at_ n]) := by
  have hle : at_ ≤ at_ + n := Nat.le_add_right _ _
  obtain ⟨hap, -, hmem⟩ := h.apart.over hle
  have hold : ∀ e ∈ (hits at_ (at_ + n) m).foldl (cut at_ (at_ + n)) m, e.2.stuck = none → e ∈ m :=
    fun e he => (hmem e he).2
  refine ⟨hap, fun e he => ?_, fun e he hs => h.size e (hold e he hs) hs, fun e he hs => ?_, fun a k hst => ?_⟩
  · obtain ⟨f, hf, hlo, -⟩ := h.apart.over_within hle he
    exact (h.low f hf).trans hlo
  · refine standing_append.mpr (.inl ⟨h.stands e (hold e he hs) hs, fun hc => ?_⟩)
    have hout := (hmem e he).1
    unfold Event.Covers at hc
    omega
  · rcases standing_append.mp hst with ⟨hst, hc⟩ | hne
    · obtain ⟨e, he, hs, rfl, rfl⟩ := h.has a k hst
      refine ⟨e, h.apart.over_keeps hle he ?_, hs, rfl, rfl⟩
      have hpos := h.apart.pos e he
      unfold Event.Covers at hc
      by_cases h0 : n = 0
      · have := hn h0 e he hs
        omega
      · omega
    · cases hne

theorem Accurate.insert {log' : List Event} {s : Stored} (h : Accurate l m log) (hpos : 0 < s.size)
    (hclear : Clear m at_ s.size) (hlow : l.start ≤ at_) (hsize : s.stuck = none → s.size = 8 ∨ s.size = 4)
    (hlog : ∀ a n, Standing log' a n ↔ Standing log a n ∨ s.stuck = none ∧ a = at_ ∧ n = s.size) :
    Accurate l (SortedMap.insert at_ s m) log' := by
  have hmem {e : ℕ × Stored} : e ∈ SortedMap.insert at_ s m ↔ _ := mem_insert h.apart.sorted
  refine ⟨h.apart.insert hpos hclear, fun e he => ?_, fun e he hs => ?_, fun e he hs => (hlog _ _).mpr ?_,
    fun a n hst => ?_⟩
  · rcases hmem.mp he with rfl | ⟨he, -⟩
    · exact hlow
    · exact h.low e he
  · rcases hmem.mp he with rfl | ⟨he, -⟩
    · exact hsize hs
    · exact h.size e he hs
  · rcases hmem.mp he with rfl | ⟨he, -⟩
    · exact .inr ⟨hs, rfl, rfl⟩
    · exact .inl (h.stands e he hs)
  · rcases (hlog a n).mp hst with hst | ⟨hs, rfl, rfl⟩
    · obtain ⟨e, he, hs, rfl, rfl⟩ := h.has a n hst
      have := hclear e he
      have := h.apart.pos e he
      exact ⟨e, hmem.mpr (.inr ⟨he, by omega⟩), hs, rfl, rfl⟩
    · exact ⟨_, hmem.mpr (.inl rfl), hs, rfl, rfl⟩

theorem Accurate.insertStuck {s : Stored} (h : Accurate l m log) (hpos : 0 < s.size) (hclear : Clear m at_ s.size)
    (hlow : l.start ≤ at_) (hs : s.stuck ≠ none) : Accurate l (SortedMap.insert at_ s m) log :=
  h.insert hpos hclear hlow (fun h0 => absurd h0 hs) fun _ _ => by simp [hs]

end

/-! ## Commands -/

/-- Where a layout puts the image sections. -/
structure Laid (l : Linker) : Prop where
  low : ∀ s ∈ l.sections, l.start ≤ s.start
  bound : ∀ s ∈ l.sections, s.stop < 2 ^ 64

theorem laid_of_layout {l₀ : Linker} {base : ℕ} (h : l₀.layout base = .ok l) : Laid l := by
  obtain ⟨at_, hord⟩ := layout_ordered h
  exact ⟨fun s hs => hord.head_le hs, layout_lt h⟩

section
variable {l : Linker} {m : ℕ} {r r' : Run}

theorem accurate_write {start : ℕ} (h : r.Accurate l) (hb : bytes = [] → Outside r.stored at_) :
    (r.write at_ i start bytes).Accurate l :=
  h.over fun h0 => hb (length_eq_zero_iff.mp h0)

theorem clear_write {start k : ℕ} (hap : Apart r.stored) (hc : Clear r.stored a k) :
    Clear (r.write at_ i start bytes).stored a k := by
  intro e he
  obtain ⟨f, hf, hlo, hhi⟩ := hap.over_within (Nat.le_add_right _ _) he
  have := hc f hf
  omega

theorem leaves_storeTimes_nil (hout : ∀ loc, r.loc = some loc → Outside r.stored loc.toNat)
    (h : r.Accurate l) : Leaves (storeTimes l m [] n) r (Run.Accurate l) := by
  induction n generalizing r with
  | zero => exact .pure _ h
  | succ n ih =>
    refine .bind (fun e r' he => by rw [store_error he]; exact h) fun at_ r₁ hst => ?_
    obtain ⟨loc, i, s, hloc, rfl, hin, rfl⟩ := store_ok hst
    refine ih (fun loc' hloc' e he hs => ?_) (accurate_write h fun _ => hout loc hloc)
    -- the place is the same, and the addresses left are some of those that were there
    cases hloc'
    rw [length_nil, Nat.add_zero, BitVec.ofNat_toNat, BitVec.setWidth_eq]
    exact hout loc hloc e (((h.apart.over (Nat.le_add_right loc.toNat 0)).2.2 e he).2 hs) hs

end

section
variable {l : Linker} {m : ℕ} {r r' : Run} (hl : Laid l)
include hl

theorem InSection.start_le {s : ImageSection} (h : InSection l at_ n i s) :
    l.start ≤ at_ := (hl.low s (mem_of_getElem? h.get)).trans h.low

theorem InSection.lt {s : ImageSection} (h : InSection l at_ n i s) :
    at_ + n < 2 ^ 64 := h.high.trans_lt (hl.bound s (mem_of_getElem? h.get))

theorem accurate_kept : Kept l (fun _ => True) (Run.Accurate l) where
  own _ _ _ _ h := h
  imports _ _ := trivial
  dataImport _ _ _ h := h
  write _ _ _ _ _ hb _ h := accurate_write h fun h0 => absurd h0 hb
  fixup r at_ i s bytes m v hsize hin h := by
    have hpos : 0 < bytes.length := by omega
    have hw : (r.write at_ i s.start bytes).Accurate l :=
      accurate_write h fun h0 => absurd h0 (ne_nil_of_length_pos hpos)
    refine hw.insert hpos (Cleared.over h.apart at_ bytes.length).clear (hin.start_le hl) (fun _ => hsize) fun a n => ?_
    simp [standing_append, Event.Covers, eq_comm]
  stuck r at_ i s bytes m v why hb hin h :=
    (accurate_write h fun h0 => absurd h0 hb).insertStuck (length_pos_iff.mpr hb)
      (Cleared.over h.apart at_ bytes.length).clear (hin.start_le hl) (Option.some_ne_none why)
  ref r at_ i s j _ _ h := by
    have hw : (r.write at_ i s.start (replicate 8 0)).Accurate l := accurate_write h (by simp)
    have hlog : ∀ a n, Standing ((r.write at_ i s.start (replicate 8 0)).log ++ [.ref at_ j]) a n ↔
        Standing (r.write at_ i s.start (replicate 8 0)).log a n := fun a n => by
      simp [standing_append, Event.Covers]
    exact ⟨hw.apart, hw.low, hw.size, fun e he hs => (hlog _ _).mpr (hw.stands e he hs),
      fun a n hst => hw.has a n ((hlog a n).mp hst)⟩

theorem storeTimes_clear {loc : BitVec 64} {u : Unit} (hloc : r.loc = some loc)
    (hap : Apart r.stored) (h : storeTimes l m data n r = .ok u r') :
    Apart r'.stored ∧ (∀ a k, Clear r.stored a k → Clear r'.stored a k) ∧
      (0 < n → Clear r'.stored loc.toNat (n * data.length) ∧ l.start ≤ loc.toNat ∧
        loc.toNat + n * data.length < 2 ^ 64) := by
  induction n generalizing r loc with
  | zero =>
    cases h
    exact ⟨hap, fun _ _ h => h, fun h => absurd h (lt_irrefl 0)⟩
  | succ n ih =>
    obtain ⟨at_, r₁, hst, hrest⟩ := bind_ok.mp h
    obtain ⟨loc', i, s, hloc', rfl, hin, rfl⟩ := store_ok hst
    obtain rfl : loc = loc' := Option.some.inj (hloc.symm.trans hloc')
    have hlt := hin.lt hl
    have hcl := Cleared.over hap loc.toNat data.length
    obtain ⟨hap', hkeep, hmore⟩ := ih rfl hcl.apart hrest
    refine ⟨hap', fun a k hc => hkeep a k (clear_write hap hc), fun _ => ?_⟩
    have hfirst : Clear r'.stored loc.toNat data.length := hkeep _ _ hcl.clear
    rw [Nat.succ_mul]
    by_cases hn : n = 0
    · subst hn
      simpa using ⟨hfirst, hin.start_le hl, hlt⟩
    · rw [BitVec.toNat_ofNat, Nat.mod_eq_of_lt hlt] at hmore
      obtain ⟨hrest, -, hlast⟩ := hmore (Nat.pos_of_ne_zero hn)
      refine ⟨fun e he => ?_, hin.start_le hl, by omega⟩
      have h₁ := hfirst e he
      have h₂ := hrest e he
      have h₃ := hap'.pos e he
      omega

end

/-! ## Careful commands -/

/-- A command that stores nothing does so where no address is around, and notes
    nothing. -/
def Careful (cmd : Obj.Tir) (r : Run) : Prop :=
  match cmd with
  | .stoImm data => data = [] → ∀ loc, r.loc = some loc → Outside r.stored loc.toNat
  | .stoImmr data => ∀ n k, r.stack.head? = some (n, k) →
    (n.toNat * data.length = 0 → k = some 0) ∧
    (data = [] → ∀ loc, r.loc = some loc → Outside r.stored loc.toNat)
  | _ => True

section
variable {l : Linker} {m : ℕ} {r r' : Run}

theorem leaves_stoImm (h : r.Accurate l) (hc : Careful (.stoImm data) r) :
    Leaves (stepPlain l m (.stoImm data)) r (Run.Accurate l) := by
  change Leaves (store l m data >>= fun _ => pure ()) r _
  refine .bind (fun e r' he => by rw [store_error he]; exact h) fun at_ r₁ hst => .pure _ ?_
  obtain ⟨loc, i, s, hloc, rfl, -, rfl⟩ := store_ok hst
  exact accurate_write h fun h0 => hc h0 loc hloc

theorem leaves_storeTimes (hl : Laid l) (h : r.Accurate l)
    (hout : data = [] → ∀ loc, r.loc = some loc → Outside r.stored loc.toNat) :
    Leaves (storeTimes l m data n) r (Run.Accurate l) := by
  by_cases hd : data = []
  · subst hd
    exact leaves_storeTimes_nil (hout rfl) h
  · exact (accurate_kept hl).storeTimes hd n r h

theorem leaves_stoImmr (hl : Laid l) (h : r.Accurate l) (hc : Careful (.stoImmr data) r) :
    Leaves (stepPlain l m (.stoImmr data)) r (Run.Accurate l) := by
  change Leaves (pop l m >>= fun x => get >>= fun r₁ => storeTimes l m data x.1.toNat >>= fun _ =>
    fix m (r₁.loc.getD 0).toNat (min (x.1.toNat * data.length) (2 ^ 64 - 1)) (.stoImmr data) x.1 x.2)
    r _
  refine .bind ((accurate_kept hl).pop r h).2 fun x r₁ hpop => .bind (fun e r' h => by cases h) ?_
  rintro _ _ ⟨⟩
  -- the count popped is the one that the command is careful about
  rw [pop_eq] at hpop
  cases hstack : r.stack with
  | nil =>
    rw [hstack] at hpop
    cases hpop
  | cons y stack =>
    rw [hstack] at hpop
    cases hpop
    obtain ⟨n, k⟩ := x
    obtain ⟨hcount, hout⟩ := hc n k (by rw [hstack]; rfl)
    have htimes : Leaves (storeTimes l m data n.toNat) { r with stack } (Run.Accurate l) :=
      leaves_storeTimes hl h hout
    refine .bind htimes.2 fun u r₂ ht =>
      ⟨fun u' r' hfix => ?_, fun e r' hfix => by rw [fix_eq] at hfix; cases hfix⟩
    have hr₂ := htimes.1 u r₂ ht
    rw [fix_eq] at hfix
    cases hfix
    cases hneed : Obj.need (.stoImmr data) k with
    | nothing => exact hr₂
    | fixup size => exact absurd hneed need_stoImmr
    | impossible =>
      -- the count is no constant, so bytes were stored, and nothing is in their way
      have hk : k ≠ some 0 := by
        rintro rfl
        cases hneed
      have hpos : 0 < n.toNat * data.length := Nat.pos_of_ne_zero fun h0 => hk (hcount h0)
      have hn : 0 < n.toNat := Nat.pos_of_mul_pos_right hpos
      obtain ⟨n', hn'⟩ := Nat.exists_eq_succ_of_ne_zero hn.ne'
      obtain ⟨loc, hloc⟩ : ∃ loc, r.loc = some loc := by
        rw [hn'] at ht
        obtain ⟨at_, r₃, hst, -⟩ := bind_ok.mp ht
        obtain ⟨loc, i, s, hloc, -⟩ := store_ok hst
        exact ⟨loc, hloc⟩
      obtain ⟨-, -, hmore⟩ := storeTimes_clear hl (show ({ r with stack } : Run).loc = _ from hloc)
        h.apart ht
      obtain ⟨hclear, hlow, hlt⟩ := hmore hn
      have hmin : min (n.toNat * data.length) (2 ^ 64 - 1) = n.toNat * data.length :=
        Nat.min_eq_left (Nat.le_sub_one_of_lt ((Nat.le_add_left _ _).trans_lt hlt))
      simp only [hloc, Option.getD_some, hmin]
      exact hr₂.insertStuck hpos hclear hlow (Option.some_ne_none _)

theorem leaves_stepPlain (hl : Laid l) (h : r.Accurate l) (hc : Careful cmd r) :
    Leaves (stepPlain l m cmd) r (Run.Accurate l) := by
  cases cmd with
  | stoImmr data => exact leaves_stoImmr hl h hc
  | stoImm data => exact leaves_stoImm h hc
  | _ => refine (accurate_kept hl).stepPlain ?_ ?_ r h <;> nofun

/-- **One command** that is careful. -/
theorem leaves_step (hl : Laid l) (h : r.Accurate l) (hc : Careful cmd r) :
    Leaves (step l m cmd) r (Run.Accurate l) := by
  unfold Leaves
  rw [step_eq]
  cases himp : r.dataImport with
  | none => exact leaves_stepPlain hl h hc
  | some j =>
    have hquiet : ({ r with dataImport := none } : Run).Accurate l := h
    simp only
    split_ifs
    · exact ((accurate_kept hl).pop.bind fun _ => (accurate_kept hl).dataRef trivial) _ hquiet
    · exact Keeps.throw _ _ hquiet

end

theorem Apart.pairwise {m : List (ℕ × Stored)} (h : Apart m) :
    m.Pairwise fun e f => e.1 + e.2.size ≤ f.1 ∨ f.1 + f.2.size ≤ e.1 := by
  refine h.sorted.imp_of_mem fun he hf hlt => ?_
  exact .inl (h.apart _ he _ hf hlt)

theorem fixupList_addresses (h : l.fixupList = .ok f)
    (hsize : ∀ e ∈ l.stored, e.2.stuck = none → e.2.size = 8 ∨ e.2.size = 4) :
    f.fields.Perm ((l.stored.filter (·.2.stuck.isNone)).map fun e => (e.1 - l.start, e.2.size)) := by
  unfold Linker.fixupList at h
  simp only at h
  replace hsize : ∀ e ∈ l.stored.filter (·.2.stuck.isNone), e.2.size = 8 ∨ e.2.size = 4 := by
    intro e he
    rw [mem_filter, Option.isNone_iff_eq_none] at he
    exact hsize e he.1 he.2
  generalize l.stored.filter (·.2.stuck.isNone) = addresses at h hsize
  generalize hfar : addresses.find? _ = far at h
  cases far with
  | some e => cases h
  | none =>
    cases h
    have hoff : ∀ e ∈ addresses, (l.offset e).toNat = e.1 - l.start := by
      intro e he
      have := List.find?_eq_none.mp hfar e he
      rw [decide_eq_true_eq] at this
      rw [Linker.offset, BitVec.toNat_ofNat, Nat.mod_eq_of_lt (by omega)]
    refine List.Perm.trans (.of_eq ?_)
      ((filter_append_perm (·.2.size = 8) addresses).map fun e => (e.1 - l.start, e.2.size))
    simp only [Obj.Fixups.fields, map_map, map_append]
    congr 1
    · refine map_congr_left fun e he => ?_
      rw [mem_filter, decide_eq_true_eq] at he
      simp [hoff e he.1, he.2]
    · have hfilter : addresses.filter (·.2.size ≠ 8) = addresses.filter (! ·.2.size = 8) :=
        filter_congr fun e _ => by simp
      rw [hfilter]
      refine map_congr_left fun e he => ?_
      rw [mem_filter] at he
      have hne : e.2.size ≠ 8 := by simpa using he.2
      simp [hoff e he.1, (hsize e he.1).resolve_left hne]

/-! ## Runs -/

open Relation (ReflTransGen)

/-- What a run does next: a command of some module that `C` holds of, whether it fails or
    not, or the start of the next module's. -/
inductive Next (l : Linker) (C : Obj.Tir → Run → Prop) (r : Run) : Run → Prop
  | ok {m : ℕ} {cmd : Obj.Tir} {u : Unit} {r' : Run} (hc : C cmd r)
    (h : step l m cmd r = .ok u r') : Next l C r r'
  | error {m : ℕ} {cmd : Obj.Tir} {e : Msg} {r' : Run} (hc : C cmd r)
    (h : step l m cmd r = .error e r') : Next l C r r'
  | fresh : Next l C r r.fresh

def Run.addresses (r : Run) : List (ℕ × Stored) := r.stored.filter (·.2.stuck.isNone)

/-- The addresses are kept right: those recorded are apart, and the fixups are the
    addresses stored that no later store went over any byte of, each once. -/
structure Tracked (l : Linker) (r : Run) : Prop where
  apart : r.addresses.Pairwise fun e f => e.1 + e.2.size ≤ f.1 ∨ f.1 + f.2.size ≤ e.1
  reported : ∀ f, ({ l with stored := r.stored } : Linker).fixupList = .ok f →
    f.fields.Nodup ∧ ∀ x, x ∈ f.fields ↔ Standing r.log (l.start + x.1) x.2

section
variable {l : Linker} {r r' : Run}

theorem mem_addresses {e : ℕ × Stored} : e ∈ r.addresses ↔ e ∈ r.stored ∧ e.2.stuck = none := by
  rw [Run.addresses, mem_filter, Option.isNone_iff_eq_none]

theorem accurate_run (hl : Laid l) (hr : r.Accurate l) (h : ReflTransGen (Next l Careful) r r') :
    r'.Accurate l := by
  induction h with
  | refl => exact hr
  | tail _ hnext ih =>
    cases hnext with
    | ok hc h => exact (leaves_step hl ih hc).1 _ _ h
    | error hc h => exact (leaves_step hl ih hc).2 _ _ h
    | fresh => exact ih

theorem Accurate.tracked (h : r.Accurate l) : Tracked l r := by
  refine ⟨h.apart.pairwise.filter _, fun f hf => ?_⟩
  have hperm : f.fields.Perm (r.addresses.map fun e => (e.1 - l.start, e.2.size)) :=
    fixupList_addresses hf h.size
  refine ⟨hperm.nodup_iff.mpr ?_, fun x => hperm.mem_iff.trans (mem_map.trans ⟨?_, fun hst => ?_⟩)⟩
  · rw [nodup_iff_pairwise_ne, pairwise_map]
    refine (h.apart.sorted.filter _).imp_of_mem fun {x y} hx hy hlt heq => ?_
    have h₁ := h.low x (mem_addresses.mp hx).1
    have h₂ := h.low y (mem_addresses.mp hy).1
    have h₃ := congrArg Prod.fst heq
    simp only at h₃
    omega
  · rintro ⟨e, he, rfl⟩
    obtain ⟨hem, hes⟩ := mem_addresses.mp he
    rw [Nat.add_sub_cancel' (h.low e hem)]
    exact h.stands e hem hes
  · obtain ⟨e, hem, hes, hat, hsize⟩ := h.has _ _ hst
    refine ⟨e, mem_addresses.mpr ⟨hem, hes⟩, ?_⟩
    rw [hat, hsize, Nat.add_sub_cancel_left]

end

/-- **Addresses and fixups.**  In every run of careful commands from the blank contents of
    a laid out image, the addresses are kept right. -/
theorem fixups_tracked {l₀ l : Linker} {base : ℕ} (hlay : l₀.layout base = .ok l) {r : Run}
    (h : ReflTransGen (Next l Careful) l.blank r) : Tracked l r := by
  have hblank : l.blank.Accurate l := by
    refine ⟨.nil, ?_, ?_, ?_, ?_⟩
    · simp [Linker.blank]
    · simp [Linker.blank]
    · simp [Linker.blank]
    · rintro a n ⟨pre, post, hlog, -⟩
      simp [Linker.blank] at hlog
  exact (accurate_run (laid_of_layout hlay) hblank h).tracked

/-! ## The runs there are -/

theorem leaves_steps {m : ℕ} {C : Obj.Tir → Run → Prop} {cmds : List Obj.Tir}
    (hC : ∀ cmd ∈ cmds, ∀ r, C cmd r) (r : Run) :
    Leaves (steps l m cmds) r (ReflTransGen (Next l C) r) := by
  induction cmds generalizing r with
  | nil => exact .pure _ .refl
  | cons cmd cmds ih =>
    obtain ⟨hc, hC⟩ := forall_mem_cons.mp hC
    refine .bind (fun e r' h => .single (.error (hc r) h)) fun u r₁ h => ?_
    have hfirst : ReflTransGen (Next l C) r r₁ := .single (.ok (hc r) h)
    have hrest := ih hC r₁
    exact ⟨fun u r' h => hfirst.trans (hrest.1 u r' h), fun e r' h => hfirst.trans (hrest.2 e r' h)⟩

/-- A module with a read-only psect of 16 bytes. -/
def roomFor16 : Linker :=
  { Linker.new with
    modules := [⟨[0x41], [], [], [(0, 0)], [], none⟩]
    psects := [⟨[0x44], Obj.psc.REL ||| Obj.psc.RD, 3, [⟨0, 16, 3, 0⟩], 0, 0⟩] }

/-- Its layout at 10000 (hex). -/
def laidFor16 : Linker :=
  { roomFor16 with
    psects := [⟨[0x44], Obj.psc.REL ||| Obj.psc.RD, 3, [⟨0, 16, 3, 0⟩], 0x10000, 16⟩]
    sections := [⟨.readOnly, 0x10000, 0x10010⟩] }

/-- The address of the psect, stored at its start. -/
def storesItself : List Obj.Tir := [.staPq 0 0, .ctlSetrb, .staPq 0 0, .stoQw]

/-- At the same place, a count of 0 that is no constant: the psect's address less 10000
    (hex). -/
def countsNothing : List Obj.Tir := [.staPq 0 0, .ctlSetrb, .staPq 0 (-0x10000), .stoImmr [0]]

/-- The state in which commands end well. -/
def endOf (x : EStateM.Result Msg Run Unit) : Option Run :=
  match x with
  | .ok _ r => some r
  | .error _ _ => none

theorem of_endOf {α : Type} {x : EStateM.Result Msg Run Unit} {f : Run → α} {a : α}
    (h : (endOf x).map f = some a) : ∃ r, x = .ok () r ∧ f r = a := by
  cases x with
  | ok u r => exact ⟨r, rfl, Option.some.inj h⟩
  | error e r => cases h

/-- The psect's address, recorded at its start, and a byte after it. -/
theorem fixups_tracked_itself : ∃ r, roomFor16.layout 0x10000 = .ok laidFor16 ∧
    steps laidFor16 0 (storesItself ++ [.stoImm [1]]) laidFor16.blank = .ok () r ∧
    r.addresses = [(0x10000, ⟨8, 0, 0x10000, none⟩)] ∧ Tracked laidFor16 r := by
  have hlay : roomFor16.layout 0x10000 = .ok laidFor16 := by decide +kernel
  obtain ⟨r, hr, hval⟩ := of_endOf (f := Run.addresses)
    (x := steps laidFor16 0 (storesItself ++ [.stoImm [1]]) laidFor16.blank)
    (a := [(0x10000, ⟨8, 0, 0x10000, none⟩)]) (by decide +kernel)
  have hrun : ReflTransGen (Next laidFor16 Careful) laidFor16.blank r := by
    refine (leaves_steps (fun cmd hcmd r => ?_) _).1 _ _ hr
    fin_cases hcmd <;> simp [Careful]
  exact ⟨r, hlay, hr, hval, fixups_tracked hlay hrun⟩

/-- A repeated store of nothing takes the address out of the record. -/
theorem not_tracked : ¬ ∀ l₀ l base r, Linker.layout l₀ base = .ok l →
    ReflTransGen (Next l fun _ _ => True) l.blank r → Tracked l r := by
  intro hall
  have hlay : roomFor16.layout 0x10000 = .ok laidFor16 := by decide +kernel
  obtain ⟨r, hr, hval⟩ := of_endOf (f := fun r => (r.addresses, r.log))
    (x := steps laidFor16 0 (storesItself ++ countsNothing) laidFor16.blank)
    (a := ([], [.store 0x10000 8, .address 0x10000 8])) (by decide +kernel)
  obtain ⟨haddr, hlog⟩ := Prod.mk.inj hval
  have ht := hall _ _ _ r hlay ((leaves_steps (fun _ _ _ => trivial) _).1 () r hr)
  -- nothing is stored over the address, but no fixup is left
  have hlist : ({ laidFor16 with stored := r.stored } : Linker).fixupList = .ok ⟨[], [], 0, 0⟩ := by
    have hfilter : r.stored.filter (·.2.stuck.isNone) = [] := haddr
    unfold Linker.fixupList
    simp only [hfilter]
    rfl
  have hstands : Standing r.log (laidFor16.start + 0) 8 := by
    rw [hlog]
    exact ⟨[.store 0x10000 8], [], rfl, fun e he => absurd he not_mem_nil⟩
  exact not_mem_nil (((ht.reported _ hlist).2 (0, 8)).mpr hstands)

end Link
