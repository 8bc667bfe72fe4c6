/-
  Locks that hold modes on one resource hold modes that go together.
-/
import Vaxpunk.Lock.Proof.Refine

namespace Lock

variable {s s' : Db} {l r x w : ℕ} {mode : Mode} {ok : Db → Request → Prop} {env : Env}

/-! ## Modes -/

theorem compatible_comm (a b : Mode) : compatible a b = compatible b a := by
  cases a <;> cases b <;> rfl

/-- `l` has a mode on `r`, granted or kept while it converts. -/
def Db.Holder (s : Db) (r l : ℕ) : Prop :=
  l ∈ s.lkbs ∧ (s.lk l).rsb = r ∧ (s.lk l).state ≠ .waiting

theorem holds_eq_false {q : LkbState} : holds s r q l mode = false ↔
    ∀ b ∈ (s.rs r).queue q, b ≠ l → compatible mode (s.lk b).grmode := by
  simp [holds]

theorem grantable_iff (hs : Struct s) : grantable s r l mode ↔
    ∀ b, s.Holder r b → b ≠ l → compatible mode (s.lk b).grmode := by
  rw [grantable, Bool.and_eq_true, Bool.not_eq_true', Bool.not_eq_true', holds_eq_false, holds_eq_false]
  constructor
  · rintro ⟨hg, hc⟩ b ⟨hb, hr, hst⟩ hne
    have hon := hs.mem_queue hb
    rw [hr] at hon
    cases hq : (s.lk b).state <;> rw [hq] at hon
    · exact hg b hon hne
    · exact hc b hon hne
    · exact absurd hq hst
  · intro h
    constructor <;> intro b hb hne <;> obtain ⟨hb, hr, hst⟩ := (hs.on b r _).mp hb <;>
      exact h b ⟨hb, hr, by simp [hst]⟩ hne

/-! ## Exclusion -/

/-- Any two locks that have modes on a resource have modes that go together. -/
def Exclusive (s : Db) : Prop :=
  ∀ r a b, s.Holder r a → s.Holder r b → a ≠ b → compatible (s.lk a).grmode (s.lk b).grmode

namespace Exclusive

theorem congr (h : s'.core = s.core) (he : Exclusive s) : Exclusive s' := by
  have he' : Exclusive s.core := he
  rw [← h] at he'
  exact he'

section
variable (he : Exclusive s)
include he

theorem of_holder (l : ℕ) (hold : ∀ r a, a ≠ l → s'.Holder r a → s.Holder r a ∧ (s'.lk a).grmode = (s.lk a).grmode)
    (hnew : ∀ r b, s'.Holder r l → b ≠ l → s.Holder r b →
      compatible (s'.lk l).grmode (s.lk b).grmode) : Exclusive s' := by
  intro r a b ha hb hne
  by_cases hal : a = l
  · subst hal
    obtain ⟨hb', hgr⟩ := hold r b hne.symm hb
    rw [hgr]
    exact hnew r b ha hne.symm hb'
  · obtain ⟨ha', hgra⟩ := hold r a hal ha
    by_cases hbl : b = l
    · subst hbl
      rw [compatible_comm, hgra]
      exact hnew r a hb hal ha'
    · obtain ⟨hb', hgrb⟩ := hold r b hbl hb
      rw [hgra, hgrb]
      exact he r a b ha' hb' hne

theorem setLkb {f : Lkb → Lkb} (hrsb : (f (s.lk l)).rsb = (s.lk l).rsb)
    (hmode : ∀ b, s.Holder (s.lk l).rsb b → b ≠ l → (f (s.lk l)).state ≠ .waiting →
      compatible (f (s.lk l)).grmode (s.lk b).grmode) : Exclusive (s.setLkb l f) := by
  refine he.of_holder l (fun r a ha h => ?_) fun r b h hb hbh => ?_
  · rw [Db.Holder, lk_setLkb, if_neg ha] at h
    exact ⟨h, by rw [lk_setLkb, if_neg ha]⟩
  · rw [Db.Holder, lk_setLkb, if_pos rfl] at h
    rw [lk_setLkb, if_pos rfl]
    refine hmode b ?_ hb h.2.2
    rwa [← hrsb, h.2.1]

theorem moveTo {f : Lkb → Lkb} {q : LkbState} (hrsb : (f (s.lk l)).rsb = (s.lk l).rsb)
    (hmode : ∀ b, s.Holder (s.lk l).rsb b → b ≠ l → (f (s.lk l)).state ≠ .waiting →
      compatible (f (s.lk l)).grmode (s.lk b).grmode) : Exclusive (moveTo s l q f) := by
  have h := he.setLkb (l := l) hrsb hmode
  simp only [Exclusive, Db.Holder, lk_setLkb] at h
  simp only [Exclusive, Db.Holder, lk_moveTo]
  exact h

theorem remove : Exclusive (remove s l) := by
  refine he.of_holder l (fun r a ha h => ?_) fun r b h => ?_
  · simp only [Db.Holder, remove_lk, lkbs_remove] at h ⊢
    exact ⟨⟨Finset.mem_of_mem_erase h.1, h.2⟩, trivial⟩
  · rw [Db.Holder, lkbs_remove] at h
    exact absurd rfl (Finset.ne_of_mem_erase h.1)

theorem add {L : Lkb} {i max : ℕ}
    (hmode : ∀ b, s.Holder L.rsb b → L.state ≠ .waiting → compatible L.grmode (s.lk b).grmode) :
    Exclusive (add s l L i max) := by
  refine he.of_holder l (fun r a ha h => ?_) fun r b h hb hbh => ?_
  · simp only [Db.Holder, add_lk, if_neg ha, lkbs_add, Finset.mem_insert] at h ⊢
    exact ⟨⟨h.1.resolve_left ha, h.2⟩, trivial⟩
  · simp only [Db.Holder, add_lk, if_true] at h ⊢
    exact hmode b (h.2.1 ▸ hbh) h.2.2

end

/-- **Every act keeps exclusion.** -/
theorem act (hs : Struct s) (he : Exclusive s) (h : Act w ok s s') : Exclusive s' := by
  have holder : ∀ l ∈ s.lkbs, (s.lk l).state ≠ .waiting → ∀ b, s.Holder (s.lk l).rsb b → b ≠ l →
      compatible (s.lk l).grmode (s.lk b).grmode :=
    fun l hl hst b hb hne => he _ l b ⟨hl, rfl, hst⟩ hb hne.symm
  cases h with
  | rest h => exact he.congr h
  | grant l cv hl hq _ _ hg h =>
    exact congr h (he.moveTo (f := Lkb.grant) (q := .granted) rfl fun b hb hne _ => (grantable_iff hs).mp hg b hb hne)
  | convert l mode hl hq hnow _ h =>
    exact congr h (he.setLkb rfl fun b hb hne _ => (grantable_iff hs).mp hnow.2 b hb hne)
  | queue l mode hl hq _ _ h =>
    exact congr h (he.moveTo (f := Lkb.ask mode w) rfl fun b hb hne _ => holder l hl (by simp [hq]) b hb hne)
  | giveUp l hl hq h =>
    exact congr h (he.moveTo (f := Lkb.giveUp) (q := .granted) rfl fun b hb hne _ =>
      holder l hl (by simp [hq]) b hb hne)
  | remove l hl hsub h => exact congr h he.remove
  | grantNew l L i max hf _ hmode _ hnow _ h =>
    refine congr h (he.add fun b hb _ => hmode ▸ (grantable_iff hs).mp hnow.2 b hb ?_)
    exact fun h0 => hs.lkb_ne (h0 ▸ hb.1)
  | queueNew l L i max hf hq _ _ _ h => exact congr h (he.add fun b hb hst => absurd hq hst)
  | make r R _ _ _ _ h => exact congr h he
  | free r h =>
    refine congr h ?_
    unfold freeRsb
    dsimp only
    split_ifs
    exacts [he, he]
  | tick l hl _ h | search l hl _ h =>
    refine congr h (he.setLkb rfl fun b hb hne hst => ?_)
    exact holder l hl hst b hb hne

end Exclusive

theorem Reached.exclusive {okc : Db → Call → Prop} (h : Reached env okc s) : Exclusive s :=
  h.keep_any (fun _ _ hs he hact => he.act hs hact) (by simp [Exclusive, Db.Holder, Db.empty])

/-- **Mutual exclusion**: in every database reached, two locks on the granted
    and conversion queues of a resource hold modes that go together. -/
theorem exclusion (h : Reached env anyCall s) {r a b : ℕ}
    (ha : a ∈ (s.rs r).queue .granted ++ (s.rs r).queue .converting)
    (hb : b ∈ (s.rs r).queue .granted ++ (s.rs r).queue .converting) (hne : a ≠ b) :
    compatible (s.lk a).grmode (s.lk b).grmode := by
  have hs := h.struct
  have holder : ∀ x ∈ (s.rs r).queue .granted ++ (s.rs r).queue .converting, s.Holder r x := by
    intro x hx
    simp only [List.mem_append, hs.on] at hx
    rcases hx with ⟨hx, hr, hst⟩ | ⟨hx, hr, hst⟩ <;> exact ⟨hx, hr, by simp [hst]⟩
  exact h.exclusive r a b (holder a ha) (holder b hb) hne

theorem exclusion_waiting : compatible (waiting.lk 11).grmode (waiting.lk 12).grmode :=
  exclusion reached_waiting (r := 1) (by decide +kernel) (by decide +kernel) (by decide)

end Lock
