/-
  What the image holds that matters if it moves: entries apart from each other, of
  which a store cuts those it goes over.
-/
import Vaxpunk.Link.Run

namespace Link

open SortedMap List

variable {e : ℕ × Stored}

/-- An entry that holds the byte at `x`. -/
def Covered (m : List (ℕ × Stored)) (x : ℕ) : Prop := ∃ e ∈ m, e.1 ≤ x ∧ x < e.1 + e.2.size

/-- Entries in order, none empty, each ending before the next starts. -/
structure Apart (m : List (ℕ × Stored)) : Prop where
  sorted : Sorted m
  apart : ∀ e ∈ m, ∀ f ∈ m, e.1 < f.1 → e.1 + e.2.size ≤ f.1
  pos : ∀ e ∈ m, 0 < e.2.size

theorem Apart.nil : Apart [] := ⟨.nil, by simp, by simp⟩

section
variable {m : List (ℕ × Stored)} {at_ stop a : ℕ} {old : Stored}

theorem mem_addRest {why : Stuck} {lo hi : ℕ} (h : Sorted m) :
    e ∈ addRest old why lo hi m ↔
      (lo < hi ∧ e = (lo, { old with size := hi - lo, stuck := some why })) ∨
      e ∈ m ∧ (lo < hi → e.1 ≠ lo) := by
  unfold addRest
  split_ifs with hlt
  · rw [mem_insert h]
    simp [hlt]
  · simp [hlt]

theorem sorted_addRest {why : Stuck} {lo hi : ℕ} (h : Sorted m) :
    Sorted (addRest old why lo hi m) := by
  unfold addRest
  split_ifs
  · exact h.insert _ _
  · exact h

theorem Apart.mem_cut (h : Apart m) (ha : (a, old) ∈ m) (hstop : a < stop) :
    e ∈ cut at_ stop m a ↔
      (e ∈ m ∧ e.1 ≠ a) ∨
      (a < at_ ∧ e = (a, { old with size := at_ - a, stuck := some (old.stuck.getD (.part a)) })) ∨
      (stop < a + old.size ∧
        e = (stop, { old with size := a + old.size - stop, stuck := some (old.stuck.getD (.part a)) })) := by
  have hs := h.sorted.erase a
  have hs' : Sorted (addRest old (old.stuck.getD (.part a)) a at_ (erase a m)) := sorted_addRest hs
  unfold cut
  rw [h.sorted.lookup_of_mem ha]
  simp only
  rw [mem_addRest hs', mem_addRest hs, SortedMap.mem_erase]
  constructor
  · rintro (⟨hlt, rfl⟩ | ⟨⟨hlt, rfl⟩ | ⟨⟨hem, hea⟩, -⟩, -⟩)
    · exact .inr (.inr ⟨hlt, rfl⟩)
    · exact .inr (.inl ⟨hlt, rfl⟩)
    · exact .inl ⟨hem, hea⟩
  · rintro (⟨hem, hea⟩ | ⟨hlt, rfl⟩ | ⟨hlt, rfl⟩)
    · refine .inr ⟨.inr ⟨⟨hem, hea⟩, fun _ => hea⟩, fun hlt heq => ?_⟩
      have := h.apart _ ha _ hem (by omega)
      simp only at this
      omega
    · exact .inr ⟨.inl ⟨hlt, rfl⟩, fun _ => by simp only; omega⟩
    · exact .inl ⟨hlt, rfl⟩

theorem sorted_cut (h : Sorted m) : Sorted (cut at_ stop m a) := by
  unfold cut
  split
  · exact h
  · exact sorted_addRest (sorted_addRest (h.erase a))

theorem Apart.cut (h : Apart m) (ha : (a, old) ∈ m) (hleft : a < at_ → at_ < a + old.size)
    (hstop : a < stop) (hle : at_ ≤ stop) : Apart (cut at_ stop m a) := by
  have hold : ∀ f ∈ m, f.1 ≠ a → f.1 + f.2.size ≤ a ∨ a + old.size ≤ f.1 := by
    intro f hf hfa
    rcases Nat.lt_or_gt_of_ne hfa with hlt | hgt
    · exact .inl (h.apart f hf _ ha hlt)
    · exact .inr (h.apart _ ha f hf hgt)
  refine ⟨sorted_cut h.sorted, fun e he f hf hef => ?_, fun e he => ?_⟩
  · rcases (h.mem_cut ha hstop).mp he with ⟨hem, hea⟩ | ⟨hlt, rfl⟩ | ⟨hlt, rfl⟩ <;>
      rcases (h.mem_cut ha hstop).mp hf with ⟨hfm, hfa⟩ | ⟨hlt', rfl⟩ | ⟨hlt', rfl⟩
    · exact h.apart e hem f hfm hef
    · have := h.apart e hem _ ha hef
      exact this
    · have := hold e hem hea
      have := h.pos e hem
      simp only at hef ⊢
      omega
    · have := hold f hfm hfa
      have := h.pos f hfm
      simp only at hef ⊢
      omega
    · simp only at hef
      omega
    · simp only at hef ⊢
      omega
    · have := hold f hfm hfa
      have := h.pos f hfm
      simp only at hef ⊢
      omega
    · simp only at hef ⊢
      omega
    · simp only at hef
      omega
  · rcases (h.mem_cut ha hstop).mp he with ⟨hem, -⟩ | ⟨hlt, rfl⟩ | ⟨hlt, rfl⟩
    · exact h.pos e hem
    · simp only
      omega
    · simp only
      omega

theorem Apart.covered_cut (h : Apart m) (ha : (a, old) ∈ m) (hstop : a < stop) {x : ℕ}
    (hx : x < at_ ∨ stop ≤ x) (hc : Covered m x) : Covered (Link.cut at_ stop m a) x := by
  obtain ⟨e, hem, hlo, hhi⟩ := hc
  by_cases hea : e.1 = a
  · obtain rfl : e = (a, old) := h.sorted.eq_of_key hem ha hea
    rcases hx with hx | hx
    · exact ⟨_, (h.mem_cut ha hstop).mpr (.inr (.inl ⟨by simp only at hlo; omega, rfl⟩)), hlo,
        by simp only at hlo ⊢; omega⟩
    · exact ⟨_, (h.mem_cut ha hstop).mpr (.inr (.inr ⟨by simp only at hhi; omega, rfl⟩)), hx,
        by simp only at hhi ⊢; omega⟩
  · exact ⟨e, (h.mem_cut ha hstop).mpr (.inl ⟨hem, hea⟩), hlo, hhi⟩

theorem Apart.cut_within (h : Apart m) (ha : (a, old) ∈ m) (hleft : a < at_ → at_ < a + old.size)
    (hstop : a < stop) (he : e ∈ Link.cut at_ stop m a) :
    ∃ f ∈ m, f.1 ≤ e.1 ∧ e.1 + e.2.size ≤ f.1 + f.2.size := by
  rcases (h.mem_cut ha hstop).mp he with ⟨hem, -⟩ | ⟨hlt, rfl⟩ | ⟨hlt, rfl⟩
  · exact ⟨e, hem, le_rfl, le_rfl⟩
  · refine ⟨_, ha, le_rfl, ?_⟩
    have := hleft hlt
    simp only
    omega
  · refine ⟨_, ha, hstop.le, ?_⟩
    simp only
    omega

theorem Apart.foldl_cut {ks : List ℕ} (hle : at_ ≤ stop) (hks : ks.Nodup) (h : Apart m)
    (hhit : ∀ a ∈ ks, ∃ old, (a, old) ∈ m ∧ (a < at_ → at_ < a + old.size) ∧ a < stop) :
    Apart (ks.foldl (Link.cut at_ stop) m) ∧
    (∀ x, (x < at_ ∨ stop ≤ x) → Covered m x → Covered (ks.foldl (Link.cut at_ stop) m) x) ∧
    (∀ e ∈ ks.foldl (Link.cut at_ stop) m,
      e ∈ m ∧ e.1 ∉ ks ∨ e.2.stuck ≠ none ∧ (e.1 + e.2.size ≤ at_ ∨ stop ≤ e.1)) ∧
    (∀ e ∈ ks.foldl (Link.cut at_ stop) m, ∃ f ∈ m, f.1 ≤ e.1 ∧ e.1 + e.2.size ≤ f.1 + f.2.size) ∧
    ∀ e ∈ m, e.1 ∉ ks → e ∈ ks.foldl (Link.cut at_ stop) m := by
  induction ks generalizing m with
  | nil =>
    exact ⟨h, fun x _ hc => hc, fun e he => .inl ⟨he, not_mem_nil⟩,
      fun e he => ⟨e, he, le_rfl, le_rfl⟩, fun e he _ => he⟩
  | cons a ks ih =>
    obtain ⟨hna, hks⟩ := nodup_cons.mp hks
    obtain ⟨old, ha, hleft, hstop⟩ := hhit a mem_cons_self
    have hother : ∀ b ∈ ks, ∃ old, (b, old) ∈ Link.cut at_ stop m a ∧
        (b < at_ → at_ < b + old.size) ∧ b < stop := by
      intro b hb
      obtain ⟨oldb, hbm, hb'⟩ := hhit b (mem_cons_of_mem _ hb)
      refine ⟨oldb, (h.mem_cut ha hstop).mpr (.inl ⟨hbm, ?_⟩), hb'⟩
      rintro rfl
      exact hna hb
    obtain ⟨hap, hcov, hmem, hwithin, hkeep⟩ := ih hks (h.cut ha hleft hstop hle) hother
    refine ⟨hap, fun x hx hc => hcov x hx (h.covered_cut ha hstop hx hc), fun e he => ?_,
      fun e he => ?_, fun e he hek => ?_⟩
    · rcases hmem e he with ⟨hec, hek⟩ | hstuck
      · rcases (h.mem_cut ha hstop).mp hec with ⟨hem, hea⟩ | ⟨hlt, rfl⟩ | ⟨hlt, rfl⟩
        · exact .inl ⟨hem, by simp [hea, hek]⟩
        · exact .inr ⟨by simp, .inl (by simp only; omega)⟩
        · exact .inr ⟨by simp, .inr le_rfl⟩
      · exact .inr hstuck
    · obtain ⟨f, hf, hlo, hhi⟩ := hwithin e he
      obtain ⟨g, hg, hlo', hhi'⟩ := h.cut_within ha hleft hstop hf
      exact ⟨g, hg, hlo'.trans hlo, hhi.trans hhi'⟩
    · rw [mem_cons, not_or] at hek
      obtain ⟨hea, hek⟩ := hek
      exact hkeep e ((h.mem_cut ha hstop).mpr (.inl ⟨he, hea⟩)) hek

theorem mem_hits {a : ℕ} : a ∈ hits at_ stop m ↔
    (∃ s, lastBelow at_ m = some (a, s) ∧ at_ < a + s.size) ∨
      ∃ s, (a, s) ∈ m ∧ at_ ≤ a ∧ a < stop := by
  unfold hits
  simp only [mem_append, Option.mem_toList, Option.bind_eq_some_iff,
    mem_map, SortedMap.between, mem_filter, decide_eq_true_eq]
  constructor
  · rintro (⟨⟨b, s⟩, hl, hif⟩ | ⟨⟨b, s⟩, ⟨hm, hb⟩, rfl⟩)
    · split_ifs at hif with hlt
      cases hif
      exact .inl ⟨s, hl, hlt⟩
    · exact .inr ⟨s, hm, hb⟩
  · rintro (⟨s, hl, hlt⟩ | ⟨s, hm, hb⟩)
    · exact .inl ⟨(a, s), hl, by simp [hlt]⟩
    · exact .inr ⟨(a, s), ⟨hm, hb⟩, rfl⟩

section
variable (h : Apart m)
include h

theorem Apart.nodup_hits : (hits at_ stop m).Nodup := by
  have hright : ((SortedMap.between at_ stop m).map (·.1)).Nodup := by
    rw [nodup_iff_pairwise_ne, pairwise_map]
    exact (h.sorted.filter _).imp fun hlt => hlt.ne
  refine nodup_append.mpr ⟨?_, hright, fun a ha b hb hab => ?_⟩
  · generalize (SortedMap.lastBelow at_ m).bind _ = left
    cases left <;> simp
  · subst hab
    rw [Option.mem_toList, Option.bind_eq_some_iff] at ha
    obtain ⟨⟨c, s⟩, hl, hif⟩ := ha
    simp only at hif
    split_ifs at hif
    cases hif
    have hlt := (lastBelow_eq_some h.sorted hl).2.1
    obtain ⟨e, he, rfl⟩ := mem_map.mp hb
    rw [SortedMap.between, mem_filter, decide_eq_true_eq] at he
    simp only at hlt
    omega

theorem Apart.apart_of_not_hit (he : e ∈ m) (hn : e.1 ∉ hits at_ stop m) : e.1 + e.2.size ≤ at_ ∨ stop ≤ e.1 := by
  by_cases hlt : e.1 < at_
  · left
    cases hl : lastBelow at_ m with
    | none =>
      have := lastBelow_eq_none hl e he
      omega
    | some f =>
      obtain ⟨hfm, hflt, hlast⟩ := lastBelow_eq_some h.sorted hl
      have hef := hlast e he hlt
      rcases Nat.lt_or_eq_of_le hef with hef | hef
      · have := h.apart e he f hfm hef
        omega
      · obtain rfl := h.sorted.eq_of_key he hfm hef
        by_contra hover
        exact hn (mem_hits.mpr (.inl ⟨e.2, hl, by omega⟩))
  · right
    by_contra hover
    exact hn (mem_hits.mpr (.inr ⟨e.2, he, by omega, by omega⟩))

theorem Apart.of_mem_hits {a : ℕ} (ha : a ∈ hits at_ stop m) (hle : at_ ≤ stop) :
    ∃ old, (a, old) ∈ m ∧ (a < at_ → at_ < a + old.size) ∧ a < stop := by
  rcases mem_hits.mp ha with ⟨s, hl, hlt⟩ | ⟨s, hm, hge, hlt⟩
  · obtain ⟨hm, hlt', -⟩ := lastBelow_eq_some h.sorted hl
    exact ⟨s, hm, fun _ => hlt, by simp only at hlt'; omega⟩
  · exact ⟨s, hm, fun h => by omega, hlt⟩

/-- **A store over the entries**: they stay apart, no byte outside is lost, what is
    left does not reach into the bytes stored, and the addresses left are whole. -/
theorem Apart.over (hle : at_ ≤ stop) : Apart ((hits at_ stop m).foldl (Link.cut at_ stop) m) ∧
    (∀ x, (x < at_ ∨ stop ≤ x) → Covered m x →
      Covered ((hits at_ stop m).foldl (Link.cut at_ stop) m) x) ∧
    (∀ e ∈ (hits at_ stop m).foldl (Link.cut at_ stop) m,
      (e.1 + e.2.size ≤ at_ ∨ stop ≤ e.1) ∧ (e.2.stuck = none → e ∈ m)) := by
  obtain ⟨hap, hcov, hmem, -⟩ := h.foldl_cut hle h.nodup_hits fun a ha => h.of_mem_hits ha hle
  refine ⟨hap, hcov, fun e he => ?_⟩
  rcases hmem e he with ⟨hem, hek⟩ | ⟨hstuck, hapart⟩
  · exact ⟨h.apart_of_not_hit hem hek, fun _ => hem⟩
  · exact ⟨hapart, fun hn => absurd hn hstuck⟩

theorem Apart.over_within (hle : at_ ≤ stop) (he : e ∈ (hits at_ stop m).foldl (Link.cut at_ stop) m) :
    ∃ f ∈ m, f.1 ≤ e.1 ∧ e.1 + e.2.size ≤ f.1 + f.2.size :=
  (h.foldl_cut hle h.nodup_hits fun _ ha => h.of_mem_hits ha hle).2.2.2.1 e he

theorem Apart.over_keeps (hle : at_ ≤ stop) (he : e ∈ m)
    (hout : e.1 + e.2.size ≤ at_ ∨ stop ≤ e.1 ∨ at_ = stop ∧ at_ ≤ e.1) :
    e ∈ (hits at_ stop m).foldl (Link.cut at_ stop) m := by
  refine (h.foldl_cut hle h.nodup_hits fun _ ha => h.of_mem_hits ha hle).2.2.2.2 e he fun hit => ?_
  have hpos := h.pos e he
  rcases mem_hits.mp hit with ⟨s, hl, hlt⟩ | ⟨s, -, hge, hlt⟩
  · obtain ⟨hm, hlt', -⟩ := lastBelow_eq_some h.sorted hl
    obtain rfl : s = e.2 := congrArg Prod.snd (h.sorted.eq_of_key hm he rfl)
    simp only at hlt'
    omega
  · omega

theorem Apart.insert {new : Stored} (hpos : 0 < new.size)
    (hfree : ∀ e ∈ m, e.1 + e.2.size ≤ at_ ∨ at_ + new.size ≤ e.1) :
    Apart (SortedMap.insert at_ new m) := by
  refine ⟨h.sorted.insert _ _, fun e he f hf hef => ?_, fun e he => ?_⟩
  · rcases (mem_insert h.sorted).mp he with rfl | ⟨hem, -⟩ <;>
      rcases (mem_insert h.sorted).mp hf with rfl | ⟨hfm, -⟩
    · exact absurd hef (lt_irrefl _)
    · have := hfree f hfm
      have := h.pos f hfm
      simp only at hef ⊢
      omega
    · have := hfree e hem
      simp only at hef ⊢
      omega
    · exact h.apart e hem f hfm hef
  · rcases (mem_insert h.sorted).mp he with rfl | ⟨hem, -⟩
    · exact hpos
    · exact h.pos e hem

end

end

end Link
