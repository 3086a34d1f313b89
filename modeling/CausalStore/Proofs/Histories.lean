import CausalStore.Proofs.ClockOrder
import CausalStore.Update
import Mathlib.Data.Finset.Lattice.Lemmas

/-!
# Clocks and the writes that they stand for

`made` lists the writes of a run, the latest first. Where each of them is its origin's next
(`Numbered`), a clock can stand for a set of them: those whose number it has reached (`Covers`).
Counting a new write, merging, and applying an update that is next keep this.
-/

namespace CausalStore

/-- The place of the update among its origin's writes as a number. -/
def Update.number (u : Update) : Nat := u.clock.count u.origin

/-- How many of the writes are of the origin `o`. -/
def writesOf (made : List Update) (o : NodeId) : Nat := made.countP fun u => u.origin = o

/-- Each write, the latest first, is the next one of its origin. -/
def Numbered : List Update → Prop
  | [] => True
  | u :: made => u.number = writesOf made u.origin + 1 ∧ Numbered made

variable {made : List Update} {u v : Update} {o : NodeId} {c d : Clock} {h k : Finset Update}

@[simp] theorem writesOf_nil : writesOf [] o = 0 := rfl

theorem writesOf_cons_self : writesOf (u :: made) u.origin = writesOf made u.origin + 1 := by
  simp [writesOf]

theorem writesOf_cons_of_ne (ho : u.origin ≠ o) : writesOf (u :: made) o = writesOf made o := by
  simp [writesOf, ho]

theorem writesOf_le_cons : writesOf made o ≤ writesOf (u :: made) o :=
  (List.sublist_cons_self u made).countP_le

namespace Numbered

theorem pos (H : Numbered made) (hu : u ∈ made) : 1 ≤ u.number := by
  induction made with
  | nil => cases hu
  | cons v made ih =>
    rcases List.mem_cons.1 hu with rfl | hu
    · have := H.1; omega
    · exact ih H.2 hu

theorem le (H : Numbered made) (hu : u ∈ made) : u.number ≤ writesOf made u.origin := by
  induction made with
  | nil => cases hu
  | cons v made ih =>
    rcases List.mem_cons.1 hu with rfl | hu
    · rw [writesOf_cons_self]; exact Nat.le_of_eq H.1
    · exact (ih H.2 hu).trans writesOf_le_cons

theorem inj (H : Numbered made) (hu : u ∈ made) (hv : v ∈ made) (ho : u.origin = v.origin)
    (hn : u.number = v.number) : u = v := by
  induction made with
  | nil => cases hu
  | cons w made ih =>
    rcases List.mem_cons.1 hu with rfl | hu' <;> rcases List.mem_cons.1 hv with rfl | hv'
    · rfl
    · have h₁ := H.1
      have h₂ := le H.2 hv'
      rw [ho] at h₁
      omega
    · have h₁ := H.1
      have h₂ := le H.2 hu'
      rw [← ho] at h₁
      omega
    · exact ih H.2 hu' hv'

/-- No number is left out. -/
theorem exists_number (H : Numbered made) {n : Nat} (hn : 1 ≤ n) (hle : n ≤ writesOf made o) :
    ∃ u ∈ made, u.origin = o ∧ u.number = n := by
  induction made with
  | nil => rw [writesOf_nil] at hle; omega
  | cons v made ih =>
    by_cases hv : v.origin = o
    · subst hv
      by_cases hlast : n = v.number
      · exact ⟨v, List.mem_cons_self, rfl, hlast.symm⟩
      · rw [writesOf_cons_self] at hle
        obtain ⟨u, hu, h⟩ := ih H.2 (by have := H.1; omega)
        exact ⟨u, List.mem_cons_of_mem _ hu, h⟩
    · rw [writesOf_cons_of_ne hv] at hle
      obtain ⟨u, hu, h⟩ := ih H.2 hle
      exact ⟨u, List.mem_cons_of_mem _ hu, h⟩

theorem not_mem (H : Numbered (u :: made)) : u ∉ made := fun hu => by
  have h₁ := H.1
  have h₂ := H.2.le hu
  omega

theorem nodup (H : Numbered made) : made.Nodup := by
  induction made with
  | nil => exact .nil
  | cons u made ih => exact List.nodup_cons.2 ⟨H.not_mem, ih H.2⟩

end Numbered

/-- The clock `c` stands for the writes `h` out of `made`: they are those whose number it has
reached, and it covers everything that they depend on. -/
structure Covers (made : List Update) (c : Clock) (h : Finset Update) : Prop where
  bounded : ∀ o, c.count o ≤ writesOf made o
  mem_iff : ∀ u, u ∈ h ↔ u ∈ made ∧ u.number ≤ c.count u.origin
  closed : ∀ u ∈ h, c.dominates u.clock = true

namespace Covers

theorem mem (H : Covers made c h) (hu : u ∈ h) : u ∈ made := ((H.mem_iff u).1 hu).1

/-- A clock without counts stands for nothing. -/
theorem empty (hN : Numbered made) (hc : ∀ o, c.count o = 0) : Covers made c ∅ where
  bounded o := by rw [hc]; exact Nat.zero_le _
  mem_iff u := by
    refine ⟨fun hu => absurd hu (Finset.notMem_empty u), fun ⟨hu, hle⟩ => ?_⟩
    have := hN.pos hu
    rw [hc] at hle
    omega
  closed u hu := absurd hu (Finset.notMem_empty u)

theorem congr (H : Covers made c h) (hd : ∀ o, d.count o = c.count o) : Covers made d h where
  bounded o := by rw [hd]; exact H.bounded o
  mem_iff u := by rw [hd]; exact H.mem_iff u
  closed u hu := Clock.dominates_iff.2 fun o => by
    rw [hd]; exact Clock.dominates_iff.1 (H.closed u hu) o

theorem merge (Hc : Covers made c h) (Hd : Covers made d k) : Covers made (c.merge d) (h ∪ k) where
  bounded o := by
    rw [Clock.count_merge]
    exact Nat.max_le.2 ⟨Hc.bounded o, Hd.bounded o⟩
  mem_iff u := by
    rw [Finset.mem_union, Hc.mem_iff, Hd.mem_iff, Clock.count_merge, le_max_iff,
      and_or_left]
  closed u hu := by
    rcases Finset.mem_union.1 hu with hu | hu
    · exact Clock.dominates_trans (Clock.dominates_merge_left c d) (Hc.closed u hu)
    · exact Clock.dominates_trans (Clock.dominates_merge_right c d) (Hd.closed u hu)

/-- What a clock stands for does not change when somebody writes. -/
theorem cons (H : Covers made c h) (hu : u.number = writesOf made u.origin + 1) :
    Covers (u :: made) c h where
  bounded o := (H.bounded o).trans writesOf_le_cons
  mem_iff v := by
    rw [H.mem_iff, List.mem_cons]
    refine ⟨fun ⟨hv, hle⟩ => ⟨.inr hv, hle⟩, fun ⟨hv, hle⟩ => ⟨?_, hle⟩⟩
    refine hv.resolve_left fun e => ?_
    subst e
    have := H.bounded v.origin
    omega
  closed := H.closed

/-- The clock of an origin that has counted all its writes stands, counted on, for the new write
as well. -/
theorem increment (hN : Numbered made) (H : Covers made c h)
    (hown : c.count u.origin = writesOf made u.origin)
    (hd : c.increment u.origin = .ok u.clock) : Covers (u :: made) u.clock (insert u h) := by
  obtain ⟨hself, hother⟩ := Clock.increment_spec hd
  have hnum : u.number = writesOf made u.origin + 1 := by rw [Update.number, hself, hown]
  have hdom := Clock.increment_dominates hd
  refine ⟨fun o => ?_, fun v => ?_, fun v hv => ?_⟩
  · by_cases ho : o = u.origin
    · subst ho
      rw [writesOf_cons_self, hself, hown]
    · rw [hother o ho]
      exact (H.bounded o).trans writesOf_le_cons
  · rw [Finset.mem_insert, List.mem_cons]
    constructor
    · rintro (rfl | hv)
      · exact ⟨.inl rfl, Nat.le_refl _⟩
      · obtain ⟨hmem, hle⟩ := (H.mem_iff v).1 hv
        exact ⟨.inr hmem, hle.trans (Clock.dominates_iff.1 hdom _)⟩
    · rintro ⟨rfl | hv, hle⟩
      · exact .inl rfl
      · refine .inr ((H.mem_iff v).2 ⟨hv, ?_⟩)
        by_cases ho : v.origin = u.origin
        · rw [ho, hown, ← ho]
          exact hN.le hv
        · rw [← hother _ ho]
          exact hle
  · rcases Finset.mem_insert.1 hv with rfl | hv
    · exact Clock.dominates_refl _
    · exact Clock.dominates_trans hdom (H.closed v hv)

/-- An update that is next depends on nothing that the clock does not stand for, and merging its
clock adds the update alone. -/
theorem apply (hN : Numbered made) (H : Covers made c h) (Hu : Covers made u.clock k) (hu : u ∈ k)
    (hadm : c.admits u.origin u.clock = true) : Covers made (c.merge u.clock) (insert u h) := by
  have hpos : u.clock.count u.origin ≠ 0 := Nat.one_le_iff_ne_zero.1 (hN.pos (Hu.mem hu))
  obtain ⟨hself, hother⟩ := (Clock.admits_iff_of_count_ne_zero hpos).1 hadm
  have hk : ∀ v ∈ k, v = u ∨ v ∈ h := fun v hv => by
    obtain ⟨hmem, hle⟩ := (Hu.mem_iff v).1 hv
    by_cases ho : v.origin = u.origin
    · by_cases hn : v.number = u.number
      · exact .inl (hN.inj hmem (Hu.mem hu) ho hn)
      · refine .inr ((H.mem_iff v).2 ⟨hmem, ?_⟩)
        rw [ho] at hle ⊢
        simp only [Update.number] at hn hle ⊢
        omega
    · exact .inr ((H.mem_iff v).2 ⟨hmem, hle.trans (hother _ ho)⟩)
  have hset : h ∪ k = insert u h := by
    ext v
    rw [Finset.mem_union, Finset.mem_insert]
    exact ⟨fun hv => hv.elim .inr (hk v), fun hv => hv.elim (fun e => .inr (e ▸ hu)) .inl⟩
  exact hset ▸ H.merge Hu

/-- A write is covered by a clock exactly when the clock stands for it. -/
theorem dominates_iff (H : Covers made c h) (hu : u ∈ made) :
    c.dominates u.clock = true ↔ u ∈ h :=
  ⟨fun hd => (H.mem_iff u).2 ⟨hu, Clock.dominates_iff.1 hd u.origin⟩, H.closed u⟩

/-- An update that is next is not covered yet. -/
theorem not_mem_of_admits (hN : Numbered made) (H : Covers made c h) (hu : u ∈ made)
    (hadm : c.admits u.origin u.clock = true) : u ∉ h := fun hmem => by
  have hpos : u.clock.count u.origin ≠ 0 := Nat.one_le_iff_ne_zero.1 (hN.pos hu)
  have hself := ((Clock.admits_iff_of_count_ne_zero hpos).1 hadm).1
  have hle := ((H.mem_iff u).1 hmem).2
  rw [Update.number] at hle
  omega

end Covers

end CausalStore
