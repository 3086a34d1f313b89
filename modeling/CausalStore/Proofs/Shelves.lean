import CausalStore.Proofs.Dispatchers
import CausalStore.Proofs.Queues
import Mathlib.Data.List.Nodup

/-!
# Whose the queued messages are

Each message in the queues is what one send was queued as, and no message is there twice
(`Shelved`), as long as fewer were queued than there are ids. So the retry of a message takes out
that message and no other.
-/

namespace CausalStore

/-! ## Keys of places -/

/-- Each key belongs to one place of the list. -/
def Keyed {α κ : Type} (f : α → Option κ) (l : List α) : Prop :=
  ∀ (i j : Nat) x y k, l[i]? = some x → l[j]? = some y → f x = some k → f y = some k → i = j

namespace Keyed

variable {α κ : Type} {f : α → Option κ} {l : List α} {n : Nat} {x : α}

theorem nil : Keyed f [] := by
  intro i j x y k hx
  cases hx

theorem of_nodup {g : α → κ} (h : (l.map g).Nodup) : Keyed (fun x => some (g x)) l := by
  intro i j x y k hx hy hkx hky
  have hi : (l.map g)[i]? = some k := by rw [List.getElem?_map, hx, ← hkx]; rfl
  have hj : (l.map g)[j]? = some k := by rw [List.getElem?_map, hy, ← hky]; rfl
  exact (List.getElem?_inj (List.getElem?_eq_some_iff.1 hi).1 h).1 (hi.trans hj.symm)

/-- What has no key may follow. -/
theorem append {l' : List α} (h : Keyed f l) (h' : ∀ x ∈ l', f x = none) : Keyed f (l ++ l') := by
  have hleft {i : Nat} {x k} (hx : (l ++ l')[i]? = some x) (hk : f x = some k) : l[i]? = some x := by
    rcases Nat.lt_or_ge i l.length with hi | hi
    · rwa [List.getElem?_append_left hi] at hx
    · rw [List.getElem?_append_right hi] at hx
      rw [h' x (List.mem_of_getElem? hx)] at hk
      cases hk
  intro i j x y k hx hy hkx hky
  exact h i j x y k (hleft hx hkx) (hleft hy hky) hkx hky

theorem map {g : α → α} (h : Keyed f l) (hg : ∀ x, f (g x) = f x) : Keyed f (l.map g) := by
  intro i j x y k hx hy hkx hky
  rw [List.getElem?_map] at hx hy
  obtain ⟨x', hx', rfl⟩ := Option.map_eq_some_iff.1 hx
  obtain ⟨y', hy', rfl⟩ := Option.map_eq_some_iff.1 hy
  exact h i j x' y' k hx' hy' ((hg x').symm.trans hkx) ((hg y').symm.trans hky)

/-- What is put at a place may have any key that is not found at another one. -/
theorem set (h : Keyed f l)
    (hfree : ∀ k, f x = some k → ∀ (i : Nat) y, l[i]? = some y → f y = some k → i = n) :
    Keyed f (l.set n x) := by
  have hcases {i : Nat} {y} (hy : (l.set n x)[i]? = some y) : i = n ∧ y = x ∨ i ≠ n ∧ l[i]? = some y := by
    rcases eq_or_ne n i with rfl | hi
    · rw [List.getElem?_set_self'] at hy
      obtain ⟨-, -, rfl⟩ := Option.map_eq_some_iff.1 hy
      exact .inl ⟨rfl, rfl⟩
    · rw [List.getElem?_set_ne hi] at hy
      exact .inr ⟨hi.symm, hy⟩
  intro i j y z k hy hz hky hkz
  rcases hcases hy with ⟨rfl, rfl⟩ | ⟨-, hy'⟩ <;> rcases hcases hz with ⟨rfl, rfl⟩ | ⟨-, hz'⟩
  · rfl
  · exact (hfree k hky j z hz' hkz).symm
  · exact hfree k hkz i y hy' hky
  · exact h i j y z k hy' hz' hky hkz

/-- What is put at a place may have the key that was there. -/
theorem set_same {y : α} (h : Keyed f l) (hy : l[n]? = some y) (hkey : f x = f y) :
    Keyed f (l.set n x) :=
  h.set fun k hk i z hz hkz => h i n z y k hz hy hkz (hkey.symm.trans hk)

end Keyed

/-! ## Which messages are in the queues -/

@[simp] theorem Parcel.address_credit (id : UInt64) (o : Outcome) (p : Parcel) :
    (p.credit id o).address = p.address := by
  unfold credit
  split <;> rfl

@[simp] theorem Parcel.queuedAs?_credit (id : UInt64) (o : Outcome) (p : Parcel) :
    (p.credit id o).queuedAs? = p.queuedAs? := by
  unfold credit
  split <;> rfl

@[simp] theorem Parcel.id?_credit (id : UInt64) (o : Outcome) (p : Parcel) :
    (p.credit id o).id? = p.id? := by
  rw [id?, queuedAs?_credit, ← id?]

theorem Parcel.credit_error (id : UInt64) (cause : ExchangeError) (p : Parcel) :
    p.credit id (.error cause) = p := by
  unfold credit
  split <;> rfl

theorem Parcel.id?_of_queuedAs? {p : Parcel} {q : Queued} (h : p.queuedAs? = some q) :
    p.id? = some q.id := by
  rw [id?, h]
  rfl

/-- Whatever is in a queue is there once, and is what a send was queued as. -/
structure Shelved (o : Outbox) (n : Nat) (ps : List Parcel) : Prop where
  tracked : o.Tracked n
  distinct : o.Distinct
  addressed : o.Addressed
  keyed : Keyed Parcel.id? ps
  id_lt : ∀ p ∈ ps, ∀ q, p.queuedAs? = some q → q.id.toNat < n
  owned : ∀ a, ∀ q ∈ o.pendingFor a, ∃ p ∈ ps, p.queuedAs? = some q ∧ p.address = a

namespace Shelved

variable {o : Outbox} {n i : Nat} {ps : List Parcel} {p p' : Parcel} {a b : Address} {q q' : Queued}

theorem start : Shelved .empty 0 [] where
  tracked := .empty
  distinct := .empty
  addressed := .empty
  keyed := .nil
  id_lt _ hp := nomatch hp
  owned _ _ hq := nomatch hq

theorem append {ps' : List Parcel} (h : Shelved o n ps) (h' : ∀ p ∈ ps', p.queuedAs? = none) :
    Shelved o n (ps ++ ps') where
  tracked := h.tracked
  distinct := h.distinct
  addressed := h.addressed
  keyed := h.keyed.append fun p hp => by rw [Parcel.id?, h' p hp]; rfl
  id_lt p hp q hq := by
    rcases List.mem_append.1 hp with hp | hp
    · exact h.id_lt p hp q hq
    · rw [h' p hp] at hq
      cases hq
  owned a q hq := by
    obtain ⟨p, hp, hpq⟩ := h.owned a q hq
    exact ⟨p, List.mem_append_left _ hp, hpq⟩

theorem credit (h : Shelved o n ps) (id : UInt64) (outcome : Outcome) :
    Shelved o n (ps.map (.credit id outcome)) where
  tracked := h.tracked
  distinct := h.distinct
  addressed := h.addressed
  keyed := h.keyed.map fun p => p.id?_credit id outcome
  id_lt p hp q hq := by
    obtain ⟨r, hr, rfl⟩ := List.mem_map.1 hp
    rw [Parcel.queuedAs?_credit] at hq
    exact h.id_lt r hr q hq
  owned a q hq := by
    obtain ⟨p, hp, hpq⟩ := h.owned a q hq
    refine ⟨_, List.mem_map_of_mem hp, ?_⟩
    rwa [Parcel.queuedAs?_credit, Parcel.address_credit]

/-- The owner of an entry is not where there is none. -/
private theorem mem_set_of_queuedAs? (hi : ps[i]? = some p) (hnone : p.queuedAs? = none) (hp' : p' ∈ ps)
    (hq : p'.queuedAs? = some q) (x : Parcel) : p' ∈ ps.set i x := by
  obtain ⟨j, hj⟩ := List.mem_iff_getElem?.1 hp'
  have hij : i ≠ j := by
    rintro rfl
    cases hi.symm.trans hj
    cases hnone.symm.trans hq
  exact List.mem_of_getElem? ((List.getElem?_set_ne hij).trans hj)

theorem set (h : Shelved o n ps) (hi : ps[i]? = some p) (hp : p.queuedAs? = none)
    (hp' : p'.queuedAs? = none) : Shelved o n (ps.set i p') where
  tracked := h.tracked
  distinct := h.distinct
  addressed := h.addressed
  keyed := h.keyed.set_same hi (by rw [Parcel.id?, hp', Parcel.id?, hp])
  id_lt r hr q hq := by
    rcases List.mem_or_eq_of_mem_set hr with hr | rfl
    · exact h.id_lt r hr q hq
    · cases hp'.symm.trans hq
  owned a q hq := by
    obtain ⟨r, hr, hrq, hra⟩ := h.owned a q hq
    exact ⟨r, mem_set_of_queuedAs? hi hp hr hrq p', hrq, hra⟩

theorem enqueue {s : Send} (h : Shelved o n ps) (hn : n + 1 < UInt64.size) (hi : ps[i]? = some p)
    (hp : p.queuedAs? = none) (hp' : p'.queuedAs? = some ⟨o.nextId, s.message⟩)
    (ha : p'.address = s.peer.address) :
    Shelved (o.enqueue s.peer s.message) (n + 1) (ps.set i p') where
  tracked := h.tracked.enqueue hn
  distinct := h.distinct.enqueue h.tracked
  addressed := h.addressed.enqueue s.peer s.message
  keyed := by
    -- The new id is larger than all that were given out.
    refine h.keyed.set fun id hid j r hr hrid => ?_
    rw [Parcel.id?_of_queuedAs? hp', Option.some.injEq] at hid
    obtain ⟨q, hq, hqid⟩ := Option.map_eq_some_iff.1 hrid
    have hlt := h.id_lt r (List.mem_of_getElem? hr) q hq
    rw [hqid, ← hid, h.tracked.nextId] at hlt
    exact absurd hlt (Nat.lt_irrefl n)
  id_lt r hr q hq := by
    rcases List.mem_or_eq_of_mem_set hr with hr | rfl
    · exact Nat.lt_succ_of_lt (h.id_lt r hr q hq)
    · cases hp'.symm.trans hq
      exact h.tracked.nextId ▸ Nat.lt_succ_self _
  owned a q hq := by
    rcases Outbox.mem_enqueue.1 hq with hq | ⟨rfl, rfl⟩
    · obtain ⟨r, hr, hrq, hra⟩ := h.owned a q hq
      exact ⟨r, mem_set_of_queuedAs? hi hp hr hrq p', hrq, hra⟩
    · exact ⟨p', List.mem_set (List.getElem?_eq_some_iff.1 hi).1 _, hp', ha⟩

theorem remove (h : Shelved o n ps) (a : Address) (id : UInt64) : Shelved (o.remove a id) n ps where
  tracked := h.tracked.remove
  distinct := h.distinct.remove
  addressed := h.addressed.remove a id
  keyed := h.keyed
  id_lt := h.id_lt
  owned b q hq := h.owned b q (Outbox.mem_remove.1 hq).1

/-- What has the id of an entry in a queue is its owner. -/
theorem eq_of_id (h : Shelved o n ps) (hq : q ∈ o.pendingFor a) (hp : p ∈ ps)
    (hid : p.id? = some q.id) : p.queuedAs? = some q ∧ p.address = a := by
  obtain ⟨r, hr, hrq, hra⟩ := h.owned a q hq
  obtain ⟨i, hi⟩ := List.mem_iff_getElem?.1 hp
  obtain ⟨j, hj⟩ := List.mem_iff_getElem?.1 hr
  cases h.keyed i j p r q.id hi hj hid (Parcel.id?_of_queuedAs? hrq)
  cases hi.symm.trans hj
  exact ⟨hrq, hra⟩

/-- The retry of a queued message takes out that message only. -/
theorem lost_remove (h : Shelved o n ps) (hq : q ∈ o.pendingFor a) :
    o.lost (o.remove a q.id) a = [q] := by
  have hiff : ∀ r ∈ o.pendingFor a, (r ∉ (o.remove a q.id).pendingFor a ↔ r = q) := by
    intro r hr
    rw [Outbox.mem_remove]
    refine ⟨fun hout => ?_, ?_⟩
    · by_contra hne
      exact hout ⟨hr, fun _ hid => hne ((h.tracked.known a q hq).eq_of_id r hr hid)⟩
    · rintro rfl ⟨-, hid⟩
      exact hid rfl rfl
  calc o.lost (o.remove a q.id) a
      = (o.pendingFor a).filter (· = q) := List.filter_congr fun r hr => by simp only [hiff r hr]
    _ = [q] := by rw [List.filter_eq, List.count_eq_one_of_mem (h.distinct a) hq]; rfl

end Shelved
end CausalStore
