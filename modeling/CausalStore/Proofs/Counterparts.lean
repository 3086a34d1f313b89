import CausalStore.Proofs.Couriers
import Mathlib.Data.List.Forall2
import Mathlib.Order.Basic

/-!
# Counterparts

Two couriers that are called alike, where exchanges go alike with all hosts but one. To the other
hosts they then have the same under way (`Courier.Alike`), but under ids of their own, as their
queues give out ids over all hosts. Which id of the one stands for which of the other is recorded
by a pairing that grows with the queues.
-/

namespace CausalStore

open Simulation (Job)

/-! ## Lists that agree in part -/

/-- The lists are related element by element, where those that fail the test are left out. -/
inductive Aligned {α : Type} (p : α → Bool) (R : α → α → Prop) : List α → List α → Prop
  | nil : Aligned p R [] []
  | left {x l l'} : p x = false → Aligned p R l l' → Aligned p R (x :: l) l'
  | right {x l l'} : p x = false → Aligned p R l l' → Aligned p R l (x :: l')
  | both {x x' l l'} : p x = true → p x' = true → R x x' → Aligned p R l l' →
    Aligned p R (x :: l) (x' :: l')

namespace Aligned

variable {α : Type} {p : α → Bool} {R : α → α → Prop} {l l' : List α}

private theorem of_left_eq_nil (h : l'.filter p = []) : Aligned p R [] l' := by
  induction l' with
  | nil => exact .nil
  | cons x l' ih =>
    cases hx : p x with
    | false => exact .right hx (ih (by rwa [List.filter_cons_of_neg (by simp [hx])] at h))
    | true => rw [List.filter_cons_of_pos hx] at h; cases h

theorem of_forall₂ (h : List.Forall₂ R (l.filter p) (l'.filter p)) : Aligned p R l l' := by
  induction l generalizing l' with
  | nil => exact of_left_eq_nil (List.forall₂_nil_left_iff.1 h)
  | cons x l ih =>
    cases hx : p x with
    | false => exact .left hx (ih (by rwa [List.filter_cons_of_neg (by simp [hx])] at h))
    | true =>
      rw [List.filter_cons_of_pos hx] at h
      -- the counterpart of `x` is the first in `l'` that passes the test
      induction l' with
      | nil => cases h
      | cons x' l' ih' =>
        cases hx' : p x' with
        | false => exact .right hx' (ih' (by rwa [List.filter_cons_of_neg (by simp [hx'])] at h))
        | true =>
          rw [List.filter_cons_of_pos hx', List.forall₂_cons] at h
          exact .both hx hx' h.1 (ih h.2)

end Aligned

namespace SortedMap

variable {κ α : Type} [KeyOrder κ] {m m' : SortedMap κ α}

/-- The keys of a map that pass a test, each with nothing. -/
private def keysWhere (p : κ → Bool) (m : SortedMap κ α) : SortedMap κ Unit :=
  (m.filter fun k _ => p k).map fun _ => ()

private theorem mem_keysWhere {p : κ → Bool} {k : κ} : (k, ()) ∈ (keysWhere p m).entries ↔
    p k = true ∧ (m.get? k).isSome = true := by
  simp only [keysWhere, map, filter, List.mem_map, List.mem_filter, Option.isSome_iff_exists]
  constructor
  · rintro ⟨e, ⟨he, hp⟩, heq⟩
    cases heq
    exact ⟨hp, e.2, (mem_entries_iff m).1 he⟩
  · rintro ⟨hp, v, hv⟩
    exact ⟨(k, v), ⟨(mem_entries_iff m).2 hv, hp⟩, rfl⟩

/-- Maps that are related at the keys that pass a test list these in the same order. -/
theorem forall₂_entries {p : κ → Bool} {R : α → α → Prop}
    (h : ∀ k, p k = true → Option.Rel R (m.get? k) (m'.get? k)) :
    List.Forall₂ (fun e e' => e.1 = e'.1 ∧ R e.2 e'.2) (m.entries.filter fun e => p e.1)
      (m'.entries.filter fun e => p e.1) := by
  have hsome (k : κ) (hk : p k = true) : (m.get? k).isSome = (m'.get? k).isSome := by
    have hrel := h k hk
    generalize m.get? k = o, m'.get? k = o' at hrel
    cases hrel <;> rfl
  have hkeys : keysWhere p m = keysWhere p m' := by
    refine ext_get? fun k => Option.ext fun u => ?_
    rw [← mem_entries_iff, ← mem_entries_iff, mem_keysWhere, mem_keysWhere]
    exact and_congr_right fun hk => by rw [hsome k hk]
  have hmap : (m.entries.filter fun e => p e.1).map (·.1) =
      (m'.entries.filter fun e => p e.1).map (·.1) := by
    have hentries := congrArg (fun n => n.entries.map (·.1)) hkeys
    simp only [keysWhere, map, filter, List.map_map] at hentries
    exact hentries
  rw [← List.forall₂_eq_eq_eq, List.forall₂_map_left_iff, List.forall₂_map_right_iff,
    List.forall₂_iff_zip] at hmap
  refine List.forall₂_iff_zip.2 ⟨hmap.1, fun {e e'} hzip => ?_⟩
  have hkey : e.1 = e'.1 := hmap.2 hzip
  obtain ⟨he, he'⟩ := List.of_mem_zip hzip
  obtain ⟨he, hp⟩ := List.mem_filter.1 he
  have hrel := h e.1 hp
  rw [(mem_entries_iff m).1 he, hkey, (mem_entries_iff m').1 (List.mem_filter.1 he').1] at hrel
  cases hrel with
  | some hR => exact ⟨hkey, hR⟩

end SortedMap

/-! ## Pairings of ids -/

/-- Which ids stand for each other. -/
abbrev Pairing := UInt64 → UInt64 → Prop

/-- The ids are among the first `n` and the first `n'`, and none stands for two. -/
structure Pairing.Within (ids : Pairing) (n n' : Nat) : Prop where
  lt {x y} : ids x y → x.toNat < n ∧ y.toNat < n'
  iff {x y x' y'} : ids x y → ids x' y' → (x = x' ↔ y = y')

/-- The pairing with another pair. -/
def Pairing.extend (ids : Pairing) (n n' : UInt64) : Pairing :=
  fun x y => ids x y ∨ x = n ∧ y = n'

namespace Pairing.Within

variable {ids : Pairing} {n n' m m' : Nat}

theorem mono (h : ids.Within n n') (hn : n ≤ m) (hn' : n' ≤ m') : ids.Within m m' where
  lt hxy := ⟨Nat.lt_of_lt_of_le (h.lt hxy).1 hn, Nat.lt_of_lt_of_le (h.lt hxy).2 hn'⟩
  iff := h.iff

theorem extend {x₀ y₀ : UInt64} (h : ids.Within x₀.toNat y₀.toNat) :
    (ids.extend x₀ y₀).Within (x₀.toNat + 1) (y₀.toNat + 1) where
  lt hxy := by
    rcases hxy with hxy | ⟨rfl, rfl⟩
    · exact ⟨Nat.lt_succ_of_lt (h.lt hxy).1, Nat.lt_succ_of_lt (h.lt hxy).2⟩
    · exact ⟨Nat.lt_succ_self _, Nat.lt_succ_self _⟩
  iff {x y x' y'} hxy hxy' := by
    have hold {x y : UInt64} (hxy : ids x y) : x ≠ x₀ ∧ y ≠ y₀ := by
      obtain ⟨hx, hy⟩ := h.lt hxy
      exact ⟨fun heq => by simp [heq] at hx, fun heq => by simp [heq] at hy⟩
    rcases hxy with hxy | ⟨rfl, rfl⟩ <;> rcases hxy' with hxy' | ⟨rfl, rfl⟩
    · exact h.iff hxy hxy'
    · exact iff_of_false (hold hxy).1 (hold hxy).2
    · exact iff_of_false (hold hxy').1.symm (hold hxy').2.symm
    · exact iff_of_true rfl rfl

end Pairing.Within

variable {ids ids' : Pairing} {c : String}

/-! ## What stands for what -/

/-- The same message under ids that stand for each other. -/
def Queued.Alike (ids : Pairing) (q q' : Queued) : Prop := q.message = q'.message ∧ ids q.id q'.id

/-- The same messages for the same peer. -/
structure Queue.Alike (ids : Pairing) (q q' : Queue) : Prop where
  peer : q.peer = q'.peer
  messages : List.Forall₂ (Queued.Alike ids) q.messages q'.messages

namespace Simulation

inductive Job.Alike (ids : Pairing) : Job → Job → Prop
  | send (s : Send) : Alike ids (.send s) (.send s)
  | retry {q q' : Queued} {rest rest' : List Queued} (p : Peer) : Queued.Alike ids q q' →
    List.Forall₂ (Queued.Alike ids) rest rest' → Alike ids (.retry p q rest) (.retry p q' rest')

theorem Job.Alike.peer {x x' : Job} (h : Job.Alike ids x x') : x.peer = x'.peer := by
  cases h <;> rfl

theorem Job.Alike.message {x x' : Job} (h : Job.Alike ids x x') : x.message = x'.message := by
  cases h with
  | send s => rfl
  | retry p hq _ => exact hq.1

theorem Job.Alike.endpoint {x x' : Job} (h : Job.Alike ids x x') : x.endpoint = x'.endpoint := by
  rw [Job.endpoint, Job.endpoint, h.peer, h.message]

theorem Job.Alike.isRetry {x x' : Job} (h : Job.Alike ids x x') : x.isRetry = x'.isRetry := by
  cases h <;> rfl

end Simulation

structure Flight.Alike (ids : Pairing) (f f' : Flight) : Prop where
  due : f.due = f'.due
  outcome : f.outcome = f'.outcome
  job : Job.Alike ids f.job f'.job

section
variable (hle : ids ≤ ids')
include hle

theorem Queued.Alike.mono {q q' : Queued} (h : q.Alike ids q') : q.Alike ids' q' :=
  ⟨h.1, hle _ _ h.2⟩

theorem Queue.Alike.mono {q q' : Queue} (h : q.Alike ids q') : q.Alike ids' q' :=
  ⟨h.peer, h.messages.imp fun _ _ => Queued.Alike.mono hle⟩

theorem Flight.Alike.mono {f f' : Flight} (h : f.Alike ids f') : f.Alike ids' f' where
  due := h.due
  outcome := h.outcome
  job := by
    obtain ⟨-, -, hjob⟩ := h
    generalize f.job = x, f'.job = x' at hjob
    cases hjob with
    | send s => exact .send s
    | retry p hq hrest => exact .retry p (hq.mono hle) (hrest.imp fun _ _ => Queued.Alike.mono hle)

end

/-! ## Queues -/

namespace Outbox

variable {o o' : Outbox} {p : Peer} {m : Message} {a b : Address} {x y id : UInt64} {n n' : Nat}

theorem get?_enqueue_of_ne (h : a ≠ p.address) :
    (o.enqueue p m).queues.get? a = o.queues.get? a := SortedMap.get?_upsert_of_ne _ h _

theorem get?_remove_self : (o.remove a id).queues.get? a =
    (o.queues.get? a).map fun q => { q with messages := q.messages.filter (·.id ≠ id) } := by
  unfold remove
  split
  next h => rw [h]; rfl
  next q h => rw [h]; exact SortedMap.get?_insert_self ..

theorem get?_remove_of_ne (h : b ≠ a) : (o.remove a id).queues.get? b = o.queues.get? b := by
  unfold remove
  split
  · rfl
  · exact SortedMap.get?_insert_of_ne _ h _

/-- The same messages wait for the same peers, but for those at one host. -/
def Alike (c : String) (ids : Pairing) (o o' : Outbox) : Prop :=
  ∀ a, a.host ≠ c → Option.Rel (Queue.Alike ids) (o.queues.get? a) (o'.queues.get? a)

namespace Alike

theorem mono (h : o.Alike c ids o') (hle : ids ≤ ids') : o.Alike c ids' o' := by
  intro a ha
  have hrel := h a ha
  generalize o.queues.get? a = r, o'.queues.get? a = r' at hrel
  cases hrel with
  | none => exact .none
  | some hq => exact .some (hq.mono hle)

theorem enqueue (h : o.Alike c ids o') (hnew : ids o.nextId o'.nextId) (p : Peer) (m : Message) :
    (o.enqueue p m).Alike c ids (o'.enqueue p m) := by
  intro a ha
  by_cases hp : a = p.address
  · subst hp
    have hrel := h _ ha
    simp only [Outbox.enqueue, SortedMap.get?_upsert_self]
    generalize o.queues.get? p.address = r, o'.queues.get? p.address = r' at hrel
    refine .some ?_
    have hlast : List.Forall₂ (Queued.Alike ids) [⟨o.nextId, m⟩] [⟨o'.nextId, m⟩] :=
      .cons ⟨rfl, hnew⟩ .nil
    cases hrel with
    | none => exact ⟨rfl, hlast⟩
    | some hq => exact ⟨hq.peer, List.rel_append hq.messages hlast⟩
  · rw [get?_enqueue_of_ne hp, get?_enqueue_of_ne hp]
    exact h a ha

theorem remove (h : o.Alike c ids o') (hids : ids.Within n n') (hxy : ids x y) (a : Address) :
    (o.remove a x).Alike c ids (o'.remove a y) := by
  intro b hb
  by_cases hab : b = a
  · subst hab
    have hrel := h b hb
    rw [get?_remove_self, get?_remove_self]
    generalize o.queues.get? b = r, o'.queues.get? b = r' at hrel
    cases hrel with
    | none => exact .none
    | some hq =>
      refine .some ⟨hq.peer, List.rel_filter (fun q q' hqq' => ?_) hq.messages⟩
      simp only [decide_eq_true_eq, ne_eq, hids.iff hqq'.2 hxy]
  · rw [get?_remove_of_ne hab, get?_remove_of_ne hab]
    exact h b hb

/-- The queues in which something waits are alike, and so is their order. -/
theorem waiting (h : o.Alike c ids o') (ho : o.Addressed) (ho' : o'.Addressed) :
    List.Forall₂ (Queue.Alike ids) (o.waiting.filter fun q => q.peer.host ≠ c)
      (o'.waiting.filter fun q => q.peer.host ≠ c) := by
  have hwaiting {o : Outbox} (ho : o.Addressed) : (o.waiting.filter fun q => q.peer.host ≠ c) =
      (((o.queues.entries.filter fun e => e.1.host ≠ c).map (·.2)).filter
        fun q => !q.messages.isEmpty) := by
    have hkey : ∀ e ∈ o.queues.entries, e.2.peer.host = e.1.host := fun e he =>
      congrArg Address.host (ho _ _ ((SortedMap.mem_entries_iff o.queues).1 he))
    rw [Outbox.waiting, List.filter_comm, List.filter_map]
    congr 2
    exact List.filter_congr fun e he => by rw [Function.comp_apply, hkey e he]
  rw [hwaiting ho, hwaiting ho']
  refine List.rel_filter (R := Queue.Alike ids) (fun q q' hq => ?_) ?_
  · have hlen := hq.messages.length_eq
    simp only [Bool.not_eq_true', List.isEmpty_eq_false_iff, ← List.length_pos_iff, hlen]
  · have hentries := SortedMap.forall₂_entries (p := fun a : Address => a.host ≠ c)
      fun a ha => h a (by simpa using ha)
    rw [List.forall₂_map_left_iff, List.forall₂_map_right_iff]
    exact hentries.imp fun e e' he => he.2

end Alike

end Outbox

end CausalStore
