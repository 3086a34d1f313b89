import CausalStore.Proofs.Counterparts
import Mathlib.Data.List.Induction
import Mathlib.Data.List.Infix

/-!
# Whom a hanging host delays

Two couriers that are called alike attempt the same exchanges at the same times with all hosts but
one, with which exchanges may go as they like (`Courier.others_unaffected`). This is so as long as
no tick of the loop is due while a pass goes on for that host alone. Otherwise the next pass comes
late, and with it the retries for everybody (`Courier.others_affected`).
-/

namespace CausalStore

open Simulation (Job)

/-- Whether the exchange is with another host. -/
def Flight.away (c : String) (f : Flight) : Bool := f.job.peer.host ≠ c

namespace Courier

variable {c : String} {env env' : Surroundings} {d d' d₁ d₂ : Courier} {x x' : Job} {o : Outcome}
  {p : Peer} {ids ids' : Pairing}

/-- The attempts with all other hosts, the latest first. -/
def beyond (c : String) (d : Courier) : List Attempt :=
  d.attempts.filter fun a => a.endpoint.host ≠ c

/-! ## What concerns one host -/

/-- Everything is as it was, but for what concerns the host. -/
structure Elsewhere (c : String) (d d₁ : Courier) : Prop where
  now : d₁.now = d.now
  period : d₁.period = d.period
  next : d₁.next = d.next
  attempts : d₁.beyond c = d.beyond c
  queues : ∀ a : Address, a.host ≠ c → d₁.outbox.queues.get? a = d.outbox.queues.get? a
  flights : d₁.flights.filter (·.away c) = d.flights.filter (·.away c)
  enqueued : d.enqueued ≤ d₁.enqueued

namespace Elsewhere

theorem refl (d : Courier) : Elsewhere c d d :=
  ⟨rfl, rfl, rfl, rfl, fun _ _ => rfl, rfl, Nat.le_refl _⟩

theorem trans (h : Elsewhere c d d₁) (h' : Elsewhere c d₁ d₂) : Elsewhere c d d₂ where
  now := h'.now.trans h.now
  period := h'.period.trans h.period
  next := h'.next.trans h.next
  attempts := h'.attempts.trans h.attempts
  queues a ha := (h'.queues a ha).trans (h.queues a ha)
  flights := h'.flights.trans h.flights
  enqueued := Nat.le_trans h.enqueued h'.enqueued

theorem note (hx : x.peer.host = c) : Elsewhere c d (d.note x) :=
  { refl d with
    attempts := List.filter_cons_of_neg (by simp [attempt, Job.endpoint, Peer.endpoint, hx]) }

theorem launch (hx : x.peer.host = c) (f : Nat × Outcome) : Elsewhere c d (d.launch x f) :=
  { refl d with
    flights := by
      have hlast : List.filter (Flight.away c) [⟨d.now + f.1, f.2, x⟩] = [] :=
        List.filter_cons_of_neg (by simp [Flight.away, hx])
      change List.filter (Flight.away c) (d.flights ++ [_]) = _
      rw [List.filter_append, hlast, List.append_nil] }

theorem settle (hx : x.peer.host = c) (o : Outcome) : Elsewhere c d (d.settle x o) := by
  have hne {a : Address} (ha : a.host ≠ c) : a ≠ x.peer.address := fun heq => ha (heq ▸ hx)
  cases x with
  | send s =>
    cases o with
    | ok r => exact refl d
    | error e =>
      exact { refl d with
        queues := fun a ha => Outbox.get?_enqueue_of_ne (hne ha)
        enqueued := Nat.le_succ _ }
  | retry p q rest =>
    cases o with
    | error e => exact refl d
    | ok r => exact { refl d with queues := fun a ha => Outbox.get?_remove_of_ne (hne ha) }

theorem begin (hx : x.peer.host = c) : Elsewhere c d (d.begin env x) := by
  by_cases hzero : (d.forecast env x).1 = 0
  · rw [begin_of_zero hzero]
    exact (note hx).trans (settle hx _)
  · rw [begin_of_ne_zero hzero]
    exact (note hx).trans (launch hx _)

theorem retryBatch (hp : p.host = c) (qs : List Queued) :
    Elsewhere c d (d.retryBatch env p qs) := by
  induction qs generalizing d with
  | nil => exact refl d
  | cons q rest ih =>
    by_cases hzero : (d.forecast env (.retry p q rest)).1 = 0
    · rw [retryBatch_of_zero hzero]
      exact (begin (x := .retry p q rest) hp).trans ih
    · rw [retryBatch_of_ne_zero hzero]
      exact begin (x := .retry p q rest) hp

theorem land {f : Flight} (hf : f.away c = false) : Elsewhere c d (d.land env f) := by
  have hpeer : f.job.peer.host = c := by simpa [Flight.away] using hf
  unfold Courier.land
  split
  · exact settle hpeer _
  next p q rest hjob =>
    have hp : p.host = c := by rw [hjob] at hpeer; exact hpeer
    exact (settle hpeer _).trans (retryBatch hp rest)

end Elsewhere

/-! ## Couriers that are alike to all others -/

/-- To all hosts but one, the same was attempted and the same is under way. -/
structure Alike (c : String) (ids : Pairing) (d d' : Courier) : Prop where
  now : d.now = d'.now
  period : d.period = d'.period
  next : d.next = d'.next
  attempts : d.beyond c = d'.beyond c
  outbox : d.outbox.Alike c ids d'.outbox
  flights : List.Forall₂ (Flight.Alike ids) (d.flights.filter (·.away c))
    (d'.flights.filter (·.away c))
  pairing : ids.Within d.enqueued d'.enqueued

namespace Alike

theorem start (first period : Nat) :
    Alike c (fun _ _ => False) (Courier.start first period) (Courier.start first period) where
  now := rfl
  period := rfl
  next := rfl
  attempts := rfl
  outbox _ _ := .none
  flights := .nil
  pairing := ⟨False.elim, fun h => h.elim⟩

theorem left (A : Alike c ids d d') (h : Elsewhere c d d₁) : Alike c ids d₁ d' where
  now := h.now.trans A.now
  period := h.period.trans A.period
  next := h.next.trans A.next
  attempts := h.attempts.trans A.attempts
  outbox a ha := h.queues a ha ▸ A.outbox a ha
  flights := h.flights.symm ▸ A.flights
  pairing := A.pairing.mono h.enqueued (Nat.le_refl _)

theorem right (A : Alike c ids d d') (h : Elsewhere c d' d₁) : Alike c ids d d₁ where
  now := A.now.trans h.now.symm
  period := A.period.trans h.period.symm
  next := A.next.trans h.next.symm
  attempts := A.attempts.trans h.attempts.symm
  outbox a ha := h.queues a ha ▸ A.outbox a ha
  flights := h.flights.symm ▸ A.flights
  pairing := A.pairing.mono (Nat.le_refl _) h.enqueued

/-! ### Exchanges with others -/

theorem attempt_eq (A : Alike c ids d d') (J : Job.Alike ids x x') :
    d.attempt x = d'.attempt x' := by
  rw [attempt, attempt, A.now, J.endpoint, J.message]

theorem note (A : Alike c ids d d') (J : Job.Alike ids x x') :
    Alike c ids (d.note x) (d'.note x') :=
  { A with
    attempts := by
      have hattempts := A.attempts
      simp only [beyond, Courier.note, A.attempt_eq J, List.filter_cons] at hattempts ⊢
      rw [hattempts] }

theorem launch (A : Alike c ids d d') (J : Job.Alike ids x x') (f : Nat × Outcome) :
    Alike c ids (d.launch x f) (d'.launch x' f) :=
  { A with
    flights := by
      simp only [Courier.launch, List.filter_append]
      refine List.rel_append A.flights (List.rel_filter (fun g g' hg => ?_) ?_)
      · simp only [Flight.away, hg.job.peer]
      · exact .cons ⟨congrArg (· + f.1) A.now, rfl, J⟩ .nil }

theorem settle_retry {q q' : Queued} {rest rest' : List Queued} (A : Alike c ids d d')
    (hq : q.Alike ids q') (o : Outcome) :
    Alike c ids (d.settle (.retry p q rest) o) (d'.settle (.retry p q' rest') o) := by
  cases o with
  | error e => exact A
  | ok r => exact { A with outbox := A.outbox.remove A.pairing hq.2 _ }

/-- A message that is queued by both gets ids that stand for each other from then on. -/
theorem settle (A : Alike c ids d d') (O : d.Orderly) (O' : d'.Orderly) (J : Job.Alike ids x x')
    (o : Outcome) : ∃ ids', ids ≤ ids' ∧ Alike c ids' (d.settle x o) (d'.settle x' o) := by
  cases J with
  | retry p hq _ => exact ⟨ids, le_refl _, A.settle_retry hq o⟩
  | send s =>
    cases o with
    | ok r => exact ⟨ids, le_refl _, A⟩
    | error e =>
      have hle : ids ≤ ids.extend d.outbox.nextId d'.outbox.nextId := fun x y h => .inl h
      have hpairing := A.pairing
      rw [← O.counted, ← O'.counted] at hpairing
      refine ⟨_, hle, A.now, A.period, A.next, A.attempts, ?_, ?_, ?_⟩
      · exact (A.outbox.mono hle).enqueue (.inr ⟨rfl, rfl⟩) s.peer s.message
      · exact A.flights.imp fun _ _ => Flight.Alike.mono hle
      · have hextend := hpairing.extend
        rwa [O.counted, O'.counted] at hextend

variable (henv : ∀ past a, a.endpoint.host ≠ c → env past a = env' past a)
include henv

theorem forecast (A : Alike c ids d d') (J : Job.Alike ids x x') (hx : x.peer.host ≠ c) :
    d.forecast env x = d'.forecast env' x' := by
  have haway : x.endpoint.host ≠ c := hx
  have hpast {d : Courier} : (d.attempts.filter fun a => a.endpoint.host = x.endpoint.host) =
      (d.beyond c).filter fun a => a.endpoint.host = x.endpoint.host := by
    rw [beyond, List.filter_filter]
    refine List.filter_congr fun a _ => ?_
    by_cases ha : a.endpoint.host = x.endpoint.host
    · simp [ha, haway]
    · simp [ha]
  rw [Courier.forecast, Courier.forecast, ← J.endpoint, hpast, hpast, A.attempts,
    A.attempt_eq J]
  exact henv _ _ (by rwa [attempt, ← J.endpoint])

theorem begin_retry {q q' : Queued} {rest rest' : List Queued} (A : Alike c ids d d')
    (J : Job.Alike ids (.retry p q rest) (.retry p q' rest')) (hp : p.host ≠ c) :
    Alike c ids (d.begin env (.retry p q rest)) (d'.begin env' (.retry p q' rest')) := by
  have hforecast := A.forecast henv J hp
  by_cases hzero : (d.forecast env (.retry p q rest)).1 = 0
  · rw [begin_of_zero hzero, begin_of_zero (hforecast ▸ hzero), ← hforecast]
    cases J with
    | retry _ hq _ => exact (A.note (.retry p hq ‹_›)).settle_retry hq _
  · rw [begin_of_ne_zero hzero, begin_of_ne_zero (hforecast ▸ hzero), ← hforecast]
    exact (A.note J).launch J _

theorem begin (A : Alike c ids d d') (O : d.Orderly) (O' : d'.Orderly) (J : Job.Alike ids x x')
    (hx : x.peer.host ≠ c) :
    ∃ ids', ids ≤ ids' ∧ Alike c ids' (d.begin env x) (d'.begin env' x') := by
  have hforecast := A.forecast henv J hx
  by_cases hzero : (d.forecast env x).1 = 0
  · rw [begin_of_zero hzero, begin_of_zero (hforecast ▸ hzero), ← hforecast]
    exact (A.note J).settle (O.note x) (O'.note x') J _
  · rw [begin_of_ne_zero hzero, begin_of_ne_zero (hforecast ▸ hzero), ← hforecast]
    exact ⟨ids, le_refl _, (A.note J).launch J _⟩

/-- A batch takes in both the same time, or it comes to the same exchange that does. -/
theorem retryBatch (A : Alike c ids d d') (hp : p.host ≠ c) {qs qs' : List Queued}
    (hqs : List.Forall₂ (Queued.Alike ids) qs qs') :
    Alike c ids (d.retryBatch env p qs) (d'.retryBatch env' p qs') := by
  induction hqs generalizing d d' with
  | nil => exact A
  | @cons q q' rest rest' hq hrest ih =>
    have J : Job.Alike ids (.retry p q rest) (.retry p q' rest') := .retry p hq hrest
    have hforecast := A.forecast henv J hp
    have hbegin := A.begin_retry henv J hp
    by_cases hzero : (d.forecast env (.retry p q rest)).1 = 0
    · rw [retryBatch_of_zero hzero, retryBatch_of_zero (hforecast ▸ hzero)]
      exact ih hbegin
    · rw [retryBatch_of_ne_zero hzero, retryBatch_of_ne_zero (hforecast ▸ hzero)]
      exact hbegin

theorem land (A : Alike c ids d d') (O : d.Orderly) (O' : d'.Orderly) {f f' : Flight}
    (hf : f.Alike ids f') (haway : f.away c = true) :
    ∃ ids', ids ≤ ids' ∧ Alike c ids' (d.land env f) (d'.land env' f') := by
  have hpeer : f.job.peer.host ≠ c := by simpa [Flight.away] using haway
  obtain ⟨due, o, x⟩ := f
  obtain ⟨due', o', x'⟩ := f'
  obtain ⟨-, rfl, J⟩ := hf
  cases J with
  | send s => exact A.settle O O' (.send s) o
  | retry p hq hrest => exact ⟨ids, le_refl _, (A.settle_retry hq o).retryBatch henv hpeer hrest⟩

/-- The exchanges that end at one moment are dealt with one after the other. -/
theorem foldl_land {fs fs' : List Flight} (hfs : Aligned (·.away c) (Flight.Alike ids) fs fs')
    (A : Alike c ids' d d') (hle : ids ≤ ids') (O : d.Orderly) (O' : d'.Orderly)
    (hn : (fs.foldl (Courier.land env) d).enqueued < UInt64.size)
    (hn' : (fs'.foldl (Courier.land env') d').enqueued < UInt64.size) :
    ∃ ids₁, Alike c ids₁ (fs.foldl (Courier.land env) d) (fs'.foldl (Courier.land env') d') := by
  induction hfs generalizing ids' d d' with
  | nil => exact ⟨ids', A⟩
  | left hf _ ih => exact ih (A.left (.land hf)) hle (O.land_of_foldl hn) O' hn hn'
  | right hf _ ih => exact ih (A.right (.land hf)) hle O (O'.land_of_foldl hn') hn hn'
  | both hf _ hff' _ ih =>
    obtain ⟨ids₁, hle₁, A₁⟩ := A.land henv O O' (hff'.mono hle) hf
    exact ih A₁ (le_trans hle hle₁) (O.land_of_foldl hn) (O'.land_of_foldl hn') hn hn'

/-! ### The retry loop -/

theorem foldl_retryBatch {qs qs' : List Queue} (A : Alike c ids d d')
    (hqs : Aligned (fun q => q.peer.host ≠ c) (Queue.Alike ids) qs qs') :
    Alike c ids (qs.foldl (fun d q => d.retryBatch env q.peer q.messages) d)
      (qs'.foldl (fun d q => d.retryBatch env' q.peer q.messages) d') := by
  induction hqs generalizing d d' with
  | nil => exact A
  | left hq _ ih => exact ih (A.left (.retryBatch (by simpa using hq) _))
  | right hq _ ih => exact ih (A.right (.retryBatch (by simpa using hq) _))
  | @both q q' _ _ hq _ hqq' _ ih =>
    refine ih ?_
    change Alike c ids (d.retryBatch env q.peer q.messages) (d'.retryBatch env' q'.peer q'.messages)
    rw [← hqq'.peer]
    exact A.retryBatch henv (by simpa using hq) hqq'.messages

theorem tick (A : Alike c ids d d') (O : d.Orderly) (O' : d'.Orderly) :
    Alike c ids (d.tick env) (d'.tick env') := by
  have hpass : Alike c ids (d.retryPass env) (d'.retryPass env') :=
    A.foldl_retryBatch henv (.of_forall₂ (A.outbox.waiting O.addressed O'.addressed))
  exact { hpass with next := by simp only [Courier.tick, hpass.next, hpass.period] }

end Alike

/-- Whether a pass goes on for other hosts. -/
def busyBeyond (c : String) (d : Courier) : Bool :=
  (d.flights.filter (·.away c)).any (·.job.isRetry)

/-- A tick is due, and a pass for the host alone keeps the loop from it. -/
structure HeldUp (c : String) (d : Courier) : Prop where
  due : d.next ≤ d.now
  busy : d.busy = true
  alone : d.busyBeyond c = false

instance : Decidable (d.HeldUp c) :=
  decidable_of_iff (d.next ≤ d.now ∧ d.busy = true ∧ d.busyBeyond c = false)
    ⟨fun ⟨h₁, h₂, h₃⟩ => ⟨h₁, h₂, h₃⟩, fun h => ⟨h.due, h.busy, h.alone⟩⟩

theorem busy_of_busyBeyond (h : d.busyBeyond c = true) : d.busy = true := by
  obtain ⟨f, hf, hretry⟩ := List.any_eq_true.1 h
  exact List.any_eq_true.2 ⟨f, (List.mem_filter.1 hf).1, hretry⟩

/-- What keeps a loop from a tick that is due goes on for others too, unless the host holds it
up. -/
theorem busy_iff (hdue : d.next ≤ d.now) (hheld : ¬ d.HeldUp c) :
    d.busy = true ↔ d.busyBeyond c = true := by
  refine ⟨fun hbusy => ?_, busy_of_busyBeyond⟩
  by_contra hbeyond
  exact hheld ⟨hdue, hbusy, Bool.eq_false_iff.2 hbeyond⟩

namespace Alike

theorem busyBeyond (A : Alike c ids d d') : d.busyBeyond c = d'.busyBeyond c := by
  have hany {fs fs' : List Flight} (h : List.Forall₂ (Flight.Alike ids) fs fs') :
      fs.any (·.job.isRetry) = fs'.any (·.job.isRetry) := by
    induction h with
    | nil => rfl
    | cons hf _ ih => rw [List.any_cons, List.any_cons, hf.job.isRetry, ih]
  exact hany A.flights

variable (henv : ∀ past a, a.endpoint.host ≠ c → env past a = env' past a)
include henv

/-- A loop that is not held up by the host in the end is not stopped by it on the way. -/
theorem catchUp (A : Alike c ids d d') (O : d.Orderly) (O' : d'.Orderly) (n : Nat)
    (hheld : ¬ (d.catchUp env n).HeldUp c) (hheld' : ¬ (d'.catchUp env' n).HeldUp c) :
    Alike c ids (d.catchUp env n) (d'.catchUp env' n) := by
  induction n generalizing d d' with
  | zero => exact A
  | succ n ih =>
    unfold Courier.catchUp at hheld hheld' ⊢
    have hdue_iff : d.next ≤ d.now ↔ d'.next ≤ d'.now := by rw [A.next, A.now]
    split at hheld <;> split at hheld'
    next h h' =>
      rw [if_pos h, if_pos h']
      exact ih (A.tick henv O O') O.tick O'.tick hheld hheld'
    next h h' =>
      -- the right one stops for a pass that the left one does not have
      have hdue' := hdue_iff.1 h.2
      have hbusy' : d'.busy = true := by
        by_contra hnot
        exact h' ⟨Bool.eq_false_iff.2 hnot, hdue'⟩
      rw [busy_iff hdue' hheld', ← A.busyBeyond] at hbusy'
      rw [busy_of_busyBeyond hbusy'] at h
      cases h.1
    next h h' =>
      have hdue := hdue_iff.2 h'.2
      have hbusy : d.busy = true := by
        by_contra hnot
        exact h ⟨Bool.eq_false_iff.2 hnot, hdue⟩
      rw [busy_iff hdue hheld, A.busyBeyond] at hbusy
      rw [busy_of_busyBeyond hbusy] at h'
      cases h'.1
    next h h' =>
      rw [if_neg h, if_neg h']
      exact A

omit henv in
/-- What is over by now is alike, and so is what is not. -/
theorem flights_due (A : Alike c ids d d') (q : Nat → Nat → Bool) : List.Forall₂ (Flight.Alike ids)
    ((d.flights.filter fun f => q f.due d.now).filter (·.away c))
    ((d'.flights.filter fun f => q f.due d'.now).filter (·.away c)) := by
  have hcomm {fs : List Flight} : (fs.filter fun f => q f.due d.now).filter (·.away c) =
      (fs.filter (·.away c)).filter fun f => q f.due d.now := by
    simp only [List.filter_filter, Bool.and_comm]
  rw [← A.now, hcomm, hcomm]
  exact List.rel_filter (fun f f' hf => by simp only [hf.due]) A.flights

theorem runDue (A : Alike c ids d d') (O : d.Orderly) (O' : d'.Orderly)
    (hn : (d.runDue env).enqueued < UInt64.size) (hn' : (d'.runDue env').enqueued < UInt64.size)
    (hheld : ¬ (d.runDue env).HeldUp c) (hheld' : ¬ (d'.runDue env').HeldUp c) :
    ∃ ids', Alike c ids' (d.runDue env) (d'.runDue env') := by
  rw [enqueued_runDue] at hn hn'
  have O₀ : d.aloft.Orderly := ⟨O.addressed, O.counted⟩
  have O₀' : d'.aloft.Orderly := ⟨O'.addressed, O'.counted⟩
  have A₀ : Alike c ids d.aloft d'.aloft :=
    { A with flights := A.flights_due fun due now => ¬ due ≤ now }
  have hlanded : Aligned (·.away c) (Flight.Alike ids) d.landed d'.landed :=
    .of_forall₂ (A.flights_due fun due now => due ≤ now)
  obtain ⟨ids', A₁⟩ := foldl_land henv hlanded A₀ (le_refl _) O₀ O₀' hn hn'
  have hticks : (d.landed.foldl (Courier.land env) d.aloft).dueTicks =
      (d'.landed.foldl (Courier.land env') d'.aloft).dueTicks := by
    rw [dueTicks, dueTicks, A₁.now, A₁.period, A₁.next]
  unfold Courier.runDue at hheld hheld' ⊢
  dsimp only at hheld hheld' ⊢
  rw [← hticks] at hheld' ⊢
  exact ⟨ids', A₁.catchUp henv (O₀.foldl_land _ hn) (O₀'.foldl_land _ hn') _ hheld hheld'⟩

theorem act (A : Alike c ids d d') (O : d.Orderly) (O' : d'.Orderly) (e : Event)
    (hn : (d.act env e).enqueued < UInt64.size) (hn' : (d'.act env' e).enqueued < UInt64.size)
    (hheld : ¬ (d.act env e).HeldUp c) (hheld' : ¬ (d'.act env' e).HeldUp c) :
    ∃ ids', Alike c ids' (d.act env e) (d'.act env' e) := by
  cases e with
  | elapse =>
    have hwait : Alike c ids { d with now := d.now + 1 } { d' with now := d'.now + 1 } :=
      { A with now := congrArg (· + 1) A.now }
    exact hwait.runDue henv ⟨O.addressed, O.counted⟩ ⟨O'.addressed, O'.counted⟩ hn hn' hheld hheld'
  | call s =>
    by_cases hs : s.peer.host = c
    · exact ⟨ids, (A.left (.begin (x := .send s) hs)).right (.begin (x := .send s) hs)⟩
    · obtain ⟨ids', -, A'⟩ := A.begin henv O O' (.send s) hs
      exact ⟨ids', A'⟩

end Alike

/-! ## Runs -/

theorem run_append_singleton (es : List Event) (e : Event) :
    d.run env (es ++ [e]) = (d.run env es).act env e := run_append es [e]

theorem Orderly.run (O : d.Orderly) {es : List Event}
    (hn : (d.run env es).enqueued < UInt64.size) : (d.run env es).Orderly := by
  induction es using List.reverseRecOn with
  | nil => exact O
  | append_singleton es e ih =>
    rw [run_append_singleton] at hn ⊢
    exact (ih (Nat.lt_of_le_of_lt (enqueued_le_act e) hn)).act e hn

/-- Where the exchanges with all hosts but one go alike, calls lead to the same attempts with all
these hosts at the same times, if neither loop is ever held up by the one host. -/
theorem others_unaffected (henv : ∀ past a, a.endpoint.host ≠ c → env past a = env' past a)
    (first period : Nat) (es : List Event)
    (hn : ((start first period).run env es).enqueued < UInt64.size)
    (hn' : ((start first period).run env' es).enqueued < UInt64.size)
    (hheld : ∀ es₀, es₀ <+: es → ¬ ((start first period).run env es₀).HeldUp c)
    (hheld' : ∀ es₀, es₀ <+: es → ¬ ((start first period).run env' es₀).HeldUp c) :
    ((start first period).run env es).beyond c = ((start first period).run env' es).beyond c := by
  suffices halike : ∃ ids, Alike c ids ((start first period).run env es)
      ((start first period).run env' es) from halike.elim fun _ A => A.attempts
  induction es using List.reverseRecOn with
  | nil => exact ⟨_, .start first period⟩
  | append_singleton es e ih =>
    have hinitial {es₀ : List Event} (h : es₀ <+: es) : es₀ <+: es ++ [e] :=
      h.trans (List.prefix_append es [e])
    rw [run_append_singleton] at hn hn' ⊢
    rw [run_append_singleton]
    have hn₀ := Nat.lt_of_le_of_lt (enqueued_le_act e) hn
    have hn₀' := Nat.lt_of_le_of_lt (enqueued_le_act e) hn'
    obtain ⟨ids, A⟩ := ih hn₀ hn₀' (fun es₀ h => hheld es₀ (hinitial h))
      (fun es₀ h => hheld' es₀ (hinitial h))
    refine A.act henv ((Orderly.start ..).run hn₀) ((Orderly.start ..).run hn₀') e hn hn' ?_ ?_
    · rw [← run_append_singleton]
      exact hheld _ (List.prefix_refl _)
    · rw [← run_append_singleton]
      exact hheld' _ (List.prefix_refl _)

/-! Two messages that nobody takes, for hosts of which one may hang. -/

/-- The attempts with a host fail, each after some time. -/
def refusing (time : String → Nat) : Surroundings := fun _ a =>
  (time a.endpoint.host, .error (.unreachable a.endpoint.render "connection refused"))

/-- How long attempts with `c` hang; nobody else does. -/
def hang (time : Nat) (host : String) : Nat := if host = "c" then time else 0

def toHost (host : String) : Send := ⟨⟨host, host, 7001, 7002, 7003⟩, .stateRequest⟩

/-- Both are called at once, and then six milliseconds pass. -/
def calls : List Event := .call (toHost "b") :: .call (toHost "c") :: List.replicate 6 .elapse

theorem refusing_hang_eq (time : Nat) (past : List Attempt) (a : Attempt)
    (ha : a.endpoint.host ≠ "c") : refusing (hang 0) past a = refusing (hang time) past a := by
  simp only [refusing, hang, if_neg ha]

/-- Exchanges that hang for less than the loop's interval delay nobody else. -/
theorem short_hang_unaffected :
    ((start 2 2).run (refusing (hang 0)) calls).beyond "c" =
      ((start 2 2).run (refusing (hang 1)) calls).beyond "c" ∧
    (((start 2 2).run (refusing (hang 1)) calls).beyond "c").map (·.time) = [6, 4, 2, 0] := by
  have hheld (time : Nat) (htime : time < 2) : ∀ es₀, es₀ <+: calls →
      ¬ ((start 2 2).run (refusing (hang time)) es₀).HeldUp "c" := by
    intro es₀ hes₀
    have hall : ∀ es₀ ∈ calls.inits, ∀ time < 2,
        ¬ ((start 2 2).run (refusing (hang time)) es₀).HeldUp "c" := by decide +kernel
    exact hall es₀ ((List.mem_inits _ _).2 hes₀) time htime
  refine ⟨others_unaffected (refusing_hang_eq 1) 2 2 calls (by decide +kernel) (by decide +kernel)
    (hheld 0 (by decide)) (hheld 1 (by decide)), by decide +kernel⟩

/-- The third retry comes late, because one of the other host keeps the loop from its tick. -/
theorem others_affected :
    (∀ past a, a.endpoint.host ≠ "c" → refusing (hang 0) past a = refusing (hang 3) past a) ∧
    (((start 2 2).run (refusing (hang 0)) calls).beyond "c").map (·.time) = [6, 4, 2, 0] ∧
    (((start 2 2).run (refusing (hang 3)) calls).beyond "c").map (·.time) = [4, 2, 0] :=
  ⟨refusing_hang_eq 3, by decide +kernel, by decide +kernel⟩

end Courier
end CausalStore
