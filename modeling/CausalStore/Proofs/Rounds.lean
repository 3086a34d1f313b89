import CausalStore.Proofs.Couriers
import CausalStore.Proofs.MapLookup
import CausalStore.Simulation.Cluster
import Mathlib.Data.List.Forall2

/-!
# The simulated dispatcher is a courier

A simulated world with one node that has a retry loop, on a network that takes everything, goes the
way of a courier whose surroundings are the modes of the network, from where the loop is started
(`World.follows_startRetryLoop`), whatever somebody sends and however long he waits
(`World.Follows.run`). The world skips to the next moment for which something is planned
(`World.Follows.advance`), and leaves out passes that change nothing.
-/

namespace CausalStore

open Simulation (Job)

/-- What is done `n + 1` times is done once and then `n` times. -/
theorem repeat_succ {α : Type} (f : α → α) (n : Nat) (a : α) :
    Nat.repeat f (n + 1) a = Nat.repeat f n (f a) := by
  induction n with
  | zero => rfl
  | succ n ih => exact congrArg f ih

theorem repeat_fixed {α : Type} {f : α → α} {a : α} (h : f a = a) (n : Nat) :
    Nat.repeat f n a = a := by
  induction n with
  | zero => rfl
  | succ n ih => exact (congrArg f ih).trans h

/-! ## Ticks that are due -/

theorem ticks_of_lt {now next period : Nat} (hp : 0 < period) (h : now < next) :
    (now + period - next) / period = 0 := Nat.div_eq_of_lt (by omega)

theorem ticks_of_le {now next period : Nat} (hp : 0 < period) (h : next ≤ now) :
    (now + period - next) / period = (now + period - (next + period)) / period + 1 := by
  have hsplit : now + period - next = now + period - (next + period) + period := by omega
  rw [hsplit, Nat.add_div_right _ hp]

theorem lt_ticks {period : Nat} (hp : 0 < period) (now next : Nat) :
    now < next + (now + period - next) / period * period := by
  have hlt := Nat.lt_div_mul_add hp (a := now + period - next)
  omega

namespace Courier

variable {env : Surroundings} {d : Courier} {x : Job}

/-- Whatever will end ends later than now. -/
def Ahead (d : Courier) : Prop := ∀ f ∈ d.flights, d.now < f.due

namespace Ahead

theorem settle (h : d.Ahead) (x : Job) (o : Outcome) : (d.settle x o).Ahead := by
  unfold Courier.settle
  split <;> exact h

theorem begin (h : d.Ahead) (x : Job) : (d.begin env x).Ahead := by
  by_cases hzero : (d.forecast env x).1 = 0
  · rw [begin_of_zero hzero]
    exact settle (d := d.note x) h x _
  · rw [begin_of_ne_zero hzero]
    intro f hf
    rcases List.mem_append.1 hf with hf | hf
    · exact h f hf
    · rw [List.mem_singleton.1 hf]
      exact Nat.lt_add_of_pos_right (Nat.pos_of_ne_zero hzero)

theorem retryBatch (h : d.Ahead) (p : Peer) (qs : List Queued) : (d.retryBatch env p qs).Ahead := by
  induction qs generalizing d with
  | nil => exact h
  | cons q rest ih =>
    unfold Courier.retryBatch
    dsimp only
    split
    · exact ih (h.begin _)
    · exact h.begin _

theorem land (h : d.Ahead) (f : Flight) : (d.land env f).Ahead := by
  unfold Courier.land
  split
  · exact h.settle _ _
  · exact (h.settle _ _).retryBatch _ _

theorem tick (h : d.Ahead) : (d.tick env).Ahead := by
  have hpass : (d.retryPass env).Ahead :=
    List.foldlRecOn (motive := Ahead) _ _ h fun _ hd q _ => hd.retryBatch q.peer q.messages
  exact hpass

theorem catchUp (h : d.Ahead) (n : Nat) : (d.catchUp env n).Ahead := by
  induction n generalizing d with
  | zero => exact h
  | succ n ih =>
    unfold Courier.catchUp
    split
    · exact ih h.tick
    · exact h

theorem runDue (d : Courier) : (d.runDue env).Ahead := by
  have haloft : d.aloft.Ahead := fun f hf => by
    have hdue := (List.mem_filter.1 hf).2
    rwa [decide_eq_true_eq, Nat.not_le] at hdue
  have hlanded : (d.landed.foldl (Courier.land env) d.aloft).Ahead :=
    List.foldlRecOn (motive := Ahead) _ _ haloft fun _ hd f _ => hd.land f
  exact hlanded.catchUp _

end Ahead

/-- Ticks that make up for the time make up for what is left of it after one of them. -/
theorem tick_makes_up {n : Nat} (h : d.now < d.next + (n + 1) * d.period) :
    (d.tick env).now < (d.tick env).next + n * (d.tick env).period := by
  rw [tick_now, tick_period, tick_next]
  rw [Nat.succ_mul] at h
  omega

/-- A loop that may tick often enough stops for a pass, or for want of ticks that are due. -/
theorem now_lt_next_of_catchUp (n : Nat) (hn : d.now < d.next + n * d.period)
    (h : (d.catchUp env n).busy = false) : d.now < (d.catchUp env n).next := by
  induction n generalizing d with
  | zero => rwa [Nat.zero_mul] at hn
  | succ n ih =>
    unfold catchUp at h ⊢
    split at h
    next hdue =>
      have hnow : (d.tick env).now = d.now := tick_now
      rw [if_pos hdue, ← hnow]
      exact ih (tick_makes_up hn) h
    next hdue =>
      rw [if_neg hdue]
      by_contra hle
      exact hdue ⟨h, Nat.le_of_not_lt hle⟩

theorem catchUp_now (n : Nat) : (d.catchUp env n).now = d.now := by
  induction n generalizing d with
  | zero => rfl
  | succ n ih =>
    unfold catchUp
    split
    · exact ih.trans tick_now
    · rfl

theorem catchUp_period (n : Nat) : (d.catchUp env n).period = d.period := by
  induction n generalizing d with
  | zero => rfl
  | succ n ih =>
    unfold catchUp
    split
    · exact ih.trans tick_period
    · rfl

theorem runDue_now : (d.runDue env).now = d.now :=
  (catchUp_now _).trans (SameClock.foldl_land env d.aloft d.landed).now

theorem runDue_period : (d.runDue env).period = d.period :=
  (catchUp_period _).trans (SameClock.foldl_land env d.aloft d.landed).period

/-- Nothing is overdue. -/
structure Timely (d : Courier) : Prop where
  period : 0 < d.period
  flights : d.Ahead
  next : d.busy = false → d.now < d.next

theorem Timely.runDue (hp : 0 < d.period) : (d.runDue env).Timely where
  period := by rwa [runDue_period]
  flights := .runDue d
  next hbusy := by
    have hclock := SameClock.foldl_land env d.aloft d.landed
    have hp' : 0 < (d.landed.foldl (Courier.land env) d.aloft).period := hclock.period.symm ▸ hp
    rw [runDue_now, ← show _ = d.now from hclock.now]
    exact now_lt_next_of_catchUp _ (lt_ticks hp' ..) hbusy

/-- Sending is no part of a pass. -/
theorem busy_begin_send (s : Send) : (d.begin env (.send s)).busy = d.busy := by
  by_cases hzero : (d.forecast env (.send s)).1 = 0
  · rw [begin_of_zero hzero]
    generalize (d.forecast env (.send s)).2 = o
    cases o <;> rfl
  · rw [begin_of_ne_zero hzero]
    exact List.any_append.trans (Bool.or_false _)

theorem Timely.begin_send (h : d.Timely) (s : Send) : (d.begin env (.send s)).Timely := by
  have hclock := SameClock.begin env d (.send s)
  refine ⟨hclock.period.symm ▸ h.period, h.flights.begin _, fun hnot => ?_⟩
  rw [hclock.now, hclock.next]
  exact h.next ((busy_begin_send s).symm.trans hnot)

/-! ### Nothing to do -/

theorem runDue_idle (hflights : ∀ f ∈ d.flights, d.now < f.due)
    (hnext : d.busy = false → d.now < d.next) : d.runDue env = d := by
  have hlanded : d.landed = [] :=
    List.filter_eq_nil_iff.2 fun f hf => by simpa using hflights f hf
  have haloft : d.aloft = d := by
    have hall : (d.flights.filter fun f => ¬ f.due ≤ d.now) = d.flights :=
      List.filter_eq_self.2 fun f hf => by simpa using hflights f hf
    rw [aloft, hall]
  unfold runDue
  rw [hlanded, haloft]
  dsimp only [List.foldl_nil]
  cases d.dueTicks with
  | zero => rfl
  | succ n =>
    rw [catchUp, if_neg]
    rintro ⟨hbusy, hle⟩
    exact absurd (hnext hbusy) (Nat.not_lt.2 hle)

/-- Time just passes as long as nothing is due. -/
theorem run_idle (n : Nat) (hflights : ∀ f ∈ d.flights, d.now + n < f.due)
    (hnext : d.busy = false → d.now + n < d.next) :
    d.run env (List.replicate n .elapse) = { d with now := d.now + n } := by
  induction n generalizing d with
  | zero => rfl
  | succ n ih =>
    have hact : d.act env .elapse = { d with now := d.now + 1 } :=
      runDue_idle (d := { d with now := d.now + 1 })
        (fun f hf => Nat.lt_of_le_of_lt (by simp) (hflights f hf))
        (fun hbusy => Nat.lt_of_le_of_lt (by simp) (hnext hbusy))
    rw [List.replicate_succ, run, List.foldl_cons, hact]
    refine (ih (d := { d with now := d.now + 1 }) (fun f hf => ?_) fun hbusy => ?_).trans ?_
    · have := hflights f hf
      dsimp only
      omega
    · have := hnext hbusy
      dsimp only
      omega
    · dsimp only
      rw [Nat.add_assoc, Nat.add_comm 1 n]

end Courier
namespace Simulation

/-- How long an exchange takes on a network that takes everything, and how it ends. -/
def Network.fate (net : Network) (e : Endpoint) : Nat × Outcome :=
  match (net.mode e.host).error? e with
  | some error => ((net.mode e.host).delay, .error error)
  | none => (0, .ok none)

def Network.surroundings (net : Network) : Surroundings := fun _ a => net.fate a.endpoint

/-- The attempt that hangs is the exchange that will end later, with an error. -/
structure Hanging.Shows (node loop : Nat) (h : Hanging) (f : Flight) : Prop where
  node : h.node = node
  due : h.due = f.due
  error : f.outcome = .error h.error
  job : h.job = f.job
  loop : h.loop = if f.job.isRetry then some loop else none

namespace World

variable {net : Network} {node loop : Nat} {ls : List RetryLoop} {w w' : World} {d : Courier}

/-- The node of the world has the queues of the courier, its attempts that hang are under way, and
whatever reached somebody was attempted. -/
structure Shows (net : Network) (node loop : Nat) (ls : List RetryLoop) (w : World) (d : Courier) :
    Prop where
  network : w.network = net
  retryLoops : w.retryLoops = ls
  reconcileLoops : w.reconcileLoops = []
  now : w.now = d.now
  outbox : ∃ n, w.nodes.get? node = some n ∧ n.outbox = d.outbox
  hanging : List.Forall₂ (Hanging.Shows node loop) w.hanging d.flights
  reached : w.reached.Sublist (d.attempts.map fun a => (a.endpoint, a.message))

/-- What becomes of an exchange on a network that takes everything. -/
theorem contact_cases (hnet : w.network.coverage = .everybody) (e : Endpoint) (m : Message) :
    (∃ error, w.network.fate e = (0, .error error) ∧
      w.contact e m = (.ended (.error error), w)) ∨
    (w.network.fate e = (0, .ok none) ∧
      w.contact e m = (.ended (.ok none), { w with reached := (e, m) :: w.reached })) ∨
    ∃ time error, time ≠ 0 ∧ w.network.fate e = (time, .error error) ∧
      w.contact e m = (.hangs time error, w) := by
  unfold contact Network.fate
  rw [if_neg (by rw [hnet]; exact nofun)]
  cases herror : (w.network.mode e.host).error? e with
  | none =>
    refine .inr (.inl ⟨rfl, ?_⟩)
    simp only [herror, arrive, if_pos hnet]
  | some error =>
    by_cases hdelay : (w.network.mode e.host).delay = 0
    · exact .inl ⟨error, by rw [hdelay], by simp only [herror, if_pos hdelay]⟩
    · exact .inr (.inr ⟨_, error, hdelay, rfl, by simp only [herror, if_neg hdelay]⟩)

theorem update_eq {number : Nat} {n : Node} {f : Node → Node} (h : w.nodes.get? number = some n) :
    w.update number f = w.set number (f n) := by
  unfold update
  rw [h]

namespace Shows

/-! ### Exchanges -/

theorem note (S : w.Shows net node loop ls d) (x : Job) : w.Shows net node loop ls (d.note x) :=
  { S with reached := S.reached.cons _ }

theorem reach (S : w.Shows net node loop ls d) (x : Job) :
    Shows net node loop ls { w with reached := (x.endpoint, x.message) :: w.reached }
      (d.note x) :=
  { S with reached := S.reached.cons_cons _ }

/-- What the node does to its queues, the courier does. -/
theorem update (S : w.Shows net node loop ls d) {f : Node → Node} {d' : Courier}
    (houtbox : ∀ n : Node, n.outbox = d.outbox → (f n).outbox = d'.outbox) (hnow : d'.now = d.now)
    (hflights : d'.flights = d.flights) (hattempts : d'.attempts = d.attempts) :
    (w.update node f).Shows net node loop ls d' := by
  obtain ⟨n, hn, ho⟩ := S.outbox
  rw [update_eq hn]
  exact { S with
    now := S.now.trans hnow.symm
    outbox := ⟨f n, SortedMap.get?_insert_self .., houtbox n ho⟩
    hanging := hflights ▸ S.hanging
    reached := hattempts ▸ S.reached }

theorem afterSend (S : w.Shows net node loop ls d) (s : Send) (o : Outcome) :
    (w.update node fun n => n.afterSend s o).Shows net node loop ls (d.settle (.send s) o) := by
  cases o <;> exact S.update (fun n hn => by rw [Node.afterSend, hn]; rfl) rfl rfl rfl

theorem endRetry (S : w.Shows net node loop ls d) (p : Peer) (q : Queued) (rest : List Queued)
    (o : Outcome) : (w.endRetry node (some loop) p q.id o).Shows net node loop ls
      (d.settle (.retry p q rest) o) :=
  S.update (fun n hn => by rw [Node.afterRetry, hn]; cases o <;> rfl) (by cases o <;> rfl)
    (by cases o <;> rfl) (by cases o <;> rfl)

theorem hang (S : w.Shows net node loop ls d) (x : Job) (time : Nat) (error : ExchangeError) :
    (w.hang node time error (if x.isRetry then some loop else none) x).Shows net node loop ls
      (d.launch x (time, .error error)) :=
  { S with
    hanging := List.rel_append S.hanging
      (.cons ⟨rfl, congrArg (· + time) S.now, rfl, rfl, rfl⟩ .nil) }

variable (hnet : net.coverage = .everybody)
include hnet

/-- An exchange that ends at once does so for both, and so does one that takes its time. -/
theorem contact (S : w.Shows net node loop ls d) (x : Job) :
    (∃ o w', w.contact x.endpoint x.message = (.ended o, w') ∧
      d.forecast net.surroundings x = (0, o) ∧ w'.Shows net node loop ls (d.note x)) ∨
    ∃ time error, time ≠ 0 ∧ w.contact x.endpoint x.message = (.hangs time error, w) ∧
      d.forecast net.surroundings x = (time, .error error) := by
  have hforecast : d.forecast net.surroundings x = w.network.fate x.endpoint := by
    rw [S.network]
    rfl
  obtain ⟨error, hfate, hc⟩ | ⟨hfate, hc⟩ | ⟨time, error, htime, hfate, hc⟩ :=
    contact_cases (S.network ▸ hnet) x.endpoint x.message
  · exact .inl ⟨_, w, hc, hforecast.trans hfate, S.note x⟩
  · exact .inl ⟨_, _, hc, hforecast.trans hfate, S.reach x⟩
  · exact .inr ⟨time, error, htime, hc, hforecast.trans hfate⟩

theorem send (S : w.Shows net node loop ls d) (s : Send) :
    (w.send node s).Shows net node loop ls (d.begin net.surroundings (.send s)) := by
  unfold World.send
  obtain ⟨o, w', hc, hforecast, S'⟩ | ⟨time, error, htime, hc, hforecast⟩ :=
    S.contact hnet (.send s)
  · rw [show w.contact s.endpoint s.message = _ from hc, Courier.begin_of_zero (by rw [hforecast]),
      hforecast]
    exact S'.afterSend s o
  · rw [show w.contact s.endpoint s.message = _ from hc,
      Courier.begin_of_ne_zero (by rw [hforecast]; exact htime), hforecast]
    exact (S.note _).hang (.send s) time error

theorem retryBatch (S : w.Shows net node loop ls d) (p : Peer) (qs : List Queued) :
    (w.retryBatch node (some loop) p qs).Shows net node loop ls
      (d.retryBatch net.surroundings p qs) := by
  induction qs generalizing w d with
  | nil => exact S
  | cons q rest ih =>
    unfold World.retryBatch
    obtain ⟨o, w', hc, hforecast, S'⟩ | ⟨time, error, htime, hc, hforecast⟩ :=
      S.contact hnet (.retry p q rest)
    · have hzero : (d.forecast net.surroundings (.retry p q rest)).1 = 0 := by rw [hforecast]
      rw [show w.contact (p.endpoint q.message.channel) q.message = _ from hc,
        Courier.retryBatch_of_zero hzero, Courier.begin_of_zero hzero, hforecast]
      exact ih (S'.endRetry p q rest o)
    · have hne : (d.forecast net.surroundings (.retry p q rest)).1 ≠ 0 := by rwa [hforecast]
      rw [show w.contact (p.endpoint q.message.channel) q.message = _ from hc,
        Courier.retryBatch_of_ne_zero hne, Courier.begin_of_ne_zero hne, hforecast]
      exact (S.note _).hang (.retry p q rest) time error

theorem retryPass (S : w.Shows net node loop ls d) :
    (w.retryPass node (some loop)).Shows net node loop ls (d.retryPass net.surroundings) := by
  obtain ⟨n, hn, ho⟩ := S.outbox
  unfold World.retryPass Courier.retryPass
  rw [hn, ← ho]
  dsimp only
  generalize n.outbox.waiting = qs
  clear hn ho
  induction qs generalizing w d with
  | nil => exact S
  | cons q qs ih => exact ih (S.retryBatch hnet q.peer q.messages)

theorem tick (S : w.Shows net node loop ls d) :
    (w.retryPass node (some loop)).Shows net node loop ls (d.tick net.surroundings) := by
  have hpass := S.retryPass hnet
  exact { hpass with }

theorem conclude (S : w.Shows net node loop ls d) {h : Hanging} {f : Flight}
    (hf : h.Shows node loop f) :
    (w.conclude h).Shows net node loop ls (d.land net.surroundings f) := by
  obtain ⟨_, _, error, job, _⟩ := h
  obtain ⟨_, _, _⟩ := f
  obtain ⟨hnode, -, herror, hjob, hloop⟩ := hf
  dsimp only at hnode herror hjob hloop
  subst hnode herror hjob hloop
  cases job with
  | send s => exact S.afterSend s _
  | retry p q rest => exact (S.endRetry p q rest _).retryBatch hnet p rest

/-! ### Time -/

theorem foldl_conclude (S : w.Shows net node loop ls d) {hs : List Hanging} {fs : List Flight}
    (hfs : List.Forall₂ (Hanging.Shows node loop) hs fs) :
    (hs.foldl World.conclude w).Shows net node loop ls
      (fs.foldl (Courier.land net.surroundings) d) := by
  induction hfs generalizing w d with
  | nil => exact S
  | cons hf _ ih => exact ih (S.conclude hnet hf)

omit hnet in
theorem passHangs (S : w.Shows net node loop ls d) : w.passHangs loop = d.busy := by
  have hflights := S.hanging
  unfold World.passHangs Courier.busy
  generalize w.hanging = hs, d.flights = fs at hflights
  induction hflights with
  | nil => rfl
  | cons hf _ ih =>
    rw [List.any_cons, List.any_cons, ih, hf.loop]
    split <;> simp [*]

end Shows

/-! ### Passes that change nothing -/

/-- What a pass leaves behind: nothing new, unless it reached somebody or hangs. -/
structure Tried (loop : Nat) (w w' : World) : Prop where
  reached : w.reached.length ≤ w'.reached.length
  hangs : w.passHangs loop = true → w'.passHangs loop = true
  still : w' = w ∨ w.reached.length < w'.reached.length ∨ w'.passHangs loop = true

namespace Tried

theorem refl (w : World) : Tried loop w w := ⟨Nat.le_refl _, id, .inl rfl⟩

theorem trans {w'' : World} (h : Tried loop w w') (h' : Tried loop w' w'') : Tried loop w w'' where
  reached := Nat.le_trans h.reached h'.reached
  hangs hw := h'.hangs (h.hangs hw)
  still := by
    rcases h'.still with rfl | hlt | hhangs
    · exact h.still
    · exact .inr (.inl (Nat.lt_of_le_of_lt h.reached hlt))
    · exact .inr (.inr hhangs)

/-- A retry that fails leaves the node as it was. -/
theorem endRetry_error (w : World) (node loop : Nat) (p : Peer) (id : UInt64)
    (error : ExchangeError) : w.endRetry node (some loop) p id (.error error) = w := by
  change w.update node (fun n => n.afterRetry p id (.error error)) = w
  cases hn : w.nodes.get? node with
  | none => unfold World.update; rw [hn]
  | some n =>
    have hsame : w.nodes.insert node n = w.nodes := by
      refine SortedMap.ext_get? fun k => ?_
      by_cases hk : k = node
      · rw [hk, SortedMap.get?_insert_self, hn]
      · exact SortedMap.get?_insert_of_ne _ hk _
    rw [update_eq hn]
    change w.set node n = w
    rw [set, hsame]

theorem endRetry_frame (w : World) (node loop : Nat) (p : Peer) (id : UInt64) (o : Outcome) :
    (w.endRetry node (some loop) p id o).network = w.network ∧
    (w.endRetry node (some loop) p id o).reached = w.reached ∧
    (w.endRetry node (some loop) p id o).hanging = w.hanging := by
  change (w.update node _).network = _ ∧ (w.update node _).reached = _ ∧
    (w.update node _).hanging = _
  unfold World.update
  split <;> exact ⟨rfl, rfl, rfl⟩

theorem retryBatch (node loop : Nat) (hnet : w.network.coverage = .everybody) (p : Peer)
    (qs : List Queued) : Tried loop w (w.retryBatch node (some loop) p qs) ∧
      (w.retryBatch node (some loop) p qs).network = w.network := by
  induction qs generalizing w with
  | nil => exact ⟨refl w, rfl⟩
  | cons q rest ih =>
    unfold World.retryBatch
    obtain ⟨error, -, hc⟩ | ⟨-, hc⟩ | ⟨time, error, -, -, hc⟩ :=
        contact_cases hnet (p.endpoint q.message.channel) q.message <;>
      rw [hc] <;> dsimp only
    · rw [endRetry_error]
      exact ih hnet
    · obtain ⟨hnetwork, hreached, hhanging⟩ := endRetry_frame
        { w with reached := (p.endpoint q.message.channel, q.message) :: w.reached } node loop p
        q.id (.ok none)
      obtain ⟨htried, hrest⟩ := ih (hnetwork ▸ hnet)
      have hlt := congrArg List.length hreached
      refine ⟨trans ⟨?_, ?_, .inr (.inl ?_)⟩ htried, hrest.trans hnetwork⟩
      · rw [hlt]
        exact Nat.le_succ _
      · unfold passHangs
        rw [hhanging]
        exact id
      · rw [hlt]
        exact Nat.lt_succ_self _
    · have hhangs : (w.hang node time error (some loop) (.retry p q rest)).passHangs loop = true :=
        List.any_eq_true.2 ⟨_, List.mem_append_right _ (List.mem_singleton.2 rfl), by simp⟩
      exact ⟨⟨Nat.le_refl _, fun _ => hhangs, .inr (.inr hhangs)⟩, rfl⟩

theorem retryPass (hnet : w.network.coverage = .everybody) :
    Tried loop w (w.retryPass node (some loop)) := by
  unfold World.retryPass
  split
  · exact refl w
  next n hn =>
    clear hn
    generalize n.outbox.waiting = qs
    induction qs generalizing w with
    | nil => exact refl w
    | cons q qs ih =>
      obtain ⟨htried, hnetwork⟩ := retryBatch node loop hnet q.peer q.messages
      exact htried.trans (ih (hnetwork ▸ hnet))

end Tried

/-! ### The retry loop -/

/-- The loop of the world is that of the courier. -/
structure Keeps (node loop : Nat) (l : RetryLoop) (d : Courier) : Prop where
  id : l.id = loop
  node : l.node = node
  period : l.period = d.period
  next : l.next = d.next
  busy : l.busy = d.busy

theorem tick_cases (hnet : net.coverage = .everybody) {l : RetryLoop}
    (S : w.Shows net node loop ls d) (K : Keeps node loop l d) (hbusy : d.busy = false) :
    (∃ l', w.tick l = (w.retryPass node (some loop), l') ∧
      Keeps node loop l' (d.tick net.surroundings)) ∨
    w.retryPass node (some loop) = w ∧ w.tick l = (w, l.skip w.now) := by
  have hpass := S.retryPass hnet
  have htried : Tried loop w (w.retryPass node (some loop)) := .retryPass (S.network ▸ hnet)
  have hhangs : (w.retryPass node (some loop)).passHangs loop = (d.tick net.surroundings).busy :=
    hpass.passHangs
  have hnext : l.next + l.period = (d.tick net.surroundings).next := by
    rw [K.next, K.period, Courier.tick_next]
  have hperiod : l.period = (d.tick net.surroundings).period :=
    K.period.trans Courier.tick_period.symm
  unfold World.tick
  rw [K.id, K.node]
  dsimp only
  split
  next h => exact .inl ⟨_, rfl, rfl, rfl, hperiod, hnext, h.symm.trans hhangs⟩
  next h =>
    split
    next hreached =>
      refine .inr ?_
      obtain hw | hlt | hh := htried.still
      · exact ⟨hw, by rw [hw]⟩
      · exact absurd hreached (Nat.ne_of_gt hlt)
      · exact absurd hh h
    next =>
      refine .inl ⟨_, rfl, rfl, rfl, hperiod, hnext, K.busy.trans (hbusy.trans ?_)⟩
      rw [← hhangs]
      exact (Bool.eq_false_iff.2 h).symm

/-- Where a pass changes nothing, the ticks that are due only move the next one. -/
theorem Shows.catchUp_still (hnet : net.coverage = .everybody) (S : w.Shows net node loop ls d)
    (hstill : w.retryPass node (some loop) = w) (hbusy : d.busy = false) (hp : 0 < d.period)
    (n : Nat) (hn : d.now < d.next + n * d.period) :
    w.Shows net node loop ls (d.catchUp net.surroundings n) ∧
    (d.catchUp net.surroundings n).busy = false ∧
    (d.catchUp net.surroundings n).period = d.period ∧
    (d.catchUp net.surroundings n).next = d.next + d.dueTicks * d.period := by
  induction n generalizing d with
  | zero =>
    have hlt : d.now < d.next := by simpa using hn
    refine ⟨S, hbusy, rfl, ?_⟩
    rw [Courier.dueTicks, ticks_of_lt hp hlt, Nat.zero_mul]
    rfl
  | succ n ih =>
    unfold Courier.catchUp
    split
    next hdue =>
      have htick := S.tick hnet
      rw [hstill] at htick
      have hbusy' : (d.tick net.surroundings).busy = false := by
        rw [← htick.passHangs, S.passHangs, hbusy]
      obtain ⟨hshows, hidle, hperiod, hticks⟩ :=
        ih htick hbusy' (Courier.tick_period.symm ▸ hp) (Courier.tick_makes_up hn)
      refine ⟨hshows, hidle, hperiod.trans Courier.tick_period, ?_⟩
      rw [hticks, Courier.dueTicks, Courier.dueTicks, Courier.tick_now, Courier.tick_period,
        Courier.tick_next, ticks_of_le hp hdue.2, Nat.succ_mul]
      omega
    next hdue =>
      have hlt : d.now < d.next := by
        by_contra hle
        exact hdue ⟨hbusy, Nat.le_of_not_lt hle⟩
      refine ⟨S, hbusy, rfl, ?_⟩
      rw [Courier.dueTicks, ticks_of_lt hp hlt, Nat.zero_mul]
      rfl

/-- What the loop of the world does in one turn of `runRetryLoop`. -/
abbrev turn : World × RetryLoop → World × RetryLoop := fun (w, l) =>
  if l.busy = false ∧ l.next ≤ w.now then w.tick l else (w, l)

theorem Shows.repeat_turn (hnet : net.coverage = .everybody) {l : RetryLoop}
    (S : w.Shows net node loop ls d) (K : Keeps node loop l d) (hp : 0 < d.period) (n : Nat)
    (hn : d.now < d.next + n * d.period) : ∃ w' l', Nat.repeat turn n (w, l) = (w', l') ∧
      w'.Shows net node loop ls (d.catchUp net.surroundings n) ∧
      Keeps node loop l' (d.catchUp net.surroundings n) := by
  induction n generalizing w l d with
  | zero => exact ⟨w, l, rfl, S, K⟩
  | succ n ih =>
    rw [repeat_succ]
    have hcond : (l.busy = false ∧ l.next ≤ w.now) ↔ d.busy = false ∧ d.next ≤ d.now := by
      rw [K.busy, K.next, S.now]
    by_cases hdue : d.busy = false ∧ d.next ≤ d.now
    · have hturn : turn (w, l) = w.tick l := if_pos (hcond.2 hdue)
      rw [hturn]
      obtain ⟨l', htick, K'⟩ | ⟨hstill, htick⟩ := tick_cases hnet S K hdue.1
      · rw [htick, Courier.catchUp, if_pos hdue]
        exact ih (S.tick hnet) K' (Courier.tick_period.symm ▸ hp) (Courier.tick_makes_up hn)
      · obtain ⟨hshows, hbusy, hperiod, hnext⟩ := S.catchUp_still hnet hstill hdue.1 hp (n + 1) hn
        have hskip : (l.skip w.now).next = d.next + d.dueTicks * d.period := by
          simp only [RetryLoop.skip, RetryLoop.dueTicks, Courier.dueTicks, K.next, K.period, S.now]
        have hlater : ¬ ((l.skip w.now).busy = false ∧ (l.skip w.now).next ≤ w.now) := by
          rintro ⟨-, hle⟩
          rw [hskip, S.now, Courier.dueTicks] at hle
          exact absurd (lt_ticks hp d.now d.next) (Nat.not_lt.2 hle)
        have hfixed : turn (w, l.skip w.now) = (w, l.skip w.now) := if_neg hlater
        rw [htick, repeat_fixed hfixed]
        exact ⟨w, _, rfl, hshows, K.id, K.node, K.period.trans hperiod.symm,
          hskip.trans hnext.symm, K.busy.trans (hdue.1.trans hbusy.symm)⟩
    · have hturn : turn (w, l) = (w, l) := if_neg fun h => hdue (hcond.1 h)
      rw [hturn, repeat_fixed hturn, Courier.catchUp, if_neg hdue]
      exact ⟨w, l, rfl, S, K⟩

/-- The world does what the courier does with all that is due. -/
theorem Shows.runDue (hnet : net.coverage = .everybody) {l : RetryLoop}
    (S : w.Shows net node l.id [l] d) (K : Keeps node l.id l d) (hp : 0 < d.period) :
    ∃ l', w.runDue.Shows net node l'.id [l'] (d.runDue net.surroundings) ∧
      Keeps node l'.id l' (d.runDue net.surroundings) := by
  have hfilter (q : Nat → Nat → Bool) : List.Forall₂ (Hanging.Shows node l.id)
      (w.hanging.filter fun h => q h.due w.now) (d.flights.filter fun f => q f.due d.now) := by
    rw [← S.now]
    exact List.rel_filter (fun h f hf => by simp only [hf.due]) S.hanging
  have S₀ : Shows net node l.id [l]
      { w with hanging := w.hanging.filter fun h => ¬ h.due ≤ w.now } d.aloft :=
    { S with hanging := hfilter fun due now => ¬ due ≤ now }
  have S₁ := S₀.foldl_conclude hnet (hfilter fun due now => due ≤ now)
  have hclock := Courier.SameClock.foldl_land net.surroundings d.aloft d.landed
  unfold World.runDue Courier.runDue
  dsimp only [Courier.landed] at S₁ hclock ⊢
  generalize List.foldl World.conclude _ _ = w₁, List.foldl (Courier.land net.surroundings) _ _ = d₁
    at S₁ hclock
  have hperiod : d₁.period = d.period := hclock.period
  have hnext : d₁.next = d.next := hclock.next
  have K₁ : Keeps node l.id { l with busy := w₁.passHangs l.id } d₁ :=
    ⟨rfl, K.node, K.period.trans hperiod.symm, K.next.trans hnext.symm, S₁.passHangs⟩
  have hticks : l.dueTicks w₁.now = d₁.dueTicks := by
    rw [RetryLoop.dueTicks, Courier.dueTicks, K.period, K.next, S₁.now, hperiod, hnext]
  obtain ⟨w', l', hturns, S', K'⟩ := S₁.repeat_turn hnet K₁ (hperiod ▸ hp) d₁.dueTicks
    (lt_ticks (hperiod ▸ hp) ..)
  have hrun : w₁.runRetryLoop l = (w', l') := by
    rw [runRetryLoop, hticks]
    exact hturns
  rw [S₁.retryLoops, runLoops, hrun]
  dsimp only [runLoops]
  rw [S'.reconcileLoops]
  refine ⟨l', ?_, { K' with id := rfl }⟩
  rw [K'.id]
  exact { S' with
    retryLoops := rfl
    reconcileLoops := rfl }

/-- The moments of the world are those for which the courier has something planned. -/
theorem Shows.mem_moments {l : RetryLoop} (S : w.Shows net node l.id [l] d)
    (K : Keeps node l.id l d) {t : Nat} :
    t ∈ w.moments ↔ (∃ f ∈ d.flights, f.due = t) ∨ d.busy = false ∧ t = d.next := by
  have hdue : w.hanging.map (·.due) = d.flights.map (·.due) := by
    rw [← List.forall₂_eq_eq_eq, List.forall₂_map_left_iff, List.forall₂_map_right_iff]
    exact S.hanging.imp fun _ _ hf => hf.due
  rw [moments, S.retryLoops, S.reconcileLoops, hdue]
  simp only [List.map_nil, List.append_nil, List.mem_append, List.mem_map, List.mem_filter,
    List.mem_singleton, Bool.not_eq_true']
  refine or_congr Iff.rfl ⟨?_, ?_⟩
  · rintro ⟨l', ⟨rfl, hbusy⟩, rfl⟩
    exact ⟨K.busy.symm.trans hbusy, K.next⟩
  · rintro ⟨hbusy, rfl⟩
    exact ⟨l, ⟨rfl, K.busy.trans hbusy⟩, K.next⟩

/-- What somebody does with the world who sends and waits. -/
def act (node : Nat) (w : World) : Courier.Event → World
  | .call s => w.send node s
  | .elapse => w.advance 1

/-- The world with its one loop is where the courier is, and nothing is overdue. -/
structure Follows (net : Network) (node : Nat) (w : World) (d : Courier) : Prop where
  shown : ∃ l, w.Shows net node l.id [l] d ∧ Keeps node l.id l d
  timely : d.Timely

namespace Follows

/-- Before the next moment the time just passes. -/
theorem wait (F : w.Follows net node d) (n : Nat) (h : ∀ t ∈ w.moments, w.now + n < t) :
    d.run net.surroundings (List.replicate n .elapse) = { d with now := d.now + n } ∧
    Follows net node { w with now := w.now + n } { d with now := d.now + n } := by
  obtain ⟨⟨l, S, K⟩, T⟩ := F
  rw [S.now] at h
  have hflights : ∀ f ∈ d.flights, d.now + n < f.due := fun f hf =>
    h _ ((S.mem_moments K).2 (.inl ⟨f, hf, rfl⟩))
  have hnext : d.busy = false → d.now + n < d.next := fun hbusy =>
    h _ ((S.mem_moments K).2 (.inr ⟨hbusy, rfl⟩))
  exact ⟨Courier.run_idle n hflights hnext,
    ⟨l, { S with now := congrArg (· + n) S.now }, { K with }⟩, T.period, hflights, hnext⟩

theorem now_lt_moments (F : w.Follows net node d) : ∀ t ∈ w.moments, w.now < t := by
  obtain ⟨⟨l, S, K⟩, T⟩ := F
  intro t ht
  rw [S.now]
  obtain ⟨f, hf, rfl⟩ | ⟨hbusy, rfl⟩ := (S.mem_moments K).1 ht
  · exact T.flights f hf
  · exact T.next hbusy

variable (hnet : net.coverage = .everybody)
include hnet

theorem runDue (F : w.Follows net node d) (t : Nat) :
    Follows net node { ({ w with now := t } : World).runDue with now := t }
      (Courier.runDue net.surroundings { d with now := t }) := by
  obtain ⟨⟨l, S, K⟩, T⟩ := F
  have S₀ : Shows net node l.id [l] { w with now := t } { d with now := t } :=
    { S with now := rfl }
  obtain ⟨l', S', K'⟩ := S₀.runDue hnet { K with } T.period
  have hnow : (Courier.runDue net.surroundings { d with now := t }).now = t := Courier.runDue_now
  exact ⟨⟨l', { S' with now := hnow.symm }, K'⟩, .runDue T.period⟩

/-- Where the world goes from one planned moment to the next, the courier lets each millisecond
pass. -/
theorem advanceTo (F : w.Follows net node d) (deadline : Nat) (h : w.now ≤ deadline) :
    (w.advanceTo deadline).Follows net node
      (d.run net.surroundings (List.replicate (deadline - w.now) .elapse)) := by
  induction hk : deadline - w.now using Nat.strongRecOn generalizing w d with
  | ind k ih =>
    subst hk
    have hquiet (hlate : ∀ t ∈ w.moments, deadline < t) :
        Follows net node { w with now := max w.now deadline }
          (d.run net.surroundings (List.replicate (deadline - w.now) .elapse)) := by
      have hsum : w.now + (deadline - w.now) = deadline := Nat.add_sub_cancel' h
      obtain ⟨hrun, F'⟩ := F.wait (deadline - w.now) fun t ht => hsum.symm ▸ hlate t ht
      rw [hrun, Nat.max_eq_right h]
      rwa [hsum] at F'
    unfold World.advanceTo
    cases hnext : w.nextMoment? with
    | none =>
      have hnone : w.moments = [] := List.min?_eq_none_iff.1 hnext
      exact hquiet fun t ht => by rw [hnone] at ht; cases ht
    | some t =>
      obtain ⟨hmem, hmin⟩ := List.min?_eq_some_iff.1 hnext
      have hnow := F.now_lt_moments t hmem
      dsimp only
      split
      next hdue =>
        obtain ⟨hrun, -⟩ := F.wait (t - 1 - w.now) fun t' ht' => by
          have := hmin t' ht'
          omega
        have hd : d.now = w.now := F.shown.elim fun _ hl => hl.1.now.symm
        have hsplit : deadline - w.now = (t - 1 - w.now) + (1 + (deadline - t)) := by omega
        have hlast : d.now + (t - 1 - w.now) + 1 = t := by omega
        have hact : ({ d with now := d.now + (t - 1 - w.now) } : Courier).act net.surroundings
            .elapse = Courier.runDue net.surroundings { d with now := t } := by
          rw [Courier.act, hlast]
        rw [hsplit, List.replicate_add, List.replicate_add, Courier.run_append,
          Courier.run_append, hrun, List.replicate_one, Courier.run_singleton, hact]
        exact ih (deadline - t) (by omega) (F.runDue hnet t) hdue.2 rfl
      next hdue =>
        refine hquiet fun t' ht' => ?_
        have := hmin t' ht'
        omega

theorem advance (F : w.Follows net node d) (time : Nat) : (w.advance time).Follows net node
    (d.run net.surroundings (List.replicate time .elapse)) := by
  have hrun := F.advanceTo hnet (w.now + time) (Nat.le_add_right ..)
  rwa [Nat.add_sub_cancel_left] at hrun

theorem send (F : w.Follows net node d) (s : Send) :
    (w.send node s).Follows net node (d.act net.surroundings (.call s)) := by
  obtain ⟨⟨l, S, K⟩, T⟩ := F
  have hclock := Courier.SameClock.begin net.surroundings d (.send s)
  exact ⟨⟨l, S.send hnet s, rfl, K.node, K.period.trans hclock.period.symm,
    K.next.trans hclock.next.symm, K.busy.trans (Courier.busy_begin_send s).symm⟩, T.begin_send s⟩

theorem act (F : w.Follows net node d) (e : Courier.Event) :
    (w.act node e).Follows net node (d.act net.surroundings e) := by
  cases e with
  | call s => exact F.send hnet s
  | elapse => exact F.advance hnet 1

/-- Whatever happens in the world while the network is the same happens to the courier. -/
theorem run (F : w.Follows net node d) (es : List Courier.Event) :
    (es.foldl (World.act node) w).Follows net node (d.run net.surroundings es) := by
  induction es generalizing w d with
  | nil => exact F
  | cons e es ih => exact ih (F.act hnet e)

omit hnet in
/-- From here on the surroundings are those of the new network. -/
theorem setMode (F : w.Follows net node d) (host : String) (m : Mode) :
    (w.setMode host m).Follows (net.setMode host m) node d := by
  obtain ⟨⟨l, S, K⟩, T⟩ := F
  exact ⟨⟨l, { S with network := congrArg (·.setMode host m) S.network }, K⟩, T⟩

end Follows

/-- A world in which nothing was sent yet, with the loop of its one node, is where a courier
starts. -/
theorem follows_startRetryLoop {n : Node} (hn : n.outbox = .empty) (c : Coverage) {period : Nat}
    (hp : 0 < period) :
    (((World.empty c).add n).startRetryLoop 0 period).Follows (.empty c) 0
      (.start period period) := by
  rw [startRetryLoop, if_neg (Nat.ne_of_gt hp)]
  refine ⟨⟨⟨0, 0, period, 0 + period, false⟩, ⟨rfl, rfl, rfl, rfl, ?_, .nil, .slnil⟩, rfl, rfl,
    rfl, Nat.zero_add period, rfl⟩, hp, nofun, fun _ => hp⟩
  exact ⟨n, SortedMap.get?_insert_self .., hn⟩

end World

end Simulation
end CausalStore
