import CausalStore.Proofs.PeerLists
import CausalStore.Proofs.Runs

/-!
# Where retries go

A station is one node with all that it has under way. Anybody may send it anything, under any name,
and its exchanges end in any way. A queue is opened for a peer that is listed, no address is ever
listed for a second peer, and nothing is queued but what was sent to a peer that is listed: so what
is tried again goes to where it went at first.
-/

namespace CausalStore

theorem Node.act_handle_outbox (n : Node) (m : Message) :
    (n.act (.handle m)).outbox = n.outbox := by
  cases m with
  | joinRequest p | newPeerAnnounce p => exact n.meet_outbox p
  | update u | stateRequest | joinResponse ps | stateResponse s => rfl

theorem Node.act_transfer_outbox (n : Node) (o : Outcome) :
    (n.act (.transfer o)).outbox = n.outbox := by
  rw [act]
  cases hend : n.concludeTransfer o with
  | error e => rfl
  | ok r =>
    obtain ⟨n', report⟩ := r
    obtain ⟨s, -, rfl⟩ := concludeTransfer_eq_ok hend
    rfl

/-- A node, what it has yet to do, and what it has done. -/
structure Station where
  node : Node
  duties : List Duty
  /-- The peers for whom a retry pass has yet to copy what waits. -/
  batches : List Peer
  /-- The exchanges that did not end. -/
  errands : List Errand
  /-- All exchanges that were started. -/
  started : List Errand
  /-- The sends whose first attempts failed, and as what they were queued. -/
  shelved : List (Send × Queued)

namespace Station

inductive Action where
  | put (key value : String)
  | handle (m : Message)
  | reconcile
  | perform (d : Duty)
  | join
  | bootstrap (source : Peer)
  | startPass
  /-- A retry pass copies what waits for a peer. -/
  | copy (p : Peer)
  | finish (x : Errand) (outcome : Outcome)

def start (n : Node) : Station := ⟨n, [], [], [], [], []⟩

def launch (t : Station) (errands : List Errand) : Station :=
  { t with errands := t.errands ++ errands, started := errands ++ t.started }

def owe (t : Station) (d : Duty) : Station := { t with duties := d :: t.duties }

def put (t : Station) (key value : String) : Option Station :=
  match t.node.put key value with
  | .error _ => none
  | .ok (node, u) => some ({ t with node }.owe (.broadcast u))

def perform (t : Station) (d : Duty) : Option Station :=
  if d ∈ t.duties then
    some ({ t with duties := t.duties.erase d }.launch (d.errands t.node))
  else none

def join (t : Station) : Option Station :=
  t.node.settings.seed.map fun seed => t.launch [.join t.node.identity seed]

/-- A pass may begin while others are under way. -/
def startPass (t : Station) : Station :=
  { t with batches := t.batches ++ t.node.outbox.peersWithPending }

def copy (t : Station) (p : Peer) : Option Station :=
  if p ∈ t.batches then
    some ({ t with batches := t.batches.erase p }.launch
      (Errand.batch p (t.node.outbox.pendingFor p.address)))
  else none

def afterSend (t : Station) (s : Send) (outcome : Outcome) : Station :=
  { t with
    node := t.node.afterSend s outcome
    shelved :=
      match outcome with
      | .ok _ => t.shelved
      | .error _ => (s, ⟨t.node.outbox.nextId, s.message⟩) :: t.shelved }

/-- The retry of the next message begins, however that of `q` has ended. -/
def afterRetry (t : Station) (p : Peer) (q : Queued) (rest : List Queued) (outcome : Outcome) :
    Station :=
  { t with node := t.node.afterRetry p q.id outcome }.launch (Errand.batch p rest)

def afterJoin (t : Station) (seed : Seed) (outcome : Outcome) : Station :=
  match t.node.concludeJoin seed outcome with
  | .error _ => t
  | .ok (node, joined) => { t with node }.owe (.settle joined.seed)

/-- What the node makes of the end of an exchange. -/
def conclude (t : Station) (x : Errand) (outcome : Outcome) : Station :=
  match x with
  | .send s => t.afterSend s outcome
  | .retry p q rest => t.afterRetry p q rest outcome
  | .join _ seed => t.afterJoin seed outcome
  | .transfer _ => { t with node := t.node.act (.transfer outcome) }

def finish (t : Station) (x : Errand) (outcome : Outcome) : Option Station :=
  if x ∈ t.errands then some ({ t with errands := t.errands.erase x }.conclude x outcome) else none

def step (t : Station) : Action → Option Station
  | .put key value => t.put key value
  | .handle m => some { t with node := t.node.act (.handle m) }
  | .reconcile => some { t with node := t.node.reconcile }
  | .perform d => t.perform d
  | .join => t.join
  | .bootstrap source => some (t.launch [.transfer source])
  | .startPass => some t.startPass
  | .copy p => t.copy p
  | .finish x outcome => t.finish x outcome

variable {t t' : Station} {n : Node} {p : Peer} {q : Queued} {x : Errand} {o : Outcome}

/-! ## What is under way -/

/-- A message for the address was queued as `q` when its first attempt had failed. -/
def Shelved (t : Station) (a : Address) (q : Queued) : Prop :=
  ∃ s, (s, q) ∈ t.shelved ∧ s.peer.address = a

/-- Who is sent to is listed, and what is tried again was queued for the same address. -/
def Fits (t : Station) : Errand → Prop
  | .send s => s.peer ∈ t.node.directory.peers
  | .retry p q rest => p ∈ t.node.directory.peers ∧ ∀ q' ∈ q :: rest, t.Shelved p.address q'
  | .join .. | .transfer _ => True

theorem Fits.mono (h : t.Fits x) (hdir : t.node.directory.KeptIn t'.node.directory)
    (hshelved : t.shelved ⊆ t'.shelved) : t'.Fits x := by
  cases x with
  | send s => exact hdir.mem_peers h
  | retry p q rest =>
    refine ⟨hdir.mem_peers h.1, fun q' hq' => ?_⟩
    obtain ⟨s, hs, haddr⟩ := h.2 q' hq'
    exact ⟨s, hshelved hs, haddr⟩
  | join self seed | transfer source => trivial

theorem fits_of_batch {qs : List Queued} (hp : p ∈ t.node.directory.peers)
    (hqs : ∀ q ∈ qs, t.Shelved p.address q) (hx : x ∈ Errand.batch p qs) : t.Fits x := by
  cases qs with
  | nil => cases hx
  | cons q rest => exact List.mem_singleton.1 hx ▸ ⟨hp, hqs⟩

theorem fits_of_duty {d : Duty} (hx : x ∈ d.errands t.node) : t.Fits x := by
  obtain ⟨p, hp, m, rfl, -⟩ | ⟨source, rfl⟩ := Duty.errands_cases hx
  · exact hp
  · trivial

/-- All that is queued, or was started, is for peers that are listed. -/
structure Sound (t : Station) : Prop where
  acquainted : t.node.Acquainted
  addressed : t.node.outbox.Addressed
  queues : ∀ a r, t.node.outbox.queues.get? a = some r → r.peer ∈ t.node.directory.peers
  waiting : ∀ a, ∀ q ∈ t.node.outbox.pendingFor a, t.Shelved a q
  batches : ∀ p ∈ t.batches, p ∈ t.node.directory.peers
  errands : ∀ x ∈ t.errands, x ∈ t.started
  started : ∀ x ∈ t.started, t.Fits x
  shelved : ∀ s q, (s, q) ∈ t.shelved → .send s ∈ t.started ∧ s.message = q.message

namespace Sound

theorem start (s : Settings) : (Station.start (.fresh s)).Sound where
  acquainted := .fresh s
  addressed := .empty
  queues _ _ hr := nomatch hr
  waiting _ _ hq := nomatch hq
  batches _ hp := nomatch hp
  errands _ hx := nomatch hx
  started _ hx := nomatch hx
  shelved _ _ hs := nomatch hs

/-! ### What keeps this -/

/-- Neither what the node learns nor what becomes of its data touches what is queued. -/
theorem node (h : t.Sound) (hn : t.node.Change n) (ho : n.outbox = t.node.outbox) :
    { t with node := n }.Sound where
  acquainted := h.acquainted.change hn
  addressed := ho ▸ h.addressed
  queues a r hr := hn.keptIn.mem_peers (h.queues a r (ho ▸ hr))
  waiting a q hq := h.waiting a q (ho ▸ hq)
  batches p hp := hn.keptIn.mem_peers (h.batches p hp)
  errands := h.errands
  started x hx := (h.started x hx).mono hn.keptIn (List.Subset.refl _)
  shelved := h.shelved

theorem launch (h : t.Sound) {xs : List Errand} (hxs : ∀ x ∈ xs, t.Fits x) : (t.launch xs).Sound :=
  { h with
    errands := fun x hx => by
      rcases List.mem_append.1 hx with hx | hx
      · exact List.mem_append_right _ (h.errands x hx)
      · exact List.mem_append_left _ hx
    started := fun x hx => (List.mem_append.1 hx).elim (hxs x) (h.started x)
    shelved := fun s q hs =>
      ⟨List.mem_append_right _ (h.shelved s q hs).1, (h.shelved s q hs).2⟩ }

/-- A message that is queued goes behind what waits for the peer. If nothing ever did, then the queue
is opened for the peer of this very send. -/
theorem afterSend (h : t.Sound) {s : Send} (hs : .send s ∈ t.started) (o : Outcome) :
    (t.afterSend s o).Sound := by
  cases o with
  | ok reply => exact { h with }
  | error cause =>
    exact
      { acquainted := h.acquainted.change (.outbox _)
        addressed := h.addressed.enqueue s.peer s.message
        queues := fun a r hr => by
          obtain hr | ⟨-, rfl | ⟨r', hr', rfl⟩⟩ := Outbox.queue_of_enqueue hr
          · exact h.queues a r hr
          · exact h.started _ hs
          · exact h.queues a r' hr'
        waiting := fun a q hq => by
          obtain hq | ⟨rfl, rfl⟩ := Outbox.mem_enqueue.1 hq
          · obtain ⟨s', hs', haddr⟩ := h.waiting a q hq
            exact ⟨s', List.mem_cons_of_mem _ hs', haddr⟩
          · exact ⟨s, List.mem_cons_self, rfl⟩
        batches := h.batches
        errands := h.errands
        started := fun x hx => (h.started x hx).mono (.refl _) (List.subset_cons_self ..)
        shelved := fun s' q hq => by
          rcases List.mem_cons.1 hq with heq | hq
          · cases heq
            exact ⟨hs, rfl⟩
          · exact h.shelved s' q hq }

theorem afterRetry (h : t.Sound) {rest : List Queued} (hx : .retry p q rest ∈ t.started)
    (o : Outcome) : (t.afterRetry p q rest o).Sound := by
  have ht : { t with node := t.node.afterRetry p q.id o }.Sound := by
    cases o with
    | error cause => exact { h with }
    | ok reply =>
      exact
        { h with
          acquainted := h.acquainted.change (.outbox _)
          addressed := h.addressed.remove p.address q.id
          queues := fun a r hr => by
            obtain ⟨r', hr', hpeer, -⟩ := Outbox.queue_of_remove hr
            exact hpeer ▸ h.queues a r' hr'
          waiting := fun a q' hq' => h.waiting a q' (Outbox.mem_remove.1 hq').1 }
  obtain ⟨hp, hqs⟩ := ht.started _ hx
  exact ht.launch fun y hy =>
    fits_of_batch hp (fun q' hq' => hqs q' (List.mem_cons_of_mem _ hq')) hy

theorem afterJoin (h : t.Sound) (seed : Seed) (o : Outcome) : (t.afterJoin seed o).Sound := by
  unfold Station.afterJoin
  split
  next => exact h
  next n joined hjoin =>
    have hn := Node.concludeJoin_change hjoin
    obtain ⟨-, -, -, -, rfl⟩ := Node.concludeJoin_eq_ok hjoin
    exact { h.node hn rfl with }

theorem afterTransfer (h : t.Sound) (o : Outcome) :
    { t with node := t.node.act (.transfer o) }.Sound :=
  h.node (t.node.act_change (.transfer o)) (t.node.act_transfer_outbox o)

/-! ### Steps -/

theorem put (h : t.Sound) {key value : String} (hput : t.put key value = some t') : t'.Sound := by
  unfold Station.put at hput
  split at hput
  next => cases hput
  next n u hwrite =>
    cases hput
    have hn := t.node.act_change (.put key value)
    rw [Node.act, hwrite] at hn
    obtain ⟨e, -, rfl⟩ := Node.put_eq_ok hwrite
    exact { h.node hn rfl with }

theorem handle (h : t.Sound) (m : Message) :
    { t with node := t.node.act (.handle m) }.Sound :=
  h.node (t.node.act_change (.handle m)) (t.node.act_handle_outbox m)

theorem perform (h : t.Sound) {d : Duty} (hperform : t.perform d = some t') : t'.Sound := by
  unfold Station.perform at hperform
  split at hperform
  next =>
    cases hperform
    have ht : { t with duties := t.duties.erase d }.Sound := { h with }
    exact ht.launch fun x hx => fits_of_duty hx
  next => cases hperform

theorem startPass (h : t.Sound) : t.startPass.Sound :=
  { h with
    batches := fun p hp => by
      rcases List.mem_append.1 hp with hp | hp
      · exact h.batches p hp
      · obtain ⟨r, hr, rfl⟩ := List.mem_map.1 hp
        obtain ⟨⟨a, hr⟩, -⟩ := Outbox.mem_waiting.1 hr
        exact h.queues a r hr }

theorem copy (h : t.Sound) (hcopy : t.copy p = some t') : t'.Sound := by
  unfold Station.copy at hcopy
  split at hcopy
  next hp =>
    cases hcopy
    have ht : { t with batches := t.batches.erase p }.Sound :=
      { h with batches := fun p' hp' => h.batches p' (List.mem_of_mem_erase hp') }
    exact ht.launch fun x hx => fits_of_batch (h.batches p hp) (h.waiting p.address) hx
  next => cases hcopy

theorem conclude (h : t.Sound) (hx : x ∈ t.started) (o : Outcome) : (t.conclude x o).Sound := by
  cases x with
  | send s => exact h.afterSend hx o
  | retry p q rest => exact h.afterRetry hx o
  | join self seed => exact h.afterJoin seed o
  | transfer source => exact h.afterTransfer o

theorem finish (h : t.Sound) (hfinish : t.finish x o = some t') : t'.Sound := by
  unfold Station.finish at hfinish
  split at hfinish
  next hx =>
    cases hfinish
    have ht : { t with errands := t.errands.erase x }.Sound :=
      { h with errands := fun y hy => h.errands y (List.mem_of_mem_erase hy) }
    exact ht.conclude (h.errands x hx) o
  next => cases hfinish

theorem step {a : Action} (h : t.Sound) (hstep : t.step a = some t') : t'.Sound := by
  cases a with
  | put key value => exact h.put hstep
  | handle m => cases hstep; exact h.handle m
  | reconcile => cases hstep; exact h.node (.engine .reconcile) rfl
  | perform d => exact h.perform hstep
  | join =>
    obtain ⟨seed, -, rfl⟩ := Option.map_eq_some_iff.1 hstep
    exact h.launch fun x hx => List.mem_singleton.1 hx ▸ trivial
  | bootstrap source =>
    cases hstep
    exact h.launch fun x hx => List.mem_singleton.1 hx ▸ trivial
  | startPass => cases hstep; exact h.startPass
  | copy p => exact h.copy hstep
  | finish x outcome => exact h.finish hstep

theorem of_reaches {s : Settings} {allowed : Station → Action → Prop}
    (h : Reaches Station.step allowed (Station.start (.fresh s)) t) : t.Sound :=
  h.keeps (start s) fun ht _ hstep => ht.step hstep

/-- Whom a queue was opened for is listed with its address. -/
theorem queue_listed (h : t.Sound) {a : Address} {r : Queue}
    (hr : t.node.outbox.queues.get? a = some r) :
    t.node.directory.byAddress.get? a = some r.peer := by
  have hget := h.acquainted.keyed.get?_of_mem (h.queues a r hr)
  rwa [h.addressed a r hr] at hget

/-- No two sends for one address are to different peers, even if a retry is one of them. -/
theorem peer_eq (h : t.Sound) {s : Send} (hs : .send s ∈ t.started)
    (hp : p ∈ t.node.directory.peers) (haddr : s.peer.address = p.address) : s.peer = p := by
  have hget := h.acquainted.keyed.get?_of_mem (h.started _ hs)
  rw [haddr, h.acquainted.keyed.get?_of_mem hp] at hget
  exact (Option.some.inj hget).symm

end Sound

/-- What is tried again stays with the peer that it was for. -/
structure Faithful (t : Station) : Prop where
  /-- Each queue keeps the identity that is listed for its address. -/
  queues : ∀ a r, t.node.outbox.queues.get? a = some r →
    t.node.directory.byAddress.get? a = some r.peer
  /-- What is tried again was queued for the same address. -/
  queued : ∀ p q rest, .retry p q rest ∈ t.started → t.Shelved p.address q
  /-- It goes to the endpoint to which it went when it was tried first. -/
  retries : ∀ p q rest s, .retry p q rest ∈ t.started → (s, q) ∈ t.shelved →
    s.peer.address = p.address → .send s ∈ t.started ∧ s.message = q.message ∧
      (Errand.retry p q rest).endpoint = (Errand.send s).endpoint

theorem Sound.faithful (ht : t.Sound) : t.Faithful := by
  refine ⟨fun a r hr => ht.queue_listed hr, fun p q rest hretry => ?_,
    fun p q rest s hretry hs haddr => ?_⟩
  · exact (ht.started _ hretry).2 q List.mem_cons_self
  · obtain ⟨hsend, hmessage⟩ := ht.shelved s q hs
    have hpeer : s.peer = p := ht.peer_eq hsend (ht.started _ hretry).1 haddr
    refine ⟨hsend, hmessage, ?_⟩
    rw [Errand.endpoint, Errand.endpoint, Send.endpoint, hpeer, hmessage]

/-- Whatever a node was told, by whomever, and however its exchanges took turns and ended, no retry
goes astray. -/
theorem retries_follow_first_attempts (settings : Settings)
    (h : Reaches step (fun _ _ => True) (start (.fresh settings)) t) : t.Faithful :=
  (Sound.of_reaches h).faithful

/-! A write and an announcement to `b` fail, and are queued. Meanwhile somebody else presents itself
under the address of `b`, with another discovery port. -/

def caller : Settings := { Settings.onLoopback "a" 7000 with seed := some ⟨"s", 7002⟩ }

def callers : List Action :=
  let b : Peer := ⟨"b", "host", 7100, 7101, 7102⟩
  let refused : Outcome := .error (.unreachable "host" "connection refused")
  let update : Update := ⟨"k", "v", "a", .ofList [("a", 1), ("b", 0)]⟩
  let own : Message := .newPeerAnnounce caller.identity
  [.handle (.newPeerAnnounce b), .put "k" "v", .perform (.broadcast update),
    .finish (.send ⟨b, .update update⟩) refused,
    .handle (.joinRequest ⟨"c", "host", 7100, 7201, 7202⟩), .join,
    .finish (.join caller.identity ⟨"s", 7002⟩) (.ok (some (.joinResponse [caller.identity]))),
    .perform (.settle caller.identity), .finish (.send ⟨b, own⟩) refused, .startPass, .copy b,
    .finish (.retry b ⟨0, .update update⟩ [⟨1, own⟩]) refused]

/-- Where the retries went, the latest first. -/
def retried (t : Station) : List Endpoint :=
  (t.started.filter fun x => x matches .retry ..).map (·.endpoint)

theorem namesake_gets_no_retry : ∃ t, runAll step (start (.fresh caller)) callers = some t ∧
    t.retried = [⟨"host", 7101, .discovery⟩, ⟨"host", 7100, .replication⟩] ∧ t.Faithful := by
  have hview : (runAll step (start (.fresh caller)) callers).map retried =
      some [⟨"host", 7101, .discovery⟩, ⟨"host", 7100, .replication⟩] := by decide +kernel
  obtain ⟨t, ht, hretried⟩ := Option.map_eq_some_iff.1 hview
  exact ⟨t, ht, hretried, retries_follow_first_attempts caller (.of_runAll ht)⟩

end Station
end CausalStore
