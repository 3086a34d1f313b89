import CausalStore.Proofs.Addressees

/-!
# Nodes never speak out of turn

A cluster in a network that knows hosts and ports only: a message comes to whatever channel some
node serves there, and is refused where it is not the channel's own. Where the nodes have hosts of
their own and each its ports apart, nothing is ever refused, every message gets the answer that it
asks for, and no request ends in anything worse than a failed exchange (`Traffic.in_turn`).
-/

namespace CausalStore

/-- The nodes have hosts and ports of their own, and their seeds are nodes. -/
structure Settings.Apart {ι : Type} (conf : ι → Settings) : Prop where
  valid : ∀ i, (conf i).fault? = none
  ports : ∀ i channel, (conf i).identity.port channel ≠ 0
  hosts : Function.Injective fun i => (conf i).advertisedHost
  seeded : Settings.Seeded conf

/-- Among the listeners of valid settings, a port is that of an earlier one only if it is zero. -/
theorem Settings.firstReused?_eq_none {seen : List Port} {l : List (String × Port)}
    (h : firstReused? seen l = none) : (∀ x ∈ l, x.2 ≠ 0 → x.2 ∉ seen) ∧
      l.Pairwise fun x y => y.2 ≠ 0 → y.2 ≠ x.2 := by
  induction l generalizing seen with
  | nil => exact ⟨nofun, .nil⟩
  | cons x l ih =>
    unfold firstReused? at h
    split at h
    · cases h
    next hx =>
      obtain ⟨hseen, hl⟩ := ih h
      refine ⟨List.forall_mem_cons.2 ⟨fun h0 hmem => hx ⟨h0, hmem⟩, fun y hy h0 hmem => ?_⟩,
        List.pairwise_cons.2 ⟨fun y hy h0 heq => ?_, hl⟩⟩
      · exact hseen y hy h0 (List.mem_cons_of_mem _ hmem)
      · exact hseen y hy h0 (heq ▸ List.mem_cons_self)

/-- Valid settings give each channel a port of its own, unless a port is left open. -/
theorem Settings.port_injective {s : Settings} (hvalid : s.fault? = none)
    (hports : ∀ channel, s.identity.port channel ≠ 0) : Function.Injective s.identity.port := by
  have hreused : firstReused? [] s.listeners = none := by
    unfold fault? at hvalid
    split at hvalid
    · cases hvalid
    split at hvalid
    · cases hvalid
    split at hvalid
    · cases hvalid
    next h => exact h
  have hd : s.discoveryPort ≠ 0 := hports .discovery
  have ht : s.stateTransferPort ≠ 0 := hports .stateTransfer
  have hpairwise := (firstReused?_eq_none hreused).2
  simp only [listeners, List.pairwise_cons, List.mem_cons, List.not_mem_nil, or_false,
    forall_eq_or_imp, forall_eq] at hpairwise
  obtain ⟨-, ⟨hrd, hrt⟩, hdt, -⟩ := hpairwise
  intro channel channel' h
  cases channel <;> cases channel' <;> first
    | rfl
    | exact absurd h (hrd hd).symm
    | exact absurd h (hrd hd)
    | exact absurd h (hrt ht).symm
    | exact absurd h (hrt ht)
    | exact absurd h (hdt ht).symm
    | exact absurd h (hdt ht)

/-- A message that came to a node, and what the node made of it. -/
structure Arrival where
  message : Message
  result : Except ProtocolError (Option Message)

/-- A cluster, with what came to its nodes and in which errors their requests ended. -/
structure Traffic (ι : Type) extends Cluster ι where
  arrivals : List Arrival
  errors : List RequestError

/-- Whether nothing comes to a node in the action, which is part of a write, a join, a retry, or of
what a node does by itself. -/
def Cluster.Action.isOwn {ι : Type} : Cluster.Action ι → Bool
  | .put .. | .perform .. | .retry .. | .join .. | .reconcile .. | .finish .. => true
  | .bootstrap .. | .arrive .. | .stray .. => false

/-- The error in which a request of `n` ends with this outcome. -/
def Errand.error? (n : Node) (o : Outcome) : Errand → Option RequestError
  | .join _ seed =>
    match n.concludeJoin seed o with
    | .error e => some e
    | .ok _ => none
  | .transfer _ =>
    match n.concludeTransfer o with
    | .error e => some e
    | .ok _ => none
  | .send _ | .retry .. => none

/-- The error in which a request ends in an action. -/
def Cluster.error? {ι : Type} (c : Cluster ι) : Cluster.Action ι → Option RequestError
  | .finish x failure => (x.outcome? failure).bind fun o => x.errand.error? (c.node x.source) o
  | _ => none

namespace Traffic

variable {ι : Type} [DecidableEq ι]

inductive Action (ι : Type) where
  | own (a : Cluster.Action ι)
  /-- The message of an exchange comes to a channel of `j`. -/
  | reach (x : Exchange ι) (j : ι) (channel : Channel)
  /-- A copy of a message that was sent comes to a channel of `j`. -/
  | stray (e : Endpoint) (m : Message) (j : ι) (channel : Channel)

def start (conf : ι → Settings) : Traffic ι := ⟨.start fun i => .fresh (conf i), [], []⟩

/-- Whether `j` serves the channel at the host and the port of the endpoint. -/
def ServedAt (t : Traffic ι) (j : ι) (channel : Channel) (e : Endpoint) : Prop :=
  (t.node j).identity.host = e.host ∧ (t.node j).identity.port channel = e.port

instance {t : Traffic ι} {j : ι} {channel : Channel} {e : Endpoint} :
    Decidable (t.ServedAt j channel e) := inferInstanceAs (Decidable (_ ∧ _))

/-- The cluster after its node `j` was handed a message, which it may refuse. -/
def hand (t : Traffic ι) (j : ι) (channel : Channel) (m : Message)
    (answer : Cluster ι → Reply → Cluster ι) : Traffic ι :=
  match (t.node j).handleOn channel m with
  | .error e => { t with arrivals := ⟨m, .error e⟩ :: t.arrivals }
  | .ok (n, r) =>
    { t with
      toCluster := answer (t.set j n (t.handled j m)) ⟨r, t.history j⟩
      arrivals := ⟨m, .ok r⟩ :: t.arrivals }

def step (t : Traffic ι) : Action ι → Option (Traffic ι)
  | .own a =>
    if a.isOwn then
      (t.toCluster.step a).map fun c =>
        { t with toCluster := c, errors := (t.error? a).toList ++ t.errors }
    else none
  | .reach x j channel =>
    if t.exchanges.contains x ∧ x.reply = none ∧ t.ServedAt j channel x.errand.endpoint then
      some (t.hand j channel x.errand.message fun c r => c.answer x r)
    else none
  | .stray e m j channel =>
    if t.sent.contains (e, m) ∧ t.ServedAt j channel e then some (t.hand j channel m fun c _ => c)
    else none

end Traffic

/-! ## Steps of the nodes -/

/-- What a node does by itself keeps all that is under way sincere. -/
theorem Cluster.Sincere.own {ι : Type} [DecidableEq ι] {conf : ι → Settings} {c c' : Cluster ι}
    {a : Cluster.Action ι} (h : c.Sincere conf) (hconf : Settings.Seeded conf)
    (ha : a.isOwn = true) (hs : c.step a = some c') : c'.Sincere conf := by
  cases a with
  | put i key value =>
    simp only [Cluster.step, Cluster.put] at hs
    split at hs
    · cases hs
    next n u hn =>
      obtain ⟨e, -, rfl⟩ := Node.put_eq_ok hn
      cases hs
      exact (h.set ((h.nodes i).engine e) _).owe fun p hp => by cases hp
  | perform i d =>
    simp only [Cluster.step, Cluster.perform, Option.ite_none_right_eq_some,
      Option.some.injEq] at hs
    obtain ⟨hd, rfl⟩ := hs
    refine (h.launch ((h.nodes i).errands fun p hp => ?_)).discharge d
    exact h.settles i p (hp ▸ hd)
  | retry i a =>
    simp only [Cluster.step, Cluster.retry] at hs
    split at hs
    next p q rest hq =>
      cases hs
      exact h.launch fun x hx => List.mem_singleton.1 hx ▸ (h.nodes i).queues a _ hq
    next => cases hs
  | join i =>
    simp only [Cluster.step, Cluster.join, Option.map_eq_some_iff] at hs
    obtain ⟨seed, hseed, rfl⟩ := hs
    rw [(h.nodes i).settings] at hseed
    exact h.launch fun x hx => List.mem_singleton.1 hx ▸ ⟨(h.nodes i).real, hconf i seed hseed⟩
  | reconcile i =>
    cases hs
    exact h.set ((h.nodes i).engine _) _
  | finish x failure =>
    simp only [Cluster.step, Cluster.finish, Option.ite_none_right_eq_some,
      Option.map_eq_some_iff] at hs
    obtain ⟨hx, o, ho, rfl⟩ := hs
    exact (h.conclude hx ho).close x
  | bootstrap | arrive | stray => cases ha

/-- A request ends in no error but that of its exchange. -/
theorem Cluster.Sincere.error? {ι : Type} [DecidableEq ι] {conf : ι → Settings} {c c' : Cluster ι}
    {a : Cluster.Action ι} {e : RequestError} (h : c.Sincere conf) (hs : c.step a = some c')
    (he : c.error? a = some e) : ∃ cause, e = .exchange cause := by
  cases a with
  | finish x failure =>
    simp only [Cluster.step, finish, Option.ite_none_right_eq_some] at hs
    obtain ⟨o, ho, he⟩ := Option.bind_eq_some_iff.1 he
    have hout := fun r hr => ((h.exchanges x hs.1).outcome ho (r := r) hr).kind
    obtain ⟨i, errand, reply⟩ := x
    cases errand with
    | send | retry => cases he
    | join self seed =>
      simp only [Errand.error?] at he
      split at he
      next hj => cases he; exact Node.concludeJoin_error hout hj
      next => cases he
    | transfer source =>
      simp only [Errand.error?] at he
      split at he
      next hj => cases he; exact Node.concludeTransfer_error hout hj
      next => cases he
  | _ => cases he

namespace Traffic

variable {ι : Type} [DecidableEq ι] {conf : ι → Settings} {t t' : Traffic ι} {a : Action ι} {j : ι}
  {channel : Channel} {e : Endpoint} {m : Message}

/-- Nothing was refused, every message got the answer that it asks for, and requests ended in no
errors but those of exchanges. -/
structure InTurn (t : Traffic ι) : Prop where
  arrivals : ∀ a ∈ t.arrivals, ∃ r, a.result = .ok r ∧ a.message.AnsweredBy r
  errors : ∀ e ∈ t.errors, ∃ cause, e = .exchange cause

omit [DecidableEq ι] in
theorem InTurn.start : (start conf).InTurn := ⟨nofun, nofun⟩

/-! ## Arrivals -/

omit [DecidableEq ι] in
/-- What goes to a host and a port comes to one node, on one channel. -/
theorem ServedAt.channel_eq (hconf : Settings.Apart conf) (h : t.Sincere conf)
    (hat : t.ServedAt j channel e) (he : ∃ k, e = (conf k).identity.endpoint m.channel) :
    channel = m.channel := by
  obtain ⟨k, rfl⟩ := he
  obtain ⟨hhost, hport⟩ := hat
  rw [(h.nodes j).identity] at hhost hport
  obtain rfl : j = k := hconf.hosts hhost
  exact Settings.port_injective (hconf.valid j) (hconf.ports j) hport

/-- A message that was sent is taken where it comes, and gets the answer that it asks for. -/
theorem hand_eq (hconf : Settings.Apart conf) (h : t.Sincere conf) (hm : m.Sincere conf)
    (he : ∃ k, e = (conf k).identity.endpoint m.channel) (hat : t.ServedAt j channel e)
    (answer : Cluster ι → Reply → Cluster ι) : ∃ n r, n.Sincere conf j ∧ m.Answered conf r ∧
      t.hand j channel m answer =
        { t with
          toCluster := answer (t.set j n (t.handled j m)) ⟨r, t.history j⟩
          arrivals := ⟨m, .ok r⟩ :: t.arrivals } := by
  obtain rfl := hat.channel_eq hconf h he
  obtain ⟨n, r, hhandle, hn, hr⟩ := (h.nodes j).handleOn hm
  refine ⟨n, r, hn, hr, ?_⟩
  rw [hand, hhandle]

omit [DecidableEq ι] in
theorem InTurn.arrival (I : t.InTurn) {c : Cluster ι} {r : Option Message}
    (hr : m.Answered conf r) :
    InTurn { t with toCluster := c, arrivals := ⟨m, .ok r⟩ :: t.arrivals } where
  arrivals := List.forall_mem_cons.2 ⟨⟨r, rfl, hr.kind⟩, I.arrivals⟩
  errors := I.errors

/-! ## Runs -/

theorem InTurn.step (hconf : Settings.Apart conf) (h : t.Sincere conf) (I : t.InTurn)
    (hs : t.step a = some t') : t'.Sincere conf ∧ t'.InTurn := by
  cases a with
  | own a =>
    simp only [Traffic.step, Option.ite_none_right_eq_some, Option.map_eq_some_iff] at hs
    obtain ⟨ha, c, hc, rfl⟩ := hs
    refine ⟨h.own hconf.seeded ha hc, I.arrivals, fun e he => ?_⟩
    rcases List.mem_append.1 he with he | he
    · exact h.error? hc (Option.mem_toList.1 he)
    · exact I.errors e he
  | reach x j channel =>
    simp only [Traffic.step, List.contains_iff_mem, Option.ite_none_right_eq_some,
      Option.some.injEq] at hs
    obtain ⟨⟨hx, -, hat⟩, rfl⟩ := hs
    have hsincere := (h.exchanges x hx).errand
    obtain ⟨n, r, hn, hr, heq⟩ := hand_eq hconf h hsincere.message hsincere.endpoint hat
      fun c r => c.answer x r
    rw [heq]
    exact ⟨(h.set hn _).answer hsincere hr, I.arrival hr⟩
  | stray e m j channel =>
    simp only [Traffic.step, List.contains_iff_mem, Option.ite_none_right_eq_some,
      Option.some.injEq] at hs
    obtain ⟨⟨hsent, hat⟩, rfl⟩ := hs
    obtain ⟨hm, he⟩ := h.sent e m hsent
    obtain ⟨n, r, hn, hr, heq⟩ := hand_eq hconf h hm he hat fun c _ => c
    rw [heq]
    exact ⟨h.set hn _, I.arrival hr⟩

/-- Nothing that comes to a node is out of place, and no answer is. -/
theorem in_turn (hconf : Settings.Apart conf)
    (h : Reaches step (fun _ _ => True) (start conf) t) : t.InTurn := by
  have hkept : t.Sincere conf ∧ t.InTurn :=
    h.keeps (P := fun t => t.Sincere conf ∧ t.InTurn) ⟨.start, .start⟩
      fun ⟨hsincere, I⟩ _ hs => I.step hconf hsincere hs
  exact hkept.2

/-! A node joins through another one, of which it then gets a write late and twice. Its second join
request gets lost. -/

def couple : Bool → Settings
  | false => { Settings.onLoopback "a" 7000 with advertisedHost := "a" }
  | true => { Settings.onLoopback "b" 8000 with advertisedHost := "b", seed := some ⟨"a", 7002⟩ }

theorem couple_apart : Settings.Apart couple where
  valid i := by cases i <;> decide
  ports i channel := by cases i <;> cases channel <;> decide
  hosts := by unfold Function.Injective; decide
  seeded i seed h := by
    cases i with
    | false => cases h
    | true => cases h; exact ⟨false, rfl⟩

def refusal : ExchangeError := .unreachable "a:7002 (discovery)" "connection refused"

def lateAndTwice : List (Action Bool) :=
  let a := (couple false).identity
  let b := (couple true).identity
  let join := Errand.join b ⟨"a", 7002⟩
  let snapshot : Snapshot := ⟨.empty, .ofList [("a", 0), ("b", 0)]⟩
  let u : Update := ⟨"k", "v", "a", .ofList [("a", 1), ("b", 0)]⟩
  [.own (.join true), .reach ⟨true, join, none⟩ false .discovery,
    .own (.finish ⟨true, join, some ⟨some (.joinResponse [a]), ∅⟩⟩ none),
    .own (.perform true (.settle a)), .reach ⟨true, .transfer a, none⟩ false .stateTransfer,
    .own (.finish ⟨true, .transfer a, some ⟨some (.stateResponse snapshot), ∅⟩⟩ none),
    .own (.put false "k" "v"), .own (.perform false (.broadcast u)),
    .own (.finish ⟨false, .send ⟨b, .update u⟩, none⟩ (some refusal)),
    .own (.retry false b.address),
    .reach ⟨false, .retry b ⟨0, .update u⟩ [], none⟩ true .replication,
    .stray (b.endpoint .replication) (.update u) true .replication,
    .own (.join true), .own (.finish ⟨true, join, none⟩ (some refusal))]

theorem lateAndTwice_in_turn : ∃ t, Reaches step (fun _ _ => True) (start couple) t ∧
    t.arrivals.map (·.message.kind) = [.update, .update, .stateRequest, .joinRequest] ∧
    t.errors = [.exchange refusal] ∧ t.InTurn := by
  have hrun : (runAll step (start couple) lateAndTwice).map
      (fun t => (t.arrivals.map (·.message.kind), t.errors)) =
      some ([.update, .update, .stateRequest, .joinRequest], [.exchange refusal]) := by decide +kernel
  obtain ⟨t, ht, h⟩ := Option.map_eq_some_iff.1 hrun
  obtain ⟨harrivals, herrors⟩ := Prod.mk.inj h
  have hreach : Reaches step (fun _ _ => True) (start couple) t := .of_runAll ht
  exact ⟨t, hreach, harrivals, herrors, in_turn couple_apart hreach⟩

end Traffic
end CausalStore
