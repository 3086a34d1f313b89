import CausalStore.Proofs.Identities

/-!
# Nodes that have heard of each other

A node lists another one because one of the two has presented itself to the other, or is about to
(`Acquainted.introduced`). What it announces arrives, sooner or later, so once nothing is under way
listing is mutual.
-/

namespace CausalStore
namespace Cluster

variable {ι : Type} [DecidableEq ι] {conf : ι → Settings} {c c' : Cluster ι} {i j : ι}
  {writes : ι → Prop} {installs : Cluster ι → ι → Capture → Prop} {p : Peer}

/-- The node has sent the other one its join request, or its announcement. -/
def Greeted (c : Cluster ι) (i j : ι) : Prop :=
  ((c.node j).identity.endpoint .discovery, .joinRequest (c.node i).identity) ∈ c.sent ∨
    ((c.node j).identity.endpoint .discovery, .newPeerAnnounce (c.node i).identity) ∈ c.sent

theorem Move.greeted (h : Move writes installs c c') (hg : c.Greeted i j) : c'.Greeted i j := by
  rw [Greeted, h.grows.identity, h.grows.identity]
  exact hg.imp (h.grows.sent _) (h.grows.sent _)

theorem Move.lists (h : Move writes installs c c') (hl : c.Lists i j) : c'.Lists i j := by
  rw [Lists, h.grows.identity]
  exact h.grows.peers i _ hl

omit [DecidableEq ι] in
/-- Who presents itself to a node has greeted it. -/
theorem Genuine.greeted (G : c.Genuine conf) {e : Endpoint} {m : Message} (hs : (e, m) ∈ c.sent)
    (hserves : c.Serves i e) (hm : m.newcomer? = some (c.node j).identity) : c.Greeted j i := by
  obtain ⟨-, he⟩ := G.newcomer hs hm
  rw [Serves, he] at hserves
  rw [Greeted, hserves]
  cases m <;> cases hm
  · exact .inl hs
  · exact .inr hs

/-- What becomes of those who present themselves. -/
structure Acquainted (conf : ι → Settings) (c : Cluster ι) : Prop where
  answered : ∀ x ∈ c.exchanges, x.reply ≠ none → ∀ p, x.errand.message.newcomer? = some p →
    ∃ j, c.Serves j x.errand.endpoint ∧
      (p = (conf j).identity ∨ p ∈ (c.node j).directory.peers)
  introduced : ∀ i j, c.Lists i j →
    c.Greeted i j ∨ c.Greeted j i ∨ ∃ p, (i, .settle p) ∈ c.duties
  delivered : (∀ i, c.queued i < UInt64.size) → ∀ i j, i ≠ j →
    ((conf j).identity.endpoint .discovery, .newPeerAnnounce (conf i).identity) ∈ c.sent →
    c.Lists j i ∨ c.Underway (conf j).identity.address (.newPeerAnnounce (conf i).identity)

namespace Acquainted

omit [DecidableEq ι] in
theorem start : (Cluster.start fun i => .fresh (conf i)).Acquainted conf where
  answered _ hx := nomatch hx
  introduced _ _ hl := absurd hl Directory.not_mem_peers_empty
  delivered _ _ _ _ hs := nomatch hs

variable (hconf : Settings.Distinct conf) (A : c.Acquainted conf) (G : c.Genuine conf)
  (h : Move writes installs c c')
include hconf A G h

theorem move_answered (W : c.Wired) {x : Exchange ι} (hx : x ∈ c'.exchanges)
    (hr : x.reply ≠ none) (hp : x.errand.message.newcomer? = some p) :
    ∃ j, c'.Serves j x.errand.endpoint ∧
      (p = (conf j).identity ∨ p ∈ (c'.node j).directory.peers) := by
  suffices hold : ∃ j, c.Serves j x.errand.endpoint ∧
      (p = (conf j).identity ∨ p ∈ (c.node j).directory.peers) by
    obtain ⟨j, hserves, hp⟩ := hold
    refine ⟨j, ?_, hp.imp_right (h.grows.peers j p)⟩
    rwa [Serves, h.grows.identity]
  obtain hx | ⟨-, hnone⟩ | ⟨y, hy, r, rfl, -, hknows⟩ := h.mem_exchanges hx
  · exact A.answered x hx hr p hp
  · exact absurd hnone hr
  · obtain ⟨j, hserves, hknown, -⟩ := hknows p hp
    refine ⟨j, hserves, ?_⟩
    obtain ⟨⟨k, rfl⟩, -⟩ := G.newcomer (W.exchanges y hy) hp
    rcases eq_or_ne j k with rfl | hne
    · exact .inl rfl
    · have hl := G.lists_of_knows hconf hne hknown
      rw [Lists, G.identity] at hl
      exact .inr hl

omit A in
/-- Who settles in announces itself to all that it lists, and has asked its seed already. -/
theorem greets_of_settles (hl : c.Lists i j) (hd : (i, .settle p) ∈ c.duties) :
    c'.Greeted i j ∨ (i, .settle p) ∈ c'.duties := by
  refine (h.mem_duties hd).symm.imp_left fun hall => h.greeted ?_
  obtain ⟨s, rfl, -, hsent⟩ := G.settles i p hd
  rcases eq_or_ne j s with rfl | hjs
  · rw [Greeted, G.identity, G.identity]
    exact .inl hsent
  have hself : (c.node j).identity.same (c.node i).identity = false := by
    rw [G.identity, G.identity]
    exact hconf.same_of_ne (G.ne_of_lists hconf hl)
  have hseed : (c.node j).identity.same (conf s).identity = false := by
    rw [G.identity]
    exact hconf.same_of_ne hjs
  exact .inr (hall _ (Duty.mem_errands_settle hl hseed hself))

theorem move_introduced (hl : c'.Lists i j) :
    c'.Greeted i j ∨ c'.Greeted j i ∨ ∃ p, (i, .settle p) ∈ c'.duties := by
  rw [Lists, h.grows.identity] at hl
  obtain hold | ⟨-, ⟨e, m, hs, hserves, hm⟩ | ⟨seed, ps, -, -, hd⟩⟩ := h.mem_peers hl
  · obtain hg | hg | ⟨p, hd⟩ := A.introduced i j hold
    · exact .inl (h.greeted hg)
    · exact .inr (.inl (h.greeted hg))
    · exact (greets_of_settles hconf G h hold hd).imp_right fun hd => .inr ⟨p, hd⟩
  · exact .inr (.inl (h.greeted (G.greeted hs hserves hm)))
  · exact .inr (.inr hd)

omit [DecidableEq ι] h in
/-- A reply to an announcement comes from the peer that it was for, which then lists the node. -/
theorem lists_of_replied (hij : i ≠ j)
    (hr : c.Replied (conf j).identity.address (.newPeerAnnounce (conf i).identity)) :
    c.Lists j i := by
  obtain ⟨x, hx, hreply, hm, q, hq, haddr⟩ := hr
  obtain ⟨k, rfl⟩ := G.recipients x hx q hq
  obtain rfl := hconf.address haddr
  obtain ⟨j, hserves, hp⟩ := A.answered x hx hreply _ (by rw [hm]; rfl)
  have he := Errand.endpoint_of_recipient? hq
  rw [hm] at he
  rw [Serves, G.identity, he] at hserves
  obtain rfl := hconf.discovery hserves
  rw [Lists, G.identity]
  exact hp.resolve_left fun heq => hij (hconf.identity heq)

theorem move_delivered (B : c.Accounted) (hqueued : ∀ i, c'.queued i < UInt64.size)
    (hij : i ≠ j) (hs : ((conf j).identity.endpoint .discovery,
      .newPeerAnnounce (conf i).identity) ∈ c'.sent) :
    c'.Lists j i ∨
      c'.Underway (conf j).identity.address (.newPeerAnnounce (conf i).identity) := by
  have hqueued : ∀ i, c.queued i < UInt64.size := fun i =>
    Nat.lt_of_le_of_lt (h.grows.queued i) (hqueued i)
  have hold (hs : ((conf j).identity.endpoint .discovery,
      .newPeerAnnounce (conf i).identity) ∈ c.sent) : c'.Lists j i ∨
      c'.Underway (conf j).identity.address (.newPeerAnnounce (conf i).identity) := by
    rcases A.delivered hqueued i j hij hs with hl | hway
    · exact .inl (h.lists hl)
    · rcases B.move_underway h hqueued hway with hway | hr
      · exact .inr hway
      · exact .inl (h.lists (A.lists_of_replied hconf G hij hr))
  obtain hs | ⟨k, x, hx, hmem, heq⟩ := h.mem_sent hs
  · exact hold hs
  obtain ⟨he, hm⟩ := Prod.mk.inj heq
  obtain hsent | ⟨seed, -, rfl⟩ | ⟨q, hq, rfl⟩ :=
    G.ready_newcomer hx (p := (conf i).identity) (by rw [← hm]; rfl)
  · rw [← he, ← hm] at hsent
    exact hold hsent
  · cases hm
  · obtain ⟨j', -, rfl⟩ := G.peers k q hq
    obtain rfl := hconf.discovery he
    exact .inr (.inl ⟨_, hmem, _, rfl, rfl, hm.symm⟩)

theorem move (W : c.Wired) (B : c.Accounted) : c'.Acquainted conf where
  answered _ hx hr _ hp := A.move_answered hconf G h W hx hr hp
  introduced _ _ hl := A.move_introduced hconf G h hl
  delivered hqueued _ _ hij hs := A.move_delivered hconf G h B hqueued hij hs

end Acquainted

/-- What holds of a cluster whose nodes knew nobody when it started. -/
structure Familiar (conf : ι → Settings) (c : Cluster ι) : Prop where
  wired : c.Wired
  accounted : c.Accounted
  genuine : c.Genuine conf
  acquainted : c.Acquainted conf

namespace Familiar

omit [DecidableEq ι] in
theorem start : (Cluster.start fun i => .fresh (conf i)).Familiar conf where
  wired := .start fun _ => .fresh _
  accounted := .start fun _ => .fresh _
  genuine := .start
  acquainted := .start

variable (hconf : Settings.Distinct conf) (F : c.Familiar conf)
include F

theorem step_moves {a : Action ι} (h : c.step a = some c') :
    Moves (fun _ => True) (fun _ _ _ => True) c c' :=
  Cluster.step_moves F.wired.exchanges (fun _ _ _ _ => trivial) (fun _ _ _ => trivial) h

/-- Nobody leaves a directory. -/
theorem lists_of_step {a : Action ι} (h : c.step a = some c') (hl : c.Lists i j) :
    c'.Lists i j := by
  have hgrows := (F.step_moves h).grows
  rw [Lists, hgrows.identity]
  exact hgrows.peers i _ hl

include hconf

theorem move (h : Move writes installs c c') : c'.Familiar conf where
  wired := F.wired.move h
  accounted := by
    refine F.accounted.move F.wired (fun i j heq => hconf.address ?_) h
    rwa [F.genuine.identity, F.genuine.identity] at heq
  genuine := F.genuine.move hconf h F.wired
  acquainted := F.acquainted.move hconf F.genuine h F.wired F.accounted

theorem moves (h : Moves writes installs c c') : c'.Familiar conf := by
  induction h with
  | refl => exact F
  | tail _ h ih => exact ih.move hconf h

theorem step {a : Action ι} (h : c.step a = some c') : c'.Familiar conf :=
  F.moves hconf (F.step_moves h)

omit [DecidableEq ι] in
/-- A node asks nobody but its seed. -/
theorem seedOf_of_sent (hs : ((conf j).identity.endpoint .discovery,
    .joinRequest (conf i).identity) ∈ c.sent) : SeedOf conf i j := by
  obtain ⟨k, hk, hseed⟩ := F.genuine.requests _ _ hs
  obtain rfl := hconf.identity hk
  exact hseed

omit [DecidableEq ι] in
/-- A node announces itself to none but those it lists. -/
theorem lists_of_sent (hs : ((conf j).identity.endpoint .discovery,
    .newPeerAnnounce (conf i).identity) ∈ c.sent) : c.Lists i j := by
  obtain ⟨k, hk, q, hq, he⟩ := F.genuine.announcements _ _ hs
  obtain rfl := hconf.identity hk
  obtain ⟨l, -, rfl⟩ := F.genuine.peers i q hq
  obtain rfl := hconf.discovery he
  rwa [Lists, F.genuine.identity]

end Familiar

end Cluster
end CausalStore
