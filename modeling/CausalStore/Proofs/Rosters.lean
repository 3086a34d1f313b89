import CausalStore.Proofs.Introductions
import Mathlib

/-!
# Who lists whom

A node that joins gets one list of peers, and announces itself to these. Nobody passes on what it
learns later. So two members list each other exactly if one of them has greeted the other
(`Roster.members_list_iff_greeted`). Directories become complete if whoever lets a node in lists all
that were let in before (`Roster.Informed`), and may stay incomplete where joins overlap.
-/

namespace CausalStore

namespace Cluster

variable {ι : Type} [DecidableEq ι] {c c' : Cluster ι} {a : Action ι}
  {i j : ι} {x : Exchange ι} {channel : Channel} {m : Message} {r : Reply}

/-! ## What a step does to those who join -/

theorem handle_exchanges (h : c.handle j channel m = some (c', r)) :
    c'.exchanges = c.exchanges := by
  unfold handle at h
  split at h
  · cases h
  · cases h
    rfl

/-- The answer to a join request names the node that gives it, and all others that it lists. -/
theorem handle_joinRequest {p : Peer} {ps : List Peer}
    (h : c.handle j channel (.joinRequest p) = some (c', r))
    (hr : r.message = some (.joinResponse ps)) :
    ps = ((c.node j).meet p).membership.joinResponseFor p := by
  unfold handle at h
  split at h
  · cases h
  next n reply hn =>
  cases h
  obtain ⟨u, hm, -⟩ | ⟨q, hm, rfl, hq⟩ | ⟨hm, -⟩ := Node.handleOn_cases hn
  · cases hm
  · cases hm
    rcases hq with rfl | rfl
    · cases hr
    · exact (Message.joinResponse.inj (Option.some.inj hr)).symm
  · cases hm

omit [DecidableEq ι] in
theorem launch_exchanges {xs : List Errand} (hx : x ∈ (c.launch i xs).exchanges) :
    x ∈ c.exchanges ∨ x.reply = none := by
  rcases List.mem_append.1 hx with hx | hx
  · exact .inl hx
  · obtain ⟨e, -, rfl⟩ := List.mem_map.1 hx
    exact .inr rfl

theorem conclude_exchanges {y : Exchange ι} {o : Outcome} (hx : x ∈ (c.conclude y o).exchanges) :
    x ∈ c.exchanges ∨ x.reply = none := by
  unfold conclude at hx
  split at hx
  · exact .inl hx
  · exact launch_exchanges hx
  · unfold afterJoin at hx
    split at hx <;> exact .inl hx
  · unfold afterTransfer at hx
    split at hx <;> exact .inl hx

/-- Only an arrival gives an exchange its reply. -/
theorem step_exchanges (h : c.step a = some c') (hx : x ∈ c'.exchanges) :
    (x ∈ c.exchanges ∨ x.reply = none) ∨ ∃ y ∈ c.exchanges, ∃ j c₁ r, a = .arrive y j ∧
      c.handle j y.errand.endpoint.channel y.errand.message = some (c₁, r) ∧
      x = { y with reply := some r } := by
  cases a with
  | put i key value =>
    simp only [step, put] at h
    split at h <;> cases h
    exact .inl (.inl hx)
  | perform i d =>
    simp only [step, perform, Option.ite_none_right_eq_some, Option.some.injEq] at h
    obtain ⟨-, rfl⟩ := h
    exact .inl (launch_exchanges hx)
  | retry i a =>
    simp only [step, retry] at h
    split at h <;> cases h
    exact .inl (launch_exchanges hx)
  | join i =>
    simp only [step, join, Option.map_eq_some_iff] at h
    obtain ⟨seed, -, rfl⟩ := h
    exact .inl (launch_exchanges hx)
  | bootstrap i source => cases h; exact .inl (launch_exchanges hx)
  | reconcile i => cases h; exact .inl (.inl hx)
  | arrive y j =>
    simp only [step, arrive, Option.ite_none_right_eq_some, Option.map_eq_some_iff] at h
    obtain ⟨⟨hy, -, -⟩, ⟨c₁, r⟩, hc₁, rfl⟩ := h
    rcases List.mem_cons.1 hx with rfl | hx
    · exact .inr ⟨y, hy, j, c₁, r, rfl, hc₁, rfl⟩
    · have hx := List.mem_of_mem_erase hx
      rw [handle_exchanges hc₁] at hx
      exact .inl (.inl hx)
  | stray e m j =>
    simp only [step, stray, Option.ite_none_right_eq_some, Option.map_eq_some_iff] at h
    obtain ⟨-, ⟨c₁, r⟩, hc₁, rfl⟩ := h
    exact .inl (.inl (handle_exchanges hc₁ ▸ hx))
  | finish y failure =>
    simp only [step, finish, Option.ite_none_right_eq_some, Option.map_eq_some_iff] at h
    obtain ⟨-, o, -, rfl⟩ := h
    exact .inl (conclude_exchanges (List.mem_of_mem_erase hx))

/-- A node is let in when its join request is answered. -/
theorem step_letIn (h : c.step a = some c') {seed : Seed} {ps : List Peer}
    (hl : c'.LetIn i seed ps) : c.LetIn i seed ps ∨
      ∃ j p r, asking a = some (i, j) ∧ ⟨i, .join p seed, r⟩ ∈ c.exchanges ∧
        ps = ((c.node j).meet p).membership.joinResponseFor p := by
  obtain ⟨x, hx, p, hist, rfl⟩ := hl
  obtain hold | ⟨⟨i', errand, reply⟩, hy, j, c₁, r, rfl, hc₁, heq⟩ := step_exchanges h hx
  · exact .inl ⟨_, hold.resolve_right nofun, p, hist, rfl⟩
  · simp only [Exchange.mk.injEq, Option.some.injEq] at heq
    obtain ⟨rfl, rfl, rfl⟩ := heq
    exact .inr ⟨j, p, reply, rfl, hy, handle_joinRequest hc₁ rfl⟩

/-- A node that joins takes in an answer to its join request. -/
theorem step_joinEnd? {n : Node} {joined : JoinOutcome} (h : c.step a = some c')
    (he : c.joinEnd? a = some (i, .ok (n, joined))) : ∃ seed ps, c.LetIn i seed ps ∧
      ∀ p ∈ ps, p.same (c.node i).identity = false →
        (c'.node i).directory.contains p = true := by
  cases a with
  | finish x failure =>
    obtain ⟨i', errand, reply⟩ := x
    cases errand with
    | join self seed =>
      obtain ⟨o, ho, heq⟩ := Option.map_eq_some_iff.1 he
      obtain ⟨rfl, hj⟩ := Prod.mk.inj heq
      simp only [step, finish, ho, Option.map_some, Option.ite_none_right_eq_some,
        Option.some.injEq] at h
      obtain ⟨hx, rfl⟩ := h
      have hnode : ((c.afterJoin i' seed o).node i') = n := by
        simp only [afterJoin, hj]
        exact set_node_self (l := c.toLog)
      obtain ⟨ps, rfl, hlearned, -, rfl⟩ := Node.concludeJoin_eq_ok hj
      refine ⟨seed, ps, letIn_of_outcome? hx rfl ho, fun p hp hself => ?_⟩
      change ((c.afterJoin i' seed _).node i').directory.contains p = true
      rw [hnode, hlearned]
      refine Directory.contains_foldl_add (.inr (List.mem_filter.2 ⟨hp, ?_⟩))
      rw [hself]
      rfl
    | _ => cases he
  | _ => cases he

end Cluster

/-! ## The members of a cluster -/

/-- A cluster, with those whose join requests were answered, and those who have joined. -/
structure Roster (ι : Type) extends Cluster ι where
  admitted : List ι
  joined : List ι

namespace Roster

open Cluster (SeedOf asking)

variable {ι : Type} [DecidableEq ι] {conf : ι → Settings} {r r' : Roster ι} {i j : ι}
  {a : Cluster.Action ι}

def start (conf : ι → Settings) : Roster ι := ⟨.start fun i => .fresh (conf i), [], []⟩

/-- The node that joins in an action. -/
def joining (r : Roster ι) (a : Cluster.Action ι) : Option ι :=
  match r.joinEnd? a with
  | some (i, .ok _) => some i
  | _ => none

def step (r : Roster ι) (a : Cluster.Action ι) : Option (Roster ι) :=
  (r.toCluster.step a).map fun c =>
    ⟨c, ((asking a).map (·.1)).toList ++ r.admitted, (r.joining a).toList ++ r.joined⟩

/-- The node has founded the cluster, or has joined it. -/
def Member (conf : ι → Settings) (r : Roster ι) (i : ι) : Prop :=
  (conf i).seed = none ∨ i ∈ r.joined

/-- The node has founded the cluster, or its join request was answered. -/
def Present (conf : ι → Settings) (r : Roster ι) (i : ι) : Prop :=
  (conf i).seed = none ∨ i ∈ r.admitted

/-- Whoever answers a join request lists all that are present, besides itself and the newcomer. -/
def Informed (conf : ι → Settings) (r : Roster ι) (a : Cluster.Action ι) : Prop :=
  ∀ i s, asking a = some (i, s) → ∀ k, k ≠ i → k ≠ s → r.Present conf k → r.Lists s k

instance : Decidable (r.Member conf i) := inferInstanceAs (Decidable (_ ∨ _))

instance : Decidable (r.Present conf i) := inferInstanceAs (Decidable (_ ∨ _))

instance [Fintype ι] : Decidable (r.Informed conf a) :=
  inferInstanceAs (Decidable (∀ i s, asking a = some (i, s) → ∀ k, k ≠ i → k ≠ s →
    r.Present conf k → r.Lists s k))

theorem step_toCluster (h : r.step a = some r') : r.toCluster.step a = some r'.toCluster := by
  obtain ⟨c, hc, rfl⟩ := Option.map_eq_some_iff.1 h
  exact hc

theorem mem_admitted_step (h : r.step a = some r') :
    i ∈ r'.admitted ↔ (∃ s, asking a = some (i, s)) ∨ i ∈ r.admitted := by
  obtain ⟨c, -, rfl⟩ := Option.map_eq_some_iff.1 h
  simp

theorem mem_joined_step (h : r.step a = some r') :
    i ∈ r'.joined ↔ (∃ p, r.joinEnd? a = some (i, .ok p)) ∨ i ∈ r.joined := by
  obtain ⟨c, -, rfl⟩ := Option.map_eq_some_iff.1 h
  rw [List.mem_append, Option.mem_toList, joining]
  refine or_congr_left ?_
  split
  next j p hp => simp [hp]
  next hne => simpa using fun p hp => hne i p hp

/-! ### What is lasting -/

/-- Members have what they were told when they joined, and their seed lists them. -/
structure Sound (conf : ι → Settings) (r : Roster ι) : Prop where
  familiar : r.Familiar conf
  joined : ∀ i ∈ r.joined, ∃ s, SeedOf conf i s ∧ (s ≠ i → r.Lists i s ∧ r.Lists s i)

namespace Sound

omit [DecidableEq ι] in
theorem start : (Roster.start conf).Sound conf where
  familiar := .start
  joined _ hi := nomatch hi

section
variable (hconf : Settings.Distinct conf) (S : r.Sound conf) (h : r.step a = some r')
include S h

theorem lists (hl : r.Lists i j) : r'.Lists i j := S.familiar.lists_of_step (step_toCluster h) hl

include hconf

/-- Who joins then lists all that it was told of. -/
theorem lists_of_joinEnd? {p : Node × JoinOutcome} (he : r.joinEnd? a = some (i, .ok p)) :
    ∃ seed ps, r.LetIn i seed ps ∧ ∀ j, i ≠ j → (conf j).identity ∈ ps → r'.Lists i j := by
  have hc := step_toCluster h
  obtain ⟨seed, ps, hlet, hall⟩ := Cluster.step_joinEnd? hc he
  refine ⟨seed, ps, hlet, fun j hij hj => ?_⟩
  refine (S.familiar.step hconf hc).genuine.lists_of_contains hconf (hall _ hj ?_)
  rw [S.familiar.genuine.identity]
  exact hconf.same_of_ne hij.symm

theorem step : r'.Sound conf := by
  refine ⟨S.familiar.step hconf (step_toCluster h), fun i hi => ?_⟩
  obtain ⟨p, hp⟩ | hi := (mem_joined_step h).1 hi
  · obtain ⟨seed, ps, hlet, hall⟩ := S.lists_of_joinEnd? hconf h hp
    obtain ⟨-, -, s, hs, hhead, hlist⟩ := S.familiar.genuine.replies i seed ps hlet
    refine ⟨s, hs, fun hne => ⟨hall s hne.symm ?_, S.lists h (hlist hne)⟩⟩
    exact List.mem_of_mem_head? hhead
  · obtain ⟨s, hs, hlist⟩ := S.joined i hi
    exact ⟨s, hs, fun hne => (hlist hne).imp (S.lists h) (S.lists h)⟩

end

omit [DecidableEq ι]

variable (hconf : Settings.Distinct conf) (S : r.Sound conf)
  (hqueued : ∀ i, r.queued i < UInt64.size) (hquiet : r.Quiet)
include hconf S hqueued hquiet

/-- Once nothing is under way, a member and those that it has greeted list each other. -/
theorem lists_of_greeted (hij : i ≠ j) (hi : r.Member conf i) (hg : r.Greeted i j) :
    r.Lists i j ∧ r.Lists j i := by
  rw [Cluster.Greeted, S.familiar.genuine.identity, S.familiar.genuine.identity] at hg
  rcases hg with hrequest | hannounce
  · have hseed := S.familiar.seedOf_of_sent hconf hrequest
    have hjoined : i ∈ r.joined := hi.resolve_left fun hnone => by simp [SeedOf, hnone] at hseed
    obtain ⟨s, hs, hlist⟩ := S.joined i hjoined
    obtain rfl := hconf.discovery (Option.some.inj (hs.symm.trans hseed))
    exact hlist hij.symm
  · refine ⟨S.familiar.lists_of_sent hconf hannounce, ?_⟩
    have hdelivered := S.familiar.acquainted.delivered hqueued i j hij hannounce
    exact hdelivered.resolve_right hquiet.not_underway

theorem lists_iff_greeted (hij : i ≠ j) (hi : r.Member conf i) (hj : r.Member conf j) :
    r.Lists i j ↔ r.Greeted i j ∨ r.Greeted j i := by
  constructor
  · intro hl
    obtain hg | hg | ⟨p, hd⟩ := S.familiar.acquainted.introduced i j hl
    · exact .inl hg
    · exact .inr hg
    · rw [hquiet.duties] at hd
      cases hd
  · rintro (hg | hg)
    · exact (S.lists_of_greeted hconf hqueued hquiet hij hi hg).1
    · exact (S.lists_of_greeted hconf hqueued hquiet hij.symm hj hg).2

end Sound

/-! ### Who was told of whom -/

/-- Every answer to a join request of `i` names `j`, so `i` lists `j` once it has joined. -/
structure Told (conf : ι → Settings) (r : Roster ι) (i j : ι) : Prop where
  admitted : i ∈ r.admitted
  letIn : ∀ seed ps, r.LetIn i seed ps → (conf j).identity ∈ ps
  joined : i ∈ r.joined → r.Lists i j

/-- Of two nodes that are present, one is told of the other. -/
structure Orderly (conf : ι → Settings) (r : Roster ι) : Prop where
  sound : r.Sound conf
  seeded : ∀ i ∈ r.admitted, (conf i).seed ≠ none
  letIn : ∀ i seed ps, r.LetIn i seed ps → i ∈ r.admitted
  joined : ∀ i ∈ r.joined, i ∈ r.admitted
  told : ∀ i j, i ≠ j → r.Present conf i → r.Present conf j → r.Told conf i j ∨ r.Told conf j i

namespace Orderly

omit [DecidableEq ι] in
theorem start (hfounder : ∀ i j, (conf i).seed = none → (conf j).seed = none → i = j) :
    (Roster.start conf).Orderly conf where
  sound := .start
  seeded _ hi := nomatch hi
  letIn _ _ _ hl := by
    obtain ⟨x, hx, -⟩ := hl
    cases hx
  joined _ hi := nomatch hi
  told i j hij hi hj := by
    have hi := hi.resolve_right List.not_mem_nil
    have hj := hj.resolve_right List.not_mem_nil
    exact absurd (hfounder i j hi hj) hij

variable (hconf : Settings.Distinct conf) (O : r.Orderly conf) (h : r.step a = some r')
include O h

theorem seed_of_asking {s : ι} (ha : asking a = some (i, s)) : (conf i).seed ≠ none := by
  have hc := step_toCluster h
  cases a with
  | arrive x j =>
    obtain ⟨i', errand, reply⟩ := x
    cases errand with
    | join self seed =>
      cases ha
      simp only [Cluster.step, Cluster.arrive, Option.ite_none_right_eq_some] at hc
      rw [(O.sound.familiar.genuine.joins _ _ _ _ hc.1.1).2]
      exact Option.some_ne_none seed
    | _ => cases ha
  | _ => cases ha

theorem letIn_step {seed : Seed} {ps : List Peer} (hl : r'.LetIn i seed ps) : i ∈ r'.admitted := by
  refine (mem_admitted_step h).2 ?_
  obtain hl | ⟨s, p, x, ha, -⟩ := Cluster.step_letIn (step_toCluster h) hl
  · exact .inr (O.letIn i seed ps hl)
  · exact .inl ⟨s, ha⟩

include hconf

theorem joined_step (hi : i ∈ r'.joined) : i ∈ r'.admitted := by
  refine (mem_admitted_step h).2 (.inr ?_)
  obtain ⟨p, hp⟩ | hi := (mem_joined_step h).1 hi
  · obtain ⟨seed, ps, hlet, -⟩ := O.sound.lists_of_joinEnd? hconf h hp
    exact O.letIn i seed ps hlet
  · exact O.joined i hi

variable (hinformed : r.Informed conf a)
include hinformed

/-- Who is let in is told of those that were present before. -/
theorem told_of_present (hij : i ≠ j) (hi : i ∈ r'.admitted) (hj : r.Present conf j)
    (hold : i ∈ r.admitted → r.Told conf i j) : r'.Told conf i j := by
  have hnamed {seed : Seed} {ps : List Peer} (hl : r.LetIn i seed ps) : (conf j).identity ∈ ps :=
    (hold (O.letIn i seed ps hl)).letIn seed ps hl
  refine ⟨hi, fun seed ps hl => ?_, fun hjoined => ?_⟩
  · obtain hl | ⟨s, p, x, ha, hx, rfl⟩ := Cluster.step_letIn (step_toCluster h) hl
    · exact hnamed hl
    · have G := O.sound.familiar.genuine
      obtain ⟨rfl, -⟩ := G.joins _ _ _ _ hx
      refine G.mem_joinResponse hconf hij.symm ?_
      rcases eq_or_ne j s with rfl | hjs
      · exact .inl rfl
      · exact .inr (hinformed i s ha j hij.symm hjs hj)
  · obtain ⟨p, hp⟩ | hjoined := (mem_joined_step h).1 hjoined
    · obtain ⟨seed, ps, hl, hall⟩ := O.sound.lists_of_joinEnd? hconf h hp
      exact hall j hij (hnamed hl)
    · exact O.sound.lists h ((hold (O.joined i hjoined)).joined hjoined)

theorem told_step (hij : i ≠ j) (hi : r'.Present conf i) (hj : r'.Present conf j) :
    r'.Told conf i j ∨ r'.Told conf j i := by
  have hmono {i : ι} (hi : i ∈ r.admitted) : i ∈ r'.admitted := (mem_admitted_step h).2 (.inr hi)
  have hnew {i : ι} (hi : r'.Present conf i) : r.Present conf i ∨
      i ∉ r.admitted ∧ i ∈ r'.admitted ∧ ∃ s, asking a = some (i, s) := by
    rcases hi with hnone | hi
    · exact .inl (.inl hnone)
    · by_cases hin : i ∈ r.admitted
      · exact .inl (.inr hin)
      · exact .inr ⟨hin, hi, ((mem_admitted_step h).1 hi).resolve_right hin⟩
  obtain hi | ⟨hin, hi, s, has⟩ := hnew hi <;> obtain hj | ⟨hjn, hj, t, hat⟩ := hnew hj
  · rcases O.told i j hij hi hj with T | T
    · exact .inl (O.told_of_present hconf h hinformed hij (hmono T.admitted) hj fun _ => T)
    · exact .inr (O.told_of_present hconf h hinformed hij.symm (hmono T.admitted) hi fun _ => T)
  · exact .inr (O.told_of_present hconf h hinformed hij.symm hj hi fun hj => absurd hj hjn)
  · exact .inl (O.told_of_present hconf h hinformed hij hi hj fun hi => absurd hi hin)
  · -- one action brings one join request
    exact absurd (Prod.mk.inj (Option.some.inj (has.symm.trans hat))).1 hij

theorem step : r'.Orderly conf where
  sound := O.sound.step hconf h
  seeded i hi := by
    obtain ⟨s, ha⟩ | hi := (mem_admitted_step h).1 hi
    · exact O.seed_of_asking h ha
    · exact O.seeded i hi
  letIn _ _ _ hl := O.letIn_step h hl
  joined _ hi := O.joined_step hconf h hi
  told _ _ hij hi hj := O.told_step hconf h hinformed hij hi hj

end Orderly

/-- In every run of fresh nodes with distinct ids, addresses and discovery endpoints: when nothing
is under way and no message waits, two members list each other exactly if one of them has sent the
other its join request or its announcement. If only one node has no seed, and each join request was
answered by a node that listed all that were present, every member lists every other one. -/
theorem members_list_iff_greeted (hconf : Settings.Distinct conf)
    (h : Reaches step (fun _ _ => True) (start conf) r)
    (hqueued : ∀ i, r.queued i < UInt64.size) (hquiet : r.Quiet) :
    (∀ i j, i ≠ j → r.Member conf i → r.Member conf j →
      (r.Lists i j ↔ r.Greeted i j ∨ r.Greeted j i)) ∧
    ((∀ i j, (conf i).seed = none → (conf j).seed = none → i = j) →
      Reaches step (fun r a => r.Informed conf a) (start conf) r →
      ∀ i j, i ≠ j → r.Member conf i → r.Member conf j → r.Lists i j) := by
  have S : r.Sound conf := h.keeps .start fun S _ hs => S.step hconf hs
  refine ⟨fun i j hij hi hj => S.lists_iff_greeted hconf hqueued hquiet hij hi hj, ?_⟩
  intro hfounder hinformed i j hij hi hj
  have O : r.Orderly conf :=
    hinformed.keeps (.start hfounder) fun O ha hs => O.step hconf hs ha
  have hpresent {i : ι} (hi : r.Member conf i) : r.Present conf i := hi.imp_right (O.joined i)
  have hmember {i j : ι} (hi : r.Member conf i) (T : r.Told conf i j) : r.Lists i j :=
    T.joined (hi.resolve_left (O.seeded i T.admitted))
  rcases O.told i j hij (hpresent hi) (hpresent hj) with T | T
  · exact hmember hi T
  · have hl := (S.lists_iff_greeted hconf hqueued hquiet hij.symm hj hi).1 (hmember hj T)
    exact (S.lists_iff_greeted hconf hqueued hquiet hij hi hj).2 hl.symm

/-! The founder `a` lets `c` and then `j` in, and `c` lets `l` in. Whether the announcement of `j`
has come to `c` by then decides whether `l` and `j` ever hear of each other. -/

inductive Quartet where
  | a
  | c
  | j
  | l
  deriving DecidableEq

instance : Fintype Quartet := ⟨{.a, .c, .j, .l}, fun i => by cases i <;> decide⟩

namespace Quartet

def settings : Quartet → Settings
  | .a => { Settings.onLoopback "a" 7000 with advertisedHost := "a" }
  | .c => { Settings.onLoopback "c" 9000 with advertisedHost := "c", seed := some ⟨"a", 7002⟩ }
  | .j => { Settings.onLoopback "j" 8000 with advertisedHost := "j", seed := some ⟨"a", 7002⟩ }
  | .l => { Settings.onLoopback "l" 10000 with advertisedHost := "l", seed := some ⟨"c", 9002⟩ }

def peer (i : Quartet) : Peer := i.settings.identity

theorem settings_distinct : Settings.Distinct settings where
  id := by unfold Function.Injective; decide
  address := by unfold Function.Injective; decide
  discovery := by unfold Function.Injective; decide

theorem fault?_settings (i : Quartet) : i.settings.fault? = none := by cases i <;> decide

theorem eq_of_seedless (i k : Quartet) (hi : i.settings.seed = none)
    (hk : k.settings.seed = none) : i = k := by
  cases i <;> cases hi
  cases k <;> cases hk
  rfl

end Quartet

/-- How `i` joins through `s`, which lists `peers` and whose clock knows `ids`. -/
def entering (i s : Quartet) (peers : List Quartet) (ids : List NodeId) :
    List (Cluster.Action Quartet) :=
  let join := Errand.join i.peer ⟨s.peer.host, s.peer.discoveryPort⟩
  let snapshot : Snapshot := ⟨.empty, .ofList (ids.map (·, 0))⟩
  [.join i, .arrive ⟨i, join, none⟩ s,
    .finish ⟨i, join, some ⟨some (.joinResponse ((s :: peers).map (·.peer))), ∅⟩⟩ none,
    .perform i (.settle s.peer), .arrive ⟨i, .transfer s.peer, none⟩ s,
    .finish ⟨i, .transfer s.peer, some ⟨some (.stateResponse snapshot), ∅⟩⟩ none]

/-- The announcement of `i` comes to `k`. -/
def announcing (i k : Quartet) : List (Cluster.Action Quartet) :=
  let announce := Errand.send ⟨k.peer, .newPeerAnnounce i.peer⟩
  [.arrive ⟨i, announce, none⟩ k, .finish ⟨i, announce, some ⟨none, ∅⟩⟩ none]

def inTurn : List (Cluster.Action Quartet) :=
  entering .c .a [] ["a", "c"] ++ entering .j .a [.c] ["a", "c", "j"] ++ announcing .j .c ++
    entering .l .c [.a, .j] ["a", "c", "j", "l"] ++ announcing .l .a ++ announcing .l .j

def overlapping : List (Cluster.Action Quartet) :=
  entering .c .a [] ["a", "c"] ++ entering .j .a [.c] ["a", "c", "j"] ++
    entering .l .c [.a] ["a", "c", "l"] ++ announcing .j .c ++ announcing .l .a

theorem joins_in_turn_meet_all :
    ∃ r, Reaches step (fun r a => r.Informed Quartet.settings a) (start Quartet.settings) r ∧
      ∀ i k, i ≠ k → r.Lists i k := by
  have hrun : (runAll (fun r a => if r.Informed Quartet.settings a then step r a else none)
      (start Quartet.settings) inTurn).map (fun r =>
        (r.joined, decide (∀ i, r.queued i < UInt64.size), decide r.Quiet)) =
      some ([.l, .j, .c], true, true) := by cbv
  obtain ⟨r, hr, h⟩ := Option.map_eq_some_iff.1 hrun
  simp only [Prod.mk.injEq, decide_eq_true_eq] at h
  obtain ⟨hjoined, hqueued, hquiet⟩ := h
  have hreach : Reaches step (fun r a => r.Informed Quartet.settings a)
      (start Quartet.settings) r := .of_runAll_guarded hr
  have hmember (i : Quartet) : r.Member Quartet.settings i := by
    rw [Member, hjoined]
    cases i <;> simp [Quartet.settings, Settings.onLoopback]
  have hlist := members_list_iff_greeted Quartet.settings_distinct
    (hreach.mono fun _ _ _ => trivial) hqueued hquiet
  refine ⟨r, hreach, fun i k hik => ?_⟩
  exact hlist.2 Quartet.eq_of_seedless hreach i k hik (hmember i) (hmember k)

theorem overlapping_joins_miss_each_other :
    Settings.Distinct Quartet.settings ∧ (∀ i : Quartet, i.settings.fault? = none) ∧
    ∃ r, Reaches step (fun r a => ∀ i s, asking a = some (i, s) → r.Member Quartet.settings s)
        (start Quartet.settings) r ∧ r.Quiet ∧ (∀ i, r.Member Quartet.settings i) ∧
      ¬ r.Lists .j .l ∧ ¬ r.Lists .l .j := by
  have hrun : (runAll (fun r a => if ∀ i s, asking a = some (i, s) → r.Member Quartet.settings s
        then step r a else none)
      (start Quartet.settings) overlapping).map (fun r =>
        (decide r.Quiet, decide (∀ i, r.Member Quartet.settings i),
          decide (r.Lists .j .l), decide (r.Lists .l .j))) =
      some (true, true, false, false) := by cbv
  obtain ⟨r, hr, h⟩ := Option.map_eq_some_iff.1 hrun
  simp only [Prod.mk.injEq, decide_eq_true_eq, decide_eq_false_iff_not] at h
  obtain ⟨hquiet, hmember, hjl, hlj⟩ := h
  exact ⟨Quartet.settings_distinct, Quartet.fault?_settings, r, .of_runAll_guarded hr, hquiet,
    hmember, hjl, hlj⟩

end Roster
end CausalStore
