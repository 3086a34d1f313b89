import CausalStore.Proofs.Replay

/-!
# Learning of peers

Listing an id moves no counter, and an engine decides by counters alone. So two runs of which one lists
ids anywhere in between go side by side (`Engine.SideBySide`): each operation answers the same in both
(`Engine.answer_agrees`), and what it leaves differs at most in the ids that clocks list at zero
(`Engine.SideBySide.act`).
-/

namespace CausalStore

/-- The entries hold the same value, under the same counters. -/
structure Entry.Agrees (a b : Entry) : Prop where
  value : a.value = b.value
  clock : a.clock.Agrees b.clock

/-- The stores have the same keys, and entries of a key agree. -/
def Store.Agrees (s t : Store) : Prop :=
  ∀ key, Option.Rel Entry.Agrees (s.get? key) (t.get? key)

/-- The updates write the same under the same counters. -/
structure Update.Agrees (u v : Update) : Prop where
  key : u.key = v.key
  value : u.value = v.value
  origin : u.origin = v.origin
  clock : u.clock.Agrees v.clock

variable {s t : Store} {a b : Entry} {u v : Update}

theorem Entry.Agrees.refl (a : Entry) : a.Agrees a := ⟨rfl, .refl a.clock⟩

theorem Update.Agrees.entry (h : u.Agrees v) : u.entry.Agrees v.entry := ⟨h.value, h.clock⟩

theorem Update.Agrees.sequence (h : u.Agrees v) : u.sequence = v.sequence := by
  rw [Update.sequence, Update.sequence, h.origin]
  exact h.clock v.origin

namespace Store.Agrees

theorem refl (s : Store) : s.Agrees s := fun key => by
  cases s.get? key with
  | none => exact .none
  | some a => exact .some (.refl a)

theorem insert (h : s.Agrees t) (hab : a.Agrees b) (key : String) :
    Store.Agrees (SortedMap.insert s key a) (SortedMap.insert t key b) := by
  intro key'
  rcases eq_or_ne key' key with rfl | hne
  · rw [SortedMap.get?_insert_self, SortedMap.get?_insert_self]
    exact .some hab
  · rw [SortedMap.get?_insert_of_ne _ hne, SortedMap.get?_insert_of_ne _ hne]
    exact h key'

/-- Entries that are taken over replace entries that agree. -/
theorem overwrite (h : s.Agrees t) (n : Store) :
    Store.Agrees (n.entries.foldl (fun m p => m.insert p.1 p.2) s)
      (n.entries.foldl (fun m p => m.insert p.1 p.2) t) := by
  intro key
  rw [SortedMap.get?_foldl_insert, SortedMap.get?_foldl_insert]
  cases n.get? key with
  | none => exact h key
  | some a => exact .some (.refl a)

end Store.Agrees

namespace Engine

/-- What an operation answers. -/
inductive Answer where
  | written (r : Except ClockError Update)
  | received (d : Delivery)
  | reconciled (applied : Nat)
  | installed (r : InstallReport)
  deriving DecidableEq

/-- The answers are the same, but for the ids that the clock of a write lists at zero. -/
inductive Answer.Agrees : Answer → Answer → Prop
  | refl (x : Answer) : Agrees x x
  | written {u v : Update} : u.Agrees v → u.sequence = v.sequence →
      Agrees (.written (.ok u)) (.written (.ok v))

/-- The answer to an action. Listing a node is not answered. -/
def answer? (e : Engine) : Action → Option Answer
  | .addServer _ => none
  | .write key value => some (.written ((e.write key value).map (·.2)))
  | .receive u => some (.received (e.receive u).2)
  | .reconcile => some (.reconciled e.reconcile.2)
  | .install s => some (.installed (e.install s).2)

/-- The answers in a run, each with the engine just after it. -/
def answers (e : Engine) : List Action → List (Answer × Engine)
  | [] => []
  | a :: as => ((e.answer? a).map fun x => (x, e.act a)).toList ++ (e.act a).answers as

/-- The second run is the first one with nodes listed anywhere in between. -/
inductive Enlists : List Action → List Action → Prop
  | done : Enlists [] []
  | act {as bs : List Action} (a : Action) : Enlists as bs → Enlists (a :: as) (a :: bs)
  | listing {as bs : List Action} (id : NodeId) : Enlists as bs → Enlists as (.addServer id :: bs)

/-- The engines are those of one node, and differ at most in the ids that their clocks and the clocks
of their entries list at zero. -/
structure SideBySide (e f : Engine) : Prop where
  localId : e.localId = f.localId
  clock : e.clock.Agrees f.clock
  store : e.store.Agrees f.store
  pending : e.pending = f.pending

variable {e f : Engine}

namespace SideBySide

theorem refl (e : Engine) : e.SideBySide e := ⟨rfl, .refl e.clock, .refl e.store, rfl⟩

theorem addServer (h : e.SideBySide f) (id : NodeId) : e.SideBySide (f.addServer id) where
  localId := h.localId
  clock id' := (h.clock id').trans (f.clock.agrees_addDimension id id')
  store := h.store
  pending := h.pending

theorem addServer_both (h : e.SideBySide f) (id : NodeId) :
    (e.addServer id).SideBySide (f.addServer id) where
  localId := h.localId
  clock id' := (e.clock.agrees_addDimension id id').symm.trans ((h.addServer id).clock id')
  store := h.store
  pending := h.pending

theorem apply (h : e.SideBySide f) (u : Update) : (e.apply u).SideBySide (f.apply u) where
  localId := h.localId
  clock := h.clock.merge (.refl u.clock)
  store := h.store.insert (.refl u.entry) u.key
  pending := h.pending

theorem applyAll (h : e.SideBySide f) (us : List Update) :
    (e.applyAll us).SideBySide (f.applyAll us) := by
  induction us generalizing e f with
  | nil => exact h
  | cons u us ih => exact ih (h.apply u)

theorem record (h : e.SideBySide f) (huv : u.Agrees v) : (e.record u).SideBySide (f.record v) where
  localId := h.localId
  clock := huv.clock
  store := by
    change Store.Agrees (e.store.insert u.key u.entry) (f.store.insert v.key v.entry)
    rw [← huv.key]
    exact h.store.insert huv.entry u.key
  pending := h.pending

theorem overwrite (h : e.SideBySide f) (s : Snapshot) :
    (e.overwrite s).SideBySide (f.overwrite s) where
  localId := h.localId
  clock := h.clock.merge (.refl s.clock)
  store := h.store.overwrite s.store
  pending := h.pending

/-- A reconciliation applies the same updates on both sides, and keeps the same. -/
theorem reconcile (h : e.SideBySide f) :
    e.reconcile.2 = f.reconcile.2 ∧ e.reconcile.1.SideBySide f.reconcile.1 := by
  obtain ⟨hreconciled, hcount, hpending, hclock⟩ := reconcile_congr h.clock h.pending
  refine ⟨hcount, ?_, hclock, ?_, hpending⟩
  · rw [reconcile_localId, reconcile_localId, h.localId]
  · rw [reconcile_store, reconcile_store, ← hreconciled]
    exact (h.applyAll _).store

/-- A write fails on both sides, or is made on both under the same counters. -/
theorem write (h : e.SideBySide f) (key value : String) :
    (∃ x, e.write key value = .error x ∧ f.write key value = .error x) ∨
      ∃ e' f' u v, e.write key value = .ok (e', u) ∧ f.write key value = .ok (f', v) ∧
        u.Agrees v ∧ e'.SideBySide f' := by
  obtain ⟨x, hx, hx'⟩ | ⟨c, d, hc, hd, hagree⟩ := h.clock.increment e.localId
  · refine .inl ⟨x, ?_, ?_⟩
    · rw [Engine.write, hx]
      rfl
    · rw [Engine.write, ← h.localId, hx']
      rfl
  · have huv : Update.Agrees ⟨key, value, e.localId, c⟩ ⟨key, value, f.localId, d⟩ :=
      ⟨rfl, rfl, h.localId, hagree⟩
    refine .inr ⟨_, _, _, _, write_eq_ok_iff.2 ⟨rfl, rfl, rfl, hc, rfl⟩,
      write_eq_ok_iff.2 ⟨rfl, rfl, rfl, ?_, rfl⟩, huv, (h.record huv).reconcile.2⟩
    exact h.localId ▸ hd

/-- What is received has the same fate on both sides. -/
theorem receive (h : e.SideBySide f) (u : Update) :
    (e.receive u).2 = (f.receive u).2 ∧ (e.receive u).1.SideBySide (f.receive u).1 := by
  obtain ⟨hcount, hnext⟩ := (h.apply u).reconcile
  unfold Engine.receive
  rw [h.clock.dominates, h.clock.admits, h.pending]
  split
  · exact ⟨rfl, h⟩
  · split
    · exact ⟨congrArg Delivery.applied hcount, hnext⟩
    · split
      · exact ⟨rfl, h⟩
      · exact ⟨rfl, h.localId, h.clock, h.store, rfl⟩

theorem act (h : e.SideBySide f) (a : Action) : (e.act a).SideBySide (f.act a) := by
  cases a with
  | addServer id => exact h.addServer_both id
  | write key value =>
    rw [Engine.act, Engine.act]
    obtain ⟨x, he, hf⟩ | ⟨e', f', u, v, he, hf, -, hnext⟩ := h.write key value
    · rwa [he, hf]
    · rwa [he, hf]
  | receive u => exact (h.receive u).2
  | reconcile => exact h.reconcile.2
  | install s => exact (h.overwrite s).reconcile.2

end SideBySide

/-- Side by side an action is answered alike. -/
theorem answer_agrees (h : e.SideBySide f) (a : Action) :
    Option.Rel Answer.Agrees (e.answer? a) (f.answer? a) := by
  cases a with
  | addServer id => exact .none
  | write key value =>
    rw [answer?, answer?]
    obtain ⟨x, he, hf⟩ | ⟨e', f', u, v, he, hf, huv, -⟩ := h.write key value
    · rw [he, hf]
      exact .some (.refl _)
    · rw [he, hf]
      exact .some (.written huv huv.sequence)
  | receive u =>
    rw [answer?, answer?, (h.receive u).1]
    exact .some (.refl _)
  | reconcile =>
    rw [answer?, answer?, h.reconcile.1]
    exact .some (.refl _)
  | install s =>
    have hreport : (e.install s).2 = (f.install s).2 :=
      congrArg (InstallReport.mk s.store.size) (h.overwrite s).reconcile.1
    rw [answer?, answer?, hreport]
    exact .some (.refl _)

/-- Runs that start side by side stay so, and are answered alike all along. -/
theorem SideBySide.run {as bs : List Action} (h : e.SideBySide f) (hrun : Enlists as bs) :
    List.Forall₂ (fun x y => x.1.Agrees y.1 ∧ x.2.SideBySide y.2) (e.answers as) (f.answers bs) ∧
      (e.actAll as).SideBySide (f.actAll bs) := by
  induction hrun generalizing e f with
  | done => exact ⟨.nil, h⟩
  | listing id _ ih => exact ih (h.addServer id)
  | act a _ ih =>
    have hnext := h.act a
    obtain ⟨hanswers, hlast⟩ := ih hnext
    refine ⟨?_, hlast⟩
    rw [answers, answers]
    cases hx : e.answer? a <;> cases hy : f.answer? a <;> have hxy := answer_agrees h a <;>
      rw [hx, hy] at hxy
    · exact hanswers
    · cases hxy
    · cases hxy
    · obtain ⟨hxy⟩ := hxy
      exact .cons ⟨hxy, hnext⟩ hanswers

/-- Learning of peers changes nothing that is delivered. Whatever is done with a new engine, and
wherever nodes are listed in between: each operation is answered alike, and after each of them, and in
the end, the buffers are the same, the stores hold the same values, and the clocks of the engines and
of their entries agree at every id. -/
theorem learning_peers_changes_nothing (id : NodeId) {as bs : List Action} (h : Enlists as bs) :
    List.Forall₂ (fun x y => x.1.Agrees y.1 ∧ x.2.SideBySide y.2)
      ((new id).answers as) ((new id).answers bs) ∧
    ((new id).actAll as).SideBySide ((new id).actAll bs) :=
  (SideBySide.refl (new id)).run h

/-! A node that hears of `c` before a write of it is there and of `b` after it, and lists itself and a
node of which it never hears from anybody else. -/

def hearsay : List Action :=
  [.receive ⟨"x", "2", "c", .ofList [("a", 1), ("b", 1), ("c", 1)]⟩, .write "x" "1",
    .install ⟨.ofList [("y", ⟨"0", .ofList [("d", 1)]⟩)], .ofList [("d", 1)]⟩,
    .receive ⟨"y", "3", "b", .ofList [("b", 1), ("d", 1)]⟩, .reconcile, .write "y" "4"]

def introductions : List Action :=
  .addServer "c" :: hearsay.take 3 ++ .addServer "b" :: .addServer "a" :: hearsay.drop 3 ++
    [.addServer "z"]

theorem introductions_change_nothing : Enlists hearsay introductions ∧
    ((new "a").actAll hearsay).clock ≠ ((new "a").actAll introductions).clock ∧
    ((new "a").actAll introductions).pending = [] ∧
    ((new "a").actAll introductions).clock.get "c" = 1 ∧
    ((new "a").answers hearsay).map (·.1) = [.received .buffered,
      .written (.ok ⟨"x", "1", "a", .ofList [("a", 1)]⟩), .installed ⟨1, 0⟩, .received (.applied 1),
      .reconciled 0,
      .written (.ok ⟨"y", "4", "a", .ofList [("a", 2), ("b", 1), ("c", 1), ("d", 1)]⟩)] ∧
    List.Forall₂ (fun x y => x.1.Agrees y.1 ∧ x.2.SideBySide y.2)
      ((new "a").answers hearsay) ((new "a").answers introductions) := by
  have henlists : Enlists hearsay introductions :=
    .listing _ <| .act _ <| .act _ <| .act _ <| .listing _ <| .listing _ <| .act _ <| .act _ <|
      .act _ <| .listing _ .done
  obtain ⟨hanswers, hlast⟩ := learning_peers_changes_nothing "a" henlists
  refine ⟨henlists, by decide +kernel, ?_, ?_, by decide +kernel, hanswers⟩
  · rw [← hlast.pending]
    decide +kernel
  · rw [← hlast.clock]
    decide +kernel

end Engine
end CausalStore
