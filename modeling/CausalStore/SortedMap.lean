/-!
# Maps in ascending key order

A finite map is kept as the list of its pairs in strictly ascending order of their keys. The list is
determined by the look-ups (`SortedMap.ext_get?`), so equal maps are equal values, and it is the
order in which a map is printed and listed.
-/

namespace CausalStore

/-- A strict total order, given by its decision procedure. -/
class KeyOrder (κ : Type) where
  before : κ → κ → Bool
  irrefl (a : κ) : before a a = false
  trans {a b c : κ} : before a b = true → before b c = true → before a c = true
  connected {a b : κ} : before a b = false → before b a = false → a = b

/-- Strings are ordered by code point, which is the order of their UTF-8 bytes. -/
instance : KeyOrder String where
  before a b := decide (a < b)
  irrefl a := by simp
  trans h₁ h₂ := by simpa using String.lt_trans (by simpa using h₁) (by simpa using h₂)
  connected h₁ h₂ := by
    simp only [decide_eq_false_iff_not, String.not_lt] at h₁ h₂
    exact String.le_antisymm h₂ h₁

instance : KeyOrder Nat where
  before a b := decide (a < b)
  irrefl a := by simp
  trans h₁ h₂ := by simp only [decide_eq_true_eq] at h₁ h₂ ⊢; omega
  connected h₁ h₂ := by simp only [decide_eq_false_iff_not] at h₁ h₂; omega

/-- A finite map as its pairs in strictly ascending order of keys. -/
structure SortedMap (κ : Type) [KeyOrder κ] (α : Type) where
  entries : List (κ × α)
  ascending : entries.Pairwise (fun a b => KeyOrder.before a.1 b.1 = true)
  deriving DecidableEq

namespace SortedMap

variable {κ α β : Type} [KeyOrder κ]

/-- The map without keys. -/
def empty : SortedMap κ α := ⟨[], .nil⟩

instance : Inhabited (SortedMap κ α) := ⟨empty⟩

private def lookupIn (k : κ) : List (κ × α) → Option α
  | [] => none
  | (k', v) :: rest =>
    if KeyOrder.before k k' then none
    else if KeyOrder.before k' k then lookupIn k rest
    else some v

/-- The value of a key. -/
def get? (m : SortedMap κ α) (k : κ) : Option α := lookupIn k m.entries

def contains (m : SortedMap κ α) (k : κ) : Bool := (m.get? k).isSome

def keys (m : SortedMap κ α) : List κ := m.entries.map (·.1)

def size (m : SortedMap κ α) : Nat := m.entries.length

def isEmpty (m : SortedMap κ α) : Bool := m.entries.isEmpty

private def upsertIn (k : κ) (f : Option α → α) : List (κ × α) → List (κ × α)
  | [] => [(k, f none)]
  | (k', v) :: rest =>
    if KeyOrder.before k k' then (k, f none) :: (k', v) :: rest
    else if KeyOrder.before k' k then (k', v) :: upsertIn k f rest
    else (k', f (some v)) :: rest

private theorem mem_upsertIn_key {k : κ} {f : Option α → α} {l : List (κ × α)} {p : κ × α}
    (h : p ∈ upsertIn k f l) : p.1 = k ∨ ∃ q ∈ l, q.1 = p.1 := by
  induction l with
  | nil => simp only [upsertIn, List.mem_singleton] at h; exact .inl (h ▸ rfl)
  | cons q rest ih =>
    obtain ⟨k', v⟩ := q
    simp only [upsertIn] at h
    split at h
    · rcases List.mem_cons.1 h with rfl | h
      · exact .inl rfl
      · exact .inr ⟨p, h, rfl⟩
    · split at h
      · rcases List.mem_cons.1 h with rfl | h
        · exact .inr ⟨_, List.mem_cons_self, rfl⟩
        · rcases ih h with h | ⟨q, hq, e⟩
          · exact .inl h
          · exact .inr ⟨q, List.mem_cons_of_mem _ hq, e⟩
      · rcases List.mem_cons.1 h with rfl | h
        · exact .inr ⟨_, List.mem_cons_self, rfl⟩
        · exact .inr ⟨p, List.mem_cons_of_mem _ h, rfl⟩

private theorem upsertIn_ascending {k : κ} {f : Option α → α} {l : List (κ × α)}
    (h : l.Pairwise (fun a b => KeyOrder.before a.1 b.1 = true)) :
    (upsertIn k f l).Pairwise (fun a b => KeyOrder.before a.1 b.1 = true) := by
  induction l with
  | nil => simp [upsertIn]
  | cons q rest ih =>
    obtain ⟨k', v⟩ := q
    obtain ⟨hq, hrest⟩ := List.pairwise_cons.1 h
    simp only [upsertIn]
    split
    next hk =>
      refine List.pairwise_cons.2 ⟨fun p hp => ?_, h⟩
      rcases List.mem_cons.1 hp with rfl | hp
      · exact hk
      · exact KeyOrder.trans hk (hq p hp)
    next =>
      split
      next hk' =>
        refine List.pairwise_cons.2 ⟨fun p hp => ?_, ih hrest⟩
        rcases mem_upsertIn_key hp with e | ⟨r, hr, e⟩
        · exact e ▸ hk'
        · exact e ▸ hq r hr
      next => exact List.pairwise_cons.2 ⟨fun p hp => hq p hp, hrest⟩

/-- Gives `k` the value `f old`, where `old` is the value that `k` has. -/
def upsert (m : SortedMap κ α) (k : κ) (f : Option α → α) : SortedMap κ α :=
  ⟨upsertIn k f m.entries, upsertIn_ascending m.ascending⟩

/-- Gives `k` the value `v`, in place of the value that it has. -/
def insert (m : SortedMap κ α) (k : κ) (v : α) : SortedMap κ α := m.upsert k fun _ => v

/-- Gives `k` the value `v` unless it has one. -/
def insertNew (m : SortedMap κ α) (k : κ) (v : α) : SortedMap κ α := m.upsert k fun old => old.getD v

/-- The map of a list of pairs, where a later pair replaces an earlier one of the same key. -/
def ofList (l : List (κ × α)) : SortedMap κ α := l.foldl (fun m p => m.insert p.1 p.2) empty

/-- The pairs whose key and value pass a test. -/
def filter (m : SortedMap κ α) (p : κ → α → Bool) : SortedMap κ α :=
  ⟨m.entries.filter fun e => p e.1 e.2, m.ascending.filter _⟩

/-- The map without the key `k`. -/
def erase (m : SortedMap κ α) (k : κ) : SortedMap κ α :=
  m.filter fun k' _ => KeyOrder.before k k' || KeyOrder.before k' k

/-- The map with every value replaced. -/
def map (m : SortedMap κ α) (f : α → β) : SortedMap κ β :=
  ⟨m.entries.map fun e => (e.1, f e.2), by
    simpa [List.pairwise_map] using m.ascending⟩

theorem map_map {γ : Type} (m : SortedMap κ α) (f : α → β) (g : β → γ) :
    (m.map f).map g = m.map fun v => g (f v) := by
  simp [map]

theorem map_id (m : SortedMap κ α) {f : α → α} (h : ∀ v, f v = v) : m.map f = m := by
  simp [map, h]

@[simp] theorem get?_empty (k : κ) : (empty : SortedMap κ α).get? k = none := rfl

private theorem lookupIn_upsertIn {k j : κ} {f : Option α → α} {l : List (κ × α)}
    (h : l.Pairwise (fun a b => KeyOrder.before a.1 b.1 = true)) :
    lookupIn j (upsertIn k f l) = if KeyOrder.before j k || KeyOrder.before k j then lookupIn j l
      else some (f (lookupIn k l)) := by
  induction l with
  | nil =>
    simp only [upsertIn, lookupIn]
    cases hjk : KeyOrder.before j k <;> cases hkj : KeyOrder.before k j <;> simp
  | cons q rest ih =>
    obtain ⟨k', v⟩ := q
    obtain ⟨hq, hrest⟩ := List.pairwise_cons.1 h
    simp only [upsertIn]
    split
    next hk =>
      simp only [lookupIn, hk, if_true]
      by_cases hjk : KeyOrder.before j k = true
      · simp [hjk, KeyOrder.trans hjk hk]
      · by_cases hkj : KeyOrder.before k j = true
        · simp [hjk, hkj]
        · simp [hjk, hkj]
    next hk =>
      split
      next hk' =>
        simp only [lookupIn, hk, hk', if_true, Bool.false_eq_true, if_false]
        rw [ih hrest]
        by_cases hj : KeyOrder.before j k' = true
        · have hjk := KeyOrder.trans hj hk'
          simp [hj, hjk]
        · by_cases hj' : KeyOrder.before k' j = true
          · simp [hj, hj']
          · have e : j = k' := KeyOrder.connected (by simpa using hj) (by simpa using hj')
            subst e
            simp [hk', hj]
      next hk' =>
        have e : k = k' := KeyOrder.connected (by simpa using hk) (by simpa using hk')
        subst e
        simp only [lookupIn, hk, if_false, Bool.false_eq_true]
        by_cases hjk : KeyOrder.before j k = true
        · simp [hjk]
        · by_cases hkj : KeyOrder.before k j = true
          · simp [hjk, hkj]
          · simp [hjk, hkj]

theorem get?_upsert_self (m : SortedMap κ α) (k : κ) (f : Option α → α) :
    (m.upsert k f).get? k = some (f (m.get? k)) := by
  simp [get?, upsert, lookupIn_upsertIn m.ascending, KeyOrder.irrefl]

theorem get?_upsert_of_ne (m : SortedMap κ α) {k j : κ} (h : j ≠ k) (f : Option α → α) :
    (m.upsert k f).get? j = m.get? j := by
  simp only [get?, upsert, lookupIn_upsertIn m.ascending]
  refine if_pos ?_
  by_cases hjk : KeyOrder.before j k = true
  · simp [hjk]
  · by_cases hkj : KeyOrder.before k j = true
    · simp [hkj]
    · exact absurd (KeyOrder.connected (by simpa using hjk) (by simpa using hkj)) h

theorem mem_entries_iff (m : SortedMap κ α) {k : κ} {v : α} :
    (k, v) ∈ m.entries ↔ m.get? k = some v := by
  obtain ⟨l, hl⟩ := m
  simp only [get?]
  induction l with
  | nil => simp [lookupIn]
  | cons q rest ih =>
    obtain ⟨k', w⟩ := q
    obtain ⟨hq, hrest⟩ := List.pairwise_cons.1 hl
    have ih := ih hrest
    simp only [lookupIn, List.mem_cons, Prod.mk.injEq]
    constructor
    · rintro (⟨rfl, rfl⟩ | hmem)
      · simp [KeyOrder.irrefl]
      · have hk' : KeyOrder.before k' k = true := hq _ hmem
        have hk : KeyOrder.before k k' = false := by
          cases h : KeyOrder.before k k' with
          | false => rfl
          | true => have := KeyOrder.trans h hk'; rw [KeyOrder.irrefl] at this; exact absurd this (by simp)
        simp only [hk, hk', if_true, Bool.false_eq_true, if_false]
        exact ih.1 hmem
    · intro h
      split at h
      · simp at h
      · split at h
        · exact .inr (ih.2 h)
        next hk hk' =>
          exact .inl ⟨KeyOrder.connected (by simpa using hk) (by simpa using hk'), by simpa using h.symm⟩

theorem ext_get? {m n : SortedMap κ α} (h : ∀ k, m.get? k = n.get? k) : m = n := by
  have hmem : ∀ p, p ∈ m.entries ↔ p ∈ n.entries := fun p => by
    rw [show p = (p.1, p.2) from rfl, mem_entries_iff, mem_entries_iff, h]
  obtain ⟨l, hl⟩ := m
  obtain ⟨r, hr⟩ := n
  simp only [mk.injEq]
  simp only at hmem
  clear h
  have asymm : ∀ a b : κ × α, KeyOrder.before a.1 b.1 = true → KeyOrder.before b.1 a.1 = true → False :=
    fun a b h₁ h₂ => by have := KeyOrder.trans h₁ h₂; rw [KeyOrder.irrefl] at this; exact absurd this (by simp)
  induction l generalizing r with
  | nil =>
    cases r with
    | nil => rfl
    | cons q r => exact absurd ((hmem q).2 List.mem_cons_self) (by simp)
  | cons p l ih =>
    cases r with
    | nil => exact absurd ((hmem p).1 List.mem_cons_self) (by simp)
    | cons q r =>
      obtain ⟨hp, hl'⟩ := List.pairwise_cons.1 hl
      obtain ⟨hq, hr'⟩ := List.pairwise_cons.1 hr
      have e : p = q := by
        rcases List.mem_cons.1 ((hmem p).1 List.mem_cons_self) with e | h₁
        · exact e
        rcases List.mem_cons.1 ((hmem q).2 List.mem_cons_self) with e | h₂
        · exact e.symm
        exact (asymm _ _ (hq p h₁) (hp q h₂)).elim
      subst e
      rw [ih hl' r hr' fun x => ?_]
      constructor
      · intro hx
        rcases List.mem_cons.1 ((hmem x).1 (List.mem_cons_of_mem _ hx)) with rfl | h
        · exact (asymm _ _ (hp x hx) (hp x hx)).elim
        · exact h
      · intro hx
        rcases List.mem_cons.1 ((hmem x).2 (List.mem_cons_of_mem _ hx)) with rfl | h
        · exact (asymm _ _ (hq x hx) (hq x hx)).elim
        · exact h

end SortedMap

end CausalStore
