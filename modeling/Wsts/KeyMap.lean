/-
  Wsts.KeyMap

  Finite maps keyed by `u32` identifiers: the shape of every map the signer state
  machine keeps or is handed — `BTreeMap<u32, PolyCommitment>` (`commitments`),
  `HashMap<u32, HashMap<u32, Scalar>>` (`decrypted_shares`, `Signer::get_shares`),
  `HashMap<u32, Vec<u8>>` (the ciphertexts of a `DkgPrivateShares`) and the two
  tables of `PublicKeys`.

  A map is its entries in strictly ascending key order, so two maps are equal exactly
  when they agree at every key (`KeyMap.ext`).  Ascending order is `BTreeMap`'s own
  iteration order (`into_values` in `dkg_ended`); for a `HashMap` it fixes one of the
  orders the code may meet, and nothing the state machine computes depends on which.
-/

import Mathlib.Data.List.Basic

namespace Wsts

/-- A finite map from `u32` keys, held as its entries in strictly ascending key order. -/
structure KeyMap (α : Type) where
  entries : List (Nat × α)
  sorted : entries.Pairwise (fun a b => a.1 < b.1)

namespace KeyMap

variable {α : Type}

-- ============================================================================
-- Entry lists
-- ============================================================================

theorem lookup_cons_eq_ite (k j : Nat) (v : α) (l : List (Nat × α)) :
    ((k, v) :: l).lookup j = if j = k then some v else l.lookup j := by
  by_cases h : j = k
  · simp [h]
  · simp [List.lookup_cons, h, beq_false_of_ne h]

/-- Insert into an ascending entry list, replacing the value of a present key. -/
def insertEntry (k : Nat) (v : α) : List (Nat × α) → List (Nat × α)
  | [] => [(k, v)]
  | (k', v') :: rest =>
    if k < k' then (k, v) :: (k', v') :: rest
    else if k = k' then (k, v) :: rest
    else (k', v') :: insertEntry k v rest

theorem mem_insertEntry {k : Nat} {v : α} {l : List (Nat × α)} {p : Nat × α}
    (h : p ∈ insertEntry k v l) : p = (k, v) ∨ p ∈ l := by
  induction l with
  | nil => simpa [insertEntry] using h
  | cons q rest ih =>
    unfold insertEntry at h
    split_ifs at h
    · simp only [List.mem_cons] at h ⊢; tauto
    · simp only [List.mem_cons] at h ⊢; tauto
    · rcases List.mem_cons.1 h with h | h
      · exact .inr (List.mem_cons.2 (.inl h))
      · exact (ih h).imp_right (List.mem_cons_of_mem q)

theorem insertEntry_sorted {k : Nat} {v : α} {l : List (Nat × α)}
    (h : l.Pairwise (fun a b => a.1 < b.1)) :
    (insertEntry k v l).Pairwise (fun a b => a.1 < b.1) := by
  induction l with
  | nil => simp [insertEntry]
  | cons q rest ih =>
    obtain ⟨k', v'⟩ := q
    rw [List.pairwise_cons] at h
    unfold insertEntry
    split_ifs with hlt heq
    · refine List.Pairwise.cons (fun p hp => ?_) (List.Pairwise.cons h.1 h.2)
      rcases List.mem_cons.1 hp with rfl | hp
      · exact hlt
      · exact Nat.lt_trans hlt (h.1 p hp)
    · subst heq
      exact List.Pairwise.cons h.1 h.2
    · refine List.Pairwise.cons (fun p hp => ?_) (ih h.2)
      rcases mem_insertEntry hp with rfl | hp
      · show k' < k; omega
      · exact h.1 p hp

theorem lookup_insertEntry (k j : Nat) (v : α) (l : List (Nat × α)) :
    (insertEntry k v l).lookup j = if j = k then some v else l.lookup j := by
  induction l with
  | nil => simp [insertEntry, lookup_cons_eq_ite]
  | cons q rest ih =>
    obtain ⟨k', v'⟩ := q
    unfold insertEntry
    split_ifs <;> simp only [lookup_cons_eq_ite, ih] <;> split_ifs <;> simp_all

/-- No key below the head of an ascending list is found in it. -/
theorem lookup_eq_none_of_lt {k : Nat} {l : List (Nat × α)} (h : ∀ q ∈ l, k < q.1) :
    l.lookup k = none :=
  List.lookup_eq_none_iff.2 fun q hq => by simpa using Nat.ne_of_lt (h q hq)

/-- A key below the head of an ascending list is not found in it. -/
theorem lookup_cons_of_lt {k k' : Nat} {v : α} {t : List (Nat × α)} (hlt : k < k')
    (ht : ∀ q ∈ t, k' < q.1) : ((k', v) :: t).lookup k = none :=
  lookup_eq_none_of_lt fun q hq =>
    (List.mem_cons.1 hq).elim (fun e => e ▸ hlt) fun hq => Nat.lt_trans hlt (ht q hq)

theorem lookup_eq_none_of_not_mem {k : Nat} {l : List (Nat × α)} (h : k ∉ l.map Prod.fst) :
    l.lookup k = none :=
  List.lookup_eq_none_iff.2 fun q hq => by
    simpa using fun he : k = q.1 => h (List.mem_map.2 ⟨q, hq, he.symm⟩)

/-- In a list with distinct keys, a key is found with the value it is listed with. -/
theorem lookup_eq_some_of_mem {k : Nat} {v : α} {l : List (Nat × α)}
    (hl : (l.map Prod.fst).Nodup) (h : (k, v) ∈ l) : l.lookup k = some v := by
  induction l with
  | nil => cases h
  | cons q l ih =>
    rw [List.map_cons, List.nodup_cons] at hl
    rw [lookup_cons_eq_ite]
    rcases List.mem_cons.1 h with rfl | h
    · simp
    · rw [if_neg fun e : k = q.1 => hl.1 (e ▸ List.mem_map_of_mem Prod.fst h)]
      exact ih hl.2 h

theorem mem_of_lookup_eq_some {k : Nat} {v : α} {l : List (Nat × α)}
    (h : l.lookup k = some v) : (k, v) ∈ l := by
  induction l with
  | nil => cases h
  | cons q l ih =>
    obtain ⟨k', v'⟩ := q
    rw [lookup_cons_eq_ite] at h
    split_ifs at h with hk
    · cases h; subst hk; exact List.mem_cons_self _ _
    · exact List.mem_cons_of_mem _ (ih h)

theorem lookup_map_snd {β : Type} (g : α → β) (l : List (Nat × α)) (k : Nat) :
    (l.map fun x => (x.1, g x.2)).lookup k = (l.lookup k).map g := by
  induction l with
  | nil => rfl
  | cons x l ih =>
    obtain ⟨k', v⟩ := x
    simp only [List.map_cons, lookup_cons_eq_ite, ih]
    split_ifs <;> rfl

/-- Two ascending entry lists that agree at every key are equal. -/
theorem entries_ext {l₁ l₂ : List (Nat × α)} (h₁ : l₁.Pairwise (fun a b => a.1 < b.1))
    (h₂ : l₂.Pairwise (fun a b => a.1 < b.1)) (h : ∀ k, l₁.lookup k = l₂.lookup k) :
    l₁ = l₂ := by
  induction l₁ generalizing l₂ with
  | nil =>
    cases l₂ with
    | nil => rfl
    | cons q _ => simpa using (h q.1).symm
  | cons q₁ t₁ ih =>
    obtain ⟨k₁, v₁⟩ := q₁
    cases l₂ with
    | nil => simpa using h k₁
    | cons q₂ t₂ =>
      obtain ⟨k₂, v₂⟩ := q₂
      rw [List.pairwise_cons] at h₁ h₂
      -- the smaller head key would be missing from the other list
      have hk : k₁ = k₂ := by
        rcases Nat.lt_trichotomy k₁ k₂ with hlt | heq | hgt
        · simpa [lookup_cons_of_lt hlt h₂.1] using h k₁
        · exact heq
        · simpa [lookup_cons_of_lt hgt h₁.1] using (h k₂).symm
      subst hk
      have hv : v₁ = v₂ := by simpa using h k₁
      subst hv
      refine congrArg _ (ih h₁.2 h₂.2 fun k => ?_)
      by_cases hk : k = k₁
      · subst hk
        rw [lookup_eq_none_of_lt h₁.1, lookup_eq_none_of_lt h₂.1]
      · simpa [lookup_cons_eq_ite, hk] using h k

-- ============================================================================
-- Maps
-- ============================================================================

/-- `HashMap::new()` / `BTreeMap::new()`, and the map left by `clear()`. -/
def empty : KeyMap α := ⟨[], List.Pairwise.nil⟩

/-- `map.insert(k, v)`: the value of `k` becomes `v`, every other key keeps its value. -/
def insert (m : KeyMap α) (k : Nat) (v : α) : KeyMap α :=
  ⟨insertEntry k v m.entries, insertEntry_sorted m.sorted⟩

/-- `map.get(&k)`; `map[&k]` panics where this is `none`. -/
def get? (m : KeyMap α) (k : Nat) : Option α := m.entries.lookup k

/-- `map.len()`. -/
def size (m : KeyMap α) : Nat := m.entries.length

/-- The keys, in ascending order. -/
def keys (m : KeyMap α) : List Nat := m.entries.map Prod.fst

/-- `BTreeMap::into_values`: the values in ascending key order. -/
def values (m : KeyMap α) : List α := m.entries.map Prod.snd

/-- The map built by inserting the pairs of a list in order. -/
def ofList (l : List (Nat × α)) : KeyMap α := l.foldl (fun m p => m.insert p.1 p.2) empty

instance [DecidableEq α] : DecidableEq (KeyMap α) := fun a b =>
  decidable_of_iff (a.entries = b.entries) (by cases a; cases b; simp)

@[ext] theorem ext {m₁ m₂ : KeyMap α} (h : ∀ k, m₁.get? k = m₂.get? k) : m₁ = m₂ := by
  cases m₁; cases m₂
  simp only [mk.injEq]
  exact entries_ext ‹_› ‹_› h

@[simp] theorem get?_empty (k : Nat) : (empty : KeyMap α).get? k = none := rfl

@[simp] theorem size_empty : (empty : KeyMap α).size = 0 := rfl

@[simp] theorem keys_empty : (empty : KeyMap α).keys = [] := rfl

@[simp] theorem get?_insert (m : KeyMap α) (k j : Nat) (v : α) :
    (m.insert k v).get? j = if j = k then some v else m.get? j :=
  lookup_insertEntry k j v m.entries

/-- Inserting a list of pairs: the last pair listed for a key wins. -/
theorem get?_foldl_insert (l : List (Nat × α)) (m : KeyMap α) (k : Nat) :
    (l.foldl (fun m x => m.insert x.1 x.2) m).get? k = (l.reverse.lookup k).or (m.get? k) := by
  induction l generalizing m with
  | nil => simp
  | cons x l ih =>
    obtain ⟨k', v⟩ := x
    rw [List.foldl_cons, ih, List.reverse_cons, List.lookup_append, Option.or_assoc,
      get?_insert, lookup_cons_eq_ite]
    simp only [List.lookup_nil]
    split_ifs <;> simp

/-- Inserting a list of pairs leaves a key it does not list alone. -/
theorem get?_foldl_insert_of_not_mem {l : List (Nat × α)} (m : KeyMap α) {k : Nat}
    (h : k ∉ l.map Prod.fst) : (l.foldl (fun m x => m.insert x.1 x.2) m).get? k = m.get? k := by
  rw [get?_foldl_insert, lookup_eq_none_of_not_mem (by simpa using h), Option.none_or]

/-- Inserting a list of pairs with distinct keys: each key gets the value it is listed
    with. -/
theorem get?_foldl_insert_of_mem {l : List (Nat × α)} (m : KeyMap α) {k : Nat} {v : α}
    (hl : (l.map Prod.fst).Nodup) (h : (k, v) ∈ l) :
    (l.foldl (fun m x => m.insert x.1 x.2) m).get? k = some v := by
  have hrev : (l.reverse.map Prod.fst).Nodup := by
    rw [List.map_reverse]
    exact List.pairwise_reverse.2 (hl.imp Ne.symm)
  rw [get?_foldl_insert, lookup_eq_some_of_mem hrev (List.mem_reverse.2 h)]
  rfl

theorem isSome_lookup_iff {k : Nat} {l : List (Nat × α)} :
    (l.lookup k).isSome ↔ k ∈ l.map Prod.fst := by
  refine ⟨fun h => ?_, fun h => ?_⟩
  · obtain ⟨p, hp, he⟩ := List.lookup_isSome_iff.1 h
    exact List.mem_map.2 ⟨p, hp, (beq_iff_eq.1 he).symm⟩
  · obtain ⟨p, hp, rfl⟩ := List.mem_map.1 h
    exact List.lookup_isSome_iff.2 ⟨p, hp, beq_self_eq_true _⟩

theorem mem_keys {m : KeyMap α} {k : Nat} : k ∈ m.keys ↔ (m.get? k).isSome := by
  simp [keys, get?, List.lookup_isSome_iff]

theorem mem_keys_foldl_insert {l : List (Nat × α)} {m : KeyMap α} {k : Nat} :
    k ∈ (l.foldl (fun m x => m.insert x.1 x.2) m).keys ↔ k ∈ l.map Prod.fst ∨ k ∈ m.keys := by
  rw [mem_keys, mem_keys, get?_foldl_insert, ← List.mem_reverse, ← List.map_reverse,
    ← isSome_lookup_iff]
  cases l.reverse.lookup k <;> simp

theorem keys_nodup (m : KeyMap α) : m.keys.Nodup :=
  (List.pairwise_map.2 m.sorted).imp Nat.ne_of_lt

theorem get?_eq_some_iff {m : KeyMap α} {k : Nat} {v : α} :
    m.get? k = some v ↔ (k, v) ∈ m.entries :=
  ⟨mem_of_lookup_eq_some, lookup_eq_some_of_mem m.keys_nodup⟩

/-- Every entry of a map built from a list is listed in it. -/
theorem mem_of_mem_ofList {l : List (Nat × α)} {p : Nat × α} (h : p ∈ (ofList l).entries) :
    p ∈ l := by
  obtain ⟨k, v⟩ := p
  have hk := get?_eq_some_iff.2 h
  rw [ofList, get?_foldl_insert, get?_empty, Option.or_none] at hk
  exact List.mem_reverse.1 (mem_of_lookup_eq_some hk)

theorem size_eq_length_keys (m : KeyMap α) : m.size = m.keys.length := by
  simp [size, keys]

end KeyMap

end Wsts
