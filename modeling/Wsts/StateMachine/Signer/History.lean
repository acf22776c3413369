/-
  Wsts.StateMachine.Signer.History

  The per-round maps as functions of the messages a run processed.

  `commitments` and `decrypted_shares` change in one way only (`roundStep`): a
  `DkgBegin` empties them, refused or not, since `dkg_begin` resets the round before
  `move_to` checks the move; any other message inserts its contributions in order, the
  last one listed for a key winning.  A `DkgPublicShares` contributes its `comms`, a
  `DkgPrivateShares` from a known sender the shares it holds for this signer's keys
  that open (`process_commitments`, `process_decryptedShares`).  No handler compares a
  message's `dkg_id` with the round's, or the ids it lists with its sender.

  So after a run each map is `roundStep` folded over the messages the run processed
  (`run_commitments`, `run_decryptedShares`).  From this, `Bookkeeping` shows that after a
  run from `SigningRound::new` each map holds, for each key, the last contribution to it
  among the messages processed since the most recent `DkgBegin`
  (`roundMaps_since_dkgBegin`), and has as many entries as those messages list distinct
  keys (`roundMaps_size`).
-/

import Mathlib.Data.Finset.Card
import Wsts.StateMachine.Signer.Shares

namespace Wsts

variable {C : Crypto}

namespace Message

/-- Whether a message is a `DkgBegin`. -/
def isDkgBegin : Message C → Bool
  | .dkgBegin _ => true
  | _ => false

/-- The entries a message writes into `commitments`. -/
def publicContributions : Message C → List (Nat × C.PolyCommitment)
  | .dkgPublicShares p => p.comms
  | _ => []

/-- The entries a message writes into the `decrypted_shares` of a signer holding `keyIds`
    that shares the secret `secretWith j` with signer `j`. -/
def privateContributions (keyIds : List Nat) (secretWith : Nat → Option Bytes) :
    Message C → List (Nat × KeyMap C.Scalar)
  | .dkgPrivateShares p =>
    match secretWith p.signerId with
    | some sharedSecret => SigningRound.openedShares keyIds sharedSecret p.shares
    | none => []
  | _ => []

/-- The source parties a `DkgPrivateShares` lists. -/
def privateSources : Message C → List Nat
  | .dkgPrivateShares p => p.shares.map Prod.fst
  | _ => []

end Message

-- ============================================================================
-- Histories
-- ============================================================================

/-- The messages of a history after its last `DkgBegin`, or all of them when it has
    none. -/
def sinceDkgBegin (l : List (Message C)) : List (Message C) :=
  l.foldl (fun acc m => if m.isDkgBegin then [] else acc ++ [m]) []

theorem sinceDkgBegin_append_singleton (l : List (Message C)) (m : Message C) :
    sinceDkgBegin (l ++ [m]) = if m.isDkgBegin then [] else sinceDkgBegin l ++ [m] := by
  simp [sinceDkgBegin, List.foldl_append]

/-- `sinceDkgBegin l` is the longest suffix of `l` without a `DkgBegin`: what comes
    before it is empty or ends in one. -/
theorem sinceDkgBegin_spec (l : List (Message C)) :
    (∀ m ∈ sinceDkgBegin l, m.isDkgBegin = false) ∧
      ∃ pre, l = pre ++ sinceDkgBegin l ∧ ∀ m ∈ pre.getLast?, m.isDkgBegin := by
  induction l using List.reverseRecOn with
  | nil => exact ⟨by simp [sinceDkgBegin], [], rfl, by simp⟩
  | append_singleton l m ih =>
    obtain ⟨hno, pre, hpre, hlast⟩ := ih
    rw [sinceDkgBegin_append_singleton]
    cases h : m.isDkgBegin
    · refine ⟨fun x hx => ?_, pre,
        by rw [if_neg Bool.false_ne_true, ← List.append_assoc, ← hpre], hlast⟩
      rcases List.mem_append.1 hx with hx | hx
      · exact hno x hx
      · rw [List.mem_singleton.1 hx, h]
    · exact ⟨by simp, l ++ [m], by simp, by simp [h]⟩

/-- A per-round map after one more message: emptied by a `DkgBegin`, otherwise updated
    with the message's contributions, the last one listed for a key winning. -/
def roundStep {α : Type} (contributions : Message C → List (Nat × α)) (map : KeyMap α)
    (m : Message C) : KeyMap α :=
  if m.isDkgBegin then .empty else (contributions m).foldl (fun map x => map.insert x.1 x.2) map

section RoundStep

variable {α : Type} (contributions : Message C → List (Nat × α))

/-- From an empty map, a history leaves under each key the last contribution to it
    since the last `DkgBegin`. -/
theorem get?_foldl_roundStep (l : List (Message C)) (k : Nat) :
    (l.foldl (roundStep contributions) .empty).get? k =
      ((sinceDkgBegin l).flatMap contributions).reverse.lookup k := by
  induction l using List.reverseRecOn with
  | nil => rfl
  | append_singleton l m ih =>
    rw [List.foldl_append, List.foldl_cons, List.foldl_nil, sinceDkgBegin_append_singleton,
      roundStep]
    cases m.isDkgBegin
    · simp only [Bool.false_eq_true, if_false, KeyMap.get?_foldl_insert, ih,
        List.flatMap_append, List.reverse_append, List.lookup_append, List.flatMap_singleton]
    · rfl

/-- From an empty map, a history leaves as many entries as there are keys contributed
    since the last `DkgBegin`. -/
theorem size_foldl_roundStep (l : List (Message C)) :
    (l.foldl (roundStep contributions) .empty).size =
      (((sinceDkgBegin l).flatMap contributions).map Prod.fst).toFinset.card := by
  rw [KeyMap.size_eq_length_keys, ← List.toFinset_card_of_nodup (KeyMap.keys_nodup _)]
  congr 1
  ext k
  simp [KeyMap.mem_keys, get?_foldl_roundStep, List.lookup_isSome_iff]

/-- A history without `DkgBegin` inserts its contributions in order. -/
theorem foldl_roundStep_eq {P : List (Message C)} (hP : ∀ m ∈ P, m.isDkgBegin = false)
    (m₀ : KeyMap α) :
    P.foldl (roundStep contributions) m₀ =
      (P.flatMap contributions).foldl (fun m x => m.insert x.1 x.2) m₀ := by
  induction P generalizing m₀ with
  | nil => rfl
  | cons m P ih =>
    rw [List.foldl_cons, roundStep, if_neg (by simp [hP m (List.mem_cons_self _ _)]),
      ih fun m' h => hP m' (List.mem_cons_of_mem _ h), List.flatMap_cons, List.foldl_append]

end RoundStep

-- ============================================================================
-- Contributions under disjoint keys
-- ============================================================================

section Disjoint

variable {β α : Type} (c : β → List (Nat × α))

/-- Distinct elements of `P` contribute under disjoint keys. -/
def KeysDisjoint (P : List β) : Prop :=
  ∀ m₁ ∈ P, ∀ m₂ ∈ P, m₁ ≠ m₂ → ∀ k ∈ (c m₁).map Prod.fst, k ∉ (c m₂).map Prod.fst

variable {c}

theorem KeysDisjoint.mono {P Q : List β} (h : KeysDisjoint c P) (hQ : ∀ m ∈ Q, m ∈ P) :
    KeysDisjoint c Q :=
  fun m₁ h₁ m₂ h₂ => h m₁ (hQ m₁ h₁) m₂ (hQ m₂ h₂)

/-- Under disjoint keys, a key is found with the value of the one element listing it. -/
theorem lookup_reverse_flatMap_of_mem {P : List β} (hdis : KeysDisjoint c P) {m : β}
    (hm : m ∈ P) {k : Nat} (hk : k ∈ (c m).map Prod.fst) :
    (P.flatMap c).reverse.lookup k = (c m).reverse.lookup k := by
  induction P with
  | nil => cases hm
  | cons x P ih =>
    rw [List.flatMap_cons, List.reverse_append, List.lookup_append]
    by_cases hmP : m ∈ P
    · rw [ih (hdis.mono fun _ h => List.mem_cons_of_mem _ h) hmP]
      obtain ⟨v, hv⟩ := Option.isSome_iff_exists.1
        (KeyMap.isSome_lookup_iff.2 (by simpa using hk) : ((c m).reverse.lookup k).isSome)
      rw [hv]
      rfl
    · obtain rfl : m = x := (List.mem_cons.1 hm).resolve_right hmP
      rw [KeyMap.lookup_eq_none_of_not_mem]
      · rfl
      simp only [List.map_reverse, List.mem_reverse, List.map_flatMap, List.mem_flatMap, not_exists,
        not_and]
      exact fun m' hm' => hdis m (List.mem_cons_self _ _) m' (List.mem_cons_of_mem _ hm')
        (fun e => hmP (e ▸ hm')) k hk

/-- Two lists under disjoint keys with the same contributing elements look every key up
    alike, whatever their order and repetitions. -/
theorem lookup_reverse_flatMap_congr {P₁ P₂ : List β} (h₁ : KeysDisjoint c P₁)
    (h₂ : KeysDisjoint c P₂) (hmem : ∀ m, c m ≠ [] → (m ∈ P₁ ↔ m ∈ P₂)) (k : Nat) :
    (P₁.flatMap c).reverse.lookup k = (P₂.flatMap c).reverse.lookup k := by
  by_cases h : ∃ m ∈ P₁, k ∈ (c m).map Prod.fst
  · obtain ⟨m, hm, hk⟩ := h
    have hcm : c m ≠ [] := fun e => by simp [e] at hk
    rw [lookup_reverse_flatMap_of_mem h₁ hm hk,
      lookup_reverse_flatMap_of_mem h₂ ((hmem m hcm).1 hm) hk]
  · have h' : ¬∃ m ∈ P₂, k ∈ (c m).map Prod.fst := fun ⟨m, hm, hk⟩ =>
      h ⟨m, (hmem m fun e => by simp [e] at hk).2 hm, hk⟩
    rw [KeyMap.lookup_eq_none_of_not_mem, KeyMap.lookup_eq_none_of_not_mem] <;>
      simp only [List.map_reverse, List.mem_reverse, List.map_flatMap, List.mem_flatMap]
    exacts [fun ⟨m, hm, hk⟩ => h' ⟨m, hm, hk⟩, fun ⟨m, hm, hk⟩ => h ⟨m, hm, hk⟩]

theorem size_foldl_insert (l : List (Nat × α)) (m₀ : KeyMap α) :
    (l.foldl (fun m x => m.insert x.1 x.2) m₀).size =
      ((l.map Prod.fst).toFinset ∪ m₀.keys.toFinset).card := by
  rw [KeyMap.size_eq_length_keys, ← List.toFinset_card_of_nodup (KeyMap.keys_nodup _)]
  congr 1
  ext k
  simp only [List.mem_toFinset, Finset.mem_union, KeyMap.mem_keys_foldl_insert]

variable {m₀ : KeyMap α} {N : Nat} {P Q : List β}

/-- A map filled up to `N` keys by `P`: when `P ++ Q` has disjoint keys and together with
    the map's own keys at most `N` of them, every element of `Q` that contributes at all
    is already in `P`. -/
theorem mem_of_full (hdis : KeysDisjoint c (P ++ Q))
    (hbound : m₀.size + (((P ++ Q).flatMap c).map Prod.fst).toFinset.card ≤ N)
    (hfull : ((P.flatMap c).foldl (fun m x => m.insert x.1 x.2) m₀).size = N) :
    ∀ x ∈ Q, c x ≠ [] → x ∈ P := by
  intro x hx hcx
  rw [size_foldl_insert] at hfull
  rw [List.flatMap_append, List.map_append, List.toFinset_append] at hbound
  set A := ((P.flatMap c).map Prod.fst).toFinset
  set B := ((Q.flatMap c).map Prod.fst).toFinset
  have hunion := Finset.card_union_le A m₀.keys.toFinset
  have hkeys : m₀.keys.toFinset.card = m₀.size := by
    rw [List.toFinset_card_of_nodup m₀.keys_nodup, KeyMap.size_eq_length_keys]
  -- the keys of `Q` add nothing to those of `P`
  have hsub : A = A ∪ B := Finset.eq_of_subset_of_card_le Finset.subset_union_left (by omega)
  obtain ⟨⟨k, v⟩, hkv⟩ := List.exists_mem_of_ne_nil _ hcx
  have hk : k ∈ A := by
    rw [hsub, Finset.mem_union]
    refine .inr ?_
    simp only [B, List.mem_toFinset, List.map_flatMap, List.mem_flatMap]
    exact ⟨x, hx, List.mem_map_of_mem Prod.fst hkv⟩
  simp only [A, List.mem_toFinset, List.map_flatMap, List.mem_flatMap] at hk
  obtain ⟨m', hm', hk'⟩ := hk
  by_contra hxP
  exact hdis m' (List.mem_append_left _ hm') x (List.mem_append_right _ hx)
    (fun e => hxP (e ▸ hm')) k hk' (List.mem_map_of_mem Prod.fst hkv)

/-- A map filled up to `N` keys by `P` is left as it is by the rest of the batch. -/
theorem foldl_insert_append_of_full (hdis : KeysDisjoint c (P ++ Q))
    (hbound : m₀.size + (((P ++ Q).flatMap c).map Prod.fst).toFinset.card ≤ N)
    (hfull : ((P.flatMap c).foldl (fun m x => m.insert x.1 x.2) m₀).size = N) :
    ((P ++ Q).flatMap c).foldl (fun m x => m.insert x.1 x.2) m₀ =
      (P.flatMap c).foldl (fun m x => m.insert x.1 x.2) m₀ := by
  ext k
  rw [KeyMap.get?_foldl_insert, KeyMap.get?_foldl_insert,
    lookup_reverse_flatMap_congr hdis (hdis.mono fun m hm => List.mem_append_left _ hm)
      fun m hcm => ⟨fun h => (List.mem_append.1 h).elim id
        fun hq => mem_of_full hdis hbound hfull m hq hcm, List.mem_append_left _⟩]

end Disjoint

namespace SigningRound

variable {σ : Type} [Signer C σ]

-- ============================================================================
-- One call
-- ============================================================================

section Step

variable {s s' : SigningRound C σ} {m : Message C} {rng rng' : C.Rng}
  {r : Except Error (List (Message C))}

theorem handle_commitments (h : s.handle m rng = some (s', r, rng')) :
    s'.commitments = roundStep Message.publicContributions s.commitments m := by
  have hr := handle_round h
  cases m <;> simp only at hr
  case dkgPrivateShares p => rw [eq_of_dkgPrivateShares s hr]; rfl
  all_goals subst hr; rfl

theorem handle_decryptedShares (h : s.handle m rng = some (s', r, rng')) :
    s'.decryptedShares = roundStep
      (Message.privateContributions (Signer.getKeyIds s.signer) s.sharedSecretWith)
      s.decryptedShares m := by
  have hr := handle_round h
  cases m <;> simp only at hr
  case dkgPrivateShares p =>
    obtain ⟨ss, hss, rfl⟩ := Option.map_eq_some'.1 ((dkgPrivateShares_eq s p).symm.trans hr)
    simp [roundStep, Message.isDkgBegin, Message.privateContributions, hss]
  all_goals subst hr; rfl

/-- `commitments` after one call: one `roundStep` of the message's commitments. -/
theorem process_commitments (h : s.process m rng = some (s', r, rng')) :
    s'.commitments = roundStep Message.publicContributions s.commitments m := by
  obtain ⟨s₁, r₁, hh, state, rfl | ⟨shares, polys, rfl⟩⟩ := process_frame h <;>
  · have h₁ := handle_commitments hh
    exact h₁

/-- `decrypted_shares` after one call: one `roundStep` of the shares the message holds
    for this signer's keys. -/
theorem process_decryptedShares (h : s.process m rng = some (s', r, rng')) :
    s'.decryptedShares = roundStep
      (Message.privateContributions (Signer.getKeyIds s.signer) s.sharedSecretWith)
      s.decryptedShares m := by
  obtain ⟨s₁, r₁, hh, state, rfl | ⟨shares, polys, rfl⟩⟩ := process_frame h <;>
  · have h₁ := handle_decryptedShares hh
    exact h₁

/-- A call on a `DkgPrivateShares` panics unless the sender's network key is known. -/
theorem sharedSecretWith_isSome_of_process {p : DkgPrivateShares}
    (h : s.process (.dkgPrivateShares p) rng = some (s', r, rng')) :
    (s.sharedSecretWith p.signerId).isSome := by
  cases hss : s.sharedSecretWith p.signerId
  · rw [process_dkgPrivateShares_eq_none hss] at h
    cases h
  · rfl

end Step

-- ============================================================================
-- Runs
-- ============================================================================

theorem SameIdentity.refl (s : SigningRound C σ) : SameIdentity s s := ⟨rfl, rfl, rfl, rfl, rfl⟩

theorem SameIdentity.sharedSecretWith {s s' : SigningRound C σ} (h : SameIdentity s s') :
    s'.sharedSecretWith = s.sharedSecretWith := by
  funext j
  simp only [SigningRound.sharedSecretWith, h.publicKeys, h.networkPrivateKey]

section Run

variable {s s' : SigningRound C σ} {l : List (Message C × C.Rng)}

/-- No run changes who the signer is. -/
theorem run_sameIdentity (h : s.run l = some s') : SameIdentity s s' := by
  induction l generalizing s with
  | nil => cases h; exact .refl _
  | cons d l ih =>
    obtain ⟨⟨s₁, r, rng'⟩, hp, hl⟩ := Option.bind_eq_some.1 h
    exact (process_sameIdentity hp).trans (ih hl)

theorem run_commitments (h : s.run l = some s') :
    s'.commitments = (l.map Prod.fst).foldl (roundStep Message.publicContributions)
      s.commitments := by
  induction l generalizing s with
  | nil => cases h; rfl
  | cons d l ih =>
    obtain ⟨⟨s₁, r, rng'⟩, hp, hl⟩ := Option.bind_eq_some.1 h
    rw [List.map_cons, List.foldl_cons, ← process_commitments hp]
    exact ih hl

theorem run_decryptedShares (h : s.run l = some s') :
    s'.decryptedShares = (l.map Prod.fst).foldl (roundStep
      (Message.privateContributions (Signer.getKeyIds s.signer) s.sharedSecretWith))
      s.decryptedShares := by
  induction l generalizing s with
  | nil => cases h; rfl
  | cons d l ih =>
    obtain ⟨⟨s₁, r, rng'⟩, hp, hl⟩ := Option.bind_eq_some.1 h
    have hid := process_sameIdentity hp
    rw [List.map_cons, List.foldl_cons, ← process_decryptedShares hp, ih hl, hid.keyIds,
      hid.sharedSecretWith]

/-- In a run that does not panic, every `DkgPrivateShares` comes from a signer whose
    network key is known. -/
theorem run_senders_known (h : s.run l = some s') :
    ∀ d ∈ l, ∀ p : DkgPrivateShares, d.1 = .dkgPrivateShares p →
      (s.sharedSecretWith p.signerId).isSome := by
  induction l generalizing s with
  | nil => simp
  | cons d l ih =>
    obtain ⟨⟨s₁, r, rng'⟩, hp, hl⟩ := Option.bind_eq_some.1 h
    intro d' hd' p hm
    rcases List.mem_cons.1 hd' with rfl | hd'
    · rw [hm] at hp
      exact sharedSecretWith_isSome_of_process hp
    · rw [← (process_sameIdentity hp).sharedSecretWith]
      exact ih hl d' hd' p hm

end Run

end SigningRound

end Wsts
