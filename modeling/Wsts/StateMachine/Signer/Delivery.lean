/-
  Wsts.StateMachine.Signer.Delivery

  Peers' shares taken in any order.

  Between two `DkgBegin`s a round takes in `DkgPublicShares` and `DkgPrivateShares`.
  When a batch of them is well formed (`Deliverable`: the senders' keys are known,
  distinct messages list disjoint party or source ids, and the ids the round holds plus
  those the batch lists number at most the parties), the round it leaves depends only on
  which messages the batch holds (`delivered`).  Each map keeps, for each id, the entry
  of the one message listing it.  The completion check closes the round once, when both
  maps are full; by then every message that lists an id has been taken in, so
  `dkg_ended` sees the same maps, the same signer and the same verdict on invalid shares
  whatever the order (`dkgOutcome_independent_of_order`).
-/

import Wsts.StateMachine.Signer.Bookkeeping
import Wsts.StateMachine.Signer.Failure

namespace Wsts

variable {C : Crypto}

/-- Whether a `DkgStatus` is `Success`. -/
def DkgStatus.isSuccess : DkgStatus C → Bool
  | .success => true
  | .failure _ => false

/-- The `DkgEnd`s among a list of answers, each as its round and whether it reports
    success. -/
def dkgEndOutcomes (msgs : List (Message C)) : List (Nat × Bool) :=
  msgs.filterMap fun
    | .dkgEnd e => some (e.dkgId, e.status.isSuccess)
    | _ => none

namespace Message

/-- Whether a message is a peer's shares: a `DkgPublicShares` or a `DkgPrivateShares`. -/
def isShares : Message C → Bool
  | .dkgPublicShares _ | .dkgPrivateShares _ => true
  | _ => false

/-- The party ids a `DkgPublicShares` lists. -/
def publicParties (m : Message C) : List Nat := m.publicContributions.map Prod.fst

/-- What a message appends to the `invalid_private_shares` of a signer holding `keyIds`
    that shares the secret `secretWith j` with signer `j`. -/
def privateFailures (keyIds : List Nat) (secretWith : Nat → Option Bytes) :
    Message C → List Nat
  | .dkgPrivateShares p =>
    match secretWith p.signerId with
    | some sharedSecret => SigningRound.failedSources C keyIds sharedSecret p.shares
    | none => []
  | _ => []

theorem isDkgBegin_of_isShares {m : Message C} (h : m.isShares) : m.isDkgBegin = false := by
  cases m <;> simp_all [isShares, isDkgBegin]

/-- A message listing no source party marks none invalid. -/
theorem privateFailures_eq_nil {m : Message C} (h : m.privateSources = [])
    (keyIds : List Nat) (secretWith : Nat → Option Bytes) :
    m.privateFailures keyIds secretWith = [] := by
  cases m with
  | dkgPrivateShares p =>
    simp only [privateSources, List.map_eq_nil_iff] at h
    simp only [privateFailures, SigningRound.failedSources, h, List.flatMap_nil]
    split <;> rfl
  | _ => rfl

end Message

namespace SigningRound

variable {σ : Type} [Signer C σ]

/-- A batch of peers' shares a round can take in any order: `DkgPublicShares` and
    `DkgPrivateShares` only, the latter from signers whose network key the round knows;
    distinct messages list disjoint party ids (resp. source ids); and the ids the round
    holds plus those the batch lists number at most the round's parties. -/
structure Deliverable (s : SigningRound C σ) (L : List (Message C)) : Prop where
  shares : ∀ m ∈ L, m.isShares
  known : ∀ m ∈ L, ∀ p, m = .dkgPrivateShares p → (s.sharedSecretWith p.signerId).isSome
  disjoint_public : ∀ m₁ ∈ L, ∀ m₂ ∈ L, m₁ ≠ m₂ →
    ∀ k ∈ m₁.publicParties, k ∉ m₂.publicParties
  disjoint_private : ∀ m₁ ∈ L, ∀ m₂ ∈ L, m₁ ≠ m₂ →
    ∀ k ∈ m₁.privateSources, k ∉ m₂.privateSources
  bound_public : s.commitments.size + (L.flatMap Message.publicParties).toFinset.card ≤
    Signer.getNumParties s.signer
  bound_private : s.decryptedShares.size + (L.flatMap Message.privateSources).toFinset.card ≤
    Signer.getNumParties s.signer

namespace Deliverable

variable {s : SigningRound C σ} {L : List (Message C)}

theorem mono (h : s.Deliverable L) {L' : List (Message C)} (hsub : ∀ m ∈ L', m ∈ L) :
    s.Deliverable L' where
  shares m hm := h.shares m (hsub m hm)
  known m hm := h.known m (hsub m hm)
  disjoint_public m₁ h₁ m₂ h₂ := h.disjoint_public m₁ (hsub m₁ h₁) m₂ (hsub m₂ h₂)
  disjoint_private m₁ h₁ m₂ h₂ := h.disjoint_private m₁ (hsub m₁ h₁) m₂ (hsub m₂ h₂)
  bound_public := le_trans (Nat.add_le_add_left (Finset.card_le_card fun k hk => by
    simp only [List.mem_toFinset, List.mem_flatMap] at hk ⊢
    obtain ⟨m, hm, hk⟩ := hk
    exact ⟨m, hsub m hm, hk⟩) _) h.bound_public
  bound_private := le_trans (Nat.add_le_add_left (Finset.card_le_card fun k hk => by
    simp only [List.mem_toFinset, List.mem_flatMap] at hk ⊢
    obtain ⟨m, hm, hk⟩ := hk
    exact ⟨m, hsub m hm, hk⟩) _) h.bound_private

theorem isDkgBegin (h : s.Deliverable L) : ∀ m ∈ L, m.isDkgBegin = false :=
  fun m hm => Message.isDkgBegin_of_isShares (h.shares m hm)

/-- The keys a message of the batch writes into `decrypted_shares` are the source parties
    it lists. -/
theorem privateKeys (h : s.Deliverable L) :
    ∀ m ∈ L, (m.privateContributions (Signer.getKeyIds s.signer) s.sharedSecretWith).map
      Prod.fst = m.privateSources :=
  fun m hm => map_fst_privateContributions (h.known m hm)

theorem keysDisjoint_public (h : s.Deliverable L) : KeysDisjoint Message.publicContributions L :=
  h.disjoint_public

theorem keysDisjoint_private (h : s.Deliverable L) :
    KeysDisjoint (Message.privateContributions (Signer.getKeyIds s.signer) s.sharedSecretWith)
      L := by
  intro m₁ h₁ m₂ h₂ hne k hk
  rw [h.privateKeys m₁ h₁] at hk
  rw [h.privateKeys m₂ h₂]
  exact h.disjoint_private m₁ h₁ m₂ h₂ hne k hk

theorem card_public (h : s.Deliverable L) :
    s.commitments.size + ((L.flatMap Message.publicContributions).map Prod.fst).toFinset.card ≤
      Signer.getNumParties s.signer := by
  simpa only [List.map_flatMap] using h.bound_public

theorem card_private (h : s.Deliverable L) :
    s.decryptedShares.size + ((L.flatMap (Message.privateContributions (Signer.getKeyIds s.signer)
      s.sharedSecretWith)).map Prod.fst).toFinset.card ≤ Signer.getNumParties s.signer := by
  rw [List.map_flatMap, List.flatMap_congr h.privateKeys]
  exact h.bound_private

end Deliverable

section Received

variable (s : SigningRound C σ)

/-- `commitments` once the messages `P` are taken in. -/
def receivedCommitments (P : List (Message C)) : KeyMap C.PolyCommitment :=
  P.foldl (roundStep Message.publicContributions) s.commitments

/-- `decrypted_shares` once the messages `P` are taken in. -/
def receivedShares (P : List (Message C)) : KeyMap (KeyMap C.Scalar) :=
  P.foldl (roundStep (Message.privateContributions (Signer.getKeyIds s.signer)
    s.sharedSecretWith)) s.decryptedShares

/-- `invalid_private_shares` once the messages `P` are taken in. -/
def receivedInvalid (P : List (Message C)) : List Nat :=
  s.invalidPrivateShares ++
    P.flatMap (Message.privateFailures (Signer.getKeyIds s.signer) s.sharedSecretWith)

/-- Whether taking in `P` closes the round: it waited in `DkgPrivateGather` and both of
    its maps are full. -/
def dkgCompleted (P : List (Message C)) : Bool :=
  !P.isEmpty && s.state == .dkgPrivateGather &&
    (s.receivedCommitments P).size == Signer.getNumParties s.signer &&
    (s.receivedShares P).size == Signer.getNumParties s.signer

/-- Whether `dkg_ended` reports success on closing the round with `P`: no share was
    invalid and `compute_secrets` succeeded. -/
def dkgSucceeded (P : List (Message C)) : Bool :=
  (s.receivedInvalid P).isEmpty &&
    (Signer.computeSecrets s.signer (s.receivedShares P) (s.receivedCommitments P).values).2.toBool

/-- The state once `P` is taken in: the completion check moves `DkgPublicGather` on when
    the commitments are full, and closes `DkgPrivateGather` when both maps are. -/
def receivedState (P : List (Message C)) : State :=
  if P.isEmpty then s.state
  else match s.state with
    | .dkgPublicGather =>
      if (s.receivedCommitments P).size = Signer.getNumParties s.signer then .dkgPrivateDistribute
      else .dkgPublicGather
    | .dkgPrivateGather => if s.dkgCompleted P then .idle else .dkgPrivateGather
    | state => state

/-- The signer once `P` is taken in: `compute_secrets` ran if the round closed with no
    invalid share. -/
def receivedSigner (P : List (Message C)) : σ :=
  if s.dkgCompleted P && (s.receivedInvalid P).isEmpty then
    (Signer.computeSecrets s.signer (s.receivedShares P) (s.receivedCommitments P).values).1
  else s.signer

/-- The round once the messages `P` are taken in, in whatever order. -/
def delivered (P : List (Message C)) : SigningRound C σ :=
  { s with commitments := s.receivedCommitments P, decryptedShares := s.receivedShares P,
           invalidPrivateShares := s.receivedInvalid P, state := s.receivedState P,
           signer := s.receivedSigner P }

@[simp] theorem delivered_commitments (P : List (Message C)) :
    (s.delivered P).commitments = s.receivedCommitments P := rfl

@[simp] theorem delivered_decryptedShares (P : List (Message C)) :
    (s.delivered P).decryptedShares = s.receivedShares P := rfl

@[simp] theorem delivered_invalidPrivateShares (P : List (Message C)) :
    (s.delivered P).invalidPrivateShares = s.receivedInvalid P := rfl

@[simp] theorem delivered_state (P : List (Message C)) :
    (s.delivered P).state = s.receivedState P := rfl

@[simp] theorem delivered_signer (P : List (Message C)) :
    (s.delivered P).signer = s.receivedSigner P := rfl

@[simp] theorem delivered_networkPrivateKey (P : List (Message C)) :
    (s.delivered P).networkPrivateKey = s.networkPrivateKey := rfl

theorem delivered_nil : s.delivered [] = s := by
  simp [delivered, receivedCommitments, receivedShares, receivedInvalid, receivedState,
    receivedSigner, dkgCompleted]

variable {s} {P Q : List (Message C)}

theorem dkgCompleted_iff : s.dkgCompleted P ↔ P ≠ [] ∧ s.state = .dkgPrivateGather ∧
    (s.receivedCommitments P).size = Signer.getNumParties s.signer ∧
    (s.receivedShares P).size = Signer.getNumParties s.signer := by
  simp [dkgCompleted, and_assoc]

theorem receivedSigner_of_not_completed (h : s.dkgCompleted P = false) :
    s.receivedSigner P = s.signer := by
  simp [receivedSigner, h]

/-- Once the commitments are full, the rest of a batch leaves them as they are. -/
theorem receivedCommitments_append_of_full (hd : s.Deliverable (P ++ Q))
    (hfull : (s.receivedCommitments P).size = Signer.getNumParties s.signer) :
    s.receivedCommitments (P ++ Q) = s.receivedCommitments P := by
  have hP := (hd.mono fun m hm => List.mem_append_left Q hm).isDkgBegin
  rw [receivedCommitments, foldl_roundStep_eq _ hP] at hfull
  rw [receivedCommitments, receivedCommitments, foldl_roundStep_eq _ hd.isDkgBegin,
    foldl_roundStep_eq _ hP]
  exact foldl_insert_append_of_full hd.keysDisjoint_public hd.card_public hfull

/-- Once the decrypted shares are full, the rest of a batch leaves them as they are. -/
theorem receivedShares_append_of_full (hd : s.Deliverable (P ++ Q))
    (hfull : (s.receivedShares P).size = Signer.getNumParties s.signer) :
    s.receivedShares (P ++ Q) = s.receivedShares P := by
  have hP := (hd.mono fun m hm => List.mem_append_left Q hm).isDkgBegin
  rw [receivedShares, foldl_roundStep_eq _ hP] at hfull
  rw [receivedShares, receivedShares, foldl_roundStep_eq _ hd.isDkgBegin,
    foldl_roundStep_eq _ hP]
  exact foldl_insert_append_of_full hd.keysDisjoint_private hd.card_private hfull

/-- Once the decrypted shares are full, the rest of a batch marks a share invalid only if
    one already was: every message that lists a source party has been taken in. -/
theorem receivedInvalid_isEmpty_append (hd : s.Deliverable (P ++ Q))
    (hfull : (s.receivedShares P).size = Signer.getNumParties s.signer) :
    (s.receivedInvalid (P ++ Q)).isEmpty = (s.receivedInvalid P).isEmpty := by
  have hP := (hd.mono fun m hm => List.mem_append_left Q hm).isDkgBegin
  rw [receivedShares, foldl_roundStep_eq _ hP] at hfull
  have hmem := mem_of_full hd.keysDisjoint_private hd.card_private hfull
  rw [Bool.eq_iff_iff, List.isEmpty_iff, List.isEmpty_iff, receivedInvalid, receivedInvalid,
    List.flatMap_append, ← List.append_assoc, List.append_eq_nil]
  refine ⟨And.left, fun hA => ⟨hA, List.flatMap_eq_nil_iff.2 fun x hx => ?_⟩⟩
  by_contra hfx
  have hxP : x ∈ P := hmem x hx fun hc => hfx (Message.privateFailures_eq_nil (by
    rw [← hd.privateKeys x (List.mem_append_right _ hx), hc]; rfl) _ _)
  rw [List.append_eq_nil, List.flatMap_eq_nil_iff] at hA
  exact hfx (hA.2 x hxP)

theorem dkgCompleted_append (hd : s.Deliverable (P ++ Q)) (h : s.dkgCompleted P) :
    s.dkgCompleted (P ++ Q) := by
  obtain ⟨hne, hst, hc, hs⟩ := dkgCompleted_iff.1 h
  rw [dkgCompleted_iff, receivedCommitments_append_of_full hd hc,
    receivedShares_append_of_full hd hs]
  exact ⟨fun e => hne (List.append_eq_nil.1 e).1, hst, hc, hs⟩

/-- Once the round is closed, the rest of a batch changes neither the signer nor the
    verdict. -/
theorem receivedSigner_append (hd : s.Deliverable (P ++ Q)) (h : s.dkgCompleted P) :
    s.receivedSigner (P ++ Q) = s.receivedSigner P ∧
      s.dkgSucceeded (P ++ Q) = s.dkgSucceeded P := by
  obtain ⟨-, -, hc, hs⟩ := dkgCompleted_iff.1 h
  simp only [receivedSigner, dkgSucceeded, dkgCompleted_append hd h, h,
    receivedCommitments_append_of_full hd hc, receivedShares_append_of_full hd hs,
    receivedInvalid_isEmpty_append hd hs, and_self]

section Congr

variable {P₁ P₂ : List (Message C)}

theorem isEmpty_eq_of_mem_iff {α : Type} {l₁ l₂ : List α} (h : ∀ a, a ∈ l₁ ↔ a ∈ l₂) :
    l₁.isEmpty = l₂.isEmpty := by
  rw [Bool.eq_iff_iff, List.isEmpty_iff, List.isEmpty_iff, List.eq_nil_iff_forall_not_mem,
    List.eq_nil_iff_forall_not_mem]
  exact forall_congr' fun a => not_congr (h a)

/-- Batches holding the same messages fill `commitments` alike. -/
theorem receivedCommitments_congr (hd : s.Deliverable P₁) (hmem : ∀ m, m ∈ P₁ ↔ m ∈ P₂) :
    s.receivedCommitments P₁ = s.receivedCommitments P₂ := by
  have hd₂ := hd.mono fun m hm => (hmem m).2 hm
  rw [receivedCommitments, receivedCommitments, foldl_roundStep_eq _ hd.isDkgBegin,
    foldl_roundStep_eq _ hd₂.isDkgBegin]
  ext k
  rw [KeyMap.get?_foldl_insert, KeyMap.get?_foldl_insert, lookup_reverse_flatMap_congr
    hd.keysDisjoint_public hd₂.keysDisjoint_public fun m _ => hmem m]

/-- Batches holding the same messages fill `decrypted_shares` alike. -/
theorem receivedShares_congr (hd : s.Deliverable P₁) (hmem : ∀ m, m ∈ P₁ ↔ m ∈ P₂) :
    s.receivedShares P₁ = s.receivedShares P₂ := by
  have hd₂ := hd.mono fun m hm => (hmem m).2 hm
  rw [receivedShares, receivedShares, foldl_roundStep_eq _ hd.isDkgBegin,
    foldl_roundStep_eq _ hd₂.isDkgBegin]
  ext k
  rw [KeyMap.get?_foldl_insert, KeyMap.get?_foldl_insert, lookup_reverse_flatMap_congr
    hd.keysDisjoint_private hd₂.keysDisjoint_private fun m _ => hmem m]

/-- Batches holding the same messages mark the same sources invalid. -/
theorem receivedInvalid_mem_congr (hmem : ∀ m, m ∈ P₁ ↔ m ∈ P₂) (k : Nat) :
    k ∈ s.receivedInvalid P₁ ↔ k ∈ s.receivedInvalid P₂ := by
  simp only [receivedInvalid, List.mem_append, List.mem_flatMap]
  exact or_congr_right ⟨fun ⟨m, hm, hk⟩ => ⟨m, (hmem m).1 hm, hk⟩,
    fun ⟨m, hm, hk⟩ => ⟨m, (hmem m).2 hm, hk⟩⟩

theorem dkgCompleted_congr (hd : s.Deliverable P₁) (hmem : ∀ m, m ∈ P₁ ↔ m ∈ P₂) :
    s.dkgCompleted P₁ = s.dkgCompleted P₂ := by
  simp only [dkgCompleted, isEmpty_eq_of_mem_iff hmem, receivedCommitments_congr hd hmem,
    receivedShares_congr hd hmem]

theorem dkgSucceeded_congr (hd : s.Deliverable P₁) (hmem : ∀ m, m ∈ P₁ ↔ m ∈ P₂) :
    s.dkgSucceeded P₁ = s.dkgSucceeded P₂ := by
  simp only [dkgSucceeded, isEmpty_eq_of_mem_iff (receivedInvalid_mem_congr hmem),
    receivedCommitments_congr hd hmem, receivedShares_congr hd hmem]

theorem receivedState_congr (hd : s.Deliverable P₁) (hmem : ∀ m, m ∈ P₁ ↔ m ∈ P₂) :
    s.receivedState P₁ = s.receivedState P₂ := by
  simp only [receivedState, isEmpty_eq_of_mem_iff hmem, receivedCommitments_congr hd hmem,
    dkgCompleted_congr hd hmem]

theorem receivedSigner_congr (hd : s.Deliverable P₁) (hmem : ∀ m, m ∈ P₁ ↔ m ∈ P₂) :
    s.receivedSigner P₁ = s.receivedSigner P₂ := by
  simp only [receivedSigner, dkgCompleted_congr hd hmem,
    isEmpty_eq_of_mem_iff (receivedInvalid_mem_congr hmem), receivedCommitments_congr hd hmem,
    receivedShares_congr hd hmem]

end Congr

end Received

-- ============================================================================
-- One message
-- ============================================================================

/-- The round the handler of a peer's shares message leaves. -/
def receive (t : SigningRound C σ) (m : Message C) : SigningRound C σ :=
  { t with
    commitments := roundStep Message.publicContributions t.commitments m,
    decryptedShares := roundStep (Message.privateContributions (Signer.getKeyIds t.signer)
      t.sharedSecretWith) t.decryptedShares m,
    invalidPrivateShares :=
      t.invalidPrivateShares ++ m.privateFailures (Signer.getKeyIds t.signer) t.sharedSecretWith }

theorem handle_shares {t : SigningRound C σ} {m : Message C} (hm : m.isShares)
    (hknown : ∀ p, m = .dkgPrivateShares p → (t.sharedSecretWith p.signerId).isSome)
    (rng : C.Rng) : t.handle m rng = some (t.receive m, .ok [], rng) := by
  cases m with
  | dkgPublicShares p =>
    simp [handle, receive, dkgPublicShare, roundStep, Message.isDkgBegin,
      Message.publicContributions, Message.privateContributions, Message.privateFailures]
  | dkgPrivateShares p =>
    obtain ⟨ss, hss⟩ := Option.isSome_iff_exists.1 (hknown p rfl)
    simp [handle, receive, dkgPrivateShares_eq, hss, roundStep, Message.isDkgBegin,
      Message.publicContributions, Message.privateContributions, Message.privateFailures]
  | _ => simp [Message.isShares] at hm

/-- The `DkgEnd` of `dkg_ended` reports success exactly when no share was invalid and
    `compute_secrets` succeeded. -/
theorem dkgEnded_snd_isSuccess (t : SigningRound C σ) :
    ∃ status, t.dkgEnded.2 = .dkgEnd { dkgId := t.dkgId, signerId := t.signerId, status } ∧
      status.isSuccess = (t.invalidPrivateShares.isEmpty &&
        (Signer.computeSecrets t.signer t.decryptedShares t.commitments.values).2.toBool) := by
  unfold dkgEnded
  split_ifs with h
  · cases hr : (Signer.computeSecrets t.signer t.decryptedShares t.commitments.values).2 <;>
      exact ⟨_, rfl, by simp [h, hr, DkgStatus.isSuccess, Except.toBool]⟩
  · exact ⟨_, rfl, by simp [h, DkgStatus.isSuccess]⟩

section Step

variable {s : SigningRound C σ} {P : List (Message C)} {m : Message C}

theorem getNumParties_receivedSigner :
    Signer.getNumParties (s.receivedSigner P) = Signer.getNumParties s.signer := by
  unfold receivedSigner; split_ifs <;> simp

theorem dkgCompleted_of_state (h : s.state ≠ .dkgPrivateGather) : s.dkgCompleted P = false := by
  simp [dkgCompleted, h]

/-- From `DkgPublicGather`, the round moves on when the batch fills the commitments. -/
theorem receivedState_of_publicGather (h : s.state = .dkgPublicGather) :
    s.receivedState P =
      if P.isEmpty = false ∧ (s.receivedCommitments P).size = Signer.getNumParties s.signer
      then .dkgPrivateDistribute else .dkgPublicGather := by
  cases P with
  | nil => simp [receivedState, h]
  | cons x P => simp [receivedState, h]

/-- In any other state, the completion check leaves the state alone. -/
theorem receivedState_of_other (h₁ : s.state ≠ .dkgPublicGather)
    (h₂ : s.state ≠ .dkgPrivateGather) : s.receivedState P = s.state := by
  cases hs : s.state <;> simp_all [receivedState]

/-- From `DkgPrivateGather`, the round closes when the batch completes it. -/
theorem receivedState_of_privateGather (h : s.state = .dkgPrivateGather) :
    s.receivedState P = if s.dkgCompleted P then .idle else .dkgPrivateGather := by
  cases P with
  | nil => simp [receivedState, dkgCompleted, h]
  | cons x P => simp [receivedState, h]

/-- Taking one more message into the round `P` left: the maps and the invalid list of
    `P ++ [m]`, the state and signer of `P` until the completion check. -/
theorem receive_delivered :
    (s.delivered P).receive m =
      { s.delivered (P ++ [m]) with state := s.receivedState P, signer := s.receivedSigner P } := by
  have hkeys : Signer.getKeyIds (s.receivedSigner P) = Signer.getKeyIds s.signer := by
    unfold receivedSigner; split_ifs <;> simp
  simp only [receive, delivered, hkeys, receivedCommitments, receivedShares, receivedInvalid,
    List.foldl_append, List.foldl_cons, List.foldl_nil, List.flatMap_append,
    List.flatMap_singleton, List.append_assoc]
  rfl

theorem receive_publicSharesDone :
    ((s.delivered P).receive m).publicSharesDone = (s.receivedState P == .dkgPublicGather &&
      (s.receivedCommitments (P ++ [m])).size == Signer.getNumParties s.signer) := by
  rw [receive_delivered]
  simp [publicSharesDone, getNumParties_receivedSigner]

theorem receive_canDkgEnd :
    ((s.delivered P).receive m).canDkgEnd = (s.receivedState P == .dkgPrivateGather &&
      (s.receivedCommitments (P ++ [m])).size == Signer.getNumParties s.signer &&
      (s.receivedShares (P ++ [m])).size == Signer.getNumParties s.signer) := by
  rw [receive_delivered]
  simp [canDkgEnd, getNumParties_receivedSigner]

/-- Whatever state and signer the completion check sets after the handler, the round is
    that of the batch's prefix and the message once they are those of `P ++ [m]`. -/
theorem receive_with_eq {X : State} {Y : σ} (h₁ : s.receivedState (P ++ [m]) = X)
    (h₂ : s.receivedSigner (P ++ [m]) = Y) :
    { (s.delivered P).receive m with state := X, signer := Y } = s.delivered (P ++ [m]) := by
  rw [receive_delivered]
  subst h₁ h₂
  rfl

theorem receive_eq_delivered (h₁ : s.receivedState (P ++ [m]) = s.receivedState P)
    (h₂ : s.receivedSigner (P ++ [m]) = s.receivedSigner P) :
    (s.delivered P).receive m = s.delivered (P ++ [m]) :=
  receive_with_eq h₁ h₂

/-- From `DkgPublicGather` the completion check moves on exactly when the message fills the
    commitments; the round does not close. -/
theorem checkCompletion_received_of_publicGather (hd : s.Deliverable (P ++ [m]))
    (hpub : s.state = .dkgPublicGather) :
    ((s.delivered P).receive m).checkCompletion [] = (s.delivered (P ++ [m]), .ok []) := by
  have hne : (P ++ [m]).isEmpty = false := by simp
  have hc : ∀ Q, s.dkgCompleted Q = false := fun Q => dkgCompleted_of_state (by simp [hpub])
  have hsg : s.receivedSigner (P ++ [m]) = s.receivedSigner P := by
    rw [receivedSigner_of_not_completed (hc _), receivedSigner_of_not_completed (hc _)]
  rw [checkCompletion_eq, receive_publicSharesDone, receive_canDkgEnd,
    receivedState_of_publicGather hpub]
  by_cases hfull : P.isEmpty = false ∧
      (s.receivedCommitments P).size = Signer.getNumParties s.signer
  · -- the commitments were already full: the round moved on before this message
    have hst : s.receivedState (P ++ [m]) = s.receivedState P := by
      rw [receivedState_of_publicGather hpub, receivedState_of_publicGather hpub,
        receivedCommitments_append_of_full hd hfull.2, if_pos hfull, if_pos ⟨hne, hfull.2⟩]
    simp [hfull, receive_eq_delivered hst hsg]
  rw [if_neg hfull]
  by_cases hfull' : (s.receivedCommitments (P ++ [m])).size = Signer.getNumParties s.signer
  · -- this message fills them
    have hst : s.receivedState (P ++ [m]) = .dkgPrivateDistribute := by
      rw [receivedState_of_publicGather hpub, if_pos ⟨hne, hfull'⟩]
    simp only [hfull', beq_self_eq_true, Bool.and_self, ite_true]
    exact Prod.ext (receive_with_eq hst hsg) rfl
  · have hst : s.receivedState (P ++ [m]) = s.receivedState P := by
      rw [receivedState_of_publicGather hpub, receivedState_of_publicGather hpub,
        if_neg hfull, if_neg fun h => hfull' h.2]
    simp [hfull', receive_eq_delivered hst hsg]

/-- From `DkgPrivateGather` the round closes once, with the call whose message completes
    both maps. -/
theorem checkCompletion_received_of_privateGather (hd : s.Deliverable (P ++ [m]))
    (hpriv : s.state = .dkgPrivateGather) :
    ∃ out, ((s.delivered P).receive m).checkCompletion [] = (s.delivered (P ++ [m]), .ok out) ∧
      if s.dkgCompleted (P ++ [m]) && !s.dkgCompleted P then
        ∃ status, out = [.dkgEnd { dkgId := s.dkgId, signerId := s.signerId, status }] ∧
          status.isSuccess = s.dkgSucceeded (P ++ [m])
      else out = [] := by
  rw [checkCompletion_eq, receive_publicSharesDone, receive_canDkgEnd,
    receivedState_of_privateGather hpriv]
  by_cases hdone : s.dkgCompleted P
  · have hst : s.receivedState (P ++ [m]) = s.receivedState P := by
      rw [receivedState_of_privateGather hpriv, receivedState_of_privateGather hpriv,
        dkgCompleted_append hd hdone, hdone]
    simp [hdone, receive_eq_delivered hst (receivedSigner_append hd hdone).1]
  have hsg : s.receivedSigner P = s.signer :=
    receivedSigner_of_not_completed (by simpa using hdone)
  by_cases hend : s.dkgCompleted (P ++ [m])
  · -- this message completes the round: `dkg_ended` closes it
    obtain ⟨-, -, hc, hs⟩ := dkgCompleted_iff.1 hend
    obtain ⟨status, h₂, hsucc⟩ := dkgEnded_snd_isSuccess ((s.delivered P).receive m)
    simp only [hdone, hend, hc, hs, ite_false, ite_true, Bool.false_eq_true, beq_self_eq_true,
      Bool.and_self, Bool.not_false, Bool.true_and, Bool.and_true, List.nil_append]
    refine ⟨_, Prod.ext ?_ rfl, status, by rw [h₂]; rfl, ?_⟩
    · rw [dkgEnded_fst]
      dsimp only
      refine receive_with_eq (by rw [receivedState_of_privateGather hpriv, if_pos hend]) ?_
      simp [receivedSigner, hend, hdone, receive_delivered]
    · rw [hsucc]
      simp [dkgSucceeded, receive_delivered, hsg]
  · have hst : s.receivedState (P ++ [m]) = s.receivedState P := by
      rw [receivedState_of_privateGather hpriv, receivedState_of_privateGather hpriv,
        if_neg hend, if_neg hdone]
    have hsg' : s.receivedSigner (P ++ [m]) = s.receivedSigner P := by
      rw [receivedSigner_of_not_completed (by simpa using hend), hsg]
    have hfull : ¬((s.receivedCommitments (P ++ [m])).size = Signer.getNumParties s.signer ∧
        (s.receivedShares (P ++ [m])).size = Signer.getNumParties s.signer) :=
      fun h => hend (dkgCompleted_iff.2 ⟨by simp, hpriv, h⟩)
    simpa [hdone, hend, receive_eq_delivered hst hsg'] using hfull

/-- In any other state neither completion predicate can hold. -/
theorem checkCompletion_received_of_other (hpub : s.state ≠ .dkgPublicGather)
    (hpriv : s.state ≠ .dkgPrivateGather) :
    ((s.delivered P).receive m).checkCompletion [] = (s.delivered (P ++ [m]), .ok []) := by
  have hc : ∀ Q, s.dkgCompleted Q = false := fun Q => dkgCompleted_of_state hpriv
  have hst : s.receivedState (P ++ [m]) = s.receivedState P := by
    rw [receivedState_of_other hpub hpriv, receivedState_of_other hpub hpriv]
  have hsg : s.receivedSigner (P ++ [m]) = s.receivedSigner P := by
    rw [receivedSigner_of_not_completed (hc _), receivedSigner_of_not_completed (hc _)]
  rw [checkCompletion_eq, receive_publicSharesDone, receive_canDkgEnd]
  simp [receivedState_of_other hpub hpriv, hpub, hpriv, receive_eq_delivered hst hsg]

/-- The completion check after the handler of the next message of a deliverable batch
    leaves the round of the batch's prefix and that message, with no response but the
    `DkgEnd` of the call that closes the round. -/
theorem checkCompletion_received (hd : s.Deliverable (P ++ [m])) :
    ∃ out, ((s.delivered P).receive m).checkCompletion [] = (s.delivered (P ++ [m]), .ok out) ∧
      if s.dkgCompleted (P ++ [m]) && !s.dkgCompleted P then
        ∃ status, out = [.dkgEnd { dkgId := s.dkgId, signerId := s.signerId, status }] ∧
          status.isSuccess = s.dkgSucceeded (P ++ [m])
      else out = [] := by
  by_cases hpriv : s.state = .dkgPrivateGather
  · exact checkCompletion_received_of_privateGather hd hpriv
  -- elsewhere the round does not close
  refine ⟨[], ?_, by simp [dkgCompleted_of_state hpriv]⟩
  by_cases hpub : s.state = .dkgPublicGather
  · exact checkCompletion_received_of_publicGather hd hpub
  · exact checkCompletion_received_of_other hpub hpriv

/-- One call on the next message of a deliverable batch takes the round its prefix left
    to the round of the prefix and the message; it answers nothing but the `DkgEnd` of the
    call that closes the round. -/
theorem process_delivered (hd : s.Deliverable (P ++ [m])) (rng : C.Rng) :
    ∃ out, (s.delivered P).process m rng = some (s.delivered (P ++ [m]), .ok out, rng) ∧
      if s.dkgCompleted (P ++ [m]) && !s.dkgCompleted P then
        ∃ status, out = [.dkgEnd { dkgId := s.dkgId, signerId := s.signerId, status }] ∧
          status.isSuccess = s.dkgSucceeded (P ++ [m])
      else out = [] := by
  have hm : m ∈ P ++ [m] := List.mem_append_right _ (List.mem_singleton_self _)
  obtain ⟨out, hc, hout⟩ := checkCompletion_received hd
  refine ⟨out, ?_, hout⟩
  rw [process_of_handle_ok
    (handle_shares (t := s.delivered P) (hd.shares m hm) (hd.known m hm) rng), hc]

end Step

section Batch

variable (sign : C.Scalar → Message C → Option Bytes)

/-- When the network key signs every `DkgEnd`, a list of `DkgEnd`s gets its packets. -/
theorem mapM_sign_dkgEnds {key : C.Scalar} (hsign : ∀ e, (sign key (.dkgEnd e)).isSome) :
    ∀ {out : List (Message C)}, (∀ m ∈ out, ∃ e, m = .dkgEnd e) →
      ∃ packets, (out.mapM fun o => (sign key o).map fun sig => { sig, msg := o }) =
        some packets ∧ packets.map Packet.msg = out
  | [], _ => ⟨[], rfl, rfl⟩
  | o :: out, h => by
    obtain ⟨e, rfl⟩ := h o (.head _)
    obtain ⟨sig, hs⟩ := Option.isSome_iff_exists.1 (hsign e)
    obtain ⟨packets, hp, hm⟩ := mapM_sign_dkgEnds hsign fun m hm => h m (.tail _ hm)
    exact ⟨⟨sig, .dkgEnd e⟩ :: packets, by rw [List.mapM_cons, hs, hp]; rfl, by simp [hm]⟩

variable {sign} {s : SigningRound C σ}

/-- A deliverable batch succeeds and leaves the round of all its messages, in whatever
    order they came; its only packet is the `DkgEnd` of the message that closes the
    round. -/
theorem processInboundMessages_delivered
    (hsign : ∀ e, (sign s.networkPrivateKey (.dkgEnd e)).isSome) (R : List (Packet C))
    {P : List (Message C)} (hd : s.Deliverable (P ++ R.map Packet.msg)) (rng : C.Rng) :
    ∃ out, (s.delivered P).processInboundMessages sign R rng =
        some (s.delivered (P ++ R.map Packet.msg), .ok out, rng) ∧
      if s.dkgCompleted (P ++ R.map Packet.msg) && !s.dkgCompleted P then
        ∃ status, out.map Packet.msg =
            [.dkgEnd { dkgId := s.dkgId, signerId := s.signerId, status }] ∧
          status.isSuccess = s.dkgSucceeded (P ++ R.map Packet.msg)
      else out = [] := by
  induction R generalizing P with
  | nil => exact ⟨[], by simp, by simp⟩
  | cons x R ih =>
    have happ : P ++ (x :: R).map Packet.msg = P ++ [x.msg] ++ R.map Packet.msg := by simp
    rw [happ] at hd ⊢
    have hP : s.Deliverable (P ++ [x.msg]) := hd.mono fun m hm => List.mem_append_left _ hm
    obtain ⟨out₁, hp, h₁⟩ := process_delivered hP rng
    obtain ⟨out₂, hq, h₂⟩ := ih hd
    obtain ⟨packets, hm, hmsg⟩ := @mapM_sign_dkgEnds _ sign _ hsign out₁ (by
      split_ifs at h₁
      · obtain ⟨status, rfl, -⟩ := h₁
        simp
      · simp [h₁])
    refine ⟨packets ++ out₂, ?_, ?_⟩
    · rw [processInboundMessages_cons, hp]
      simp only [Option.some_bind, delivered_networkPrivateKey, hm, hq, Except.map]
    cases hA : s.dkgCompleted P
    · cases hB : s.dkgCompleted (P ++ [x.msg])
      · -- the round is still open after `x`
        simp only [hA, hB, Bool.and_true, Bool.not_false, Bool.false_eq_true, ite_false] at h₁ h₂ ⊢
        subst h₁
        simpa [List.map_eq_nil_iff.1 hmsg] using h₂
      · -- `x` closes the round
        have hD := dkgCompleted_append hd hB
        simp only [hA, hB, hD, Bool.and_true, Bool.not_false, Bool.not_true, Bool.and_false,
          Bool.false_eq_true, ite_true, ite_false] at h₁ h₂ ⊢
        obtain ⟨status, rfl, hst⟩ := h₁
        exact ⟨status, by simp [hmsg, h₂], by rw [hst, (receivedSigner_append hd hB).2]⟩
    · -- the round closed before `x`
      have hB := dkgCompleted_append hP hA
      simp only [hA, hB, Bool.not_true, Bool.and_false, Bool.false_eq_true, ite_false] at h₁ h₂ ⊢
      subst h₁
      simpa [List.map_eq_nil_iff.1 hmsg] using h₂

/-- A deliverable batch run from `s` itself answers with one `DkgEnd` of `s`'s round
    exactly when it closes the round. -/
theorem processInboundMessages_deliverable
    (hsign : ∀ e, (sign s.networkPrivateKey (.dkgEnd e)).isSome) (L : List (Packet C))
    (hd : s.Deliverable (L.map Packet.msg)) (rng : C.Rng) :
    ∃ out, s.processInboundMessages sign L rng =
        some (s.delivered (L.map Packet.msg), .ok out, rng) ∧
      dkgEndOutcomes (out.map Packet.msg) = if s.dkgCompleted (L.map Packet.msg) then
        [(s.dkgId, s.dkgSucceeded (L.map Packet.msg))] else [] := by
  obtain ⟨out, h, hout⟩ :=
    processInboundMessages_delivered hsign L (P := []) (by simpa using hd) rng
  rw [delivered_nil, List.nil_append] at h
  refine ⟨out, h, ?_⟩
  have hnil : s.dkgCompleted [] = false := by simp [dkgCompleted]
  simp only [List.nil_append, hnil, Bool.not_false, Bool.and_true] at hout
  split_ifs at hout ⊢
  · obtain ⟨status, hmsg, hs⟩ := hout
    simp [hmsg, dkgEndOutcomes, hs]
  · simp [hout, dkgEndOutcomes]

/-- Two batches holding the same peers' shares, in any order and with any repetitions,
    both succeed and leave the same round: the same state, round id and maps, the same
    sources marked invalid, a `DkgEnd` in one exactly when in the other, reporting
    success in one exactly when in the other, and the same signer, on which the closing
    call ran `compute_secrets` with those maps when no share was invalid.  `hsign` is what
    `process_inbound_messages` asserts with `expect("failed to sign DkgEnd")`. -/
theorem dkgOutcome_independent_of_order
    (hsign : ∀ e, (sign s.networkPrivateKey (.dkgEnd e)).isSome) (L₁ L₂ : List (Packet C))
    (hd : s.Deliverable (L₁.map Packet.msg))
    (hmem : ∀ m, m ∈ L₁.map Packet.msg ↔ m ∈ L₂.map Packet.msg) (rng₁ rng₂ : C.Rng) :
    ∃ s₁ s₂ out₁ out₂,
      s.processInboundMessages sign L₁ rng₁ = some (s₁, .ok out₁, rng₁) ∧
      s.processInboundMessages sign L₂ rng₂ = some (s₂, .ok out₂, rng₂) ∧
      s₁.state = s₂.state ∧ s₁.dkgId = s₂.dkgId ∧ s₁.commitments = s₂.commitments ∧
      s₁.decryptedShares = s₂.decryptedShares ∧
      (∀ k, k ∈ s₁.invalidPrivateShares ↔ k ∈ s₂.invalidPrivateShares) ∧
      dkgEndOutcomes (out₁.map Packet.msg) = dkgEndOutcomes (out₂.map Packet.msg) ∧
      s₁.signer = s₂.signer ∧
      s₁.signer =
        if dkgEndOutcomes (out₁.map Packet.msg) ≠ [] ∧ s₁.invalidPrivateShares = [] then
          (Signer.computeSecrets s.signer s₁.decryptedShares s₁.commitments.values).1
        else s.signer := by
  have hd₂ := hd.mono fun m hm => (hmem m).2 hm
  obtain ⟨out₁, h₁, ho₁⟩ := processInboundMessages_deliverable hsign L₁ hd rng₁
  obtain ⟨out₂, h₂, ho₂⟩ := processInboundMessages_deliverable hsign L₂ hd₂ rng₂
  refine ⟨_, _, out₁, out₂, h₁, h₂, receivedState_congr hd hmem, rfl,
    receivedCommitments_congr hd hmem, receivedShares_congr hd hmem,
    receivedInvalid_mem_congr hmem, ?_, receivedSigner_congr hd hmem, ?_⟩
  · rw [ho₁, ho₂, dkgCompleted_congr hd hmem, dkgSucceeded_congr hd hmem]
  · cases hc : s.dkgCompleted (L₁.map Packet.msg) <;> simp [ho₁, hc, receivedSigner]

end Batch

end SigningRound

namespace NatBackend

open SigningRound

/-- `round₀` waiting in `DkgPrivateGather` with both commitments. -/
def privateGather : SigningRound crypto NatSigner := (round₀.run toPrivateGather).get (by decide)

/-- Signer 1's and signer 2's private shares for round 1, each for its own party. -/
def sharesOf (j : Nat) : Packet crypto := ⟨[], .dkgPrivateShares ⟨1, j, [(j, .empty)]⟩⟩

/-- `dkgOutcome_independent_of_order` at `privateGather`, for both shares in one order
    against the other order with signer 2's sent twice. -/
theorem dkgOutcome_independent_of_order_privateGather :
    ∃ s₁ s₂ out₁ out₂,
      privateGather.processInboundMessages (fun _ _ => some []) [sharesOf 1, sharesOf 2] 0 =
        some (s₁, .ok out₁, 0) ∧
      privateGather.processInboundMessages (fun _ _ => some []) [sharesOf 2, sharesOf 1, sharesOf 2]
        0 = some (s₂, .ok out₂, 0) ∧
      s₁.state = s₂.state ∧ s₁.dkgId = s₂.dkgId ∧ s₁.commitments = s₂.commitments ∧
      s₁.decryptedShares = s₂.decryptedShares ∧
      (∀ k, k ∈ s₁.invalidPrivateShares ↔ k ∈ s₂.invalidPrivateShares) ∧
      dkgEndOutcomes (out₁.map Packet.msg) = dkgEndOutcomes (out₂.map Packet.msg) ∧
      s₁.signer = s₂.signer ∧
      s₁.signer =
        if dkgEndOutcomes (out₁.map Packet.msg) ≠ [] ∧ s₁.invalidPrivateShares = [] then
          (Signer.computeSecrets privateGather.signer s₁.decryptedShares s₁.commitments.values).1
        else privateGather.signer :=
  @dkgOutcome_independent_of_order _ _ _ (fun _ _ => some []) privateGather (fun _ => rfl)
    [sharesOf 1, sharesOf 2] [sharesOf 2, sharesOf 1, sharesOf 2]
    { shares := by simp [sharesOf, Message.isShares]
      known := by simp [sharesOf]; decide
      disjoint_public := fun m₁ h₁ _ _ _ k hk => by
        simp only [sharesOf, List.map_cons, List.map_nil, List.mem_cons, List.mem_singleton,
          List.not_mem_nil, or_false] at h₁
        rcases h₁ with rfl | rfl <;> cases hk
      disjoint_private := fun m₁ h₁ m₂ h₂ hne k hk => by
        simp only [sharesOf, List.map_cons, List.map_nil, List.mem_cons, List.mem_singleton,
          List.not_mem_nil, or_false] at h₁ h₂
        rcases h₁ with rfl | rfl <;> rcases h₂ with rfl | rfl <;>
          first | exact absurd rfl hne | simp_all [Message.privateSources]
      bound_public := by decide
      bound_private := by decide }
    (fun m => by simp [sharesOf]; tauto) 0 0

/-- There, both orders close the round with a successful `DkgEnd`. -/
example : ∃ s₁ s₂,
    privateGather.processInboundMessages (fun _ _ => some []) [sharesOf 1, sharesOf 2] 0 =
      some (s₁, .ok [⟨[], .dkgEnd ⟨1, 1, .success⟩⟩], 0) ∧
    privateGather.processInboundMessages (fun _ _ => some []) [sharesOf 2, sharesOf 1, sharesOf 2]
      0 = some (s₂, .ok [⟨[], .dkgEnd ⟨1, 1, .success⟩⟩], 0) :=
  ⟨_, _, rfl, rfl⟩

end NatBackend

end Wsts
