/-
  Wsts.StateMachine.Signer.Dkg

  A DKG round among a group of signers.

  A coordinator runs the round in four batches per signer: a `DkgBegin`, the group's
  `DkgPublicShares`, a `DkgPrivateBegin`, the group's `DkgPrivateShares`.  One lemma per
  batch says what `process_inbound_messages` does with it for one signer
  (`processInboundMessages_dkgBegin`, `processInboundMessages_publicShares`,
  `processInboundMessages_dkgPrivateBegin`, `processInboundMessages_privateShares`).

  For an `HonestGroup` — signers configured for one another, with distinct key ids and
  a backend whose polynomials and shares are for those key ids — the round runs to the
  end whatever order and repetitions each signer's inbox has (`honestDkg_completes`):
  no batch panics or fails, every signer closes the round once with a `DkgEnd`, all
  signers hold the same commitments, each holds every peer's shares for its own keys,
  and none marks a share invalid.

  Agreement on the commitments needs no honest schedule: over any runs, two signers that
  took in the same `DkgPublicShares` since their last `DkgBegin`, under disjoint party
  ids, hold the same commitments (`commitments_agree`).
-/

import Mathlib.Data.Fintype.Basic
import Wsts.StateMachine.Signer.Delivery
import Wsts.StateMachine.Signer.Panics

namespace Wsts

variable {C : Crypto}

section Maps

variable {α : Type} (c : Message C → List (Nat × α)) {P : List (Message C)}
  (hP : ∀ m ∈ P, m.isDkgBegin = false)
include hP

/-- From an empty map, a batch without `DkgBegin` leaves under each key the last
    contribution to it. -/
theorem get?_foldl_roundStep_empty (k : Nat) :
    (P.foldl (roundStep c) .empty).get? k = (P.flatMap c).reverse.lookup k := by
  rw [foldl_roundStep_eq _ hP, KeyMap.get?_foldl_insert, KeyMap.get?_empty, Option.or_none]

/-- From an empty map, a batch without `DkgBegin` leaves one entry per key contributed. -/
theorem size_foldl_roundStep_empty :
    (P.foldl (roundStep c) .empty).size =
      (P.flatMap fun m => (c m).map Prod.fst).toFinset.card := by
  rw [foldl_roundStep_eq _ hP, size_foldl_insert, List.map_flatMap]
  simp

end Maps

/-- Disjoint keys carry over to a list with the same contributing elements. -/
theorem KeysDisjoint.of_mem_iff {α β : Type} {c : β → List (Nat × α)} {P Q : List β}
    (h : KeysDisjoint c P) (hmem : ∀ m, c m ≠ [] → (m ∈ P ↔ m ∈ Q)) : KeysDisjoint c Q := by
  intro m₁ h₁ m₂ h₂ hne k hk hk'
  have hc : ∀ m, k ∈ (c m).map Prod.fst → c m ≠ [] := fun m hm e => by simp [e] at hm
  exact h m₁ ((hmem m₁ (hc m₁ hk)).2 h₁) m₂ ((hmem m₂ (hc m₂ hk')).2 h₂) hne k hk hk'

namespace SigningRound

variable {σ : Type} [Signer C σ]

-- ============================================================================
-- One signer, one batch
-- ============================================================================

section Phases

variable {sign : C.Scalar → Message C → Option Bytes} (hsign : ∀ key m, (sign key m).isSome)
include hsign

/-- When the network key signs everything, every answer gets its packet. -/
theorem mapM_sign_eq (key : C.Scalar) :
    ∀ out : List (Message C), ∃ packets,
      (out.mapM fun o => (sign key o).map fun sig => { sig, msg := o }) = some packets ∧
        packets.map Packet.msg = out
  | [] => ⟨[], rfl, rfl⟩
  | o :: out => by
    obtain ⟨sig, hs⟩ := Option.isSome_iff_exists.1 (hsign key o)
    obtain ⟨packets, hp, hm⟩ := mapM_sign_eq key out
    exact ⟨⟨sig, o⟩ :: packets, by rw [List.mapM_cons, hs, hp]; rfl, by simp [hm]⟩

/-- A one-message batch is the call on its message, its answers signed. -/
theorem processInboundMessages_singleton {s s' : SigningRound C σ} {m : Message C}
    {rng rng' : C.Rng} {out : List (Message C)} (h : s.process m rng = some (s', .ok out, rng'))
    (sig : Bytes) :
    ∃ packets, s.processInboundMessages sign [⟨sig, m⟩] rng = some (s', .ok packets, rng') ∧
      packets.map Packet.msg = out := by
  obtain ⟨packets, hp, hmsg⟩ := mapM_sign_eq hsign s'.networkPrivateKey out
  refine ⟨packets, ?_, hmsg⟩
  rw [processInboundMessages_cons, h]
  simp only [Option.some_bind, hp, processInboundMessages_nil, Except.map, List.append_nil]

variable {s : SigningRound C σ}

/-- A `DkgBegin` restarts the round under its id and answers with this signer's
    `DkgPublicShares`: one commitment per polynomial the restarted signer holds. -/
theorem processInboundMessages_dkgBegin (hacc : accepted s.state .dkgPublicDistribute)
    (hN : 1 ≤ Signer.getNumParties s.signer) (sig : Bytes) (b : DkgBegin) (rng : C.Rng) :
    ∃ packets rng', s.processInboundMessages sign [⟨sig, .dkgBegin b⟩] rng =
        some ({ (s.reset b.dkgId rng).1 with state := .dkgPublicGather }, .ok packets, rng') ∧
      packets.map Packet.msg = [.dkgPublicShares
        { dkgId := b.dkgId, signerId := s.signerId,
          comms := (Signer.getPolyCommitments (s.reset b.dkgId rng).1.signer
            (s.reset b.dkgId rng).2).1.map fun poly => (C.partyId poly, poly) }] := by
  have h : s.process (.dkgBegin b) rng = some (s.dkgBegin b rng) :=
    process_dkgBegin_of_accepted b hacc hN
  rw [dkgBegin_of_accepted s rng b hacc] at h
  obtain ⟨packets, hp, hmsg⟩ := processInboundMessages_singleton hsign h sig
  exact ⟨packets, _, hp, hmsg⟩

/-- A batch of `DkgPublicShares` listing disjoint party ids, as many as the round's
    parties, takes a restarted round from `DkgPublicGather` to `DkgPrivateDistribute`
    without an answer, holding the commitments the batch lists. -/
theorem processInboundMessages_publicShares (hst : s.state = .dkgPublicGather)
    (hc : s.commitments = .empty) (hd : s.decryptedShares = .empty)
    (hN : 1 ≤ Signer.getNumParties s.signer) (L : List (Packet C))
    (hpub : ∀ m ∈ L.map Packet.msg, ∃ p, m = .dkgPublicShares p)
    (hdis : KeysDisjoint Message.publicContributions (L.map Packet.msg))
    (hcard : ((L.map Packet.msg).flatMap Message.publicParties).toFinset.card =
      Signer.getNumParties s.signer) (rng : C.Rng) :
    s.processInboundMessages sign L rng = some ({ s with
      commitments := (L.map Packet.msg).foldl (roundStep Message.publicContributions) .empty,
      state := .dkgPrivateDistribute }, .ok [], rng) := by
  set P := L.map Packet.msg
  have hpriv : ∀ m ∈ P, m.privateSources = [] := fun m hm => by
    obtain ⟨p, rfl⟩ := hpub m hm
    rfl
  have hD : s.Deliverable P :=
    { shares := fun m hm => by obtain ⟨p, rfl⟩ := hpub m hm; rfl
      known := fun m hm p e => by obtain ⟨p', rfl⟩ := hpub m hm; cases e
      disjoint_public := hdis
      disjoint_private := fun m₁ h₁ _ _ _ k hk => by simp [hpriv m₁ h₁] at hk
      bound_public := by rw [hc, hcard]; simp
      bound_private := by
        rw [hd, List.flatMap_eq_nil_iff.2 hpriv]
        simp }
  obtain ⟨out, h, hout⟩ :=
    processInboundMessages_delivered (fun _ => hsign _ _) L (P := []) (by simpa using hD) rng
  have hopen : s.dkgCompleted P = false := dkgCompleted_of_state (by simp [hst])
  simp only [List.nil_append, delivered_nil, hopen, Bool.false_and, Bool.false_eq_true,
    ite_false] at h hout
  subst hout
  -- the commitments fill up; nothing else is written
  have hsize : (s.receivedCommitments P).size = Signer.getNumParties s.signer := by
    rw [receivedCommitments, hc, size_foldl_roundStep_empty _ hD.isDkgBegin]
    exact hcard
  have hne : P.isEmpty = false := by
    cases hP : P with
    | nil => rw [hP] at hcard; simp at hcard; omega
    | cons _ _ => rfl
  have hshares : s.receivedShares P = s.decryptedShares := by
    rw [receivedShares, foldl_roundStep_eq _ hD.isDkgBegin, List.flatMap_eq_nil_iff.2 fun m hm =>
      by rw [← List.map_eq_nil_iff (f := Prod.fst), hD.privateKeys m hm, hpriv m hm]]
    rfl
  have hinv : s.receivedInvalid P = s.invalidPrivateShares := by
    rw [receivedInvalid, List.flatMap_eq_nil_iff.2 fun m hm =>
      Message.privateFailures_eq_nil (hpriv m hm) _ _, List.append_nil]
  have hstate : s.receivedState P = .dkgPrivateDistribute := by
    rw [receivedState_of_publicGather hst, if_pos ⟨hne, hsize⟩]
  rw [h]
  simp only [delivered, hshares, hinv, hstate, receivedSigner_of_not_completed hopen,
    receivedCommitments, hc]

/-- A `DkgPrivateBegin` in `DkgPrivateDistribute` whose encryption loops run through
    moves to `DkgPrivateGather` and answers with this signer's encrypted shares. -/
theorem processInboundMessages_dkgPrivateBegin (hst : s.state = .dkgPrivateDistribute)
    (hd : s.decryptedShares = .empty) (hN : 1 ≤ Signer.getNumParties s.signer) {rng : C.Rng}
    {e : List (Nat × KeyMap Bytes) × C.Rng}
    (he : s.encryptPrivateShares (Signer.getShares s.signer).entries rng = some e)
    (sig : Bytes) (b : DkgBegin) :
    ∃ packets, s.processInboundMessages sign [⟨sig, .dkgPrivateBegin b⟩] rng =
        some ({ s with state := .dkgPrivateGather }, .ok packets, e.2) ∧
      packets.map Packet.msg =
        [.dkgPrivateShares { dkgId := s.dkgId, signerId := s.signerId, shares := e.1 }] := by
  have hh : s.handle (.dkgPrivateBegin b) rng = some ({ s with state := .dkgPrivateGather },
      .ok [.dkgPrivateShares { dkgId := s.dkgId, signerId := s.signerId, shares := e.1 }],
      e.2) := by
    simp [handle, dkgPrivateBegin_eq, he, hst, accepted]
  have h := process_of_handle_ok hh
  rw [checkCompletion_of_not_done _ (by simp [publicSharesDone])
    (by simp [canDkgEnd, hd]; omega)] at h
  exact processInboundMessages_singleton hsign h sig

/-- A batch of `DkgPrivateShares` from known senders, listing disjoint source parties, as
    many as the round's parties, none with a share for this signer that fails to open,
    closes a round waiting in `DkgPrivateGather` with full commitments: the shares are
    stored, `compute_secrets` runs, and the one answer is a `DkgEnd` reporting whether it
    succeeded. -/
theorem processInboundMessages_privateShares (hst : s.state = .dkgPrivateGather)
    (hc : s.commitments.size = Signer.getNumParties s.signer) (hd : s.decryptedShares = .empty)
    (hi : s.invalidPrivateShares = []) (hN : 1 ≤ Signer.getNumParties s.signer)
    (L : List (Packet C))
    (hpriv : ∀ m ∈ L.map Packet.msg,
      ∃ p, m = .dkgPrivateShares p ∧ (s.sharedSecretWith p.signerId).isSome)
    (hdis : ∀ m₁ ∈ L.map Packet.msg, ∀ m₂ ∈ L.map Packet.msg, m₁ ≠ m₂ →
      ∀ k ∈ m₁.privateSources, k ∉ m₂.privateSources)
    (hcard : ((L.map Packet.msg).flatMap Message.privateSources).toFinset.card =
      Signer.getNumParties s.signer)
    (hok : ∀ m ∈ L.map Packet.msg,
      m.privateFailures (Signer.getKeyIds s.signer) s.sharedSecretWith = [])
    (rng : C.Rng) :
    ∃ packets status, s.processInboundMessages sign L rng = some ({ s with
        decryptedShares := s.receivedShares (L.map Packet.msg), state := .idle,
        signer := (Signer.computeSecrets s.signer (s.receivedShares (L.map Packet.msg))
          s.commitments.values).1 }, .ok packets, rng) ∧
      packets.map Packet.msg = [.dkgEnd { dkgId := s.dkgId, signerId := s.signerId, status }] ∧
      status.isSuccess = (Signer.computeSecrets s.signer (s.receivedShares (L.map Packet.msg))
        s.commitments.values).2.toBool := by
  set P := L.map Packet.msg
  have hpub : ∀ m ∈ P, m.publicContributions = [] := fun m hm => by
    obtain ⟨p, rfl, -⟩ := hpriv m hm
    rfl
  have hD : s.Deliverable P :=
    { shares := fun m hm => by obtain ⟨p, rfl, -⟩ := hpriv m hm; rfl
      known := fun m hm p e => by obtain ⟨p', rfl, hp⟩ := hpriv m hm; cases e; exact hp
      disjoint_public := fun m₁ h₁ _ _ _ k hk => by
        simp [Message.publicParties, hpub m₁ h₁] at hk
      disjoint_private := hdis
      bound_public := by
        rw [List.flatMap_eq_nil_iff.2 fun m hm => by simp [Message.publicParties, hpub m hm]]
        simp [hc]
      bound_private := by rw [hd, hcard]; simp }
  have hcomm : s.receivedCommitments P = s.commitments := by
    rw [receivedCommitments, foldl_roundStep_eq _ hD.isDkgBegin, List.flatMap_eq_nil_iff.2 hpub]
    rfl
  have hinv : s.receivedInvalid P = [] := by
    rw [receivedInvalid, hi, List.flatMap_eq_nil_iff.2 hok]
    rfl
  -- the shares fill up, so the round closes
  have hsize : (s.receivedShares P).size = Signer.getNumParties s.signer := by
    rw [receivedShares, foldl_roundStep_eq _ hD.isDkgBegin, size_foldl_insert, hd,
      List.map_flatMap, List.flatMap_congr hD.privateKeys]
    simpa using hcard
  have hne : P ≠ [] := by
    rintro hP
    rw [hP] at hcard
    simp at hcard
    omega
  have hdone : s.dkgCompleted P := dkgCompleted_iff.2 ⟨hne, hst, hcomm ▸ hc, hsize⟩
  obtain ⟨out, h, hout⟩ :=
    processInboundMessages_delivered (fun _ => hsign _ _) L (P := []) (by simpa using hD) rng
  have hnil : s.dkgCompleted [] = false := by simp [dkgCompleted]
  simp only [List.nil_append, delivered_nil, hdone, hnil, Bool.not_false, Bool.and_true,
    ite_true] at h hout
  obtain ⟨status, hmsg, hsucc⟩ := hout
  refine ⟨out, status, ?_, hmsg, ?_⟩
  · rw [h]
    simp only [delivered, hcomm, hinv, hi, receivedState_of_privateGather hst, hdone, ite_true,
      receivedSigner, List.isEmpty_nil, Bool.and_self]
  · rw [hsucc, dkgSucceeded, hinv, hcomm]
    rfl

end Phases

-- ============================================================================
-- Sender and receiver
-- ============================================================================

section Addressed

variable {pub : C.Scalar → C.PublicKey} {A B A' B' : SigningRound C σ}

/-- Whether `A` can send private shares to `B` depends only on who they are. -/
theorem Addressed.of_sameIdentity (h : Addressed pub A B) (hA : SameIdentity A A')
    (hB : SameIdentity B B') : Addressed pub A' B' where
  sender := by rw [hB.publicKeys, hA.signerId, hA.networkPrivateKey]; exact h.sender
  sender_point := by rw [hA.networkPrivateKey]; exact h.sender_point
  recipient k hk := by
    rw [hA.publicKeys, hB.networkPrivateKey]
    exact h.recipient k (hB.keyIds ▸ hk)
  keyId_lt k hk := h.keyId_lt k (hB.keyIds ▸ hk)

/-- `B` shares with `A` the secret of `B`'s key and `A`'s point. -/
theorem Addressed.sharedSecretWith_eq (h : Addressed pub A B) {PA : C.Point}
    (hPA : C.toPoint (pub A.networkPrivateKey) = some PA) :
    B.sharedSecretWith A.signerId = some (C.makeSharedSecret B.networkPrivateKey PA) := by
  simp [sharedSecretWith, h.sender, hPA]

/-- What `B` stores for a source party of `A` from `A`'s encrypted shares: `A`'s row of
    shares for that party, restricted to `B`'s keys. -/
theorem Addressed.lookup_openedShares (laws : RoundTripLaws C pub) (h : Addressed pub A B)
    {PA : C.Point} (hPA : C.toPoint (pub A.networkPrivateKey) = some PA)
    {encrypted : List (Nat × KeyMap Bytes)} {r r' : C.Rng}
    (he : A.encryptPrivateShares (Signer.getShares A.signer).entries r = some (encrypted, r'))
    {src : Nat} {row : KeyMap C.Scalar} (hrow : (Signer.getShares A.signer).get? src = some row) :
    ∃ m, (openedShares (Signer.getKeyIds B.signer) (C.makeSharedSecret B.networkPrivateKey PA)
        encrypted).reverse.lookup src = some m ∧
      ∀ dst, m.get? dst = if dst ∈ Signer.getKeyIds B.signer then row.get? dst else none := by
  obtain ⟨enc, henc, r₁, r₂, hencr⟩ := mem_encryptPrivateShares he hrow
  have hnodup : (encrypted.reverse.map Prod.fst).Nodup := by
    rw [List.map_reverse, List.nodup_reverse, (encryptPrivateShares_spec A he).1]
    exact (Signer.getShares A.signer).keys_nodup
  refine ⟨_, by rw [lookup_reverse_openedShares,
    KeyMap.lookup_eq_some_of_mem hnodup (List.mem_reverse.2 henc)]; rfl, fun dst => ?_⟩
  rw [get?_ofList_decryptedEntries _ _ enc.keys_nodup]
  split_ifs with hdst
  · exact openShare_encryptShares laws h hPA hencr hdst
  · rfl

/-- What `B` stores, from a batch holding `A`'s encrypted shares among messages that list
    disjoint source parties, for a source party of `A`: `A`'s row of shares for `B`'s
    keys. -/
theorem Addressed.receivedShares_get? (laws : RoundTripLaws C pub) (h : Addressed pub A B)
    {PA : C.Point} (hPA : C.toPoint (pub A.networkPrivateKey) = some PA)
    {encrypted : List (Nat × KeyMap Bytes)} {r r' : C.Rng}
    (he : A.encryptPrivateShares (Signer.getShares A.signer).entries r = some (encrypted, r'))
    {src : Nat} {row : KeyMap C.Scalar} (hrow : (Signer.getShares A.signer).get? src = some row)
    (hd : B.decryptedShares = .empty) {L : List (Message C)}
    (hL : ∀ m ∈ L, m.isDkgBegin = false)
    (hdis : KeysDisjoint (Message.privateContributions (Signer.getKeyIds B.signer)
      B.sharedSecretWith) L)
    {d : Nat} (hmem : .dkgPrivateShares ⟨d, A.signerId, encrypted⟩ ∈ L) :
    ∃ m, (B.receivedShares L).get? src = some m ∧
      ∀ dst, m.get? dst = if dst ∈ Signer.getKeyIds B.signer then row.get? dst else none := by
  have hss := h.sharedSecretWith_eq hPA
  obtain ⟨m, hm, hrowm⟩ := h.lookup_openedShares laws hPA he hrow
  have hsrc : src ∈ (openedShares (C := C) (Signer.getKeyIds B.signer)
      (C.makeSharedSecret B.networkPrivateKey PA) encrypted).map Prod.fst := by
    rw [map_fst_openedShares, (encryptPrivateShares_spec A he).1]
    exact List.mem_map_of_mem _ (KeyMap.get?_eq_some_iff.1 hrow)
  refine ⟨m, ?_, hrowm⟩
  rw [receivedShares, hd, get?_foldl_roundStep_empty _ hL,
    lookup_reverse_flatMap_of_mem hdis hmem
      (by simpa only [Message.privateContributions, hss] using hsrc)]
  simpa only [Message.privateContributions, hss] using hm

end Addressed

-- ============================================================================
-- Two signers, any runs
-- ============================================================================

/-- Two signers agree on the commitments when they took in the same `DkgPublicShares`
    since their last `DkgBegin`, listing disjoint party ids: in any order, with any
    repetitions and interleaved with any other messages, from rounds with no commitment
    yet (as `SigningRound::new` and `reset` leave them). -/
theorem commitments_agree {t₁ t₂ s₁ s₂ : SigningRound C σ} {l₁ l₂ : List (Message C × C.Rng)}
    (hc₁ : t₁.commitments = .empty) (hc₂ : t₂.commitments = .empty)
    (h₁ : t₁.run l₁ = some s₁) (h₂ : t₂.run l₂ = some s₂)
    (hsame : ∀ p, .dkgPublicShares p ∈ sinceDkgBegin (l₁.map Prod.fst) ↔
      .dkgPublicShares p ∈ sinceDkgBegin (l₂.map Prod.fst))
    (hdis : KeysDisjoint Message.publicContributions (sinceDkgBegin (l₁.map Prod.fst))) :
    s₁.commitments = s₂.commitments := by
  have hmem : ∀ m, m.publicContributions ≠ [] →
      (m ∈ sinceDkgBegin (l₁.map Prod.fst) ↔ m ∈ sinceDkgBegin (l₂.map Prod.fst)) := by
    intro m hm
    cases m <;> simp only [Message.publicContributions, ne_eq, not_true_eq_false] at hm
    exact hsame _
  refine KeyMap.ext fun k => ?_
  rw [run_commitments h₁, run_commitments h₂, hc₁, hc₂, get?_foldl_roundStep,
    get?_foldl_roundStep]
  exact lookup_reverse_flatMap_congr hdis (hdis.of_mem_iff hmem) hmem k

-- ============================================================================
-- A group of signers
-- ============================================================================

section Group

variable {ι : Type} {S : ι → SigningRound C σ}

section Family

variable {M : ι → Message C} {f : Message C → List Nat}
  (hM : ∀ j k, k ∈ f (M j) ↔ k ∈ Signer.getKeyIds (S j).signer)
include hM

/-- Messages of distinct signers list disjoint ids when each lists its signer's key
    ids. -/
theorem disjoint_of_family
    (hdis : ∀ i j, i ≠ j → ∀ k ∈ Signer.getKeyIds (S i).signer, k ∉ Signer.getKeyIds (S j).signer)
    {L : List (Message C)} (hL : ∀ m ∈ L, ∃ j, m = M j) :
    ∀ m₁ ∈ L, ∀ m₂ ∈ L, m₁ ≠ m₂ → ∀ k ∈ f m₁, k ∉ f m₂ := by
  intro m₁ h₁ m₂ h₂ hne k hk₁ hk₂
  obtain ⟨j₁, rfl⟩ := hL m₁ h₁
  obtain ⟨j₂, rfl⟩ := hL m₂ h₂
  exact hdis j₁ j₂ (fun e => hne (e ▸ rfl)) k ((hM j₁ k).1 hk₁) ((hM j₂ k).1 hk₂)

end Family

variable [Fintype ι]

/-- The party ids of a group of signers: all of their key ids. -/
def partyIds (S : ι → SigningRound C σ) : Finset Nat :=
  Finset.univ.biUnion fun j => (Signer.getKeyIds (S j).signer).toFinset

section FamilyParties

variable {M : ι → Message C} {f : Message C → List Nat}
  (hM : ∀ j k, k ∈ f (M j) ↔ k ∈ Signer.getKeyIds (S j).signer)
include hM

/-- A list holding exactly the group's messages lists exactly the group's party ids. -/
theorem toFinset_flatMap_of_family {L : List (Message C)} (hL : ∀ m, m ∈ L ↔ ∃ j, m = M j) :
    (L.flatMap f).toFinset = partyIds S := by
  ext k
  simp only [List.mem_toFinset, List.mem_flatMap, partyIds, Finset.mem_biUnion,
    Finset.mem_univ, true_and]
  constructor
  · rintro ⟨m, hm, hk⟩
    obtain ⟨j, rfl⟩ := (hL m).1 hm
    exact ⟨j, (hM j k).1 hk⟩
  · rintro ⟨j, hk⟩
    exact ⟨M j, (hL _).2 ⟨j, rfl⟩, (hM j k).2 hk⟩

end FamilyParties

/-- A group of signers configured for one another: each can send private shares to each
    (`A = B` included), no key id is held twice, and every signer counts the parties of
    the whole group and can start a round.  The backend, once its polynomials are reset,
    commits to one polynomial per own key id and deals shares from each own key id to key
    ids of the group. -/
structure HonestGroup (pub : C.Scalar → C.PublicKey) (S : ι → SigningRound C σ) : Prop where
  addressed : ∀ i j, Addressed pub (S j) (S i)
  keyIds_nodup : ∀ i, (Signer.getKeyIds (S i).signer).Nodup
  keyIds_disjoint : ∀ i j, i ≠ j →
    ∀ k ∈ Signer.getKeyIds (S i).signer, k ∉ Signer.getKeyIds (S j).signer
  keyIds_ne_nil : ∀ i, Signer.getKeyIds (S i).signer ≠ []
  numParties : ∀ i, Signer.getNumParties (S i).signer = (partyIds S).card
  start : ∀ i, accepted (S i).state .dkgPublicDistribute
  polys : ∀ i rng rng', (Signer.getPolyCommitments (Signer.resetPolys (S i).signer rng).1
    rng').1.map C.partyId = Signer.getKeyIds (S i).signer
  sources : ∀ i rng k, k ∈ (Signer.getShares (Signer.resetPolys (S i).signer rng).1).keys ↔
    k ∈ Signer.getKeyIds (S i).signer
  dests : ∀ i rng, ∀ x ∈ (Signer.getShares (Signer.resetPolys (S i).signer rng).1).entries,
    ∀ dst ∈ x.2.keys, dst ∈ partyIds S

/-- A DKG round a coordinator runs among the signers `S`, each phase one
    `process_inbound_messages` batch per signer: the `DkgBegin` `b₁` (under the envelope
    signature `sig₁`), then any inbox holding the group's `DkgPublicShares`, then the
    `DkgPrivateBegin` `b₂`, then any inbox holding the group's `DkgPrivateShares`; `rng₁`
    and `rng₂` are the entropy each signer draws from in the two begin phases.  No batch
    panics or fails; the begin phases answer with the signer's shares, the first inbox
    moves to `DkgPrivateDistribute` silently, and the second closes the round with one
    `DkgEnd`, reporting whether `compute_secrets` succeeded.  At the end every signer holds
    the same commitments, every peer's commitments and shares for its own keys, and no
    invalid share. -/
def HonestDkg (sign : C.Scalar → Message C → Option Bytes) (S : ι → SigningRound C σ)
    (b₁ b₂ : DkgBegin) (sig₁ sig₂ : Bytes) (rng₁ rng₂ : ι → C.Rng) : Prop :=
  ∃ (A : ι → SigningRound C σ) (P : ι → DkgPublicShares C),
    (∀ i, ∃ out rng, (S i).processInboundMessages sign [⟨sig₁, .dkgBegin b₁⟩] (rng₁ i) =
        some (A i, .ok out, rng) ∧ out.map Packet.msg = [.dkgPublicShares (P i)]) ∧
    ∀ LB : ι → List (Packet C),
      (∀ i m, m ∈ (LB i).map Packet.msg ↔ ∃ j, m = .dkgPublicShares (P j)) →
    ∃ (B B' : ι → SigningRound C σ) (Q : ι → DkgPrivateShares),
      (∀ i rng, (A i).processInboundMessages sign (LB i) rng = some (B i, .ok [], rng) ∧
        (B i).state = .dkgPrivateDistribute) ∧
      (∀ i, ∃ out rng,
        (B i).processInboundMessages sign [⟨sig₂, .dkgPrivateBegin b₂⟩] (rng₂ i) =
          some (B' i, .ok out, rng) ∧ out.map Packet.msg = [.dkgPrivateShares (Q i)]) ∧
      ∀ LD : ι → List (Packet C),
        (∀ i m, m ∈ (LD i).map Packet.msg ↔ ∃ j, m = .dkgPrivateShares (Q j)) →
      ∃ D : ι → SigningRound C σ, ∀ i rng, ∃ out status,
        (B' i).processInboundMessages sign (LD i) rng = some (D i, .ok out, rng) ∧
        out.map Packet.msg =
          [.dkgEnd { dkgId := b₁.dkgId, signerId := (S i).signerId, status }] ∧
        status.isSuccess = (Signer.computeSecrets (A i).signer (D i).decryptedShares
          (D i).commitments.values).2.toBool ∧
        (D i).signer = (Signer.computeSecrets (A i).signer (D i).decryptedShares
          (D i).commitments.values).1 ∧
        (D i).state = .idle ∧ (D i).dkgId = b₁.dkgId ∧ (D i).invalidPrivateShares = [] ∧
        (∀ j, (D i).commitments = (D j).commitments) ∧
        (∀ j p c, (p, c) ∈ (P j).comms → (D i).commitments.get? p = some c) ∧
        ∀ j src row, (Signer.getShares (A j).signer).get? src = some row →
          ∃ m, (D i).decryptedShares.get? src = some m ∧
            ∀ dst, m.get? dst = if dst ∈ Signer.getKeyIds (S i).signer then row.get? dst else none

variable {pub : C.Scalar → C.PublicKey} (hg : HonestGroup pub S)
include hg

theorem HonestGroup.one_le_numParties (i : ι) : 1 ≤ Signer.getNumParties (S i).signer := by
  obtain ⟨k, hk⟩ := List.exists_mem_of_ne_nil _ (hg.keyIds_ne_nil i)
  rw [hg.numParties i, Nat.one_le_iff_ne_zero, Ne, Finset.card_eq_zero]
  exact Finset.ne_empty_of_mem (Finset.mem_biUnion.2 ⟨i, Finset.mem_univ _, List.mem_toFinset.2 hk⟩)

/-- A list holding exactly the group's messages lists as many ids as every restarted
    signer counts parties. -/
theorem HonestGroup.card_flatMap_of_family {M : ι → Message C} {f : Message C → List Nat}
    (hM : ∀ j k, k ∈ f (M j) ↔ k ∈ Signer.getKeyIds (S j).signer) {L : List (Message C)}
    (hL : ∀ m, m ∈ L ↔ ∃ j, m = M j) (i : ι) (rng : C.Rng) :
    (L.flatMap f).toFinset.card = Signer.getNumParties (Signer.resetPolys (S i).signer rng).1 := by
  rw [toFinset_flatMap_of_family hM hL, Signer.getNumParties_resetPolys, hg.numParties i]

/-- A restarted signer of an honest group encrypts its shares without panicking: every
    destination is a key id of the group, listed with a key that decompresses. -/
theorem HonestGroup.encryptPrivateShares_isSome
    (henc : ∀ key data rng, (C.encrypt key data rng).1.isSome) {i : ι} {s : SigningRound C σ}
    (hs : SameIdentity (S i) s) {rng : C.Rng}
    (hsig : s.signer = (Signer.resetPolys (S i).signer rng).1) (r : C.Rng) :
    ∃ e, s.encryptPrivateShares (Signer.getShares s.signer).entries r = some e := by
  refine s.encryptPrivateShares_isSome henc (fun x hx y hy => ?_) r
  rw [hsig] at hx
  obtain ⟨j, -, hj⟩ := Finset.mem_biUnion.1 (hg.dests i rng x hx y.1 (List.mem_map_of_mem _ hy))
  have hj := List.mem_toFinset.1 hj
  have hij := hg.addressed j i
  rw [Nat.mod_eq_of_lt (hij.keyId_lt _ hj), hs.publicKeys, hij.recipient _ hj, Option.some_bind]
  exact (hg.addressed i j).sender_point

/-- Inboxes holding the group's commitments, in any order and with any repetitions, fill
    `commitments` alike, with each signer's commitment for each of its key ids. -/
theorem HonestGroup.commitments_of_inboxes {P : ι → DkgPublicShares C}
    (hcomms : ∀ j, (P j).comms.map Prod.fst = Signer.getKeyIds (S j).signer)
    {L : ι → List (Message C)} (hL : ∀ i m, m ∈ L i ↔ ∃ j, m = .dkgPublicShares (P j)) (i : ι) :
    (∀ j, (L i).foldl (roundStep Message.publicContributions) .empty =
      (L j).foldl (roundStep Message.publicContributions) .empty) ∧
    ∀ j p c, (p, c) ∈ (P j).comms →
      ((L i).foldl (roundStep Message.publicContributions) .empty).get? p = some c := by
  have hparties : ∀ j k, k ∈ (Message.dkgPublicShares (P j)).publicParties ↔
      k ∈ Signer.getKeyIds (S j).signer := fun j k => by rw [← hcomms j]; rfl
  have hbegin : ∀ i, ∀ m ∈ L i, m.isDkgBegin = false := fun i m hm => by
    obtain ⟨j, rfl⟩ := (hL i m).1 hm
    rfl
  have hdis : ∀ i, KeysDisjoint Message.publicContributions (L i) := fun i =>
    disjoint_of_family hparties hg.keyIds_disjoint fun m hm => (hL i m).1 hm
  refine ⟨fun j => KeyMap.ext fun k => ?_, fun j p c hpc => ?_⟩
  · rw [get?_foldl_roundStep_empty _ (hbegin i), get?_foldl_roundStep_empty _ (hbegin j)]
    exact lookup_reverse_flatMap_congr (hdis i) (hdis j) (fun m _ => (hL i m).trans (hL j m).symm) k
  · have hnodup : ((P j).comms.reverse.map Prod.fst).Nodup := by
      rw [List.map_reverse, List.nodup_reverse, hcomms j]
      exact hg.keyIds_nodup j
    rw [get?_foldl_roundStep_empty _ (hbegin i), lookup_reverse_flatMap_of_mem (hdis i)
      ((hL i _).2 ⟨j, rfl⟩) (List.mem_map_of_mem Prod.fst hpc)]
    exact KeyMap.lookup_eq_some_of_mem hnodup (List.mem_reverse.2 hpc)

/-- An honest group runs a DKG round to the end (`HonestDkg`): whatever each signer's
    inboxes hold of the group's shares, in any order and with any repetitions, no batch
    panics or fails, every signer closes the round once, all agree on the commitments,
    each holds every peer's shares for its keys, and no share is invalid.  `hsign` and
    `henc` are what the code asserts with `expect` and `unwrap`: signing and encryption
    do not fail. -/
theorem honestDkg_completes (laws : RoundTripLaws C pub)
    {sign : C.Scalar → Message C → Option Bytes} (hsign : ∀ key m, (sign key m).isSome)
    (henc : ∀ key data rng, (C.encrypt key data rng).1.isSome)
    (b₁ b₂ : DkgBegin) (sig₁ sig₂ : Bytes) (rng₁ rng₂ : ι → C.Rng) :
    HonestDkg sign S b₁ b₂ sig₁ sig₂ rng₁ rng₂ := by
  -- `DkgBegin`: every signer restarts and sends its commitments
  set A : ι → SigningRound C σ := fun i =>
    { ((S i).reset b₁.dkgId (rng₁ i)).1 with state := .dkgPublicGather }
  set P : ι → DkgPublicShares C := fun i =>
    { dkgId := b₁.dkgId, signerId := (S i).signerId,
      comms := (Signer.getPolyCommitments (A i).signer ((S i).reset b₁.dkgId (rng₁ i)).2).1.map
        fun poly => (C.partyId poly, poly) }
  have hN : ∀ i, 1 ≤ Signer.getNumParties (A i).signer := fun i => by
    simpa [A] using hg.one_le_numParties i
  refine ⟨A, P, fun i => processInboundMessages_dkgBegin hsign (hg.start i)
    (hg.one_le_numParties i) sig₁ b₁ (rng₁ i), fun LB hLB => ?_⟩
  -- the commitments: every signer moves on
  have hcomms : ∀ j, (P j).comms.map Prod.fst = Signer.getKeyIds (S j).signer := fun j => by
    rw [List.map_map]
    exact hg.polys j _ _
  have hparties : ∀ j k, k ∈ (Message.dkgPublicShares (P j)).publicParties ↔
      k ∈ Signer.getKeyIds (S j).signer := fun j k => by rw [← hcomms j]; rfl
  have hfull : ∀ i, (((LB i).map Packet.msg).flatMap Message.publicParties).toFinset.card =
      Signer.getNumParties (A i).signer := fun i =>
    hg.card_flatMap_of_family hparties (hLB i) i (rng₁ i)
  have hB : ∀ i rng, (A i).processInboundMessages sign (LB i) rng = some ({ A i with
      commitments := ((LB i).map Packet.msg).foldl (roundStep Message.publicContributions) .empty,
      state := .dkgPrivateDistribute }, .ok [], rng) := fun i rng =>
    processInboundMessages_publicShares hsign rfl rfl rfl (hN i) (LB i)
      (fun m hm => let ⟨j, e⟩ := (hLB i m).1 hm; ⟨P j, e⟩)
      (disjoint_of_family hparties hg.keyIds_disjoint fun m hm => (hLB i m).1 hm) (hfull i) rng
  set B : ι → SigningRound C σ := fun i => { A i with
    commitments := ((LB i).map Packet.msg).foldl (roundStep Message.publicContributions) .empty,
    state := .dkgPrivateDistribute }
  have hid : ∀ i, SameIdentity (S i) (B i) := fun i =>
    ⟨rfl, rfl, rfl, Signer.getKeyIds_resetPolys _ _, Signer.getNumParties_resetPolys _ _⟩
  -- `DkgPrivateBegin`: every signer sends its encrypted shares
  choose e he using fun i => hg.encryptPrivateShares_isSome henc (hid i) rfl (rng₂ i)
  set Q : ι → DkgPrivateShares := fun i =>
    { dkgId := b₁.dkgId, signerId := (S i).signerId, shares := (e i).1 }
  refine ⟨B, fun i => { B i with state := .dkgPrivateGather }, Q, fun i rng => ⟨hB i rng, rfl⟩,
    fun i => ?_, fun LD hLD => ?_⟩
  · obtain ⟨out, h, hmsg⟩ :=
      processInboundMessages_dkgPrivateBegin hsign (s := B i) rfl rfl (hN i) (he i) sig₂ b₂
    exact ⟨out, _, h, hmsg⟩
  -- the shares: every signer closes the round
  set B' : ι → SigningRound C σ := fun i => { B i with state := .dkgPrivateGather }
  choose PA hPA using fun j => Option.isSome_iff_exists.1 (hg.addressed j j).sender_point
  have haddr : ∀ i j, Addressed pub (B j) (B' i) := fun i j =>
    (hg.addressed i j).of_sameIdentity (hid j) ⟨rfl, rfl, rfl, (hid i).keyIds, (hid i).numParties⟩
  have hss : ∀ i j, (B' i).sharedSecretWith (Q j).signerId =
      some (C.makeSharedSecret (S i).networkPrivateKey (PA j)) := fun i j =>
    (hg.addressed i j).sharedSecretWith_eq (hPA j)
  have hsources : ∀ j k, k ∈ (Message.dkgPrivateShares (C := C) (Q j)).privateSources ↔
      k ∈ Signer.getKeyIds (S j).signer := fun j k => by
    show k ∈ (e j).1.map Prod.fst ↔ _
    rw [(encryptPrivateShares_spec _ (he j)).1]
    exact hg.sources j (rng₁ j) k
  have hopened : ∀ i j k, k ∈ ((Message.dkgPrivateShares (C := C) (Q j)).privateContributions
      (Signer.getKeyIds (B' i).signer) (B' i).sharedSecretWith).map Prod.fst ↔
      k ∈ Signer.getKeyIds (S j).signer := fun i j k => by
    rw [map_fst_privateContributions fun p e => by cases e; rw [hss i j]; rfl]
    exact hsources j k
  have hsize : ∀ i, (B' i).commitments.size = Signer.getNumParties (B' i).signer := fun i =>
    (size_foldl_roundStep_empty _ fun m hm => by obtain ⟨j, rfl⟩ := (hLB i m).1 hm; rfl).trans
      (hfull i)
  refine ⟨fun i => { B' i with
    decryptedShares := (B' i).receivedShares ((LD i).map Packet.msg), state := .idle,
    signer := (Signer.computeSecrets (B' i).signer ((B' i).receivedShares ((LD i).map Packet.msg))
      (B' i).commitments.values).1 }, fun i rng => ?_⟩
  have hbegin : ∀ m ∈ (LD i).map Packet.msg, m.isDkgBegin = false := fun m hm => by
    obtain ⟨j, rfl⟩ := (hLD i m).1 hm
    rfl
  obtain ⟨out, status, h, hmsg, hsucc⟩ := processInboundMessages_privateShares hsign
    (s := B' i) rfl (hsize i) rfl rfl (hN i) (LD i)
    (fun m hm => let ⟨j, e⟩ := (hLD i m).1 hm; ⟨Q j, e, by rw [hss i j]; rfl⟩)
    (disjoint_of_family hsources hg.keyIds_disjoint fun m hm => (hLD i m).1 hm)
    (hg.card_flatMap_of_family hsources (hLD i) i (rng₁ i))
    (fun m hm => by
      obtain ⟨j, rfl⟩ := (hLD i m).1 hm
      simp only [Message.privateFailures, hss i j]
      exact failedSources_encryptPrivateShares (B := B' i) laws (haddr i j) (hPA j) (he j)) rng
  have hcommitments := hg.commitments_of_inboxes hcomms hLB i
  refine ⟨out, status, h, hmsg, hsucc, rfl, rfl, rfl, rfl, hcommitments.1, hcommitments.2,
    fun j src row hrow => ?_⟩
  -- what the signer stores for a source party of `j`: `j`'s row for its keys
  obtain ⟨m, hm, hrowm⟩ := (haddr i j).receivedShares_get? laws (hPA j) (he j) hrow rfl hbegin
    (disjoint_of_family (hopened i) hg.keyIds_disjoint fun m hm => (hLD i m).1 hm)
    ((hLD i _).2 ⟨j, rfl⟩)
  exact ⟨m, hm, by simpa [B', B, A] using hrowm⟩

end Group

end SigningRound

namespace NatBackend

open SigningRound

/-- `NatSigner` commits to one polynomial per key id. -/
theorem map_partyId_getPolyCommitments (s : NatSigner) (rng : Nat) :
    (Signer.getPolyCommitments s rng).1.map crypto.partyId = s.keyIds := by
  show (s.keyIds.map fun k => (k, s.poly)).map Prod.fst = s.keyIds
  simp [Function.comp_def]

/-- `NatSigner` deals shares from each of its key ids ... -/
theorem mem_keys_getShares (s : NatSigner) (k : Nat) :
    k ∈ (Signer.getShares s).keys ↔ k ∈ s.keyIds := by
  show k ∈ (KeyMap.ofList _).keys ↔ _
  rw [KeyMap.ofList, KeyMap.mem_keys_foldl_insert]
  simp [Function.comp_def]

/-- ... to the destinations `0..numParties`. -/
theorem lt_of_mem_getShares (s : NatSigner) :
    ∀ x ∈ (Signer.getShares s).entries, ∀ dst ∈ x.2.keys, dst < s.numParties := by
  intro x hx dst hdst
  obtain ⟨k, -, rfl⟩ := List.mem_map.1 (KeyMap.mem_of_mem_ofList hx)
  rw [KeyMap.ofList, KeyMap.mem_keys_foldl_insert] at hdst
  simpa using hdst

/-- Signer 2 of two: key id 1 and network private key 7. -/
def round₁ : SigningRound crypto NatSigner :=
  (SigningRound.new 1 2 2 2 [1] (7 : Nat) publicKeys (0 : Nat)).get (by decide)

/-- The two signers, `round₀` and `round₁`. -/
def pair (i : Bool) : SigningRound crypto NatSigner := if i then round₁ else round₀

theorem pair_honest : HonestGroup id pair where
  addressed i j := by cases i <;> cases j <;> exact ⟨by decide, by decide, by decide, by decide⟩
  keyIds_nodup := by decide
  keyIds_disjoint := by decide
  keyIds_ne_nil := by decide
  numParties := by decide
  start := by decide
  polys i _ _ := map_partyId_getPolyCommitments _ _
  sources i _ k := mem_keys_getShares _ k
  dests i _ x hx dst hdst := by
    have h : dst < 2 := by cases i <;> exact lt_of_mem_getShares _ x hx dst hdst
    rcases (show dst = 0 ∨ dst = 1 by omega) with rfl | rfl <;> decide

/-- The two signers run a round to the end, with a backend meeting the round-trip laws and
    an envelope signature that never fails. -/
theorem honestDkg_completes_pair :
    RoundTripLaws crypto id ∧ HonestGroup id pair ∧
      HonestDkg (fun _ _ => some []) pair ⟨1⟩ ⟨1⟩ [] [] (fun _ => 0) (fun _ => 0) :=
  ⟨roundTripLaws, pair_honest, honestDkg_completes pair_honest roundTripLaws (by intros; rfl)
    (by intros; rfl) _ _ _ _ _ _⟩

/-- The two signers' commitments for key ids 0 and 1. -/
def commitsOf (j : Nat) : DkgPublicShares crypto := ⟨1, j + 1, [(j, (j, 5))]⟩

/-- `round₀` takes the two commitments in order; `round₁` takes them the other way round,
    one of them twice, between `NonceRequest`s and after a `DkgBegin` it processes
    after a first `NonceRequest`. -/
theorem commitments_agree_pair :
    ∃ s₁ s₂, round₀.run [(.dkgBegin ⟨1⟩, 0), (.dkgPublicShares (commitsOf 0), 0),
        (.dkgPublicShares (commitsOf 1), 0)] = some s₁ ∧
      round₁.run [(.nonceRequest ⟨1, 1, 1⟩, 0), (.dkgBegin ⟨1⟩, 0),
        (.dkgPublicShares (commitsOf 1), 0), (.nonceRequest ⟨1, 1, 2⟩, 0),
        (.dkgPublicShares (commitsOf 0), 0), (.dkgPublicShares (commitsOf 0), 0)] = some s₂ ∧
      s₁.commitments = s₂.commitments := by
  obtain ⟨s₁, h₁⟩ : ∃ s₁, round₀.run [(.dkgBegin ⟨1⟩, 0), (.dkgPublicShares (commitsOf 0), 0),
      (.dkgPublicShares (commitsOf 1), 0)] = some s₁ := ⟨_, rfl⟩
  obtain ⟨s₂, h₂⟩ : ∃ s₂, round₁.run [(.nonceRequest ⟨1, 1, 1⟩, 0), (.dkgBegin ⟨1⟩, 0),
      (.dkgPublicShares (commitsOf 1), 0), (.nonceRequest ⟨1, 1, 2⟩, 0),
      (.dkgPublicShares (commitsOf 0), 0), (.dkgPublicShares (commitsOf 0), 0)] = some s₂ :=
    ⟨_, rfl⟩
  refine ⟨s₁, s₂, h₁, h₂, commitments_agree rfl rfl h₁ h₂ (fun p => ?_) ?_⟩
  · simp [sinceDkgBegin, Message.isDkgBegin]
    tauto
  · intro m₁ hm₁ m₂ hm₂ hne k hk hk'
    simp [sinceDkgBegin, Message.isDkgBegin] at hm₁ hm₂
    rcases hm₁ with rfl | rfl <;> rcases hm₂ with rfl | rfl <;>
      simp_all [Message.publicContributions, commitsOf]

end NatBackend

end Wsts
