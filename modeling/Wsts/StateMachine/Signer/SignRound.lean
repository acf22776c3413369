/-
  Wsts.StateMachine.Signer.SignRound

  A signing round among a group of signers.

  A coordinator runs it in two batches per signer: a `NonceRequest`, then a
  `SignatureShareRequest` whose quorum forwards the group's `NonceResponse`s.  In a quiet
  round — every round a run reaches is one (`Reachable.quiet`) — the first batch draws
  fresh nonces and answers with the public ones (`processInboundMessages_nonceRequest`),
  and the second answers once for the one occurrence of the signer's id in the quorum
  (`processInboundMessages_signatureShareRequest`).  For signers with distinct ids and a
  quorum listing each signer's response once, in any order, every signer answers exactly
  once, under its own id, with the shares its signer computes while holding the nonces it
  drew for this round (`signingRound_one_response_each`).

  Over any run, from any round, the signing responses are accounted for one by one: in
  order, they are exactly those the run's requests ask of the signer, each echoing the ids
  of the request it answers (`runOutputs_signingResponses`, from one lemma per handler,
  `handle_responseTags`).
-/

import Mathlib.Data.List.Count
import Wsts.StateMachine.Signer.Dkg
import Wsts.StateMachine.Signer.Signing

namespace Wsts

variable {C : Crypto} {σ : Type} [Signer C σ]

/-- A signing response as the coordinator files it: whether it answers a `NonceRequest`,
    and the ids it echoes; `none` for every other message. -/
def Message.responseTag : Message C → Option (Bool × Nat × Nat × Nat)
  | .nonceResponse r => some (true, r.dkgId, r.signId, r.signIterId)
  | .signatureShareResponse r => some (false, r.dkgId, r.signId, r.signIterId)
  | _ => none

/-- The signing responses a message asks of signer `id`, filed the same way: one for a
    `NonceRequest`, one for each entry of a `SignatureShareRequest`'s quorum carrying `id`,
    none for any other message. -/
def Message.requestedOf (id : Nat) : Message C → List (Bool × Nat × Nat × Nat)
  | .nonceRequest q => [(true, q.dkgId, q.signId, q.signIterId)]
  | .signatureShareRequest r =>
    List.replicate ((r.nonceResponses.map (·.signerId)).count id)
      (false, r.dkgId, r.signId, r.signIterId)
  | _ => []

namespace SigningRound

-- ============================================================================
-- One signer, one batch
-- ============================================================================

section Phases

variable {sign : C.Scalar → Message C → Option Bytes} (hsign : ∀ key m, (sign key m).isSome)
include hsign

variable {s : SigningRound C σ}

/-- In a quiet round a `NonceRequest` draws fresh nonces and answers with the public ones,
    under the request's ids and this signer's id and key ids. -/
theorem processInboundMessages_nonceRequest (hq : Quiet s) (sig : Bytes) (q : NonceRequest)
    (rng : C.Rng) :
    ∃ packets, s.processInboundMessages sign [⟨sig, .nonceRequest q⟩] rng =
        some ({ s with signer := (Signer.genNonces s.signer rng).1 }, .ok packets,
          (Signer.genNonces s.signer rng).2.2) ∧
      packets.map Packet.msg = [.nonceResponse
        { dkgId := q.dkgId, signId := q.signId, signIterId := q.signIterId,
          signerId := s.signerId, keyIds := Signer.getKeyIds s.signer,
          nonces := (Signer.genNonces s.signer rng).2.1 }] := by
  have hh : s.handle (.nonceRequest q) rng = some ((s.nonceRequest q rng).1,
      .ok (s.nonceRequest q rng).2.1, (s.nonceRequest q rng).2.2) := rfl
  have h := process_of_handle_ok hh
  rw [checkCompletion_of_not_done _ (by simpa [publicSharesDone, nonceRequest] using hq.1)
    (by simpa [canDkgEnd, nonceRequest] using hq.2)] at h
  exact processInboundMessages_singleton hsign h sig

/-- In a quiet round a `SignatureShareRequest` whose quorum names this signer once is
    answered with one response: the request's ids, this signer's id, and the shares its
    signer computes over the quorum. -/
theorem processInboundMessages_signatureShareRequest (hq : Quiet s) (sig : Bytes)
    (req : SignatureShareRequest C)
    (hone : (req.nonceResponses.map (·.signerId)).count s.signerId = 1) (rng : C.Rng) :
    ∃ packets, s.processInboundMessages sign [⟨sig, .signatureShareRequest req⟩] rng =
        some (s, .ok packets, rng) ∧
      packets.map Packet.msg = [.signatureShareResponse
        { dkgId := req.dkgId, signId := req.signId, signIterId := req.signIterId,
          signerId := s.signerId, signatureShares := s.signatureShares req }] := by
  have hreq : s.signShareRequest req = [.signatureShareResponse
      { dkgId := req.dkgId, signId := req.signId, signIterId := req.signIterId,
        signerId := s.signerId, signatureShares := s.signatureShares req }] :=
    (filterMap_eq_replicate_count s.signerId _ _).trans (by rw [hone]; rfl)
  have hh : s.handle (.signatureShareRequest req) rng =
      some (s, .ok (s.signShareRequest req), rng) := rfl
  rw [hreq] at hh
  have h := process_of_handle_ok hh
  rw [checkCompletion_of_not_done _ hq.1 hq.2] at h
  exact processInboundMessages_singleton hsign h sig

end Phases

-- ============================================================================
-- A group of signers
-- ============================================================================

variable {ι : Type} {S : ι → SigningRound C σ}

/-- A signing round among quiet signers with distinct ids: each answers the `NonceRequest`
    with its public nonces, holding the secret ones `gen_nonces` drew; and a
    `SignatureShareRequest` whose quorum lists every signer's response once, in any order
    `l`, is answered by every signer with exactly one response, under its own id, carrying
    the shares its signer computes over that quorum. -/
theorem signingRound_one_response_each {sign : C.Scalar → Message C → Option Bytes}
    (hsign : ∀ key m, (sign key m).isSome) (hq : ∀ i, Quiet (S i))
    (hid : ∀ i j, (S i).signerId = (S j).signerId → i = j) (q : NonceRequest)
    (sig₁ sig₂ : Bytes) (rng : ι → C.Rng) :
    ∃ (N : ι → SigningRound C σ) (R : ι → NonceResponse C),
      (∀ i, ∃ out rng', (S i).processInboundMessages sign [⟨sig₁, .nonceRequest q⟩] (rng i) =
          some (N i, .ok out, rng') ∧ out.map Packet.msg = [.nonceResponse (R i)] ∧
        Signer.secretNonces (N i).signer =
          Signer.secretNonces (Signer.genNonces (S i).signer (rng i)).1) ∧
      ∀ l : List ι, l.Nodup → (∀ j, j ∈ l) →
      ∀ req : SignatureShareRequest C, req.nonceResponses = l.map R →
      ∀ i rng', ∃ out,
        (N i).processInboundMessages sign [⟨sig₂, .signatureShareRequest req⟩] rng' =
          some (N i, .ok out, rng') ∧
        out.map Packet.msg = [.signatureShareResponse
          { dkgId := req.dkgId, signId := req.signId, signIterId := req.signIterId,
            signerId := (S i).signerId, signatureShares := (N i).signatureShares req }] := by
  classical
  -- each signer keeps the nonces it drew, and answers with their public half
  let N i : SigningRound C σ := { S i with signer := (Signer.genNonces (S i).signer (rng i)).1 }
  refine ⟨N,
    fun i =>
      { dkgId := q.dkgId, signId := q.signId, signIterId := q.signIterId,
        signerId := (S i).signerId, keyIds := Signer.getKeyIds (S i).signer,
        nonces := (Signer.genNonces (S i).signer (rng i)).2.1 },
    fun i => ?_, fun l hl hall req hreq i rng' => ?_⟩
  · obtain ⟨out, h, hmsg⟩ := processInboundMessages_nonceRequest hsign (hq i) sig₁ q (rng i)
    exact ⟨out, _, h, hmsg, rfl⟩
  -- the quorum names each signer once
  have hone : (req.nonceResponses.map (·.signerId)).count (N i).signerId = 1 := by
    rw [hreq, List.map_map]
    show (l.map fun j => (S j).signerId).count (S i).signerId = 1
    rw [List.count_map_of_injective _ _ (fun a b => hid a b)]
    exact List.count_eq_one_of_mem hl (hall i)
  have hqN : Quiet (N i) := by
    simpa only [N, Quiet, publicSharesDone, canDkgEnd, Signer.getNumParties_genNonces] using hq i
  exact processInboundMessages_signatureShareRequest hsign hqN sig₂ req hone rng'

-- ============================================================================
-- Over a whole run
-- ============================================================================

section Responses

variable {s s' : SigningRound C σ} {m : Message C} {rng rng' : C.Rng}

/-- A handler's `Ok` answer holds exactly the signing responses its message asks for: the
    DKG handlers send shares only. -/
theorem handle_responseTags {out : List (Message C)}
    (h : s.handle m rng = some (s', .ok out, rng')) :
    out.filterMap Message.responseTag = m.requestedOf s.signerId := by
  cases m with
  | dkgBegin b =>
    cases hacc : accepted s.state .dkgPublicDistribute <;>
      simp [handle, dkgBegin_of_accepted, dkgBegin_of_not_accepted, hacc] at h
    simp [← h.2.1, Message.responseTag, Message.requestedOf]
  | dkgPrivateBegin b =>
    obtain ⟨e, -, he⟩ := Option.map_eq_some'.1 ((dkgPrivateBegin_eq s rng).symm.trans h)
    split_ifs at he <;> simp only [Prod.mk.injEq, Except.ok.injEq, reduceCtorEq, false_and,
      and_false] at he
    simp [← he.2.1, Message.responseTag, Message.requestedOf]
  | dkgPrivateShares p => obtain ⟨_, -, ⟨⟩⟩ := Option.map_eq_some'.1 h; rfl
  | signatureShareRequest q =>
    -- one response for each entry of the quorum carrying this signer's id
    simp only [handle, Option.some.injEq, Prod.mk.injEq, Except.ok.injEq] at h
    rw [← h.2.1, signShareRequest, filterMap_eq_replicate_count,
      List.filterMap_replicate]
    rfl
  | nonceRequest q =>
    simp only [handle, Option.some.injEq, Prod.mk.injEq, Except.ok.injEq] at h
    rw [← h.2.1]
    rfl
  | _ => cases h; rfl

/-- So does a whole call: the completion check adds at most a `DkgEnd`, and only a refused
    `DkgBegin` or `DkgPrivateBegin`, which asks for no response, fails. -/
theorem process_responseTags {r : Except Error (List (Message C))}
    (h : s.process m rng = some (s', r, rng')) :
    (answers r).filterMap Message.responseTag = m.requestedOf s.signerId := by
  obtain ⟨t, r₁, hh, ⟨out, rfl, -, hr⟩ | ⟨e, rfl, -, rfl⟩⟩ := process_inv h
  · obtain ⟨extra, hx, hend⟩ := t.checkCompletion_snd out
    have hnone : extra.filterMap Message.responseTag = [] := by
      rcases hend with rfl | ⟨_, rfl⟩ <;> rfl
    rw [hr, hx, answers, List.filterMap_append, handle_responseTags hh, hnone,
      List.append_nil]
  · rcases process_error h with ⟨b, rfl, -⟩ | ⟨b, rfl, -⟩ <;> rfl

end Responses

/-- Over any run, from any round, the signing responses a signer sends are, in order,
    exactly those the run's messages ask of it: one `NonceResponse` for each
    `NonceRequest` and one `SignatureShareResponse` for each entry of a quorum carrying
    its id, each echoing the ids of the request it answers; nothing else it sends is a
    signing response. -/
theorem runOutputs_signingResponses {s s' : SigningRound C σ} {l : List (Message C × C.Rng)}
    {outs : List (Message C)} (h : s.runOutputs l = some (s', outs)) :
    outs.filterMap Message.responseTag =
      (l.map Prod.fst).flatMap (Message.requestedOf s.signerId) := by
  induction l generalizing s outs with
  | nil => cases h; rfl
  | cons d l ih =>
    obtain ⟨t, r, rng₁, outs', hp, hrest, rfl⟩ := runOutputs_cons_inv h
    rw [List.filterMap_append, process_responseTags hp, ih hrest,
      ← (process_sameIdentity hp).signerId]
    rfl

end SigningRound

namespace NatBackend

open SigningRound

/-- The two signers run a signing round: both are quiet when new and have ids 0 and 1. -/
theorem signingRound_one_response_each_pair :
    (∀ i, Quiet (pair i)) ∧ (∀ i j, (pair i).signerId = (pair j).signerId → i = j) ∧
    ∃ (N : Bool → SigningRound crypto NatSigner) (R : Bool → NonceResponse crypto),
      (∀ i, ∃ out rng', (pair i).processInboundMessages (fun _ _ => some [])
          [⟨[], .nonceRequest ⟨1, 1, 1⟩⟩] (0 : Nat) = some (N i, .ok out, rng') ∧
        out.map Packet.msg = [.nonceResponse (R i)] ∧
        Signer.secretNonces (N i).signer =
          Signer.secretNonces (Signer.genNonces (pair i).signer (0 : Nat)).1) ∧
      ∀ l : List Bool, l.Nodup → (∀ j, j ∈ l) →
      ∀ req : SignatureShareRequest crypto, req.nonceResponses = l.map R →
      ∀ i rng', ∃ out,
        (N i).processInboundMessages (fun _ _ => some [])
            [⟨[], .signatureShareRequest req⟩] rng' = some (N i, .ok out, rng') ∧
        out.map Packet.msg = [.signatureShareResponse
          { dkgId := req.dkgId, signId := req.signId, signIterId := req.signIterId,
            signerId := (pair i).signerId, signatureShares := (N i).signatureShares req }] := by
  have hq : ∀ i, Quiet (pair i) := fun i => by cases i <;> exact ⟨rfl, rfl⟩
  have hid : ∀ i j, (pair i).signerId = (pair j).signerId → i = j := by decide
  exact ⟨hq, hid, signingRound_one_response_each (by intros; rfl) hq hid ⟨1, 1, 1⟩ [] []
    fun _ => 0⟩

/-- `round₀` gets a `NonceRequest`, a signature request whose quorum names it, and a
    `DkgBegin`: it sends two signing responses, in that order, and its shares. -/
theorem runOutputs_signingResponses_round₀ :
    ∃ s' outs, round₀.runOutputs [(.nonceRequest ⟨1, 1, 1⟩, 0),
        (.signatureShareRequest (signRequest [1]), 0), (.dkgBegin ⟨2⟩, 0)] = some (s', outs) ∧
      outs.filterMap Message.responseTag = [(true, 1, 1, 1), (false, 0, 0, 0)] := by
  obtain ⟨s', outs, h⟩ : ∃ s' outs, round₀.runOutputs [(.nonceRequest ⟨1, 1, 1⟩, 0),
      (.signatureShareRequest (signRequest [1]), 0), (.dkgBegin ⟨2⟩, 0)] = some (s', outs) :=
    ⟨_, _, rfl⟩
  exact ⟨s', outs, h, runOutputs_signingResponses h⟩

end NatBackend

end Wsts
