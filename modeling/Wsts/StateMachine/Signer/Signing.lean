/-
  Wsts.StateMachine.Signer.Signing

  The signing responder: `nonce_request` and `sign_share_request`.

  The signer's secret nonces change in one place only, `gen_nonces`, which a
  `NonceRequest` calls (`process_secretNonces`); regenerating polynomials and computing
  secrets keep them, by the `Signer` laws.  `sign_share_request` neither checks that
  nonces were drawn since the last request nor consumes them: it answers in every state,
  with shares computed by the signer as it stands (`process_signatureShareRequest`).  So
  every request answered between two `NonceRequest`s is signed under the same secret
  nonces, whatever it asks to sign (`secretNonces_between_nonceRequests`).

  `sign_share_request` answers once for every entry of the quorum that carries this
  signer's id, so a quorum naming it twice gets two identical responses
  (`signShareRequest_one_per_occurrence`).

  The responder is orthogonal to DKG: after every call neither completion predicate
  holds (`Reachable.quiet`), so a signing message leaves the DKG fields alone and is
  answered only with nonce and signature-share responses
  (`signingResponder_orthogonal_to_dkg`).
-/

import Wsts.StateMachine.Signer.Run
import Wsts.NatBackend

namespace Wsts

variable {C : Crypto} {σ : Type} [Signer C σ]

/-- Whether a message drives DKG: a `DkgBegin`, a `DkgPrivateBegin` or a peer's shares.
    The others are the signing messages and the ones `process` ignores. -/
def Message.drivesDkg : Message C → Bool
  | .dkgBegin _ | .dkgPrivateBegin _ | .dkgPublicShares _ | .dkgPrivateShares _ => true
  | _ => false

namespace SigningRound

/-- The secret nonces a call on `m` leaves: those `gen_nonces` draws on a `NonceRequest`,
    the old ones otherwise. -/
def secretNoncesAfter (s : SigningRound C σ) (m : Message C) (rng : C.Rng) : List C.Nonce :=
  match m with
  | .nonceRequest _ => Signer.secretNonces (Signer.genNonces s.signer rng).1
  | _ => Signer.secretNonces s.signer

section Step

variable {s s' : SigningRound C σ} {m : Message C} {rng rng' : C.Rng}
  {r : Except Error (List (Message C))}

theorem handle_secretNonces (h : s.handle m rng = some (s', r, rng')) :
    Signer.secretNonces s'.signer = s.secretNoncesAfter m rng := by
  have hr := handle_round h
  cases m <;> simp only [secretNoncesAfter] at hr ⊢
  case dkgPrivateShares p => rw [eq_of_dkgPrivateShares s hr]
  all_goals subst hr; simp

/-- The completion check keeps the handler's secret nonces. -/
theorem process_secretNonces (h : s.process m rng = some (s', r, rng')) :
    Signer.secretNonces s'.signer = s.secretNoncesAfter m rng := by
  obtain ⟨s₁, r₁, hh, state, rfl | ⟨shares, polys, rfl⟩⟩ := process_frame h
  · have h₁ := handle_secretNonces hh
    exact h₁
  · rw [← handle_secretNonces hh]
    exact Signer.secretNonces_computeSecrets _ _ _

end Step

/-- A `SignatureShareRequest` is answered in every round, by the responses of
    `sign_share_request` then nothing or the completion check's `DkgEnd`, and leaves the
    secret nonces as they were. -/
theorem process_signatureShareRequest (s : SigningRound C σ) (req : SignatureShareRequest C)
    (rng : C.Rng) :
    ∃ s' extra, s.process (.signatureShareRequest req) rng =
        some (s', .ok (s.signShareRequest req ++ extra), rng) ∧
      (extra = [] ∨ ∃ e, extra = [.dkgEnd e]) ∧
      Signer.secretNonces s'.signer = Signer.secretNonces s.signer := by
  have hh : s.handle (.signatureShareRequest req) rng =
      some (s, .ok (s.signShareRequest req), rng) := rfl
  obtain ⟨extra, hx, hextra⟩ := checkCompletion_snd s (s.signShareRequest req)
  exact ⟨_, extra, by rw [process_of_handle_ok hh, hx], hextra,
    process_secretNonces (process_of_handle_ok hh)⟩

/-- A run with no `NonceRequest` keeps the secret nonces. -/
theorem run_secretNonces {s s₁ : SigningRound C σ} {l : List (Message C × C.Rng)}
    (hl : ∀ d ∈ l, ∀ q, d.1 ≠ .nonceRequest q) (h : s.run l = some s₁) :
    Signer.secretNonces s₁.signer = Signer.secretNonces s.signer := by
  induction l generalizing s with
  | nil => cases h; rfl
  | cons d l ih =>
    obtain ⟨⟨s', r, rng'⟩, hp, hr⟩ := Option.bind_eq_some.1 h
    rw [ih (fun d' hd' => hl d' (List.mem_cons_of_mem _ hd')) hr, process_secretNonces hp]
    obtain ⟨m, rng⟩ := d
    cases m <;> first | rfl | exact absurd rfl (hl _ (List.mem_cons_self _ _) _)

/-- Between two `NonceRequest`s the secret nonces stay as they were and every
    `SignatureShareRequest` is answered by `sign_share_request` of a signer holding them,
    whatever it asks to sign, followed by nothing or one `DkgEnd`; the next `NonceRequest`
    replaces them with what `gen_nonces` draws. -/
theorem secretNonces_between_nonceRequests {s s₁ : SigningRound C σ}
    {l : List (Message C × C.Rng)} (hl : ∀ d ∈ l, ∀ q, d.1 ≠ .nonceRequest q)
    (h : s.run l = some s₁) :
    Signer.secretNonces s₁.signer = Signer.secretNonces s.signer ∧
      (∀ req rng, ∃ s₂ extra, s₁.process (.signatureShareRequest req) rng =
          some (s₂, .ok (s₁.signShareRequest req ++ extra), rng) ∧
        (extra = [] ∨ ∃ e, extra = [.dkgEnd e]) ∧
        Signer.secretNonces s₂.signer = Signer.secretNonces s.signer) ∧
      (∀ q rng s₂ r rng', s₁.process (.nonceRequest q) rng = some (s₂, r, rng') →
        Signer.secretNonces s₂.signer =
          Signer.secretNonces (Signer.genNonces s₁.signer rng).1) := by
  have hkeep := run_secretNonces hl h
  refine ⟨hkeep, fun req rng => ?_, fun q rng s₂ r rng' hq => process_secretNonces hq⟩
  obtain ⟨s₂, extra, hp, hextra, hn⟩ := process_signatureShareRequest s₁ req rng
  exact ⟨s₂, extra, hp, hextra, hn.trans hkeep⟩

-- ============================================================================
-- The responses to a signature request
-- ============================================================================

/-- Keeping the entries equal to `a`, each mapped by `g`, keeps `count a` copies of
    `g a`. -/
theorem filterMap_eq_replicate_count (a : Nat) {β : Type} (g : Nat → β) (l : List Nat) :
    l.filterMap (fun x => if x = a then some (g x) else none) =
      List.replicate (l.count a) (g a) := by
  induction l with
  | nil => rfl
  | cons x l ih =>
    by_cases hx : x = a
    · subst hx
      simp [ih, List.replicate_succ]
    · simp [hx, ih, List.count_cons]

/-- `sign_share_request` sends one `SignatureShareResponse` for every entry of the quorum
    carrying this signer's id: none when it is absent, and copies of one response when it
    occurs more than once.  The response echoes the request's ids and carries the shares
    `sign_taproot` or `sign` computes over the quorum's concatenated ids and nonces. -/
theorem signShareRequest_one_per_occurrence (s : SigningRound C σ)
    (r : SignatureShareRequest C) :
    s.signShareRequest r =
      List.replicate ((r.nonceResponses.map (·.signerId)).count s.signerId)
        (.signatureShareResponse
          { dkgId := r.dkgId, signId := r.signId, signIterId := r.signIterId,
            signerId := s.signerId,
            signatureShares :=
              if r.isTaproot then
                Signer.signTaproot s.signer r.message (r.nonceResponses.map (·.signerId))
                  (r.nonceResponses.flatMap (·.keyIds)) (r.nonceResponses.flatMap (·.nonces))
                  r.merkleRoot
              else
                Signer.sign s.signer r.message (r.nonceResponses.map (·.signerId))
                  (r.nonceResponses.flatMap (·.keyIds))
                  (r.nonceResponses.flatMap (·.nonces)) }) :=
  filterMap_eq_replicate_count s.signerId _ _

-- ============================================================================
-- Orthogonal to DKG
-- ============================================================================

/-- Neither completion predicate holds, so the completion check of the next call does
    nothing unless its handler changes the round. -/
def Quiet (s : SigningRound C σ) : Prop :=
  s.publicSharesDone = false ∧ s.canDkgEnd = false

/-- The completion check leaves a quiet round: it moves on from the phase it completes. -/
theorem quiet_checkCompletion (s : SigningRound C σ) (out : List (Message C)) :
    Quiet (s.checkCompletion out).1 := by
  rw [checkCompletion_eq]
  split_ifs with h₁ h₂
  · simp [Quiet, publicSharesDone, canDkgEnd]
  · simp [Quiet, publicSharesDone, canDkgEnd]
  · exact ⟨by simpa using h₁, by simpa using h₂⟩

/-- A reset round is quiet for a signer of at least one party: its maps are empty. -/
theorem quiet_reset (s : SigningRound C σ) (hN : 1 ≤ Signer.getNumParties s.signer)
    (dkgId : Nat) (rng : C.Rng) : Quiet (s.reset dkgId rng).1 := by
  simp only [Quiet, publicSharesDone, canDkgEnd, reset_commitments, reset_signer,
    KeyMap.size_empty, Signer.getNumParties_resetPolys, Bool.and_eq_false_iff,
    beq_eq_false_iff_ne]
  omega

/-- Every call leaves a quiet round quiet: an `Ok` call ends with the completion check, a
    refused `DkgBegin` leaves a reset round and a refused `DkgPrivateBegin` the round it
    got. -/
theorem process_quiet {s s' : SigningRound C σ} {m : Message C} {rng rng' : C.Rng}
    {r : Except Error (List (Message C))} (hN : 1 ≤ Signer.getNumParties s.signer)
    (hq : Quiet s) (h : s.process m rng = some (s', r, rng')) : Quiet s' := by
  cases r with
  | error e =>
    rcases process_error h with ⟨b, -, -, rfl, -⟩ | ⟨b, -, -, rfl, -⟩
    · exact quiet_reset s hN _ _
    · exact hq
  | ok out =>
    obtain ⟨s₁, r₁, -, ⟨out', -, rfl, -⟩ | ⟨e, -, -, he⟩⟩ := process_inv h
    · exact quiet_checkCompletion s₁ out'
    · cases he

/-- After every call of a run from `SigningRound::new`, `Ok` or `Err`, neither
    `public_shares_done` nor `can_dkg_end` holds. -/
theorem Reachable.quiet {s : SigningRound C σ} (hs : Reachable s)
    (hN : 1 ≤ Signer.getNumParties s.signer) : Quiet s := by
  induction hs with
  | new h => simp [Quiet, publicSharesDone, canDkgEnd, state_of_new h]
  | process _ h ih =>
    have hN' := (process_sameIdentity h).numParties ▸ hN
    exact process_quiet hN' (ih hN') h

/-- The handler of a signing message, or of one `process` ignores, answers `Ok` with nonce
    and signature-share responses only, and changes at most the signer, keeping its number
    of parties. -/
theorem handle_of_not_drivesDkg (s : SigningRound C σ) {m : Message C}
    (hm : m.drivesDkg = false) (rng : C.Rng) :
    ∃ t out rng', s.handle m rng = some (t, .ok out, rng') ∧
      t = { s with signer := t.signer } ∧
      Signer.getNumParties t.signer = Signer.getNumParties s.signer ∧
      ∀ a ∈ out, (∃ r, a = .nonceResponse r) ∨ ∃ r, a = .signatureShareResponse r := by
  cases m <;> simp only [Message.drivesDkg, Bool.true_eq_false] at hm
  case nonceRequest q =>
    exact ⟨_, _, _, rfl, rfl, by simp [nonceRequest], by simp [nonceRequest]⟩
  case signatureShareRequest r =>
    refine ⟨s, _, rng, rfl, rfl, rfl, fun a ha => .inr ?_⟩
    obtain ⟨x, -, hx⟩ := List.mem_filterMap.1 ha
    split_ifs at hx
    exact ⟨_, (Option.some.inj hx).symm⟩
  all_goals exact ⟨s, [], rng, rfl, rfl, rfl, by simp⟩

/-- The signing responder is orthogonal to DKG.  For a signer of at least one party, in
    every round reachable from `SigningRound::new`, neither completion predicate holds, and
    a `NonceRequest`, `SignatureShareRequest`, `DkgEnd`, `NonceResponse` or
    `SignatureShareResponse` is answered `Ok`, leaves the state, the DKG id and the three
    DKG maps as they were, and is answered with nonce and signature-share responses
    only. -/
theorem signingResponder_orthogonal_to_dkg {s : SigningRound C σ} (hs : Reachable s)
    (hN : 1 ≤ Signer.getNumParties s.signer) {m : Message C} (hm : m.drivesDkg = false)
    (rng : C.Rng) :
    (s.publicSharesDone = false ∧ s.canDkgEnd = false) ∧
      ∃ s' out rng', s.process m rng = some (s', .ok out, rng') ∧
        s'.state = s.state ∧ s'.dkgId = s.dkgId ∧ s'.commitments = s.commitments ∧
        s'.decryptedShares = s.decryptedShares ∧
        s'.invalidPrivateShares = s.invalidPrivateShares ∧
        ∀ a ∈ out, (∃ r, a = .nonceResponse r) ∨ ∃ r, a = .signatureShareResponse r := by
  have hq := hs.quiet hN
  obtain ⟨t, out, rng', hh, ht, htN, hout⟩ := s.handle_of_not_drivesDkg hm rng
  -- the completion predicates read only fields the handler keeps
  have hqt : Quiet t := by
    rw [ht]
    simpa only [Quiet, publicSharesDone, canDkgEnd, htN] using hq
  refine ⟨hq, t, out, rng', ?_, ?_⟩
  · rw [process_of_handle_ok hh, checkCompletion_of_not_done out hqt.1 hqt.2]
  · rw [ht]
    exact ⟨rfl, rfl, rfl, rfl, rfl, hout⟩

end SigningRound

namespace NatBackend

open SigningRound

/-- A request to sign `msg` for a quorum of signer 1 alone. -/
def signRequest (msg : Bytes) : SignatureShareRequest crypto :=
  { dkgId := 0, signId := 0, signIterId := 0,
    nonceResponses := [{ dkgId := 0, signId := 0, signIterId := 0, signerId := 1,
                         keyIds := [0], nonces := [] }],
    message := msg, isTaproot := false, merkleRoot := none }

/-- `round₀` answers a signature request before any `NonceRequest`; after one
    `NonceRequest` it answers two requests for different messages, both signed under the
    nonce 3 that request drew. -/
theorem requests_signed_without_fresh_nonces :
    (∃ s rng', round₀.process (.signatureShareRequest (signRequest [1])) 0 =
        some (s, .ok [.signatureShareResponse ⟨0, 0, 0, 1, []⟩], rng')) ∧
      ∃ s₀ s₁ s₂ r rng₀ rng₁ rng₂,
        round₀.process (.nonceRequest ⟨0, 0, 0⟩) 3 = some (s₀, r, rng₀) ∧
        Signer.secretNonces s₀.signer = [3] ∧
        s₀.process (.signatureShareRequest (signRequest [1])) rng₀ =
          some (s₁, .ok [.signatureShareResponse ⟨0, 0, 0, 1, [3 + 1]⟩], rng₁) ∧
        s₁.process (.signatureShareRequest (signRequest [2, 2])) rng₁ =
          some (s₂, .ok [.signatureShareResponse ⟨0, 0, 0, 1, [3 + 2]⟩], rng₂) :=
  ⟨⟨_, _, rfl⟩, _, _, _, _, _, _, _, rfl, rfl, rfl, rfl⟩

/-- `secretNonces_between_nonceRequests` after one signature request to `round₀`. -/
theorem secretNonces_between_nonceRequests_round₀ :
    ∃ s₁, round₀.run [(.signatureShareRequest (signRequest [1]), 0)] = some s₁ ∧
      Signer.secretNonces s₁.signer = Signer.secretNonces round₀.signer ∧
      (∀ req rng, ∃ s₂ extra, s₁.process (.signatureShareRequest req) rng =
          some (s₂, .ok (s₁.signShareRequest req ++ extra), rng) ∧
        (extra = [] ∨ ∃ e, extra = [.dkgEnd e]) ∧
        Signer.secretNonces s₂.signer = Signer.secretNonces round₀.signer) ∧
      (∀ q rng s₂ r rng', s₁.process (.nonceRequest q) rng = some (s₂, r, rng') →
        Signer.secretNonces s₂.signer =
          Signer.secretNonces (Signer.genNonces s₁.signer rng).1) :=
  ⟨_, rfl, secretNonces_between_nonceRequests
    (l := [(.signatureShareRequest (signRequest [1]), 0)]) (by simp) rfl⟩

/-- A request whose quorum names signer 1 twice. -/
def signRequestTwice : SignatureShareRequest crypto :=
  { signRequest [1] with
    nonceResponses := [{ dkgId := 0, signId := 0, signIterId := 0, signerId := 1,
                         keyIds := [0], nonces := [] },
                       { dkgId := 0, signId := 0, signIterId := 0, signerId := 1,
                         keyIds := [0], nonces := [] }] }

/-- Signer 1 occurs in the quorum, and `round₀` answers with two responses, not one. -/
theorem duplicate_quorum_two_responses :
    signRequestTwice.nonceResponses.map (·.signerId) = [1, 1] ∧
      ∃ s' rng', round₀.process (.signatureShareRequest signRequestTwice) 0 =
        some (s', .ok [.signatureShareResponse ⟨0, 0, 0, 1, []⟩,
          .signatureShareResponse ⟨0, 0, 0, 1, []⟩], rng') :=
  ⟨rfl, _, _, rfl⟩

/-- `signingResponder_orthogonal_to_dkg` at `round₀` and a `NonceRequest`. -/
theorem signingResponder_orthogonal_to_dkg_round₀ :
    Reachable round₀ ∧ 1 ≤ Signer.getNumParties round₀.signer ∧
      (round₀.publicSharesDone = false ∧ round₀.canDkgEnd = false) ∧
      ∃ s' out rng',
        round₀.process (.nonceRequest ⟨0, 0, 0⟩) 3 = some (s', .ok out, rng') ∧
        s'.state = round₀.state ∧ s'.dkgId = round₀.dkgId ∧
        s'.commitments = round₀.commitments ∧ s'.decryptedShares = round₀.decryptedShares ∧
        s'.invalidPrivateShares = round₀.invalidPrivateShares ∧
        ∀ a ∈ out, (∃ r, a = .nonceResponse r) ∨ ∃ r, a = .signatureShareResponse r :=
  ⟨.new new_eq_round₀, by decide,
    signingResponder_orthogonal_to_dkg (.new new_eq_round₀) (by decide)
      (m := .nonceRequest ⟨0, 0, 0⟩) rfl 3⟩

end NatBackend

end Wsts
