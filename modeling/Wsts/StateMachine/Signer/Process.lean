/-
  Wsts.StateMachine.Signer.Process

  The message handlers of `SigningRound` and the two entry points `process` and
  `process_inbound_messages`, one definition per method of `state_machine/signer/mod.rs`
  and under its name.

  A handler returns the round it leaves, its `Result`, and the entropy it leaves
  (`OsRng` draws from one source, threaded through the draws of a call).  A handler
  that can panic returns an `Option`, `none` being the panic: an index `map[&k]` of a
  missing key, or an `unwrap`/`expect` of an error.  On `Err` the round is the one the
  handler had built when it failed, as `&mut self` leaves it in Rust.
-/

import Mathlib.Algebra.Group.Nat.Basic
import Wsts.StateMachine.Signer.Basic

namespace Wsts

namespace SigningRound

variable {C : Crypto} {σ : Type} [Signer C σ]

-- ============================================================================
-- Completion predicates and `dkg_ended`
-- ============================================================================

/-- `public_shares_done`: do we have all `DkgPublicShares`? -/
def publicSharesDone (s : SigningRound C σ) : Bool :=
  s.state == .dkgPublicGather && s.commitments.size == Signer.getNumParties s.signer

/-- `can_dkg_end`: do we have all `DkgPublicShares` and `DkgPrivateShares`? -/
def canDkgEnd (s : SigningRound C σ) : Bool :=
  s.state == .dkgPrivateGather && s.commitments.size == Signer.getNumParties s.signer &&
    s.decryptedShares.size == Signer.getNumParties s.signer

/-- `dkg_ended`: the `DkgEnd` closing the round.  The secrets are computed from the
    commitments in ascending party order when no private share was invalid.  It never
    fails. -/
def dkgEnded (s : SigningRound C σ) : SigningRound C σ × Message C :=
  let polys := s.commitments.values
  if s.invalidPrivateShares.isEmpty then
    let r := Signer.computeSecrets s.signer s.decryptedShares polys
    ({ s with signer := r.1 },
     .dkgEnd { dkgId := s.dkgId, signerId := s.signerId,
               status := match r.2 with
                 | .ok () => .success
                 | .error dkgErrorMap => .failure (.computeSecrets dkgErrorMap) })
  else
    (s, .dkgEnd { dkgId := s.dkgId, signerId := s.signerId,
                  status := .failure (.invalidPrivateShares s.invalidPrivateShares) })

-- ============================================================================
-- Signing responder
-- ============================================================================

/-- `nonce_request`: fresh nonces for every key of this signer. -/
def nonceRequest (s : SigningRound C σ) (nonceRequest : NonceRequest) (rng : C.Rng) :
    SigningRound C σ × List (Message C) × C.Rng :=
  let keyIds := Signer.getKeyIds s.signer
  let g := Signer.genNonces s.signer rng
  ({ s with signer := g.1 },
   [.nonceResponse { dkgId := nonceRequest.dkgId, signId := nonceRequest.signId,
                     signIterId := nonceRequest.signIterId, signerId := s.signerId,
                     keyIds, nonces := g.2.1 }],
   g.2.2)

/-- The signature shares `sign_share_request` computes for a request: the quorum's
    signer ids, key ids and nonces, concatenated in order, signed plainly or with the
    taproot tweak. -/
def signatureShares (s : SigningRound C σ) (signRequest : SignatureShareRequest C) :
    List C.SignatureShare :=
  let signerIds := signRequest.nonceResponses.map (·.signerId)
  let keyIds := signRequest.nonceResponses.flatMap (·.keyIds)
  let nonces := signRequest.nonceResponses.flatMap (·.nonces)
  if signRequest.isTaproot then
    Signer.signTaproot s.signer signRequest.message signerIds keyIds nonces
      signRequest.merkleRoot
  else Signer.sign s.signer signRequest.message signerIds keyIds nonces

/-- `sign_share_request`: one `SignatureShareResponse` for every entry of the quorum
    that carries this signer's id. -/
def signShareRequest (s : SigningRound C σ) (signRequest : SignatureShareRequest C) :
    List (Message C) :=
  (signRequest.nonceResponses.map (·.signerId)).filterMap fun signerId =>
    if signerId = s.signerId then
      some (.signatureShareResponse
        { dkgId := signRequest.dkgId, signId := signRequest.signId,
          signIterId := signRequest.signIterId, signerId,
          signatureShares := s.signatureShares signRequest })
    else none

-- ============================================================================
-- DKG handlers
-- ============================================================================

/-- `dkg_public_begin`: publish this signer's polynomial commitments, keyed by party. -/
def dkgPublicBegin (s : SigningRound C σ) (rng : C.Rng) :
    SigningRound C σ × Except Error (List (Message C)) × C.Rng :=
  let comms := Signer.getPolyCommitments s.signer rng
  let publicShare : DkgPublicShares C :=
    { dkgId := s.dkgId, signerId := s.signerId,
      comms := comms.1.map fun poly => (C.partyId poly, poly) }
  match s.moveTo .dkgPublicGather with
  | .ok s' => (s', .ok [.dkgPublicShares publicShare], comms.2)
  | .error e => (s, .error e, comms.2)

/-- `dkg_begin`: reset the round, then move to `DkgPublicDistribute` and begin it. -/
def dkgBegin (s : SigningRound C σ) (dkgBegin : DkgBegin) (rng : C.Rng) :
    SigningRound C σ × Except Error (List (Message C)) × C.Rng :=
  let r := s.reset dkgBegin.dkgId rng
  match r.1.moveTo .dkgPublicDistribute with
  | .ok s' => s'.dkgPublicBegin r.2
  | .error e => (r.1, .error e, r.2)

/-- The inner loop of `dkg_private_begin`: encrypt each share under the secret shared
    with the network key of key id `dst_key_id + 1`. -/
def encryptShares (s : SigningRound C σ) (encryptedShares : KeyMap Bytes) :
    List (Nat × C.Scalar) → C.Rng → Option (KeyMap Bytes × C.Rng)
  | [], rng => some (encryptedShares, rng)
  | (dstKeyId, privateShare) :: rest, rng => do
    let key ← s.publicKeys.keyIds.get? ((dstKeyId + 1) % 2 ^ 32)
    let dstPublicKey ← C.toPoint key
    let sharedSecret := C.makeSharedSecret s.networkPrivateKey dstPublicKey
    let e := C.encrypt sharedSecret (C.scalarToBytes privateShare) rng
    let encryptedShare ← e.1
    s.encryptShares (encryptedShares.insert dstKeyId encryptedShare) rest e.2

/-- The outer loop of `dkg_private_begin`: one entry per source party of
    `get_shares()`. -/
def encryptPrivateShares (s : SigningRound C σ) :
    List (Nat × KeyMap C.Scalar) → C.Rng → Option (List (Nat × KeyMap Bytes) × C.Rng)
  | [], rng => some ([], rng)
  | (keyId, shares) :: rest, rng => do
    let e ← s.encryptShares .empty shares.entries rng
    let more ← s.encryptPrivateShares rest e.2
    some ((keyId, e.1) :: more.1, more.2)

/-- `dkg_private_begin`: encrypt and send this signer's private shares, then move to
    `DkgPrivateGather`. -/
def dkgPrivateBegin (s : SigningRound C σ) (rng : C.Rng) :
    Option (SigningRound C σ × Except Error (List (Message C)) × C.Rng) := do
  let e ← s.encryptPrivateShares (Signer.getShares s.signer).entries rng
  let privateShares : DkgPrivateShares :=
    { dkgId := s.dkgId, signerId := s.signerId, shares := e.1 }
  match s.moveTo .dkgPrivateGather with
  | .ok s' => some (s', .ok [.dkgPrivateShares privateShares], e.2)
  | .error err => some (s, .error err, e.2)

/-- `dkg_public_share`: store every listed commitment, the last one listed for a party
    winning. -/
def dkgPublicShare (s : SigningRound C σ) (dkgPublicShares : DkgPublicShares C) :
    SigningRound C σ :=
  { s with commitments := dkgPublicShares.comms.foldl (fun m c => m.insert c.1 c.2)
                            s.commitments }

/-- The inner loop of `dkg_private_shares` over one source party's ciphertexts: decrypt
    and parse those addressed to one of `key_ids`; each failure appends the source party
    to the invalid list. -/
def decryptShares (keyIds : List Nat) (sharedSecret : Bytes) (srcId : Nat) :
    KeyMap C.Scalar × List Nat → List (Nat × Bytes) → KeyMap C.Scalar × List Nat
  | acc, [] => acc
  | acc, (dstKeyId, bytes) :: rest =>
    decryptShares keyIds sharedSecret srcId
      (if dstKeyId ∈ keyIds then
        match C.decrypt sharedSecret bytes with
        | some plain =>
          match C.scalarTryFrom plain with
          | some s => (acc.1.insert dstKeyId s, acc.2)
          | none => (acc.1, acc.2 ++ [srcId])
        | none => (acc.1, acc.2 ++ [srcId])
      else acc) rest

/-- One iteration of `dkg_private_shares`'s outer loop: the decrypted shares of source
    party `srcId` replace its entry. -/
def storePrivateShares (keyIds : List Nat) (sharedSecret : Bytes) (s : SigningRound C σ)
    (src : Nat × KeyMap Bytes) : SigningRound C σ :=
  let d := decryptShares keyIds sharedSecret src.1 (.empty, s.invalidPrivateShares)
    src.2.entries
  { s with decryptedShares := s.decryptedShares.insert src.1 d.1,
           invalidPrivateShares := d.2 }

/-- The opening of `dkg_private_shares`: the secret shared with the network key of
    signer `signerId`; `none` where indexing `public_keys.signers` or the `unwrap` of
    the point panics. -/
def sharedSecretWith (s : SigningRound C σ) (signerId : Nat) : Option Bytes := do
  let key ← s.publicKeys.signers.get? signerId
  let publicKey ← C.toPoint key
  some (C.makeSharedSecret s.networkPrivateKey publicKey)

/-- `dkg_private_shares`: decrypt with the secret shared with the sender's network key
    and store the shares addressed to us. -/
def dkgPrivateShares (s : SigningRound C σ) (dkgPrivateShares : DkgPrivateShares) :
    Option (SigningRound C σ) :=
  (s.sharedSecretWith dkgPrivateShares.signerId).map fun sharedSecret =>
    dkgPrivateShares.shares.foldl
      (storePrivateShares (Signer.getKeyIds s.signer) sharedSecret) s

-- ============================================================================
-- `process` and `process_inbound_messages`
-- ============================================================================

/-- The handler `process` dispatches a message to. -/
def handle (s : SigningRound C σ) (message : Message C) (rng : C.Rng) :
    Option (SigningRound C σ × Except Error (List (Message C)) × C.Rng) :=
  match message with
  | .dkgBegin dkgBegin => some (s.dkgBegin dkgBegin rng)
  | .dkgPrivateBegin _ => s.dkgPrivateBegin rng
  | .dkgPublicShares dkgPublicShares => some (s.dkgPublicShare dkgPublicShares, .ok [], rng)
  | .dkgPrivateShares dkgPrivateShares =>
    (s.dkgPrivateShares dkgPrivateShares).map fun s' => (s', .ok [], rng)
  | .signatureShareRequest signShareRequest =>
    some (s, .ok (s.signShareRequest signShareRequest), rng)
  | .nonceRequest nonceRequest =>
    let r := s.nonceRequest nonceRequest rng
    some (r.1, .ok r.2.1, r.2.2)
  | _ => some (s, .ok [], rng)

/-- What `process` does after a handler returned `Ok(out)`: move on when all public
    shares are in, or close the round with a `DkgEnd` when all shares are in. -/
def checkCompletion (s : SigningRound C σ) (out : List (Message C)) :
    SigningRound C σ × Except Error (List (Message C)) :=
  if s.publicSharesDone then
    match s.moveTo .dkgPrivateDistribute with
    | .ok s' => (s', .ok out)
    | .error e => (s, .error e)
  else if s.canDkgEnd then
    let r := s.dkgEnded
    match r.1.moveTo .idle with
    | .ok s' => (s', .ok (out ++ [r.2]))
    | .error e => (r.1, .error e)
  else (s, .ok out)

/-- `process`: handle one message, then run the completion check unless the handler
    failed. -/
def process (s : SigningRound C σ) (message : Message C) (rng : C.Rng) :
    Option (SigningRound C σ × Except Error (List (Message C)) × C.Rng) :=
  (s.handle message rng).map fun h =>
    match h.2.1 with
    | .ok out => ((h.1.checkCompletion out).1, (h.1.checkCompletion out).2, h.2.2)
    | .error e => (h.1, .error e, h.2.2)

/-- `process_inbound_messages`: process the packets' messages in order and sign every
    outbound message into a packet with `sign` (`Signable::sign` under the network
    private key, which the code `expect`s).  The first error ends the batch and drops
    every packet made so far. -/
def processInboundMessages (sign : C.Scalar → Message C → Option Bytes)
    (s : SigningRound C σ) :
    List (Packet C) → C.Rng → Option (SigningRound C σ × Except Error (List (Packet C)) × C.Rng)
  | [], rng => some (s, .ok [], rng)
  | message :: rest, rng => do
    let p ← s.process message.msg rng
    match p.2.1 with
    | .error e => some (p.1, .error e, p.2.2)
    | .ok outbounds =>
      let packets ← outbounds.mapM fun out =>
        (sign p.1.networkPrivateKey out).map fun sig => { sig, msg := out }
      let q ← p.1.processInboundMessages sign rest p.2.2
      some (q.1, q.2.1.map (packets ++ ·), q.2.2)

end SigningRound

end Wsts
