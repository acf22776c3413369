/-
  Wsts.NatBackend

  A backend on natural numbers, to run the signer state machine on fixed inputs.

  Scalars, points and keys are numbers and the base point is `1`, so the public key of
  a private key `a` is `a` itself.  A shared secret is the unary string of the product
  of the two keys; a ciphertext is the key followed by the plaintext; a scalar is
  written as a unary string of ones.  The point `0` does not decompress.  The signer
  numbers its polynomials by the entropy they were drawn from and keeps its secret
  nonces in the clear.

  The backend meets the laws the round-trip theorem assumes: `decrypt` inverts
  `encrypt` (`decrypt_encrypt`), shared secrets are symmetric (`makeSharedSecret_comm`)
  and scalars survive their byte encoding (`scalarTryFrom_scalarToBytes`).
-/

import Wsts.StateMachine.Signer.Basic

namespace Wsts

namespace NatBackend

/-- Every type a number, the functions as the header describes. -/
@[reducible] def crypto : Crypto where
  Scalar := Nat
  Point := Nat
  PublicKey := Nat
  PolyCommitment := Nat × Nat
  PublicNonce := Nat
  Nonce := Nat
  SignatureShare := Nat
  MerkleRoot := Nat
  DkgErrors := Unit
  Rng := Nat
  partyId := Prod.fst
  toPoint pk := if pk = 0 then none else some pk
  makeSharedSecret a p := List.replicate (a * p) 0
  encrypt key data rng := (some (key ++ data), rng + 1)
  decrypt key c := if c.take key.length = key then some (c.drop key.length) else none
  scalarToBytes x := List.replicate x 1
  scalarTryFrom b := if b.all (· == 1) then some b.length else none

theorem decrypt_encrypt (key data : Bytes) (rng : Nat) (c : Bytes) (rng' : Nat)
    (h : crypto.encrypt key data rng = (some c, rng')) : crypto.decrypt key c = some data := by
  simp only [crypto, Prod.mk.injEq, Option.some.injEq] at h
  obtain ⟨rfl, -⟩ := h
  simp [crypto]

theorem makeSharedSecret_comm (a b : Nat) :
    crypto.makeSharedSecret a b = crypto.makeSharedSecret b a := by
  simp only [crypto, Nat.mul_comm]

theorem scalarTryFrom_scalarToBytes (x : Nat) :
    crypto.scalarTryFrom (crypto.scalarToBytes x) = some x := by
  simp [crypto, List.all_eq_true]

/-- A signer: its identity, the entropy its polynomials were drawn from, and its
    secret nonces. -/
structure NatSigner where
  keyIds : List Nat
  numParties : Nat
  poly : Nat
  nonces : List Nat
  deriving DecidableEq

/-- Party `k` sends destination key `d` the share `k + d + poly`; secrets are computed
    when every party sent shares and every commitment is in. -/
instance : Signer crypto NatSigner where
  new _ keyIds _ numKeys _ rng := ({ keyIds, numParties := numKeys, poly := rng, nonces := [] },
    rng + 1)
  getKeyIds := NatSigner.keyIds
  getNumParties := NatSigner.numParties
  getPolyCommitments s rng := (s.keyIds.map fun k => (k, s.poly), rng + 1)
  resetPolys s rng := ({ s with poly := rng }, rng + 1)
  getShares s := KeyMap.ofList (s.keyIds.map fun k =>
    (k, KeyMap.ofList ((List.range s.numParties).map fun d => (d, k + d + s.poly))))
  computeSecrets s shares polys :=
    (s, if shares.size = s.numParties ∧ polys.length = s.numParties then .ok () else .error ())
  genNonces s rng := ({ s with nonces := s.keyIds.map (· + rng) }, s.keyIds.map (· + rng),
    rng + 1)
  sign s msg _ _ _ := s.nonces.map (· + msg.length)
  signTaproot s msg _ _ _ _ := s.nonces.map (· + msg.length + 1)
  secretNonces := NatSigner.nonces
  getKeyIds_resetPolys _ _ := rfl
  getNumParties_resetPolys _ _ := rfl
  getKeyIds_computeSecrets _ _ _ := rfl
  getNumParties_computeSecrets _ _ _ := rfl
  getKeyIds_genNonces _ _ := rfl
  getNumParties_genNonces _ _ := rfl
  secretNonces_resetPolys _ _ := rfl
  secretNonces_computeSecrets _ _ _ := rfl

/-- Two signers with network private keys 5 and 7; signer `j` holds the key with
    0-based id `j - 1`, whose 1-based entry in `key_ids` is `j`. -/
def publicKeys : PublicKeys crypto :=
  ⟨KeyMap.ofList [(1, 5), (2, 7)], KeyMap.ofList [(1, 5), (2, 7)]⟩

/-- Signer 1 of two, with threshold 1, as `SigningRound::new` makes it. -/
def round₀ : SigningRound crypto NatSigner :=
  (SigningRound.new 1 2 2 1 [0] (5 : Nat) publicKeys (0 : Nat)).get (by decide)

theorem new_eq_round₀ :
    SigningRound.new 1 2 2 1 [0] (5 : Nat) publicKeys (0 : Nat) = some round₀ :=
  (Option.some_get _).symm

end NatBackend

end Wsts
