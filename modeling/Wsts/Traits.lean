/-
  Wsts.Traits

  The `Signer` trait of `traits.rs`: the cryptographic signer the state machine drives
  (spec §6), as a class over its implementation type `σ`.  A `&mut self` method returns
  the signer it leaves; a method taking `rng: &mut RNG` returns the entropy it leaves.

  Two facts about every implementation are fields of the class:

    * `get_key_ids` and `get_num_parties` are the identity the signer was built with
      ("identity and fan-out", spec §6): no method changes them;
    * `gen_nonces` is the only method that changes the signer's secret nonces
      (`secretNonces`), which `sign` and `sign_taproot` read.

  `get_id` (read only by log lines) and `compute_intermediate` (never called by the
  state machine) are left out.
-/

import Wsts.Net

namespace Wsts

/-- The `Signer` trait, with the identity and nonce discipline every implementation
    keeps. -/
class Signer (C : outParam Crypto) (σ : Type) where
  /-- `Signer::new(party_id, key_ids, num_signers, num_keys, threshold, rng)` -/
  new : Nat → List Nat → Nat → Nat → Nat → C.Rng → σ × C.Rng
  /-- `get_key_ids` -/
  getKeyIds : σ → List Nat
  /-- `get_num_parties` -/
  getNumParties : σ → Nat
  /-- `get_poly_commitments(rng)` -/
  getPolyCommitments : σ → C.Rng → List C.PolyCommitment × C.Rng
  /-- `reset_polys(rng)` -/
  resetPolys : σ → C.Rng → σ × C.Rng
  /-- `get_shares()`: source party id ↦ (destination key id ↦ private share) -/
  getShares : σ → KeyMap (KeyMap C.Scalar)
  /-- `compute_secrets(shares, polys)` -/
  computeSecrets : σ → KeyMap (KeyMap C.Scalar) → List C.PolyCommitment →
    σ × Except C.DkgErrors Unit
  /-- `gen_nonces(rng)`: the new public nonces -/
  genNonces : σ → C.Rng → σ × List C.PublicNonce × C.Rng
  /-- `sign(msg, signer_ids, key_ids, nonces)` -/
  sign : σ → Bytes → List Nat → List Nat → List C.PublicNonce → List C.SignatureShare
  /-- `sign_taproot(msg, signer_ids, key_ids, nonces, merkle_root)` -/
  signTaproot : σ → Bytes → List Nat → List Nat → List C.PublicNonce →
    Option C.MerkleRoot → List C.SignatureShare
  /-- The secret nonces `gen_nonces` draws and `sign`/`sign_taproot` read. -/
  secretNonces : σ → List C.Nonce
  getKeyIds_resetPolys : ∀ s rng, getKeyIds (resetPolys s rng).1 = getKeyIds s
  getNumParties_resetPolys : ∀ s rng, getNumParties (resetPolys s rng).1 = getNumParties s
  getKeyIds_computeSecrets :
    ∀ s shares polys, getKeyIds (computeSecrets s shares polys).1 = getKeyIds s
  getNumParties_computeSecrets :
    ∀ s shares polys, getNumParties (computeSecrets s shares polys).1 = getNumParties s
  getKeyIds_genNonces : ∀ s rng, getKeyIds (genNonces s rng).1 = getKeyIds s
  getNumParties_genNonces : ∀ s rng, getNumParties (genNonces s rng).1 = getNumParties s
  secretNonces_resetPolys : ∀ s rng, secretNonces (resetPolys s rng).1 = secretNonces s
  secretNonces_computeSecrets :
    ∀ s shares polys, secretNonces (computeSecrets s shares polys).1 = secretNonces s

attribute [simp] Signer.getKeyIds_resetPolys Signer.getNumParties_resetPolys
  Signer.getKeyIds_computeSecrets Signer.getNumParties_computeSecrets
  Signer.getKeyIds_genNonces Signer.getNumParties_genNonces
  Signer.secretNonces_resetPolys Signer.secretNonces_computeSecrets

end Wsts
