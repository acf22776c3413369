/-
  Wsts.Net

  The data the signer state machine exchanges, and the external cryptography it is
  written against.

  Neither `net.rs`, `common.rs`, `util.rs` nor p256k1 is under `src/`; the signer only
  moves their values around and calls a handful of their functions.  `Crypto` bundles
  those types and functions as parameters; the message types are read off their uses in
  `state_machine/signer/mod.rs`.  In particular `DkgPrivateBegin` carries a `DkgBegin`
  (the two share one arm of the envelope `match` in `process_inbound_messages`).

  Every `u32` and `u64` identifier is a `Nat`.  The one piece of arithmetic on them,
  `dst_key_id + 1` in `dkg_private_begin`, is taken modulo `2 ^ 32` where it is used.
-/

import Wsts.KeyMap

namespace Wsts

/-- Byte strings: `Vec<u8>`, `[u8; 32]`. -/
abbrev Bytes := List UInt8

/-- The external cryptography: the p256k1 and `crate::common` types the signer stores,
    and the functions it calls on them.  A failing `Result` is `none`; the code only
    logs or unwraps the error values. -/
structure Crypto where
  /-- `p256k1::scalar::Scalar` -/
  Scalar : Type
  /-- `p256k1::point::Point` -/
  Point : Type
  /-- `ecdsa::PublicKey`, the entries of `PublicKeys` -/
  PublicKey : Type
  /-- `common::PolyCommitment` -/
  PolyCommitment : Type
  /-- `common::PublicNonce` -/
  PublicNonce : Type
  /-- `common::Nonce`: a secret nonce held inside a `Signer` -/
  Nonce : Type
  /-- `common::SignatureShare` -/
  SignatureShare : Type
  /-- `common::MerkleRoot` -/
  MerkleRoot : Type
  /-- `HashMap<u32, DkgError>`, what `compute_secrets` fails with -/
  DkgErrors : Type
  /-- The state of the entropy source `OsRng` draws from -/
  Rng : Type
  /-- `poly.id.id.get_u32()`: the party a commitment is for -/
  partyId : PolyCommitment → Nat
  /-- `Point::try_from(&Compressed::from(pk.to_bytes()))` -/
  toPoint : PublicKey → Option Point
  /-- `util::make_shared_secret(private_key, public_key)` -/
  makeSharedSecret : Scalar → Point → Bytes
  /-- `util::encrypt(key, data, rng)` -/
  encrypt : Bytes → Bytes → Rng → Option Bytes × Rng
  /-- `util::decrypt(key, data)` -/
  decrypt : Bytes → Bytes → Option Bytes
  /-- `Scalar::to_bytes` -/
  scalarToBytes : Scalar → Bytes
  /-- `Scalar::try_from(&[u8])` -/
  scalarTryFrom : Bytes → Option Scalar

variable (C : Crypto)

/-- `state_machine::PublicKeys`: the network key of each signer id and of each key id. -/
structure PublicKeys where
  signers : KeyMap C.PublicKey
  keyIds : KeyMap C.PublicKey

-- ============================================================================
-- Messages (`net.rs`)
-- ============================================================================

/-- `DkgBegin`, also the payload of `DkgPrivateBegin`. -/
structure DkgBegin where
  dkgId : Nat
  deriving DecidableEq

/-- `DkgPublicShares`: a sender's polynomial commitments, keyed by party id. -/
structure DkgPublicShares where
  dkgId : Nat
  signerId : Nat
  comms : List (Nat × C.PolyCommitment)

/-- `DkgPrivateShares`: for each source party, its ciphertexts keyed by destination key
    id. -/
structure DkgPrivateShares where
  dkgId : Nat
  signerId : Nat
  shares : List (Nat × KeyMap Bytes)

/-- What `dkg_ended` formats with `{:?}` into a `DkgStatus::Failure` string. -/
inductive DkgFailure where
  /-- `compute_secrets` failed with this error map -/
  | computeSecrets (errors : C.DkgErrors)
  /-- some private shares did not decrypt or parse; their source parties -/
  | invalidPrivateShares (srcIds : List Nat)

/-- `DkgStatus`. -/
inductive DkgStatus where
  | success
  | failure (diagnostic : DkgFailure C)

/-- `DkgEnd`. -/
structure DkgEnd where
  dkgId : Nat
  signerId : Nat
  status : DkgStatus C

/-- `NonceRequest`. -/
structure NonceRequest where
  dkgId : Nat
  signId : Nat
  signIterId : Nat
  deriving DecidableEq

/-- `NonceResponse`. -/
structure NonceResponse where
  dkgId : Nat
  signId : Nat
  signIterId : Nat
  signerId : Nat
  keyIds : List Nat
  nonces : List C.PublicNonce

/-- `SignatureShareRequest`: the quorum's nonce responses and what to sign. -/
structure SignatureShareRequest where
  dkgId : Nat
  signId : Nat
  signIterId : Nat
  nonceResponses : List (NonceResponse C)
  message : Bytes
  isTaproot : Bool
  merkleRoot : Option C.MerkleRoot

/-- `SignatureShareResponse`. -/
structure SignatureShareResponse where
  dkgId : Nat
  signId : Nat
  signIterId : Nat
  signerId : Nat
  signatureShares : List C.SignatureShare

/-- `net::Message`. -/
inductive Message where
  | dkgBegin (msg : DkgBegin)
  | dkgPrivateBegin (msg : DkgBegin)
  | dkgEnd (msg : DkgEnd C)
  | dkgPublicShares (msg : DkgPublicShares C)
  | dkgPrivateShares (msg : DkgPrivateShares)
  | nonceRequest (msg : NonceRequest)
  | nonceResponse (msg : NonceResponse C)
  | signatureShareRequest (msg : SignatureShareRequest C)
  | signatureShareResponse (msg : SignatureShareResponse C)

/-- `net::Packet`: a message and the envelope signature over it. -/
structure Packet where
  sig : Bytes
  msg : Message C

end Wsts
