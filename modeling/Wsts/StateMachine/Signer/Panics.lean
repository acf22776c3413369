/-
  Wsts.StateMachine.Signer.Panics

  Where `process` panics.

  Only the two private-share handlers index maps and `unwrap`.  `dkg_private_begin` looks
  up the network key of key id `dst_key_id + 1` for every share `get_shares()` returns,
  and unwraps its point and the ciphertext; `dkg_private_shares` looks up the network key
  of the sender and unwraps its point.  In a round `Configured` for its signers and keys,
  with a backend whose encryption does not fail, the first never panics
  (`dkgPrivateBegin_isSome`), and `process` panics exactly on a `DkgPrivateShares` from a
  sender without a usable key (`process_eq_none_iff`): every configured signer has one
  (`sharedSecretWith_isSome`), and any other sender id aborts the signer instead of being
  refused with an error (`unknown_sender_panics`).

  These are the panics of `mod.rs`.  The `util::decrypt` it calls lies outside it and is
  taken as the backend's `decrypt`, which returns `none` where `dkg_private_shares`
  matches an `Err`.  The library function itself panics on a ciphertext shorter than 12
  bytes; that panic is not in this model, so `process_eq_none_iff` holds for a `decrypt`
  that fails with an error instead.
-/

import Wsts.StateMachine.Signer.Shares

namespace Wsts

namespace SigningRound

variable {C : Crypto} {σ : Type}

-- ============================================================================
-- `dkg_private_begin`
-- ============================================================================

section Loops

variable (s : SigningRound C σ) (henc : ∀ key data rng, (C.encrypt key data rng).1.isSome)
include henc

/-- The inner encryption loop runs through when every destination's key id has a key
    that decompresses and encryption does not fail. -/
theorem encryptShares_isSome {l : List (Nat × C.Scalar)}
    (hl : ∀ x ∈ l, ((s.publicKeys.keyIds.get? ((x.1 + 1) % 2 ^ 32)).bind C.toPoint).isSome)
    (acc : KeyMap Bytes) (rng : C.Rng) : ∃ e, s.encryptShares acc l rng = some e := by
  induction l generalizing acc rng with
  | nil => exact ⟨_, rfl⟩
  | cons x l ih =>
    obtain ⟨d, share⟩ := x
    obtain ⟨P, hP⟩ := Option.isSome_iff_exists.1 (hl _ (List.mem_cons_self _ _))
    obtain ⟨key, hkey, hP⟩ := Option.bind_eq_some.1 hP
    have henc' := henc (C.makeSharedSecret s.networkPrivateKey P) (C.scalarToBytes share) rng
    obtain ⟨c, hc⟩ := Option.isSome_iff_exists.1 henc'
    obtain ⟨e, he⟩ := ih (fun y hy => hl y (List.mem_cons_of_mem _ hy)) (acc.insert d c) _
    refine ⟨e, ?_⟩
    simp only [encryptShares, Option.bind_eq_bind, hkey, hP, Option.some_bind, hc]
    exact he

/-- The outer encryption loop runs through when the inner one does for every source. -/
theorem encryptPrivateShares_isSome {l : List (Nat × KeyMap C.Scalar)}
    (hl : ∀ x ∈ l, ∀ y ∈ x.2.entries,
      ((s.publicKeys.keyIds.get? ((y.1 + 1) % 2 ^ 32)).bind C.toPoint).isSome)
    (rng : C.Rng) : ∃ e, s.encryptPrivateShares l rng = some e := by
  induction l generalizing rng with
  | nil => exact ⟨_, rfl⟩
  | cons x l ih =>
    obtain ⟨e, he⟩ := s.encryptShares_isSome henc (hl x (List.mem_cons_self _ _)) .empty rng
    obtain ⟨more, hmore⟩ := ih (fun y hy => hl y (List.mem_cons_of_mem _ hy)) e.2
    exact ⟨((x.1, e.1) :: more.1, more.2), by
      simp only [encryptPrivateShares, Option.bind_eq_bind, he, hmore, Option.some_bind]⟩

end Loops

variable [Signer C σ]

/-- The configuration a round is deployed with: every signer id `1..=total_signers` and
    every key id `1..=total_keys` has a network key that decompresses, and `get_shares()`
    addresses only the key ids `0..total_keys`. -/
structure Configured (s : SigningRound C σ) : Prop where
  signers : ∀ j ∈ List.range' 1 s.totalSigners,
    ((s.publicKeys.signers.get? j).bind C.toPoint).isSome
  keyIds : ∀ k ∈ List.range' 1 s.totalKeys,
    ((s.publicKeys.keyIds.get? k).bind C.toPoint).isSome
  shares : ∀ x ∈ (Signer.getShares s.signer).entries, ∀ dst ∈ x.2.keys, dst < s.totalKeys

/-- In a configured round, with key ids that fit a `u32` and an encryption that does not
    fail, `dkg_private_begin` does not panic. -/
theorem dkgPrivateBegin_isSome {s : SigningRound C σ} (hc : s.Configured)
    (hK : s.totalKeys < 2 ^ 32) (henc : ∀ key data rng, (C.encrypt key data rng).1.isSome)
    (rng : C.Rng) : (s.dkgPrivateBegin rng).isSome := by
  -- each destination `dst < total_keys` is looked up under `dst + 1`, without wrapping
  have hl : ∀ x ∈ (Signer.getShares s.signer).entries, ∀ y ∈ x.2.entries,
      ((s.publicKeys.keyIds.get? ((y.1 + 1) % 2 ^ 32)).bind C.toPoint).isSome := by
    intro x hx y hy
    have hlt := hc.shares x hx y.1 (List.mem_map_of_mem _ hy)
    rw [Nat.mod_eq_of_lt (by omega)]
    exact hc.keyIds _ (List.mem_range'_1.2 ⟨by omega, by omega⟩)
  obtain ⟨e, he⟩ := s.encryptPrivateShares_isSome henc hl rng
  rw [dkgPrivateBegin_eq, he]
  rfl

-- ============================================================================
-- `dkg_private_shares` and `process`
-- ============================================================================

/-- Every configured signer id has a usable network key. -/
theorem sharedSecretWith_isSome {s : SigningRound C σ} (hc : s.Configured) {j : Nat}
    (hj : j ∈ List.range' 1 s.totalSigners) : (s.sharedSecretWith j).isSome := by
  obtain ⟨P, hP⟩ := Option.isSome_iff_exists.1 (hc.signers j hj)
  obtain ⟨key, hkey, hP⟩ := Option.bind_eq_some.1 hP
  simp [sharedSecretWith, hkey, hP]

/-- In a configured round, with key ids that fit a `u32`, an encryption that does not
    fail and a decryption that fails with an error, `process` panics exactly on a
    `DkgPrivateShares` whose sender has no usable network key. -/
theorem process_eq_none_iff {s : SigningRound C σ} (hc : s.Configured)
    (hK : s.totalKeys < 2 ^ 32) (henc : ∀ key data rng, (C.encrypt key data rng).1.isSome)
    (m : Message C) (rng : C.Rng) :
    s.process m rng = none ↔
      ∃ p, m = .dkgPrivateShares p ∧ s.sharedSecretWith p.signerId = none := by
  rw [process, Option.map_eq_none']
  cases m with
  | dkgPrivateBegin b =>
    simp [handle, Option.ne_none_iff_isSome.2 (dkgPrivateBegin_isSome hc hK henc rng)]
  | dkgPrivateShares p => simp [handle, dkgPrivateShares]
  | _ => simp [handle]

end SigningRound

namespace NatBackend

open SigningRound

/-- `round₀` is configured: signers 1 and 2 and key ids 1 and 2 have keys, and its shares
    go to key ids 0 and 1. -/
theorem round₀_configured : round₀.Configured :=
  ⟨by decide, by decide, by decide⟩

/-- `process_eq_none_iff` at `round₀`, whose backend never fails to encrypt. -/
theorem process_eq_none_iff_round₀ :
    round₀.Configured ∧ round₀.totalKeys < 2 ^ 32 ∧
      (∀ key data rng, (crypto.encrypt key data rng).1.isSome) ∧
      (round₀.process (.dkgPrivateShares ⟨0, 3, []⟩) 0 = none ↔
        ∃ p, Message.dkgPrivateShares (C := crypto) ⟨0, 3, []⟩ = .dkgPrivateShares p ∧
          round₀.sharedSecretWith p.signerId = none) :=
  ⟨round₀_configured, by decide, fun _ _ _ => rfl,
    process_eq_none_iff round₀_configured (by decide) (fun _ _ _ => rfl) _ _⟩

/-- A `DkgPrivateShares` from signer 3, whom `round₀` does not know, makes `process`
    panic on the index `public_keys.signers[&3]` instead of returning an error. -/
theorem unknown_sender_panics :
    Reachable round₀ ∧ round₀.Configured ∧ round₀.publicKeys.signers.get? 3 = none ∧
      round₀.process (.dkgPrivateShares ⟨0, 3, []⟩) 0 = none :=
  ⟨.new new_eq_round₀, round₀_configured, rfl,
    process_dkgPrivateShares_eq_none (s := round₀) (p := ⟨0, 3, []⟩) rfl 0⟩

end NatBackend

end Wsts
