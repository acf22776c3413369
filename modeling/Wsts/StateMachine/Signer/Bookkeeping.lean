/-
  Wsts.StateMachine.Signer.Bookkeeping

  What the per-round maps hold after a run, from the history lemmas.

  Neither `dkg_public_share` nor `dkg_private_shares` checks a message: not its `dkg_id`
  against the round's, not the party or source ids it lists against its sender, not
  their number against `get_num_parties()`.  So, after any run from
  `SigningRound::new`:

  * each map holds under each key the last contribution to it among the messages
    processed since the most recent `DkgBegin`, whatever their `dkg_id`
    (`roundMaps_since_dkgBegin`);
  * one peer's message writes the entries of exactly the ids it lists, whoever owns
    them (`peerShares_write_listed_ids`);
  * each map has as many entries as those messages list distinct ids, which a single
    message can push past the number of parties (`roundMaps_size`).
-/

import Wsts.StateMachine.Signer.History

namespace Wsts

namespace SigningRound

variable {C : Crypto} {σ : Type} [Signer C σ]

theorem roundMaps_of_new {threshold totalSigners totalKeys signerId : Nat} {keyIds : List Nat}
    {networkPrivateKey : C.Scalar} {publicKeys : PublicKeys C} {rng : C.Rng}
    {s : SigningRound C σ}
    (h : SigningRound.new threshold totalSigners totalKeys signerId keyIds
      networkPrivateKey publicKeys rng = some s) :
    s.commitments = .empty ∧ s.decryptedShares = .empty := by
  unfold SigningRound.new at h
  split_ifs at h
  cases h
  exact ⟨rfl, rfl⟩

/-- The keys a message contributes to `decrypted_shares` are the source parties it
    lists, when its sender is known. -/
theorem map_fst_privateContributions {keyIds : List Nat} {secretWith : Nat → Option Bytes}
    {m : Message C} (h : ∀ p, m = .dkgPrivateShares p → (secretWith p.signerId).isSome) :
    (m.privateContributions keyIds secretWith).map Prod.fst = m.privateSources := by
  cases m with
  | dkgPrivateShares p =>
    obtain ⟨ss, hss⟩ := Option.isSome_iff_exists.1 (h p rfl)
    simp [Message.privateContributions, Message.privateSources, hss]
  | _ => rfl

section FromNew

variable {threshold totalSigners totalKeys signerId : Nat} {keyIds : List Nat}
  {networkPrivateKey : C.Scalar} {publicKeys : PublicKeys C} {rng : C.Rng}
  {s₀ s : SigningRound C σ} {l : List (Message C × C.Rng)}

/-- After any run from `SigningRound::new`, `commitments` has one entry per distinct
    party id and `decrypted_shares` one per distinct source id that the messages
    processed since the most recent `DkgBegin` list; nothing bounds these by
    `get_num_parties()`. -/
theorem roundMaps_size
    (h₀ : SigningRound.new threshold totalSigners totalKeys signerId keyIds
      networkPrivateKey publicKeys rng = some s₀)
    (h : s₀.run l = some s) :
    s.commitments.size =
        (((sinceDkgBegin (l.map Prod.fst)).flatMap Message.publicContributions).map
          Prod.fst).toFinset.card ∧
      s.decryptedShares.size =
        ((sinceDkgBegin (l.map Prod.fst)).flatMap Message.privateSources).toFinset.card := by
  obtain ⟨hc, hd⟩ := roundMaps_of_new h₀
  rw [run_commitments h, run_decryptedShares h, hc, hd, size_foldl_roundStep,
    size_foldl_roundStep]
  refine ⟨rfl, ?_⟩
  rw [List.map_flatMap]
  refine congrArg _ (congrArg _ (List.flatMap_congr fun m hm => ?_))
  -- every message since the last `DkgBegin` was processed, so its sender is known
  obtain ⟨-, pre, hpre, -⟩ := sinceDkgBegin_spec (l.map Prod.fst)
  have hm : m ∈ l.map Prod.fst := hpre ▸ List.mem_append_right pre hm
  obtain ⟨d, hd, rfl⟩ := List.mem_map.1 hm
  exact map_fst_privateContributions fun p hp => run_senders_known h d hd p hp

end FromNew

/-- A peer's shares message writes the entries of exactly the ids it lists, whoever sent
    it: a `DkgPublicShares` the commitment of each party it lists (the last one listed),
    a `DkgPrivateShares` the decrypted shares of each source party it lists (its last
    ciphertexts listed, opened) unless its sender's key is unknown and the call panics;
    every other entry is left alone. -/
theorem peerShares_write_listed_ids (s : SigningRound C σ) (rng : C.Rng) :
    (∀ p : DkgPublicShares C, ∃ s' r, s.process (.dkgPublicShares p) rng = some (s', r, rng) ∧
      s'.decryptedShares = s.decryptedShares ∧
      ∀ q, s'.commitments.get? q = (p.comms.reverse.lookup q).or (s.commitments.get? q)) ∧
    (∀ p : DkgPrivateShares,
      (s.sharedSecretWith p.signerId = none ∧ s.process (.dkgPrivateShares p) rng = none) ∨
      ∃ ss s' r, s.sharedSecretWith p.signerId = some ss ∧
        s.process (.dkgPrivateShares p) rng = some (s', r, rng) ∧
        s'.commitments = s.commitments ∧
        ∀ src, s'.decryptedShares.get? src =
          ((p.shares.reverse.lookup src).map fun cts =>
            KeyMap.ofList (decryptedEntries (Signer.getKeyIds s.signer) ss cts.entries)).or
            (s.decryptedShares.get? src)) := by
  refine ⟨fun p => ?_, fun p => ?_⟩
  · have hh : s.handle (.dkgPublicShares p) rng = some (s.dkgPublicShare p, .ok [], rng) := rfl
    refine ⟨_, _, process_of_handle_ok hh, by simp [dkgPublicShare], fun q => ?_⟩
    simp [dkgPublicShare, KeyMap.get?_foldl_insert]
  · cases hss : s.sharedSecretWith p.signerId with
    | none => exact .inl ⟨rfl, process_dkgPrivateShares_eq_none hss rng⟩
    | some ss =>
      obtain ⟨s', r, hp, hdec, -⟩ := process_dkgPrivateShares hss rng
      refine .inr ⟨ss, s', r, rfl, hp, ?_, fun src => ?_⟩
      · rw [process_commitments hp]
        rfl
      · rw [hdec, KeyMap.get?_foldl_insert, lookup_reverse_openedShares]

end SigningRound

namespace NatBackend

open SigningRound

/-- `round₀` restarted, then sent signer 1's own commitment for its party 0. -/
def ownCommitment : List (Message crypto × Nat) :=
  [(.dkgBegin ⟨1⟩, 1), (.dkgPublicShares ⟨1, 1, [(0, (0, 1))]⟩, 2)]

/-- Party 0 is signer 1's (key id `0 + 1` is registered with signer 1's network key, not
    signer 2's), yet signer 2's `DkgPublicShares` overwrites its commitment. -/
theorem foreign_commitment_overwritten :
    publicKeys.keyIds.get? (0 + 1) = publicKeys.signers.get? 1 ∧
      publicKeys.keyIds.get? (0 + 1) ≠ publicKeys.signers.get? 2 ∧
      ∃ s, round₀.run ownCommitment = some s ∧ s.commitments.get? 0 = some (0, 1) ∧
        ∃ s' r rng', s.process (.dkgPublicShares ⟨1, 2, [(0, (0, 9))]⟩) 3 = some (s', r, rng') ∧
          s'.commitments.get? 0 = some (0, 9) :=
  ⟨rfl, by decide, _, rfl, rfl, _, _, _, rfl, rfl⟩

/-- `round₀` restarted, then sent one `DkgPublicShares` listing three parties. -/
def overfullShares : List (Message crypto × Nat) :=
  [(.dkgBegin ⟨1⟩, 1), (.dkgPublicShares ⟨1, 2, [(0, (0, 1)), (1, (1, 1)), (5, (5, 1))]⟩, 2)]

/-- A signer of two parties ends up with three commitments. -/
theorem commitments_exceed_parties :
    ∃ s, round₀.run overfullShares = some s ∧ Signer.getNumParties s.signer = 2 ∧
      s.commitments.size = 3 :=
  ⟨_, rfl, rfl, rfl⟩

/-- `roundMaps_size` on that run. -/
theorem roundMaps_size_overfullShares :
    ∃ s, round₀.run overfullShares = some s ∧
      s.commitments.size = (((sinceDkgBegin (overfullShares.map Prod.fst)).flatMap
        Message.publicContributions).map Prod.fst).toFinset.card ∧
      s.decryptedShares.size = ((sinceDkgBegin (overfullShares.map Prod.fst)).flatMap
        Message.privateSources).toFinset.card :=
  ⟨_, rfl, roundMaps_size (l := overfullShares) new_eq_round₀ rfl⟩

end NatBackend

end Wsts
