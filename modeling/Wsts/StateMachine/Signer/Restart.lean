/-
  Wsts.StateMachine.Signer.Restart

  Restarting DKG with a `DkgBegin` (`dkg_begin`, `reset`, `can_move_to`).

  A reachable round rests in `Idle`, `DkgPublicGather`, `DkgPrivateDistribute` or
  `DkgPrivateGather`.  From the first three a `DkgBegin{d}` restarts the round: the only
  answer is this signer's `DkgPublicShares{d}`, and the round is left in
  `DkgPublicGather` with id `d` and empty bookkeeping.  The transition graph does not
  lead from `DkgPrivateGather` back to `DkgPublicDistribute`: there the call fails with
  `BadStateChange`, leaving the round reset but still in `DkgPrivateGather`.
-/

import Wsts.StateMachine.Signer.Run
import Wsts.NatBackend

namespace Wsts

namespace SigningRound

variable {C : Crypto} {σ : Type} [Signer C σ]

theorem accepted_dkgPublicDistribute {q : State} (hq : q.resting)
    (h : q ≠ .dkgPrivateGather) : accepted q .dkgPublicDistribute := by
  cases q <;> simp_all [State.resting, accepted]

/-- From every reachable round of a signer with at least one party, a `DkgBegin{d}`
    restarts DKG unless the round is in `DkgPrivateGather`, where it is refused after
    the reset. -/
theorem dkgBegin_restarts {s : SigningRound C σ} (hs : Reachable s)
    (hN : 1 ≤ Signer.getNumParties s.signer) (d : Nat) (rng : C.Rng) :
    if s.state = .dkgPrivateGather then
      s.process (.dkgBegin ⟨d⟩) rng =
        some ((s.reset d rng).1,
              .error (.badStateChange .dkgPrivateGather .dkgPublicDistribute),
              (s.reset d rng).2)
    else
      ∃ s' comms rng', s.process (.dkgBegin ⟨d⟩) rng =
          some (s', .ok [.dkgPublicShares ⟨d, s.signerId, comms⟩], rng') ∧
        s'.dkgId = d ∧ s'.commitments = .empty ∧ s'.decryptedShares = .empty ∧
        s'.invalidPrivateShares = [] ∧ s'.publicNonces = [] ∧
        s'.state = .dkgPublicGather := by
  split_ifs with h
  · have hacc : accepted s.state .dkgPublicDistribute = false := by rw [h]; rfl
    rw [process_dkgBegin_of_not_accepted _ hacc, dkgBegin_of_not_accepted s rng _ hacc, h]
  · have hacc := accepted_dkgPublicDistribute hs.resting h
    rw [process_dkgBegin_of_accepted _ hacc hN, dkgBegin_of_accepted s rng _ hacc]
    exact ⟨_, _, _, rfl, rfl, rfl, rfl, rfl, rfl, rfl⟩

end SigningRound

namespace NatBackend

open SigningRound

/-- `round₀` after `DkgBegin{1}`, both commitments, and `DkgPrivateBegin`: it waits in
    `DkgPrivateGather` for the private shares. -/
def toPrivateGather : List (Message crypto × Nat) :=
  [(.dkgBegin ⟨1⟩, 1), (.dkgPublicShares ⟨1, 1, [(1, (1, 1))]⟩, 2),
   (.dkgPublicShares ⟨1, 2, [(2, (2, 9))]⟩, 3), (.dkgPrivateBegin ⟨1⟩, 4)]

/-- A reachable round of a signer of two parties from which `DkgBegin` does not restart
    DKG. -/
theorem dkgBegin_refused_from_dkgPrivateGather :
    ∃ s : SigningRound crypto NatSigner, round₀.run toPrivateGather = some s ∧
      Signer.getNumParties s.signer = 2 ∧ s.state = .dkgPrivateGather ∧
      ∃ s' rng', s.process (.dkgBegin ⟨2⟩) 5 =
        some (s', .error (.badStateChange .dkgPrivateGather .dkgPublicDistribute), rng') :=
  ⟨_, rfl, rfl, rfl, _, _, rfl⟩

/-- `dkgBegin_restarts` at `round₀`, which is in `Idle`. -/
theorem dkgBegin_restarts_from_new :
    Reachable round₀ ∧ 1 ≤ Signer.getNumParties round₀.signer ∧
      ∃ s' comms rng', round₀.process (.dkgBegin ⟨3⟩) 0 =
          some (s', .ok [.dkgPublicShares ⟨3, round₀.signerId, comms⟩], rng') ∧
        s'.dkgId = 3 ∧ s'.commitments = .empty ∧ s'.decryptedShares = .empty ∧
        s'.invalidPrivateShares = [] ∧ s'.publicNonces = [] ∧
        s'.state = .dkgPublicGather :=
  ⟨.new new_eq_round₀, by decide,
   by simpa using dkgBegin_restarts (.new new_eq_round₀) (by decide) 3 0⟩

end NatBackend

end Wsts
