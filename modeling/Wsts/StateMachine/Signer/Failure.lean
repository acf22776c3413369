/-
  Wsts.StateMachine.Signer.Failure

  What a failed call leaves behind.

  A `process` call fails only on a `DkgBegin` or `DkgPrivateBegin` the transition graph
  refuses (`process_error`).  A refused `DkgPrivateBegin` changes nothing, but
  `dkg_begin` runs `reset` before `move_to` checks the move, so a refused `DkgBegin`
  leaves the round emptied under the new id, its polynomials regenerated, and in the
  state it was in.

  The reset round is a new round under the refused id: peers' shares for that id fill it
  and close it with a `DkgEnd`, although this signer never sent its own shares for it
  (`dkgEnd_without_own_shares`).

  `process_inbound_messages` is not atomic either: an error ends the batch and drops every
  packet the batch made, while the round keeps what the messages before the failing one
  did to it (`processInboundMessages_error`).
-/

import Wsts.StateMachine.Signer.Restart

namespace Wsts

namespace SigningRound

variable {C : Crypto} {σ : Type} [Signer C σ]

section Batch

variable (sign : C.Scalar → Message C → Option Bytes)

@[simp] theorem processInboundMessages_nil (s : SigningRound C σ) (rng : C.Rng) :
    s.processInboundMessages sign [] rng = some (s, .ok [], rng) := rfl

theorem processInboundMessages_cons (s : SigningRound C σ) (p : Packet C)
    (rest : List (Packet C)) (rng : C.Rng) :
    s.processInboundMessages sign (p :: rest) rng =
      (s.process p.msg rng).bind fun q =>
        match q.2.1 with
        | .error e => some (q.1, .error e, q.2.2)
        | .ok outbounds =>
          (outbounds.mapM fun out =>
            (sign q.1.networkPrivateKey out).map fun sig => { sig, msg := out }).bind
            fun packets => (q.1.processInboundMessages sign rest q.2.2).bind fun r =>
              some (r.1, r.2.1.map (packets ++ ·), r.2.2) := rfl

/-- A batch that fails is a batch of the messages before the failing one, which
    succeeds and whose packets are dropped, followed by the failing message's own call:
    the round keeps the effects of every message up to and including the failing
    one. -/
theorem processInboundMessages_error {s s' : SigningRound C σ} {packets : List (Packet C)}
    {rng rng' : C.Rng} {e : Error}
    (h : s.processInboundMessages sign packets rng = some (s', .error e, rng')) :
    ∃ pre m post s₁ rng₁ dropped, packets = pre ++ m :: post ∧
      s.processInboundMessages sign pre rng = some (s₁, .ok dropped, rng₁) ∧
      s₁.process m.msg rng₁ = some (s', .error e, rng') := by
  induction packets generalizing s rng with
  | nil => simp at h
  | cons p rest ih =>
    rw [processInboundMessages_cons] at h
    obtain ⟨⟨s₁, r₁, rng₁⟩, hp, hq⟩ := Option.bind_eq_some.1 h
    cases r₁ with
    | error e₁ =>
      simp only [Option.some.injEq, Prod.mk.injEq, Except.error.injEq] at hq
      obtain ⟨rfl, rfl, rfl⟩ := hq
      exact ⟨[], p, rest, s, rng, [], rfl, rfl, hp⟩
    | ok outs =>
      obtain ⟨packets₁, hm, hr⟩ := Option.bind_eq_some.1 hq
      obtain ⟨⟨s₂, r₂, rng₂⟩, hrest, hfin⟩ := Option.bind_eq_some.1 hr
      cases r₂ with
      | ok _ => simp [Except.map] at hfin
      | error e₂ =>
        simp only [Option.some.injEq, Prod.mk.injEq, Except.map, Except.error.injEq] at hfin
        obtain ⟨rfl, rfl, rfl⟩ := hfin
        obtain ⟨pre, m, post, s₃, rng₃, dropped, rfl, hpre, hm'⟩ := ih hrest
        refine ⟨p :: pre, m, post, s₃, rng₃, packets₁ ++ dropped, rfl, ?_, hm'⟩
        dsimp only at hm hpre
        rw [processInboundMessages_cons, hp]
        simp only [Option.some_bind, hm, hpre, Except.map]

end Batch

end SigningRound

namespace NatBackend

open SigningRound

/-- The `DkgBegin{2}` that `round₀` refuses in `DkgPrivateGather` has already reset the
    round: new id, commitments gone, polynomials redrawn — in the state it was refused
    in. -/
theorem dkgBegin_refused_resets_round :
    ∃ s : SigningRound crypto NatSigner, round₀.run toPrivateGather = some s ∧
      s.dkgId = 1 ∧ s.commitments.size = 2 ∧
      ∃ s' rng', s.process (.dkgBegin ⟨2⟩) 5 =
          some (s', .error (.badStateChange .dkgPrivateGather .dkgPublicDistribute), rng') ∧
        s'.dkgId = 2 ∧ s'.commitments.size = 0 ∧ s'.signer ≠ s.signer ∧
        s'.state = .dkgPrivateGather :=
  ⟨_, rfl, rfl, rfl, _, _, rfl, rfl, rfl, by decide, rfl⟩

/-- After the refused `DkgBegin{2}`, signer 2's commitments and private shares for round
    2 make the round emit `DkgEnd{2}`: since that `DkgBegin` this signer sent no message
    but the `DkgEnd`, neither its `DkgPublicShares{2}` nor its `DkgPrivateShares{2}`. -/
theorem dkgEnd_without_own_shares :
    ∃ s₀ s₁ s₂ s₃ rng₁ rng₂ rng₃, round₀.run toPrivateGather = some s₀ ∧
      s₀.process (.dkgBegin ⟨2⟩) 5 =
        some (s₁, .error (.badStateChange .dkgPrivateGather .dkgPublicDistribute), rng₁) ∧
      s₁.process (.dkgPublicShares ⟨2, 2, [(0, (0, 1)), (1, (1, 1))]⟩) 6 =
        some (s₂, .ok [], rng₂) ∧
      s₂.process (.dkgPrivateShares ⟨2, 2, [(0, .empty), (1, .empty)]⟩) 7 =
        some (s₃, .ok [.dkgEnd ⟨2, 1, .success⟩], rng₃) :=
  ⟨_, _, _, _, _, _, _, rfl, rfl, rfl, rfl⟩

/-- A batch whose `DkgPrivateBegin` comes too early: the `DkgBegin` before it is
    answered, then the answer is dropped. -/
def earlyPrivateBegin : List (Packet crypto) :=
  [⟨[], .dkgBegin ⟨1⟩⟩, ⟨[], .dkgPrivateBegin ⟨1⟩⟩]

/-- The failed batch keeps the `DkgBegin`'s effect: the round has moved from `Idle`
    under id 0 to `DkgPublicGather` under id 1. -/
theorem failed_batch_keeps_dkgBegin :
    round₀.dkgId = 0 ∧ round₀.state = .idle ∧
      ∃ s' rng', round₀.processInboundMessages (fun _ _ => some []) earlyPrivateBegin 0 =
          some (s', .error (.badStateChange .dkgPublicGather .dkgPrivateGather), rng') ∧
        s'.dkgId = 1 ∧ s'.state = .dkgPublicGather :=
  ⟨rfl, rfl, _, _, rfl, rfl, rfl⟩

/-- `processInboundMessages_error` at that batch. -/
theorem processInboundMessages_error_early_privateBegin :
    ∃ s' rng', round₀.processInboundMessages (fun _ _ => some []) earlyPrivateBegin 0 =
        some (s', .error (.badStateChange .dkgPublicGather .dkgPrivateGather), rng') ∧
      ∃ pre m post s₁ rng₁ dropped, earlyPrivateBegin = pre ++ m :: post ∧
        round₀.processInboundMessages (fun _ _ => some []) pre 0 =
          some (s₁, .ok dropped, rng₁) ∧
        s₁.process m.msg rng₁ =
          some (s', .error (.badStateChange .dkgPublicGather .dkgPrivateGather), rng') :=
  ⟨_, _, rfl, processInboundMessages_error _ rfl⟩

end NatBackend

end Wsts
