/-
  Wsts.StateMachine.Signer.Overtaking

  Peers' private shares overtaking the coordinator's `DkgPrivateBegin`.

  After a `DkgBegin` a signer's inbox holds its peers' `DkgPublicShares` and
  `DkgPrivateShares` and, once the coordinator has every commitment, the
  `DkgPrivateBegin`.  A peer that got its `DkgPrivateBegin` first may send its private
  shares before this signer gets its own.  The code stores them whatever the phase, and
  the `DkgPrivateBegin` keeps them: it moves the round to `DkgPrivateGather` and closes
  it at once if the shares are already full (`process_dkgPrivateBegin_delivered`).

  So a batch of shares with the `DkgPrivateBegin` among them, after the messages that
  fill the commitments, leaves the round that all of its shares leave when delivered to
  the round gathering private shares
  (`processInboundMessages_privateBegin_among_shares`).  Two such batches holding the
  same shares end alike, wherever the private shares fall relative to the
  `DkgPrivateBegin` (`dkgOutcome_independent_of_privateBegin`).

  The public phase does not tolerate overtaking.  A `DkgBegin` resets the commitments, so
  a peer's `DkgPublicShares` that arrives before it is lost.  Until it is sent again the
  round waits in `DkgPublicGather`, refuses every `DkgPrivateBegin`, and sends nothing
  but signing responses (`publicGather_waits_for_party`, from one lemma per call,
  `process_of_publicGather`).  Private shares that overtake the `DkgBegin` are lost the
  same way, and until they are sent again the round sends no `DkgEnd` and never closes
  (`round_stays_open_without_party`, from `process_of_shares_short`).
-/

import Wsts.StateMachine.Signer.Dkg
import Wsts.StateMachine.Signer.Closing

namespace Wsts

namespace SigningRound

variable {C : Crypto} {σ : Type} [Signer C σ]

-- ============================================================================
-- Network keys
-- ============================================================================

section Keys

omit [Signer C σ]

variable {s t : SigningRound C σ} (hk : t.publicKeys = s.publicKeys)
  (hn : t.networkPrivateKey = s.networkPrivateKey)
include hk hn

/-- The encryption loops read only the network keys. -/
theorem encryptShares_congr (acc : KeyMap Bytes) (l : List (Nat × C.Scalar)) (rng : C.Rng) :
    t.encryptShares acc l rng = s.encryptShares acc l rng := by
  induction l generalizing acc rng with
  | nil => rfl
  | cons x l ih => simp only [encryptShares, hk, hn, ih]

theorem encryptPrivateShares_congr (l : List (Nat × KeyMap C.Scalar)) (rng : C.Rng) :
    t.encryptPrivateShares l rng = s.encryptPrivateShares l rng := by
  induction l generalizing rng with
  | nil => rfl
  | cons x l ih => simp only [encryptPrivateShares, encryptShares_congr hk hn, ih]

end Keys

section WithState

variable (s : SigningRound C σ) (state : State) (P : List (Message C))

omit [Signer C σ] in
/-- What a batch delivers to the maps depends on the maps, keys and signer, not on the
    state. -/
@[simp] theorem receivedCommitments_withState :
    receivedCommitments { s with state } P = s.receivedCommitments P := rfl

@[simp] theorem receivedShares_withState :
    receivedShares { s with state } P = s.receivedShares P := rfl

@[simp] theorem receivedInvalid_withState :
    receivedInvalid { s with state } P = s.receivedInvalid P := rfl

end WithState

/-- Whether a batch can be delivered depends on the maps, keys and signer, not on the
    state. -/
theorem Deliverable.withState {s : SigningRound C σ} {L : List (Message C)}
    (h : s.Deliverable L) (state : State) : Deliverable { s with state } L :=
  ⟨h.shares, h.known, h.disjoint_public, h.disjoint_private, h.bound_public, h.bound_private⟩

-- ============================================================================
-- The `DkgPrivateBegin`
-- ============================================================================

section Step

variable {s : SigningRound C σ} {P : List (Message C)}

/-- A `DkgPrivateBegin` after a batch that filled the commitments moves the round to
    `DkgPrivateGather`, keeping the shares the batch delivered, and closes it at once when
    the batch also filled them: the round is the one the batch leaves when delivered to
    the round gathering private shares.  It answers with this signer's encrypted shares
    and that `DkgEnd`. -/
theorem process_dkgPrivateBegin_delivered (hst : s.state = .dkgPublicGather) (hne : P ≠ [])
    (hfull : (s.receivedCommitments P).size = Signer.getNumParties s.signer) {rng : C.Rng}
    {e : List (Nat × KeyMap Bytes) × C.Rng}
    (he : s.encryptPrivateShares (Signer.getShares s.signer).entries rng = some e)
    (b : DkgBegin) :
    ∃ out, (s.delivered P).process (.dkgPrivateBegin b) rng =
        some (delivered { s with state := .dkgPrivateGather } P,
          .ok (.dkgPrivateShares { dkgId := s.dkgId, signerId := s.signerId, shares := e.1 } ::
            out), e.2) ∧
      if dkgCompleted { s with state := .dkgPrivateGather } P then
        ∃ status, out = [.dkgEnd { dkgId := s.dkgId, signerId := s.signerId, status }] ∧
          status.isSuccess = dkgSucceeded { s with state := .dkgPrivateGather } P
      else out = [] := by
  have hopen : s.dkgCompleted P = false := dkgCompleted_of_state (by simp [hst])
  have hsig : (s.delivered P).signer = s.signer := receivedSigner_of_not_completed hopen
  have hdist : (s.delivered P).state = .dkgPrivateDistribute := by
    rw [delivered_state, receivedState_of_publicGather hst,
      if_pos ⟨by simpa using hne, hfull⟩]
  -- the handler sends the shares and moves on, holding what the batch delivered
  have hh : (s.delivered P).handle (.dkgPrivateBegin b) rng = some
      ({ s.delivered P with state := .dkgPrivateGather }, .ok [.dkgPrivateShares
        { dkgId := s.dkgId, signerId := s.signerId, shares := e.1 }], e.2) := by
    have he' : (s.delivered P).encryptPrivateShares
        (Signer.getShares (s.delivered P).signer).entries rng = some e := by
      rw [hsig, encryptPrivateShares_congr (s := s) (t := s.delivered P) rfl rfl, he]
    simp only [handle, dkgPrivateBegin_eq, he', hdist, Option.map_some']
    rfl
  rw [process_of_handle_ok hh, checkCompletion_eq, if_neg (by simp [publicSharesDone])]
  have hdone : canDkgEnd { s.delivered P with state := .dkgPrivateGather } =
      dkgCompleted { s with state := .dkgPrivateGather } P := by
    have hP : P.isEmpty = false := by simpa using hne
    show (_ == _ && (s.receivedCommitments P).size == Signer.getNumParties (s.receivedSigner P) &&
        (s.receivedShares P).size == Signer.getNumParties (s.receivedSigner P)) =
      (!P.isEmpty && _ && (s.receivedCommitments P).size == Signer.getNumParties s.signer &&
        (s.receivedShares P).size == Signer.getNumParties s.signer)
    rw [getNumParties_receivedSigner, hP]
    rfl
  by_cases hc : dkgCompleted { s with state := .dkgPrivateGather } P
  · -- the batch filled the shares too: `dkg_ended` closes the round
    obtain ⟨status, h₂, hsucc⟩ :=
      dkgEnded_snd_isSuccess { s.delivered P with state := .dkgPrivateGather }
    have hround : { (SigningRound.dkgEnded { s.delivered P with
        state := .dkgPrivateGather }).1 with state := .idle } =
        delivered { s with state := .dkgPrivateGather } P := by
      rw [dkgEnded_fst]
      simp [delivered, receivedState, receivedSigner, hc, hne, hopen]
    rw [if_pos (hdone.trans hc), h₂, hround]
    refine ⟨_, rfl, ?_⟩
    rw [if_pos hc]
    refine ⟨status, rfl, ?_⟩
    rw [hsucc]
    simp [dkgSucceeded, receivedSigner_of_not_completed hopen]
  · rw [if_neg (by rw [hdone]; exact hc)]
    refine ⟨[], ?_, by rw [if_neg hc]⟩
    simp [delivered, receivedState, receivedSigner, hc, hne, hopen]

end Step

-- ============================================================================
-- A batch with the `DkgPrivateBegin` among the shares
-- ============================================================================

section Batch

variable {sign : C.Scalar → Message C → Option Bytes}

/-- A batch is its first part, then the rest from the round and entropy the first part
    left; a first part that succeeds puts its packets first. -/
theorem processInboundMessages_append {s t : SigningRound C σ} {L₁ : List (Packet C)}
    (L₂ : List (Packet C)) {rng rng₁ : C.Rng} {out₁ : List (Packet C)}
    (h : s.processInboundMessages sign L₁ rng = some (t, .ok out₁, rng₁)) :
    s.processInboundMessages sign (L₁ ++ L₂) rng =
      (t.processInboundMessages sign L₂ rng₁).map
        fun q => (q.1, q.2.1.map (out₁ ++ ·), q.2.2) := by
  induction L₁ generalizing s rng out₁ with
  | nil =>
    obtain ⟨rfl, rfl, rfl⟩ : s = t ∧ [] = out₁ ∧ rng = rng₁ := by simpa using h
    rw [List.nil_append]
    cases s.processInboundMessages sign L₂ rng with
    | none => rfl
    | some q => obtain ⟨_, r, _⟩ := q; cases r <;> rfl
  | cons p L ih =>
    rw [processInboundMessages_cons] at h
    obtain ⟨⟨s₁, r₁, rng'⟩, hp, h⟩ := Option.bind_eq_some.1 h
    cases r₁ with
    | error e => simp at h
    | ok outs =>
      obtain ⟨packets, hpk, h⟩ := Option.bind_eq_some.1 h
      obtain ⟨⟨t', r', rng''⟩, hrest, h⟩ := Option.bind_eq_some.1 h
      cases r' with
      | error e => simp [Except.map] at h
      | ok o =>
        simp only [Except.map, Option.some.injEq, Prod.mk.injEq, Except.ok.injEq] at h
        obtain ⟨rfl, rfl, rfl⟩ := h
        rw [List.cons_append, processInboundMessages_cons, hp, Option.some_bind]
        simp only [hpk, Option.some_bind, ih hrest]
        cases t'.processInboundMessages sign L₂ rng'' with
        | none => rfl
        | some q => obtain ⟨_, r, _⟩ := q; cases r <;> simp [Except.map]

variable {s : SigningRound C σ}

/-- A batch of peers' shares with the `DkgPrivateBegin` among them, after the messages
    that fill the commitments, succeeds and leaves the round that all of its shares leave
    when delivered to the round gathering private shares.  It answers with this signer's
    encrypted shares, then with the one `DkgEnd` that closes the round, if its shares
    fill it. -/
theorem processInboundMessages_privateBegin_among_shares
    (hsign : ∀ key m, (sign key m).isSome) (hst : s.state = .dkgPublicGather)
    {L₁ L₂ : List (Packet C)} (hd : s.Deliverable (L₁.map Packet.msg ++ L₂.map Packet.msg))
    (hne : L₁ ≠ [])
    (hfull : (s.receivedCommitments (L₁.map Packet.msg)).size = Signer.getNumParties s.signer)
    {rng : C.Rng} {e : List (Nat × KeyMap Bytes) × C.Rng}
    (he : s.encryptPrivateShares (Signer.getShares s.signer).entries rng = some e)
    (sig : Bytes) (b : DkgBegin) :
    ∃ out ends, s.processInboundMessages sign (L₁ ++ ⟨sig, .dkgPrivateBegin b⟩ :: L₂) rng =
        some (delivered { s with state := .dkgPrivateGather }
          (L₁.map Packet.msg ++ L₂.map Packet.msg), .ok out, e.2) ∧
      out.map Packet.msg =
        .dkgPrivateShares { dkgId := s.dkgId, signerId := s.signerId, shares := e.1 } :: ends ∧
      (∀ m ∈ ends, ∃ d, m = .dkgEnd d) ∧
      dkgEndOutcomes ends =
        if dkgCompleted { s with state := .dkgPrivateGather }
          (L₁.map Packet.msg ++ L₂.map Packet.msg)
        then [(s.dkgId, dkgSucceeded { s with state := .dkgPrivateGather }
          (L₁.map Packet.msg ++ L₂.map Packet.msg))]
        else [] := by
  set P := L₁.map Packet.msg
  set u : SigningRound C σ := { s with state := .dkgPrivateGather }
  have hu : u.Deliverable (P ++ L₂.map Packet.msg) := hd.withState _
  -- the shares before the `DkgPrivateBegin` are taken in silently
  obtain ⟨out₁, h₁, hout₁⟩ := processInboundMessages_delivered (fun _ => hsign _ _) L₁ (P := [])
    (by simpa using hd.mono fun m hm => List.mem_append_left _ hm) rng
  have hopen : ∀ R, s.dkgCompleted R = false := fun R => dkgCompleted_of_state (by simp [hst])
  simp only [List.nil_append, delivered_nil, hopen, Bool.false_and, Bool.false_eq_true,
    ite_false] at h₁ hout₁
  subst hout₁
  -- the `DkgPrivateBegin` keeps them
  obtain ⟨ends₁, hp, hends₁⟩ :=
    process_dkgPrivateBegin_delivered hst (by simpa [P] using hne) hfull he b
  obtain ⟨packets, hpk, hmsg⟩ := mapM_sign_eq hsign (u.delivered P).networkPrivateKey
    (.dkgPrivateShares { dkgId := s.dkgId, signerId := s.signerId, shares := e.1 } :: ends₁)
  -- the shares after it are delivered to the gathering round
  obtain ⟨out₃, h₃, hout₃⟩ :=
    processInboundMessages_delivered (fun _ => hsign _ _) L₂ (s := u) (P := P) hu e.2
  -- the round closes once: with the `DkgPrivateBegin` or with a later share
  have hends : (∀ m ∈ ends₁ ++ out₃.map Packet.msg, ∃ d, m = .dkgEnd d) ∧
      dkgEndOutcomes (ends₁ ++ out₃.map Packet.msg) =
        if u.dkgCompleted (P ++ L₂.map Packet.msg)
        then [(s.dkgId, u.dkgSucceeded (P ++ L₂.map Packet.msg))] else [] := by
    by_cases hc : u.dkgCompleted P
    · rw [if_pos hc] at hends₁
      obtain ⟨status, rfl, hsucc⟩ := hends₁
      have hall := dkgCompleted_append hu hc
      simp only [hc, hall, Bool.not_true, Bool.and_false, Bool.false_eq_true, ite_false]
        at hout₃
      subst hout₃
      simp [dkgEndOutcomes, hall, hsucc, (receivedSigner_append hu hc).2]
    · rw [if_neg hc] at hends₁
      subst hends₁
      simp only [hc, Bool.not_false, Bool.and_true] at hout₃
      split_ifs at hout₃ ⊢
      · obtain ⟨status, hmsg, hsucc⟩ := hout₃
        simp [hmsg, dkgEndOutcomes, hsucc]
      · simp [hout₃, dkgEndOutcomes]
  refine ⟨packets ++ out₃, ends₁ ++ out₃.map Packet.msg, ?_, by simp [hmsg], hends⟩
  rw [processInboundMessages_append _ h₁, processInboundMessages_cons, hp]
  simp only [Option.some_bind]
  rw [hpk]
  simp only [Option.some_bind, h₃]
  rfl

/-- Where the peers' private shares fall relative to the `DkgPrivateBegin` does not
    matter.  Two batches holding the same peers' shares, in any order and with any
    repetitions, each with the `DkgPrivateBegin` after the messages that fill the
    commitments, both succeed and leave the same round: the same state, round id, maps and
    signer, and the same sources marked invalid.  Both answer with this signer's encrypted
    shares, then with `DkgEnd`s only: one in one batch exactly when in the other, reporting
    success in one exactly when in the other. -/
theorem dkgOutcome_independent_of_privateBegin (hsign : ∀ key m, (sign key m).isSome)
    (hst : s.state = .dkgPublicGather) {L₁ L₂ M₁ M₂ : List (Packet C)}
    (hd : s.Deliverable (L₁.map Packet.msg ++ L₂.map Packet.msg))
    (hmem : ∀ m, m ∈ L₁.map Packet.msg ++ L₂.map Packet.msg ↔
      m ∈ M₁.map Packet.msg ++ M₂.map Packet.msg)
    (hL : L₁ ≠ [] ∧
      (s.receivedCommitments (L₁.map Packet.msg)).size = Signer.getNumParties s.signer)
    (hM : M₁ ≠ [] ∧
      (s.receivedCommitments (M₁.map Packet.msg)).size = Signer.getNumParties s.signer)
    {rng : C.Rng} {e : List (Nat × KeyMap Bytes) × C.Rng}
    (he : s.encryptPrivateShares (Signer.getShares s.signer).entries rng = some e)
    (sig : Bytes) (b : DkgBegin) :
    ∃ s₁ s₂ out₁ out₂ ends₁ ends₂,
      s.processInboundMessages sign (L₁ ++ ⟨sig, .dkgPrivateBegin b⟩ :: L₂) rng =
        some (s₁, .ok out₁, e.2) ∧
      s.processInboundMessages sign (M₁ ++ ⟨sig, .dkgPrivateBegin b⟩ :: M₂) rng =
        some (s₂, .ok out₂, e.2) ∧
      s₁.state = s₂.state ∧ s₁.dkgId = s₂.dkgId ∧ s₁.commitments = s₂.commitments ∧
      s₁.decryptedShares = s₂.decryptedShares ∧
      (∀ k, k ∈ s₁.invalidPrivateShares ↔ k ∈ s₂.invalidPrivateShares) ∧
      s₁.signer = s₂.signer ∧
      out₁.map Packet.msg =
        .dkgPrivateShares { dkgId := s.dkgId, signerId := s.signerId, shares := e.1 } :: ends₁ ∧
      out₂.map Packet.msg =
        .dkgPrivateShares { dkgId := s.dkgId, signerId := s.signerId, shares := e.1 } :: ends₂ ∧
      (∀ m ∈ ends₁ ++ ends₂, ∃ d, m = .dkgEnd d) ∧
      dkgEndOutcomes ends₁ = dkgEndOutcomes ends₂ := by
  obtain ⟨out₁, ends₁, h₁, hm₁, hd₁, ho₁⟩ :=
    processInboundMessages_privateBegin_among_shares hsign hst hd hL.1 hL.2 he sig b
  obtain ⟨out₂, ends₂, h₂, hm₂, hd₂, ho₂⟩ := processInboundMessages_privateBegin_among_shares
    hsign hst (hd.mono fun m hm => (hmem m).2 hm) hM.1 hM.2 he sig b
  -- both leave the round their shares leave when delivered to the gathering round
  have hu := hd.withState .dkgPrivateGather
  refine ⟨_, _, out₁, out₂, ends₁, ends₂, h₁, h₂, receivedState_congr hu hmem, rfl,
    receivedCommitments_congr hu hmem, receivedShares_congr hu hmem,
    receivedInvalid_mem_congr hmem, receivedSigner_congr hu hmem, hm₁, hm₂,
    fun m hm => (List.mem_append.1 hm).elim (hd₁ m) (hd₂ m), ?_⟩
  rw [ho₁, ho₂, dkgCompleted_congr hu hmem, dkgSucceeded_congr hu hmem]

end Batch

-- ============================================================================
-- A commitment overtaking the `DkgBegin`
-- ============================================================================

section Waiting

variable {t t' : SigningRound C σ} {m : Message C} {rng rng' : C.Rng}
  {r : Except Error (List (Message C))}

/-- In `DkgPublicGather`, a call on anything but a `DkgBegin` that leaves the commitments
    short of the party count keeps the round there and answers with signing responses
    only: a `DkgPrivateBegin` is refused, and peers' shares are stored silently. -/
theorem process_of_publicGather (hst : t.state = .dkgPublicGather)
    (hm : m.isDkgBegin = false)
    (hshort : (roundStep Message.publicContributions t.commitments m).size ≠
      Signer.getNumParties t.signer)
    (h : t.process m rng = some (t', r, rng')) :
    t'.state = .dkgPublicGather ∧
      ∀ o ∈ answers r, (∃ q, o = .nonceResponse q) ∨ ∃ q, o = .signatureShareResponse q := by
  obtain ⟨t₁, r₁, hh, hr⟩ := process_inv h
  -- the handler keeps the state and sends nothing but signing responses
  have h₁ : t₁.state = .dkgPublicGather ∧ ∀ out, r₁ = .ok out →
      ∀ o ∈ out, (∃ q, o = .nonceResponse q) ∨ ∃ q, o = .signatureShareResponse q := by
    have hsigning := fun hd => t.handle_of_not_drivesDkg (m := m) hd rng
    cases m with
    | dkgBegin b => cases hm
    | dkgPrivateBegin b =>
      simp only [handle, dkgPrivateBegin_eq, hst, accepted, reduceCtorEq, beq_self_eq_true,
        Bool.false_eq_true, ite_false, Option.map_eq_some', Prod.mk.injEq] at hh
      obtain ⟨e, -, rfl, rfl, -⟩ := hh
      exact ⟨hst, fun _ h => by cases h⟩
    | dkgPublicShares q =>
      simp only [handle, Option.some.injEq, Prod.mk.injEq] at hh
      obtain ⟨rfl, rfl, -⟩ := hh
      exact ⟨hst, fun _ h => by cases h; simp⟩
    | dkgPrivateShares q =>
      obtain ⟨t₂, h₂, he⟩ := Option.map_eq_some'.1 hh
      cases he
      exact ⟨by rw [eq_of_dkgPrivateShares t h₂]; exact hst, fun _ h => by cases h; simp⟩
    | _ =>
      obtain ⟨u, out, rng'', hu, hueq, -, hout⟩ := hsigning rfl
      rw [hh, Option.some.injEq, Prod.mk.injEq, Prod.mk.injEq] at hu
      obtain ⟨rfl, rfl, -⟩ := hu
      exact ⟨by rw [hueq]; exact hst, fun _ h => by cases h; exact hout⟩
  -- so the completion check has nothing to do
  have hdone : t₁.publicSharesDone = false := by
    simpa [publicSharesDone, h₁.1, handle_commitments hh,
      (sameIdentity_handle hh).numParties] using hshort
  have hend : t₁.canDkgEnd = false := by simp [canDkgEnd, h₁.1]
  rcases hr with ⟨out, rfl, rfl, rfl⟩ | ⟨e, rfl, rfl, rfl⟩
  · rw [checkCompletion_of_not_done out hdone hend]
    exact ⟨h₁.1, h₁.2 out rfl⟩
  · exact ⟨h₁.1, fun _ h => by cases h⟩

omit [Signer C σ] in
/-- Past anything but a `DkgBegin`, a per-round map keeps its keys and gains the message's:
    a property of both holds of every key after. -/
theorem keys_roundStep {α : Type} {f : Message C → List (Nat × α)} {M : KeyMap α}
    {m : Message C} {P : Nat → Prop} (hm : m.isDkgBegin = false)
    (hf : ∀ k ∈ (f m).map Prod.fst, P k) (hM : ∀ k ∈ M.keys, P k) :
    ∀ k ∈ (roundStep f M m).keys, P k := by
  rw [roundStep, if_neg (by simp [hm])]
  exact fun k hk => (KeyMap.mem_keys_foldl_insert.1 hk).elim (hf k) (hM k)

omit [Signer C σ] in
/-- A map whose keys avoid `p` in a set `S` holding `p` has fewer entries than `S`. -/
theorem size_lt_of_keys_subset {α : Type} {S : Finset Nat} {p : Nat} (hp : p ∈ S)
    {c : KeyMap α} (hc : ∀ k ∈ c.keys, k ∈ S ∧ k ≠ p) : c.size < S.card := by
  rw [KeyMap.size_eq_length_keys, ← List.toFinset_card_of_nodup c.keys_nodup]
  calc c.keys.toFinset.card ≤ (S.erase p).card :=
        Finset.card_le_card fun k hk =>
          let h := hc k (List.mem_toFinset.1 hk)
          Finset.mem_erase.2 ⟨h.2, h.1⟩
    _ < S.card := Finset.card_erase_lt_of_mem hp

/-- A commitment that overtakes a signer's `DkgBegin` is lost, and the signer waits for
    it.  From `DkgPublicGather`, holding commitments only for parties of a group `S` other
    than `p` (as a `DkgBegin` leaves it, with none), over any run with no `DkgBegin` whose
    `DkgPublicShares` list parties of `S` other than `p`, the round stays in
    `DkgPublicGather` when `S` has at most as many parties as the signer counts: it
    refuses every `DkgPrivateBegin`, never sends its private shares or a `DkgEnd`, and
    answers with signing responses only. -/
theorem publicGather_waits_for_party {S : Finset Nat} {p : Nat} (hp : p ∈ S)
    {s s' : SigningRound C σ} {l : List (Message C × C.Rng)} {outs : List (Message C)}
    (hst : s.state = .dkgPublicGather) (hS : S.card ≤ Signer.getNumParties s.signer)
    (hkeys : ∀ k ∈ s.commitments.keys, k ∈ S ∧ k ≠ p)
    (hl : ∀ m ∈ l.map Prod.fst, m.isDkgBegin = false ∧ ∀ k ∈ m.publicParties, k ∈ S ∧ k ≠ p)
    (h : s.runOutputs l = some (s', outs)) :
    s'.state = .dkgPublicGather ∧
      ∀ o ∈ outs, (∃ q, o = .nonceResponse q) ∨ ∃ q, o = .signatureShareResponse q := by
  induction l generalizing s outs with
  | nil =>
    cases h
    exact ⟨hst, fun _ h => by cases h⟩
  | cons d l ih =>
    obtain ⟨t, r, rng₁, outs', hp', hrest, rfl⟩ := runOutputs_cons_inv h
    obtain ⟨hm, hparties⟩ := hl d.1 (List.mem_cons_self _ _)
    -- the commitments still miss `p`
    have hkeys' : ∀ k ∈ t.commitments.keys, k ∈ S ∧ k ≠ p := by
      rw [process_commitments hp']
      exact keys_roundStep hm hparties hkeys
    have hshort := (size_lt_of_keys_subset hp hkeys').trans_le hS
    rw [process_commitments hp'] at hshort
    obtain ⟨hst', hout⟩ := process_of_publicGather hst hm hshort.ne hp'
    obtain ⟨hst'', hout'⟩ := ih hst' ((process_sameIdentity hp').numParties ▸ hS) hkeys'
      (fun m hm => hl m (List.mem_cons_of_mem _ hm)) hrest
    exact ⟨hst'', fun o ho => (List.mem_append.1 ho).elim (hout o) (hout' o)⟩

/-- The sources a message writes into `decrypted_shares` are among those it lists. -/
theorem mem_privateSources_of_contribution {m : Message C} {keyIds : List Nat}
    {secretWith : Nat → Option Bytes} {k : Nat}
    (hk : k ∈ (m.privateContributions keyIds secretWith).map Prod.fst) :
    k ∈ m.privateSources := by
  cases m <;> simp only [Message.privateContributions, List.map_nil, List.not_mem_nil] at hk
  case dkgPrivateShares p =>
    split at hk
    · rwa [map_fst_openedShares] at hk
    · cases hk

/-- A call that leaves the decrypted shares short of the party count sends no `DkgEnd`
    and does not close the round. -/
theorem process_of_shares_short
    (hshort : (roundStep (Message.privateContributions (Signer.getKeyIds t.signer)
      t.sharedSecretWith) t.decryptedShares m).size ≠ Signer.getNumParties t.signer)
    (h : t.process m rng = some (t', r, rng')) :
    dkgEndOutcomes (answers r) = [] ∧ (t.state ≠ .idle → t'.state ≠ .idle) := by
  obtain ⟨t₁, r₁, hh, hr⟩ := process_inv h
  have hend : t₁.canDkgEnd = false := by
    simpa [canDkgEnd, handle_decryptedShares hh, (sameIdentity_handle hh).numParties]
      using fun _ _ => hshort
  -- no handler moves the round to `Idle`
  have hst₁ : t.state ≠ .idle → t₁.state ≠ .idle := fun hne => by
    rcases handle_state hh with h' | h' | h' <;> rw [h'] <;> simp [hne]
  rcases hr with ⟨out, rfl, rfl, rfl⟩ | ⟨e, rfl, rfl, rfl⟩
  · rw [checkCompletion_eq]
    split_ifs
    · exact ⟨handle_dkgEndOutcomes hh, fun _ => by simp⟩
    · simp_all
    · exact ⟨handle_dkgEndOutcomes hh, hst₁⟩
  · exact ⟨rfl, hst₁⟩

/-- Private shares that overtake a signer's `DkgBegin` are lost, and the signer never
    closes the round without them.  From a round holding decrypted shares only from
    sources of a group `S` other than `p` (as a `DkgBegin` leaves it, with none), over any
    run with no `DkgBegin` whose `DkgPrivateShares` list sources of `S` other than `p`,
    the signer sends no `DkgEnd` and an open round stays open, when `S` has at most as
    many parties as the signer counts. -/
theorem round_stays_open_without_party {S : Finset Nat} {p : Nat} (hp : p ∈ S)
    {s s' : SigningRound C σ} {l : List (Message C × C.Rng)} {outs : List (Message C)}
    (hS : S.card ≤ Signer.getNumParties s.signer)
    (hkeys : ∀ k ∈ s.decryptedShares.keys, k ∈ S ∧ k ≠ p)
    (hl : ∀ m ∈ l.map Prod.fst, m.isDkgBegin = false ∧ ∀ k ∈ m.privateSources, k ∈ S ∧ k ≠ p)
    (h : s.runOutputs l = some (s', outs)) :
    dkgEndOutcomes outs = [] ∧ (s.state ≠ .idle → s'.state ≠ .idle) := by
  induction l generalizing s outs with
  | nil =>
    cases h
    exact ⟨rfl, id⟩
  | cons d l ih =>
    obtain ⟨t, r, rng₁, outs', hp', hrest, rfl⟩ := runOutputs_cons_inv h
    obtain ⟨hm, hsources⟩ := hl d.1 (List.mem_cons_self _ _)
    -- the decrypted shares still miss `p`
    have hkeys' : ∀ k ∈ t.decryptedShares.keys, k ∈ S ∧ k ≠ p := by
      rw [process_decryptedShares hp']
      exact keys_roundStep hm (fun k hk => hsources k (mem_privateSources_of_contribution hk))
        hkeys
    have hshort := (size_lt_of_keys_subset hp hkeys').trans_le hS
    rw [process_decryptedShares hp'] at hshort
    obtain ⟨hend, hopen⟩ := process_of_shares_short hshort.ne hp'
    obtain ⟨hend', hopen'⟩ := ih ((process_sameIdentity hp').numParties ▸ hS) hkeys'
      (fun m hm => hl m (List.mem_cons_of_mem _ hm)) hrest
    exact ⟨by rw [dkgEndOutcomes_append, hend, hend']; rfl, hopen' ∘ hopen⟩

end Waiting

end SigningRound

namespace NatBackend

open SigningRound

/-- `round₀` after a `DkgBegin` for round 1, gathering commitments. -/
def publicGather : SigningRound crypto NatSigner :=
  (round₀.run [(.dkgBegin ⟨1⟩, 0)]).get (by decide)

/-- Signer `j + 1`'s commitments, for key id `j`. -/
def publicOf (j : Nat) : Packet crypto := ⟨[], .dkgPublicShares (commitsOf j)⟩

/-- The shares `round₀` gets around its `DkgPrivateBegin`: signer 1's private shares before
    it, among the commitments, or all private shares after it, one of them twice. -/
def earlyShares : List (Packet crypto) × List (Packet crypto) :=
  ([publicOf 0, sharesOf 1, publicOf 1], [sharesOf 2])

def lateShares : List (Packet crypto) × List (Packet crypto) :=
  ([publicOf 1, publicOf 0], [sharesOf 2, sharesOf 1, sharesOf 2])

/-- `dkgOutcome_independent_of_privateBegin` at `publicGather`, for signer 1's private
    shares overtaking the `DkgPrivateBegin` against all of them coming after it. -/
theorem dkgOutcome_independent_of_privateBegin_publicGather :
    ∃ s₁ s₂ out₁ out₂ ends₁ ends₂ rng,
      publicGather.processInboundMessages (fun _ _ => some [])
        (earlyShares.1 ++ ⟨[], .dkgPrivateBegin ⟨1⟩⟩ :: earlyShares.2) 0 =
          some (s₁, .ok out₁, rng) ∧
      publicGather.processInboundMessages (fun _ _ => some [])
        (lateShares.1 ++ ⟨[], .dkgPrivateBegin ⟨1⟩⟩ :: lateShares.2) 0 =
          some (s₂, .ok out₂, rng) ∧
      s₁.state = s₂.state ∧ s₁.commitments = s₂.commitments ∧
      s₁.decryptedShares = s₂.decryptedShares ∧ s₁.signer = s₂.signer ∧
      (out₁.map Packet.msg).tail = ends₁ ∧ (out₂.map Packet.msg).tail = ends₂ ∧
      dkgEndOutcomes ends₁ = dkgEndOutcomes ends₂ := by
  obtain ⟨e, he⟩ : ∃ e, publicGather.encryptPrivateShares
      (Signer.getShares publicGather.signer).entries 0 = some e := ⟨_, rfl⟩
  have hsign : ∀ (key : crypto.Scalar) (m : Message crypto), (some [] : Option Bytes).isSome :=
    fun _ _ => rfl
  have hd : publicGather.Deliverable
      (earlyShares.1.map Packet.msg ++ earlyShares.2.map Packet.msg) :=
    { shares := by decide
      known := by simp [earlyShares, publicOf, sharesOf]; decide
      disjoint_public := fun m₁ h₁ m₂ h₂ hne k hk => by
        simp only [earlyShares, publicOf, sharesOf, List.map_cons, List.map_nil,
          List.cons_append, List.nil_append, List.mem_cons, List.mem_singleton,
          List.not_mem_nil, or_false] at h₁ h₂
        rcases h₁ with rfl | rfl | rfl | rfl <;> rcases h₂ with rfl | rfl | rfl | rfl <;>
          first | exact absurd rfl hne | simp_all [Message.publicParties,
            Message.publicContributions, commitsOf]
      disjoint_private := fun m₁ h₁ m₂ h₂ hne k hk => by
        simp only [earlyShares, publicOf, sharesOf, List.map_cons, List.map_nil,
          List.cons_append, List.nil_append, List.mem_cons, List.mem_singleton,
          List.not_mem_nil, or_false] at h₁ h₂
        rcases h₁ with rfl | rfl | rfl | rfl <;> rcases h₂ with rfl | rfl | rfl | rfl <;>
          first | exact absurd rfl hne | simp_all [Message.privateSources]
      bound_public := by decide
      bound_private := by decide }
  have hmem : ∀ m, m ∈ earlyShares.1.map Packet.msg ++ earlyShares.2.map Packet.msg ↔
      m ∈ lateShares.1.map Packet.msg ++ lateShares.2.map Packet.msg := fun m => by
    simp [earlyShares, lateShares]
    tauto
  obtain ⟨s₁, s₂, out₁, out₂, ends₁, ends₂, h₁, h₂, hst, -, hc, hd, -, hsg, hm₁, hm₂, -, ho⟩ :=
    dkgOutcome_independent_of_privateBegin hsign rfl hd hmem ⟨by simp [earlyShares], by decide⟩
      ⟨by simp [lateShares], by decide⟩ he [] ⟨1⟩
  exact ⟨s₁, s₂, out₁, out₂, ends₁, ends₂, e.2, h₁, h₂, hst, hc, hd, hsg,
    by rw [hm₁]; rfl, by rw [hm₂]; rfl, ho⟩

/-- There, the batch whose private shares overtake the `DkgPrivateBegin` sends the shares
    and closes the round with a successful `DkgEnd`. -/
example : ∃ s₁ out rng, publicGather.processInboundMessages (fun _ _ => some [])
    (earlyShares.1 ++ ⟨[], .dkgPrivateBegin ⟨1⟩⟩ :: earlyShares.2) 0 =
      some (s₁, .ok out, rng) ∧ s₁.state = .idle ∧
        dkgEndOutcomes (out.map Packet.msg) = [(1, true)] :=
  ⟨_, _, _, rfl, rfl, rfl⟩

/-- After its `DkgBegin`, `round₀` gets signer 1's commitments, a `DkgPrivateBegin`, signer
    2's private shares and a `NonceRequest`, but never signer 2's commitments. -/
def waitingRun : List (Message crypto × Nat) :=
  [(.dkgPublicShares (commitsOf 0), 0), (.dkgPrivateBegin ⟨1⟩, 0), ((sharesOf 2).msg, 0),
    (.nonceRequest ⟨1, 1, 1⟩, 0)]

/-- `publicGather_waits_for_party` at `publicGather`, waiting for party 1 of `{0, 1}`. -/
theorem publicGather_waits_for_party_publicGather :
    ∃ s' outs, publicGather.runOutputs waitingRun = some (s', outs) ∧
      s'.state = .dkgPublicGather ∧
      ∀ o ∈ outs, (∃ q, o = .nonceResponse q) ∨ ∃ q, o = .signatureShareResponse q := by
  obtain ⟨s', outs, h⟩ : ∃ s' outs, publicGather.runOutputs waitingRun = some (s', outs) :=
    ⟨_, _, rfl⟩
  exact ⟨s', outs, h, publicGather_waits_for_party (S := {0, 1}) (p := 1) (by decide) rfl
    (by decide) (fun k hk => by cases hk) (by decide) h⟩

/-- After its `DkgBegin`, `round₀` gets both commitments, a `DkgPrivateBegin`, signer 1's
    private shares and a `NonceRequest`, but never signer 2's private shares. -/
def privateWaitingRun : List (Message crypto × Nat) :=
  [((publicOf 0).msg, 0), ((publicOf 1).msg, 0), (.dkgPrivateBegin ⟨1⟩, 0),
    ((sharesOf 1).msg, 0), (.nonceRequest ⟨1, 1, 1⟩, 0)]

/-- `round_stays_open_without_party` at `publicGather`, waiting for source 2 of `{1, 2}`. -/
theorem round_stays_open_without_party_publicGather :
    ∃ s' outs, publicGather.runOutputs privateWaitingRun = some (s', outs) ∧
      dkgEndOutcomes outs = [] ∧ s'.state ≠ .idle := by
  obtain ⟨s', outs, h⟩ : ∃ s' outs, publicGather.runOutputs privateWaitingRun = some (s', outs) :=
    ⟨_, _, rfl⟩
  obtain ⟨hend, hopen⟩ := round_stays_open_without_party (S := {1, 2}) (p := 2) (by decide)
    (by decide) (fun k hk => by cases hk) (by decide) h
  exact ⟨s', outs, h, hend, hopen (by decide)⟩

/-- Signer 2's private shares overtaking `round₀`'s `DkgBegin` are lost, and the round it
    then runs to its private phase stays open. -/
example : ∃ s, round₀.run (((sharesOf 2).msg, 0) :: (.dkgBegin ⟨1⟩, 0) :: privateWaitingRun) =
    some s ∧ s.state = .dkgPrivateGather ∧ s.decryptedShares.keys = [1] :=
  ⟨_, rfl, rfl, rfl⟩

/-- Signer 2's commitments overtaking `round₀`'s `DkgBegin` are lost: after signer 1's,
    the `DkgPrivateBegin` is refused and the round still gathers commitments. -/
example : ∃ s, round₀.run [(.dkgPublicShares (commitsOf 1), 0), (.dkgBegin ⟨1⟩, 0),
    (.dkgPublicShares (commitsOf 0), 0), (.dkgPrivateBegin ⟨1⟩, 0)] = some s ∧
      s.state = .dkgPublicGather ∧ s.commitments.keys = [0] :=
  ⟨_, rfl, rfl, rfl⟩

end NatBackend

end Wsts
