/-
  Wsts.StateMachine.Signer.Spec

  One equation per handler and per message kind of `process`, so that every later proof
  cites these and never unfolds `process`.

  The completion check never fails (`checkCompletion_eq`): both of its moves are
  accepted wherever it makes them.  So a `process` call returns `Err` only from its
  handler, and only a `DkgBegin` or a `DkgPrivateBegin` can (`process_error`).
-/

import Wsts.StateMachine.Signer.Process

namespace Wsts

namespace SigningRound

variable {C : Crypto} {σ : Type} [Signer C σ]

-- ============================================================================
-- Field lemmas
-- ============================================================================

section Fields

variable (s : SigningRound C σ) (d : Nat) (rng : C.Rng)

@[simp] theorem reset_state : (s.reset d rng).1.state = s.state := rfl
@[simp] theorem reset_dkgId : (s.reset d rng).1.dkgId = d := rfl
@[simp] theorem reset_commitments : (s.reset d rng).1.commitments = .empty := rfl
@[simp] theorem reset_decryptedShares : (s.reset d rng).1.decryptedShares = .empty := rfl
@[simp] theorem reset_invalidPrivateShares : (s.reset d rng).1.invalidPrivateShares = [] := rfl
@[simp] theorem reset_publicNonces : (s.reset d rng).1.publicNonces = [] := rfl
@[simp] theorem reset_signer :
    (s.reset d rng).1.signer = (Signer.resetPolys s.signer rng).1 := rfl
@[simp] theorem reset_signerId : (s.reset d rng).1.signerId = s.signerId := rfl
@[simp] theorem reset_publicKeys : (s.reset d rng).1.publicKeys = s.publicKeys := rfl
@[simp] theorem reset_networkPrivateKey :
    (s.reset d rng).1.networkPrivateKey = s.networkPrivateKey := rfl

omit [Signer C σ] in
@[simp] theorem dkgPublicShare_state (p : DkgPublicShares C) :
    (s.dkgPublicShare p).state = s.state := rfl
omit [Signer C σ] in
@[simp] theorem dkgPublicShare_signer (p : DkgPublicShares C) :
    (s.dkgPublicShare p).signer = s.signer := rfl

end Fields

-- ============================================================================
-- The completion check
-- ============================================================================

theorem state_of_publicSharesDone {s : SigningRound C σ} (h : s.publicSharesDone) :
    s.state = .dkgPublicGather := by
  simp only [publicSharesDone, Bool.and_eq_true, beq_iff_eq] at h
  exact h.1

theorem state_of_canDkgEnd {s : SigningRound C σ} (h : s.canDkgEnd) :
    s.state = .dkgPrivateGather := by
  simp only [canDkgEnd, Bool.and_eq_true, beq_iff_eq] at h
  exact h.1.1

/-- The completion check, with its two moves carried out: they are always accepted. -/
theorem checkCompletion_eq (s : SigningRound C σ) (out : List (Message C)) :
    s.checkCompletion out =
      if s.publicSharesDone then ({ s with state := .dkgPrivateDistribute }, .ok out)
      else if s.canDkgEnd then
        ({ s.dkgEnded.1 with state := .idle }, .ok (out ++ [s.dkgEnded.2]))
      else (s, .ok out) := by
  unfold checkCompletion
  split_ifs with h₁ h₂
  · rw [moveTo_of_accepted (by simp [state_of_publicSharesDone h₁, accepted])]
  · dsimp only
    rw [@moveTo_of_accepted _ _ s.dkgEnded.1 .idle rfl]
  · rfl

/-- `dkg_ended` changes only the signer, and only through `compute_secrets`. -/
theorem dkgEnded_fst (s : SigningRound C σ) :
    s.dkgEnded.1 = { s with signer := if s.invalidPrivateShares.isEmpty then
      (Signer.computeSecrets s.signer s.decryptedShares s.commitments.values).1
      else s.signer } := by
  unfold dkgEnded
  split_ifs <;> rfl

/-- With neither completion predicate true, the check does nothing. -/
theorem checkCompletion_of_not_done {s : SigningRound C σ} (out : List (Message C))
    (h₁ : s.publicSharesDone = false) (h₂ : s.canDkgEnd = false) :
    s.checkCompletion out = (s, .ok out) := by
  rw [checkCompletion_eq, if_neg (by simp [h₁]), if_neg (by simp [h₂])]

/-- The completion check changes only the state and, through `compute_secrets`, the
    signer. -/
theorem checkCompletion_frame (s : SigningRound C σ) (out : List (Message C)) :
    ∃ state, (s.checkCompletion out).1 = { s with state } ∨
      ∃ shares polys, (s.checkCompletion out).1 =
        { s with state, signer := (Signer.computeSecrets s.signer shares polys).1 } := by
  rw [checkCompletion_eq]
  split_ifs
  · exact ⟨_, .inl rfl⟩
  · rw [dkgEnded_fst]
    split_ifs
    · exact ⟨.idle, .inr ⟨_, _, rfl⟩⟩
    · exact ⟨.idle, .inl rfl⟩
  · exact ⟨s.state, .inl rfl⟩

section CheckCompletionFields

variable (s : SigningRound C σ) (out : List (Message C))

@[simp] theorem checkCompletion_dkgId : (s.checkCompletion out).1.dkgId = s.dkgId := by
  obtain ⟨_, h | ⟨_, _, h⟩⟩ := checkCompletion_frame s out <;> rw [h]
@[simp] theorem checkCompletion_commitments :
    (s.checkCompletion out).1.commitments = s.commitments := by
  obtain ⟨_, h | ⟨_, _, h⟩⟩ := checkCompletion_frame s out <;> rw [h]
@[simp] theorem checkCompletion_decryptedShares :
    (s.checkCompletion out).1.decryptedShares = s.decryptedShares := by
  obtain ⟨_, h | ⟨_, _, h⟩⟩ := checkCompletion_frame s out <;> rw [h]
@[simp] theorem checkCompletion_invalidPrivateShares :
    (s.checkCompletion out).1.invalidPrivateShares = s.invalidPrivateShares := by
  obtain ⟨_, h | ⟨_, _, h⟩⟩ := checkCompletion_frame s out <;> rw [h]
@[simp] theorem checkCompletion_publicNonces :
    (s.checkCompletion out).1.publicNonces = s.publicNonces := by
  obtain ⟨_, h | ⟨_, _, h⟩⟩ := checkCompletion_frame s out <;> rw [h]

end CheckCompletionFields

/-- The `DkgEnd` of `dkg_ended` carries the round's id and this signer's id. -/
theorem dkgEnded_snd (s : SigningRound C σ) :
    ∃ status, s.dkgEnded.2 = .dkgEnd { dkgId := s.dkgId, signerId := s.signerId, status } := by
  unfold dkgEnded
  split_ifs <;> exact ⟨_, rfl⟩

/-- The completion check never fails, and adds to the handler's messages nothing or one
    `DkgEnd`. -/
theorem checkCompletion_snd (s : SigningRound C σ) (out : List (Message C)) :
    ∃ extra, (s.checkCompletion out).2 = .ok (out ++ extra) ∧
      (extra = [] ∨ ∃ e, extra = [.dkgEnd e]) := by
  rw [checkCompletion_eq]
  split_ifs
  · exact ⟨[], by simp, .inl rfl⟩
  · obtain ⟨status, h⟩ := s.dkgEnded_snd
    exact ⟨[s.dkgEnded.2], rfl, .inr ⟨_, by rw [h]⟩⟩
  · exact ⟨[], by simp, .inl rfl⟩

/-- The completion check moves `DkgPublicGather` on to `DkgPrivateDistribute` and
    `DkgPrivateGather` on to `Idle`, and leaves every other state alone. -/
theorem checkCompletion_state (s : SigningRound C σ) (out : List (Message C)) :
    (s.checkCompletion out).1.state = s.state ∨
      (s.state = .dkgPublicGather ∧ (s.checkCompletion out).1.state = .dkgPrivateDistribute) ∨
      (s.state = .dkgPrivateGather ∧ (s.checkCompletion out).1.state = .idle) := by
  rw [checkCompletion_eq]
  split_ifs with h₁ h₂
  · exact .inr (.inl ⟨state_of_publicSharesDone h₁, rfl⟩)
  · exact .inr (.inr ⟨state_of_canDkgEnd h₂, rfl⟩)
  · exact .inl rfl

-- ============================================================================
-- Handlers
-- ============================================================================

section Handlers

variable (s : SigningRound C σ) (rng : C.Rng)

theorem dkgBegin_of_accepted (b : DkgBegin) (h : accepted s.state .dkgPublicDistribute) :
    s.dkgBegin b rng =
      ({ (s.reset b.dkgId rng).1 with state := .dkgPublicGather },
       .ok [.dkgPublicShares
              { dkgId := b.dkgId, signerId := s.signerId,
                comms := (Signer.getPolyCommitments (s.reset b.dkgId rng).1.signer
                  (s.reset b.dkgId rng).2).1.map fun poly => (C.partyId poly, poly) }],
       (Signer.getPolyCommitments (s.reset b.dkgId rng).1.signer (s.reset b.dkgId rng).2).2) := by
  unfold dkgBegin
  dsimp only
  rw [moveTo_of_accepted (by simpa using h)]
  unfold dkgPublicBegin
  dsimp only
  rw [moveTo_of_accepted] <;> rfl

theorem dkgBegin_of_not_accepted (b : DkgBegin)
    (h : accepted s.state .dkgPublicDistribute = false) :
    s.dkgBegin b rng =
      ((s.reset b.dkgId rng).1, .error (.badStateChange s.state .dkgPublicDistribute),
       (s.reset b.dkgId rng).2) := by
  unfold dkgBegin
  dsimp only
  rw [moveTo_of_not_accepted (by simpa using h)]
  rfl

theorem dkgPrivateBegin_eq :
    s.dkgPrivateBegin rng =
      (s.encryptPrivateShares (Signer.getShares s.signer).entries rng).map fun e =>
        if accepted s.state .dkgPrivateGather then
          ({ s with state := .dkgPrivateGather },
           .ok [.dkgPrivateShares { dkgId := s.dkgId, signerId := s.signerId, shares := e.1 }],
           e.2)
        else (s, .error (.badStateChange s.state .dkgPrivateGather), e.2) := by
  unfold dkgPrivateBegin
  cases s.encryptPrivateShares (Signer.getShares s.signer).entries rng with
  | none => rfl
  | some e =>
    cases h : accepted s.state .dkgPrivateGather
    · simp [moveTo_of_not_accepted h]
    · simp [moveTo_of_accepted h]

omit [Signer C σ] in
/-- `dkg_private_shares` touches only `decrypted_shares` and `invalid_private_shares`. -/
theorem foldl_storePrivateShares (keyIds : List Nat) (sharedSecret : Bytes)
    (l : List (Nat × KeyMap Bytes)) (s : SigningRound C σ) :
    l.foldl (storePrivateShares keyIds sharedSecret) s =
      { s with
        decryptedShares := (l.foldl (storePrivateShares keyIds sharedSecret) s).decryptedShares,
        invalidPrivateShares :=
          (l.foldl (storePrivateShares keyIds sharedSecret) s).invalidPrivateShares } := by
  induction l generalizing s with
  | nil => rfl
  | cons x l ih => exact ih _

theorem eq_of_dkgPrivateShares {p : DkgPrivateShares} {s' : SigningRound C σ}
    (h : s.dkgPrivateShares p = some s') :
    s' = { s with decryptedShares := s'.decryptedShares,
                  invalidPrivateShares := s'.invalidPrivateShares } := by
  obtain ⟨_, -, rfl⟩ := Option.map_eq_some'.1 h
  exact foldl_storePrivateShares _ _ _ _

end Handlers

section HandleState

variable {s s' : SigningRound C σ} {m : Message C} {rng rng' : C.Rng}
  {r : Except Error (List (Message C))}

/-- The round each handler leaves. -/
theorem handle_round (h : s.handle m rng = some (s', r, rng')) :
    match m with
    | .dkgBegin b => s' = { (s.reset b.dkgId rng).1 with
        state := if accepted s.state .dkgPublicDistribute then .dkgPublicGather else s.state }
    | .dkgPrivateBegin _ => s' = { s with
        state := if accepted s.state .dkgPrivateGather then .dkgPrivateGather else s.state }
    | .dkgPublicShares p => s' = s.dkgPublicShare p
    | .dkgPrivateShares p => s.dkgPrivateShares p = some s'
    | .nonceRequest _ => s' = { s with signer := (Signer.genNonces s.signer rng).1 }
    | _ => s' = s := by
  cases m with
  | dkgBegin b =>
    simp only [handle, Option.some.injEq] at h
    cases hacc : accepted s.state .dkgPublicDistribute
    · rw [dkgBegin_of_not_accepted s rng b hacc] at h
      cases h
      rfl
    · rw [dkgBegin_of_accepted s rng b hacc] at h
      cases h
      rfl
  | dkgPrivateBegin b =>
    simp only [handle, dkgPrivateBegin_eq] at h
    obtain ⟨_, -, he⟩ := Option.map_eq_some'.1 h
    split_ifs at he with hacc <;> cases he <;> simp [hacc]
  | dkgPrivateShares p =>
    obtain ⟨s₁, hs₁, he⟩ := Option.map_eq_some'.1 h
    cases he
    exact hs₁
  | _ => cases h; rfl

/-- A handler moves the round to `DkgPublicGather` (a `DkgBegin`), to `DkgPrivateGather`
    (a `DkgPrivateBegin`), or not at all. -/
theorem handle_state (h : s.handle m rng = some (s', r, rng')) :
    s'.state = s.state ∨ s'.state = .dkgPublicGather ∨ s'.state = .dkgPrivateGather := by
  have hr := handle_round h
  cases m <;> simp only at hr
  case dkgPrivateShares p => rw [eq_of_dkgPrivateShares s hr]; exact .inl rfl
  all_goals subst hr
  case dkgBegin => split_ifs <;> simp
  case dkgPrivateBegin => split_ifs <;> simp
  all_goals exact .inl rfl

end HandleState


-- ============================================================================
-- `process`
-- ============================================================================

section Process

variable {s s' : SigningRound C σ} {m : Message C} {rng rng' : C.Rng}

theorem process_of_handle_ok {out : List (Message C)}
    (h : s.handle m rng = some (s', .ok out, rng')) :
    s.process m rng = some ((s'.checkCompletion out).1, (s'.checkCompletion out).2, rng') := by
  simp [process, h]

theorem process_of_handle_error {e : Error} (h : s.handle m rng = some (s', .error e, rng')) :
    s.process m rng = some (s', .error e, rng') := by
  simp [process, h]

/-- What a `process` call is made of: its handler, then the completion check when the
    handler succeeded. -/
theorem process_inv {r : Except Error (List (Message C))}
    (h : s.process m rng = some (s', r, rng')) :
    ∃ s₁ r₁, s.handle m rng = some (s₁, r₁, rng') ∧
      ((∃ out, r₁ = .ok out ∧ s' = (s₁.checkCompletion out).1 ∧
          r = (s₁.checkCompletion out).2) ∨
       (∃ e, r₁ = .error e ∧ s' = s₁ ∧ r = .error e)) := by
  obtain ⟨⟨s₁, r₁, rng₁⟩, hh, hf⟩ := Option.map_eq_some'.1 h
  cases r₁ with
  | ok out =>
    simp only [Prod.mk.injEq] at hf
    obtain ⟨rfl, rfl, rfl⟩ := hf
    exact ⟨s₁, _, hh, .inl ⟨out, rfl, rfl, rfl⟩⟩
  | error e =>
    simp only [Prod.mk.injEq] at hf
    obtain ⟨rfl, rfl, rfl⟩ := hf
    exact ⟨s₁, _, hh, .inr ⟨e, rfl, rfl, rfl⟩⟩

/-- A failed `process` call is a failed handler: the completion check never fails. -/
theorem handle_of_process_error {e : Error} (h : s.process m rng = some (s', .error e, rng')) :
    s.handle m rng = some (s', .error e, rng') := by
  obtain ⟨⟨s₁, r, rng₁⟩, hh, hf⟩ := Option.map_eq_some'.1 h
  cases r with
  | ok out =>
    obtain ⟨_, ho, -⟩ := s₁.checkCompletion_snd out
    simp [ho] at hf
  | error e' =>
    simp only [Prod.mk.injEq, Except.error.injEq] at hf
    obtain ⟨rfl, rfl, rfl⟩ := hf
    exact hh

/-- Only a `DkgBegin` or a `DkgPrivateBegin` that the transition graph refuses makes
    `process` fail.  A refused `DkgPrivateBegin` leaves the round as it was; a refused
    `DkgBegin` leaves it reset. -/
theorem process_error {e : Error} (h : s.process m rng = some (s', .error e, rng')) :
    (∃ b, m = .dkgBegin b ∧ accepted s.state .dkgPublicDistribute = false ∧
        s' = (s.reset b.dkgId rng).1 ∧ e = .badStateChange s.state .dkgPublicDistribute) ∨
    (∃ b, m = .dkgPrivateBegin b ∧ accepted s.state .dkgPrivateGather = false ∧
        s' = s ∧ e = .badStateChange s.state .dkgPrivateGather) := by
  have h := handle_of_process_error h
  cases m with
  | dkgBegin b =>
    refine .inl ⟨b, rfl, ?_⟩
    cases hacc : accepted s.state .dkgPublicDistribute
    · simp only [handle, dkgBegin_of_not_accepted s rng b hacc, Option.some.injEq,
        Prod.mk.injEq, Except.error.injEq] at h
      exact ⟨rfl, h.1.symm, h.2.1.symm⟩
    · simp [handle, dkgBegin_of_accepted s rng b hacc] at h
  | dkgPrivateBegin b =>
    refine .inr ⟨b, rfl, ?_⟩
    simp only [handle, dkgPrivateBegin_eq] at h
    obtain ⟨_, -, he⟩ := Option.map_eq_some'.1 h
    split_ifs at he with hacc
    · simp at he
    · simp only [Prod.mk.injEq, Except.error.injEq] at he
      exact ⟨by simpa using hacc, he.1.symm, he.2.1.symm⟩
  | dkgPrivateShares p =>
    simp only [handle] at h
    obtain ⟨_, -, he⟩ := Option.map_eq_some'.1 h
    simp at he
  | _ => simp [handle] at h

/-- An accepted `DkgBegin`, for a signer of at least one party, leaves nothing for the
    completion check to do. -/
theorem process_dkgBegin_of_accepted (b : DkgBegin)
    (hacc : accepted s.state .dkgPublicDistribute) (hN : 1 ≤ Signer.getNumParties s.signer) :
    s.process (.dkgBegin b) rng = some (s.dkgBegin b rng) := by
  have hh : s.handle (.dkgBegin b) rng = some (s.dkgBegin b rng) := rfl
  rw [dkgBegin_of_accepted s rng b hacc] at hh
  rw [process_of_handle_ok hh, checkCompletion_of_not_done, dkgBegin_of_accepted s rng b hacc]
  · simp only [publicSharesDone, KeyMap.size_empty, reset_commitments, reset_signer,
      Signer.getNumParties_resetPolys, Bool.and_eq_false_iff, beq_eq_false_iff_ne]
    exact .inr (by omega)
  · simp [canDkgEnd]

theorem process_dkgBegin_of_not_accepted (b : DkgBegin)
    (hacc : accepted s.state .dkgPublicDistribute = false) :
    s.process (.dkgBegin b) rng = some (s.dkgBegin b rng) := by
  have hh : s.handle (.dkgBegin b) rng = some (s.dkgBegin b rng) := rfl
  rw [dkgBegin_of_not_accepted s rng b hacc] at hh
  rw [process_of_handle_error hh, dkgBegin_of_not_accepted s rng b hacc]

/-- A `process` call changes the round as its handler does, then at most its state and,
    through `compute_secrets`, its signer. -/
theorem process_frame {r : Except Error (List (Message C))}
    (h : s.process m rng = some (s', r, rng')) :
    ∃ s₁ r₁, s.handle m rng = some (s₁, r₁, rng') ∧ ∃ state,
      s' = { s₁ with state } ∨
      ∃ shares polys,
        s' = { s₁ with state, signer := (Signer.computeSecrets s₁.signer shares polys).1 } := by
  obtain ⟨s₁, r₁, hh, ⟨out, -, rfl, -⟩ | ⟨e, -, rfl, -⟩⟩ := process_inv h
  · exact ⟨s₁, r₁, hh, checkCompletion_frame s₁ out⟩
  · exact ⟨_, r₁, hh, _, .inl rfl⟩

end Process

-- ============================================================================
-- What no call changes
-- ============================================================================

/-- Two rounds of the same signer: same id and keys, and a `Signer` with the same
    identity. -/
structure SameIdentity (s s' : SigningRound C σ) : Prop where
  signerId : s'.signerId = s.signerId
  publicKeys : s'.publicKeys = s.publicKeys
  networkPrivateKey : s'.networkPrivateKey = s.networkPrivateKey
  keyIds : Signer.getKeyIds s'.signer = Signer.getKeyIds s.signer
  numParties : Signer.getNumParties s'.signer = Signer.getNumParties s.signer

theorem SameIdentity.trans {s₁ s₂ s₃ : SigningRound C σ} (h₁ : SameIdentity s₁ s₂)
    (h₂ : SameIdentity s₂ s₃) : SameIdentity s₁ s₃ :=
  ⟨h₂.signerId.trans h₁.signerId, h₂.publicKeys.trans h₁.publicKeys,
   h₂.networkPrivateKey.trans h₁.networkPrivateKey, h₂.keyIds.trans h₁.keyIds,
   h₂.numParties.trans h₁.numParties⟩

theorem sameIdentity_handle {s s' : SigningRound C σ} {m : Message C} {rng rng' : C.Rng}
    {r : Except Error (List (Message C))} (h : s.handle m rng = some (s', r, rng')) :
    SameIdentity s s' := by
  have hr := handle_round h
  cases m <;> simp only at hr
  case dkgPrivateShares p =>
    rw [eq_of_dkgPrivateShares s hr]
    exact ⟨rfl, rfl, rfl, rfl, rfl⟩
  all_goals subst hr; exact ⟨rfl, rfl, rfl, by simp, by simp⟩

/-- No `process` call changes who the signer is. -/
theorem process_sameIdentity {s s' : SigningRound C σ} {m : Message C} {rng rng' : C.Rng}
    {r : Except Error (List (Message C))} (h : s.process m rng = some (s', r, rng')) :
    SameIdentity s s' := by
  obtain ⟨s₁, r₁, hh, state, rfl | ⟨shares, polys, rfl⟩⟩ := process_frame h
  · exact (sameIdentity_handle hh).trans ⟨rfl, rfl, rfl, rfl, rfl⟩
  · exact (sameIdentity_handle hh).trans ⟨rfl, rfl, rfl, by simp, by simp⟩

end SigningRound

end Wsts
