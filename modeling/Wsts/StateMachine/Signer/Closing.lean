/-
  Wsts.StateMachine.Signer.Closing

  How a DKG round closes.

  `invalid_private_shares` changes the way the per-round maps do: a `DkgBegin` empties
  it, and a `DkgPrivateShares` from a known sender appends a source party once for every
  share listed under it that is addressed to this signer's keys and does not open
  (`process_invalidPrivateShares`).  After a run from `SigningRound::new` a party is in it
  exactly when such a share arrived since the most recent `DkgBegin`, every share stored
  in `decrypted_shares` is for one of this signer's keys, and a `DkgEnd` reports success
  exactly when no share failed since that `DkgBegin` and `compute_secrets` succeeded
  (`privateShares_bookkeeping_exact`).

  Only the completion check emits a `DkgEnd`, when `can_dkg_end` holds after the handler:
  the round is then in `DkgPrivateGather`, and it moves to `Idle` with the `DkgEnd`
  carrying its id and this signer's (`dkgEnd_of_process`).  Nothing but a `DkgBegin`
  leaves `Idle` (`process_of_idle`), so a run with no `DkgBegin` after its first message
  emits at most one `DkgEnd` (`dkgEnd_closes_round_once`).
-/

import Wsts.StateMachine.Signer.Delivery
import Wsts.StateMachine.Signer.Signing

namespace Wsts

variable {C : Crypto}

/-- Some message of `msgs` is a `DkgPrivateShares` from a sender whose shared secret is
    known, listing under `src` a ciphertext addressed to one of `keyIds` that does not
    decrypt or does not parse as a scalar. -/
def ShareFailed (keyIds : List Nat) (secretWith : Nat → Option Bytes)
    (msgs : List (Message C)) (src : Nat) : Prop :=
  ∃ m ∈ msgs, ∃ p, m = .dkgPrivateShares p ∧ ∃ ss, secretWith p.signerId = some ss ∧
    ∃ cts, (src, cts) ∈ p.shares ∧
      ∃ c ∈ cts.entries, c.1 ∈ keyIds ∧ C.openShare ss c.2 = none

/-- `invalid_private_shares` after one more message: emptied by a `DkgBegin`, otherwise
    extended with the message's failures. -/
def invalidStep (keyIds : List Nat) (secretWith : Nat → Option Bytes) (invalid : List Nat)
    (m : Message C) : List Nat :=
  if m.isDkgBegin then [] else invalid ++ m.privateFailures keyIds secretWith

-- ============================================================================
-- Failures
-- ============================================================================

section Failures

variable {keyIds : List Nat} {secretWith : Nat → Option Bytes} {src : Nat}

theorem mem_decryptFailures {ss : Bytes} {srcId : Nat} {l : List (Nat × Bytes)} :
    src ∈ SigningRound.decryptFailures C keyIds ss srcId l ↔
      src = srcId ∧ ∃ c ∈ l, c.1 ∈ keyIds ∧ C.openShare ss c.2 = none := by
  simp only [SigningRound.decryptFailures, List.mem_filterMap, Option.ite_none_right_eq_some,
    Option.some.injEq, Option.isNone_iff_eq_none]
  constructor
  · rintro ⟨c, hc, hk, rfl⟩
    exact ⟨rfl, c, hc, hk⟩
  · rintro ⟨rfl, c, hc, hk⟩
    exact ⟨c, hc, hk, rfl⟩

theorem mem_failedSources {ss : Bytes} {shares : List (Nat × KeyMap Bytes)} :
    src ∈ SigningRound.failedSources C keyIds ss shares ↔
      ∃ cts, (src, cts) ∈ shares ∧ ∃ c ∈ cts.entries, c.1 ∈ keyIds ∧
        C.openShare ss c.2 = none := by
  simp only [SigningRound.failedSources, List.mem_flatMap, mem_decryptFailures]
  constructor
  · rintro ⟨⟨k, cts⟩, hmem, rfl, hc⟩
    exact ⟨cts, hmem, hc⟩
  · rintro ⟨cts, hmem, hc⟩
    exact ⟨(src, cts), hmem, rfl, hc⟩

/-- A message marks `src` invalid exactly when one of its shares under `src` fails. -/
theorem mem_privateFailures {m : Message C} :
    src ∈ m.privateFailures keyIds secretWith ↔ ShareFailed keyIds secretWith [m] src := by
  simp only [ShareFailed, List.mem_singleton, exists_eq_left]
  cases m with
  | dkgPrivateShares p =>
    cases hss : secretWith p.signerId <;>
      simp [Message.privateFailures, hss, mem_failedSources]
  | _ => simp only [Message.privateFailures, List.not_mem_nil, reduceCtorEq, false_and,
      exists_false]

theorem mem_flatMap_privateFailures {msgs : List (Message C)} :
    src ∈ msgs.flatMap (Message.privateFailures keyIds secretWith) ↔
      ShareFailed keyIds secretWith msgs src := by
  simp only [List.mem_flatMap, mem_privateFailures, ShareFailed, List.mem_singleton,
    exists_eq_left]

/-- One more message turns the failures since the last `DkgBegin` of a history into those
    of the history extended by it. -/
theorem invalidStep_since (l : List (Message C)) (m : Message C) :
    invalidStep keyIds secretWith
        ((sinceDkgBegin l).flatMap (Message.privateFailures keyIds secretWith)) m =
      (sinceDkgBegin (l ++ [m])).flatMap (Message.privateFailures keyIds secretWith) := by
  rw [sinceDkgBegin_append_singleton, invalidStep]
  split_ifs <;> simp

/-- From an empty list, a history leaves the failures since its last `DkgBegin`. -/
theorem foldl_invalidStep (l : List (Message C)) :
    l.foldl (invalidStep keyIds secretWith) [] =
      (sinceDkgBegin l).flatMap (Message.privateFailures keyIds secretWith) := by
  induction l using List.reverseRecOn with
  | nil => rfl
  | append_singleton l m ih =>
    rw [List.foldl_append, List.foldl_cons, List.foldl_nil, ih, invalidStep_since]

/-- The shares a message stores for a source party are addressed to `keyIds`. -/
theorem mem_keys_of_privateContributions {m : Message C} {row : KeyMap C.Scalar}
    (h : (src, row) ∈ m.privateContributions keyIds secretWith) :
    ∀ dst ∈ row.keys, dst ∈ keyIds := by
  cases m <;> simp only [Message.privateContributions, List.not_mem_nil] at h
  case dkgPrivateShares p =>
    split at h
    · obtain ⟨x, -, hx⟩ := List.mem_map.1 h
      cases hx
      intro dst hdst
      rw [KeyMap.ofList, KeyMap.mem_keys_foldl_insert] at hdst
      rcases hdst with hdst | hdst
      · obtain ⟨y, hy, rfl⟩ := List.mem_map.1 hdst
        obtain ⟨z, -, hz⟩ := List.mem_filterMap.1 hy
        split_ifs at hz with hk
        obtain ⟨v, -, rfl⟩ := Option.map_eq_some'.1 hz
        exact hk
      · cases hdst
    · cases h

end Failures

theorem dkgEndOutcomes_append (l₁ l₂ : List (Message C)) :
    dkgEndOutcomes (l₁ ++ l₂) = dkgEndOutcomes l₁ ++ dkgEndOutcomes l₂ :=
  List.filterMap_append _ _ _

theorem dkgEnd_not_mem {out : List (Message C)} (h : dkgEndOutcomes out = []) (e : DkgEnd C) :
    .dkgEnd e ∉ out := fun he => by
  rw [dkgEndOutcomes, List.filterMap_eq_nil_iff] at h
  cases h _ he

namespace SigningRound

variable {σ : Type} [Signer C σ]

-- ============================================================================
-- One call
-- ============================================================================

section Step

variable {s s' t : SigningRound C σ} {m : Message C} {rng rng' : C.Rng}
  {r : Except Error (List (Message C))}

theorem handle_invalidPrivateShares (h : s.handle m rng = some (s', r, rng')) :
    s'.invalidPrivateShares = invalidStep (Signer.getKeyIds s.signer) s.sharedSecretWith
      s.invalidPrivateShares m := by
  have hr := handle_round h
  cases m <;> simp only at hr
  case dkgPrivateShares p =>
    obtain ⟨ss, hss, rfl⟩ := Option.map_eq_some'.1 ((dkgPrivateShares_eq s p).symm.trans hr)
    simp [invalidStep, Message.isDkgBegin, Message.privateFailures, hss]
  all_goals subst hr; simp [invalidStep, Message.isDkgBegin, Message.privateFailures,
    dkgPublicShare]

/-- `invalid_private_shares` after one call: one `invalidStep`. -/
theorem process_invalidPrivateShares (h : s.process m rng = some (s', r, rng')) :
    s'.invalidPrivateShares = invalidStep (Signer.getKeyIds s.signer) s.sharedSecretWith
      s.invalidPrivateShares m := by
  obtain ⟨s₁, r₁, hh, state, rfl | ⟨shares, polys, rfl⟩⟩ := process_frame h <;>
  · have h₁ := handle_invalidPrivateShares hh
    exact h₁

/-- No handler answers with a `DkgEnd`. -/
theorem handle_dkgEndOutcomes {out : List (Message C)}
    (h : s.handle m rng = some (t, .ok out, rng')) : dkgEndOutcomes out = [] := by
  cases hm : m.drivesDkg
  · obtain ⟨t', out', rng'', hh, -, -, hout⟩ := s.handle_of_not_drivesDkg hm rng
    rw [h, Option.some.injEq, Prod.mk.injEq, Prod.mk.injEq, Except.ok.injEq] at hh
    rw [dkgEndOutcomes, List.filterMap_eq_nil_iff, hh.2.1]
    intro a ha
    rcases hout a ha with ⟨_, rfl⟩ | ⟨_, rfl⟩ <;> rfl
  · cases m <;> simp only [Message.drivesDkg, Bool.false_eq_true] at hm
    case dkgBegin b =>
      cases hacc : accepted s.state .dkgPublicDistribute <;>
        simp [handle, dkgBegin_of_accepted, dkgBegin_of_not_accepted, hacc] at h
      rw [← h.2.1]
      rfl
    case dkgPrivateBegin b =>
      obtain ⟨e, -, he⟩ := Option.map_eq_some'.1 ((dkgPrivateBegin_eq s rng).symm.trans h)
      split_ifs at he <;> simp only [Prod.mk.injEq, Except.ok.injEq, reduceCtorEq, false_and,
        and_false] at he
      rw [← he.2.1]
      rfl
    case dkgPublicShares p => cases h; rfl
    case dkgPrivateShares p => obtain ⟨_, -, ⟨⟩⟩ := Option.map_eq_some'.1 h; rfl

/-- A handler that leaves the round in `DkgPrivateGather` found it there, or was an accepted
    `DkgPrivateBegin` in `DkgPrivateDistribute`. -/
theorem handle_into_privateGather (h : s.handle m rng = some (t, r, rng'))
    (ht : t.state = .dkgPrivateGather) :
    s.state = .dkgPrivateGather ∨
      (s.state = .dkgPrivateDistribute ∧ ∃ b, m = .dkgPrivateBegin b) := by
  have hr := handle_round h
  cases m <;> simp only at hr
  case dkgPrivateShares p => rw [eq_of_dkgPrivateShares s hr] at ht; exact .inl ht
  all_goals subst hr
  case dkgBegin b =>
    dsimp only at ht
    split_ifs at ht
    exact .inl ht
  case dkgPrivateBegin b =>
    dsimp only at ht
    split_ifs at ht with hacc
    · exact .inr ⟨by simpa [accepted] using hacc, b, rfl⟩
    · exact .inl ht
  all_goals exact .inl ht

/-- A `DkgEnd` is answered only by the completion check, after a handler that left the round
    ready to end: it is `dkg_ended`'s, and the round moves to `Idle`. -/
theorem dkgEnd_of_process {out : List (Message C)} {e : DkgEnd C}
    (h : s.process m rng = some (s', .ok out, rng')) (he : .dkgEnd e ∈ out) :
    ∃ t out₁, s.handle m rng = some (t, .ok out₁, rng') ∧ t.canDkgEnd = true ∧
      .dkgEnd e = t.dkgEnded.2 ∧ s' = { t.dkgEnded.1 with state := .idle } := by
  obtain ⟨t, r₁, hh, ⟨out₁, rfl, rfl, hout⟩ | ⟨e', rfl, -, hr⟩⟩ := process_inv h
  · have hno := dkgEnd_not_mem (handle_dkgEndOutcomes hh) e
    rw [checkCompletion_eq] at hout ⊢
    split_ifs at hout ⊢ with h₁ h₂
    · cases hout
      exact absurd he hno
    · cases hout
      rcases List.mem_append.1 he with he | he
      · exact absurd he hno
      · exact ⟨t, out₁, hh, h₂, List.mem_singleton.1 he, rfl⟩
    · cases hout
      exact absurd he hno
  · cases hr

/-- The handlers of all messages but `DkgBegin` keep a round in `Idle`. -/
theorem handle_state_of_idle (hs : s.state = .idle) (hm : m.isDkgBegin = false)
    (h : s.handle m rng = some (t, r, rng')) : t.state = .idle := by
  have hr := handle_round h
  cases m <;> simp only at hr
  case dkgBegin => simp [Message.isDkgBegin] at hm
  case dkgPrivateShares p => rw [eq_of_dkgPrivateShares s hr]; exact hs
  all_goals subst hr
  case dkgPrivateBegin => simp [hs, accepted]
  all_goals exact hs

/-- In `Idle`, a call on anything but a `DkgBegin` stays there and answers no `DkgEnd`. -/
theorem process_of_idle (hs : s.state = .idle) (hm : m.isDkgBegin = false)
    (h : s.process m rng = some (s', r, rng')) :
    s'.state = .idle ∧ dkgEndOutcomes (answers r) = [] := by
  obtain ⟨t, r₁, hh, ⟨out, rfl, rfl, rfl⟩ | ⟨e, rfl, rfl, rfl⟩⟩ := process_inv h
  · have ht := handle_state_of_idle hs hm hh
    rw [checkCompletion_of_not_done out (by simp [publicSharesDone, ht])
      (by simp [canDkgEnd, ht])]
    exact ⟨ht, handle_dkgEndOutcomes hh⟩
  · exact ⟨handle_state_of_idle hs hm hh, rfl⟩

/-- A call answers at most one `DkgEnd`, and leaves the round in `Idle` when it does. -/
theorem process_dkgEndOutcomes (h : s.process m rng = some (s', r, rng')) :
    dkgEndOutcomes (answers r) = [] ∨
      ((dkgEndOutcomes (answers r)).length = 1 ∧ s'.state = .idle) := by
  obtain ⟨t, r₁, hh, ⟨out, rfl, rfl, rfl⟩ | ⟨e, rfl, rfl, rfl⟩⟩ := process_inv h
  · have hno := handle_dkgEndOutcomes hh
    rw [checkCompletion_eq]
    split_ifs
    · exact .inl hno
    · obtain ⟨status, hst⟩ := t.dkgEnded_snd
      refine .inr ⟨?_, rfl⟩
      rw [answers, dkgEndOutcomes_append, hno, hst]
      rfl
    · exact .inl hno
  · exact .inl rfl

end Step

-- ============================================================================
-- Runs
-- ============================================================================

section Run

variable {s s' : SigningRound C σ} {l : List (Message C × C.Rng)}

theorem run_invalidPrivateShares (h : s.run l = some s') :
    s'.invalidPrivateShares = (l.map Prod.fst).foldl
      (invalidStep (Signer.getKeyIds s.signer) s.sharedSecretWith) s.invalidPrivateShares := by
  induction l generalizing s with
  | nil => cases h; rfl
  | cons d l ih =>
    obtain ⟨⟨s₁, r, rng'⟩, hp, hl⟩ := Option.bind_eq_some.1 h
    have hid := process_sameIdentity hp
    rw [List.map_cons, List.foldl_cons, ← process_invalidPrivateShares hp, ih hl, hid.keyIds,
      hid.sharedSecretWith]

/-- From `Idle`, a run with no `DkgBegin` stays there and answers no `DkgEnd`. -/
theorem runOutputs_of_idle (hs : s.state = .idle) (hl : ∀ d ∈ l, d.1.isDkgBegin = false)
    {out : List (Message C)} (h : s.runOutputs l = some (s', out)) :
    s'.state = .idle ∧ dkgEndOutcomes out = [] := by
  induction l generalizing s out with
  | nil => cases h; exact ⟨hs, rfl⟩
  | cons d l ih =>
    obtain ⟨⟨s₁, r, rng₁⟩, hp, hq⟩ := Option.bind_eq_some.1 h
    obtain ⟨⟨s₂, out₂⟩, hrest, he⟩ := Option.map_eq_some'.1 hq
    cases he
    obtain ⟨hs₁, hr⟩ := process_of_idle hs (hl d (List.mem_cons_self _ _)) hp
    obtain ⟨hs₂, hout⟩ := ih hs₁ (fun d' hd' => hl d' (List.mem_cons_of_mem _ hd')) hrest
    exact ⟨hs₂, by rw [dkgEndOutcomes_append, hr, hout]; rfl⟩

end Run

theorem invalidPrivateShares_of_new {threshold totalSigners totalKeys signerId : Nat}
    {keyIds : List Nat} {networkPrivateKey : C.Scalar} {publicKeys : PublicKeys C}
    {rng : C.Rng} {s : SigningRound C σ}
    (h : SigningRound.new threshold totalSigners totalKeys signerId keyIds
      networkPrivateKey publicKeys rng = some s) :
    s.invalidPrivateShares = [] := by
  unfold SigningRound.new at h
  split_ifs at h
  cases h
  rfl

theorem toBool_eq_true_iff {ε : Type} {x : Except ε Unit} : x.toBool = true ↔ x = .ok () := by
  cases x <;> simp [Except.toBool]

-- ============================================================================
-- Runs from `SigningRound::new`: the bookkeeping, and closing once
-- ============================================================================

section FromNew

variable {threshold totalSigners totalKeys signerId : Nat} {keyIds : List Nat}
  {networkPrivateKey : C.Scalar} {publicKeys : PublicKeys C} {rng₀ : C.Rng}
  {s₀ s : SigningRound C σ} {l : List (Message C × C.Rng)}

/-- After a run from `SigningRound::new`, every stored share is for one of this signer's
    keys. -/
theorem run_decryptedShares_keys
    (h₀ : SigningRound.new threshold totalSigners totalKeys signerId keyIds
      networkPrivateKey publicKeys rng₀ = some s₀)
    (h : s₀.run l = some s) {src : Nat} {row : KeyMap C.Scalar}
    (hrow : s.decryptedShares.get? src = some row) :
    ∀ dst ∈ row.keys, dst ∈ Signer.getKeyIds s.signer := by
  rw [run_decryptedShares h, (roundMaps_of_new h₀).2, get?_foldl_roundStep] at hrow
  obtain ⟨m, -, hm⟩ :=
    List.mem_flatMap.1 (List.mem_reverse.1 (KeyMap.mem_of_lookup_eq_some hrow))
  rw [(run_sameIdentity h).keyIds]
  exact mem_keys_of_privateContributions hm

/-- After a run from `SigningRound::new`, `invalid_private_shares` holds the failures since
    the most recent `DkgBegin`. -/
theorem run_invalidPrivateShares_since
    (h₀ : SigningRound.new threshold totalSigners totalKeys signerId keyIds
      networkPrivateKey publicKeys rng₀ = some s₀)
    (h : s₀.run l = some s) :
    s.invalidPrivateShares = (sinceDkgBegin (l.map Prod.fst)).flatMap
      (Message.privateFailures (Signer.getKeyIds s.signer) s.sharedSecretWith) := by
  have hid := run_sameIdentity h
  rw [run_invalidPrivateShares h, invalidPrivateShares_of_new h₀, foldl_invalidStep,
    hid.keyIds, hid.sharedSecretWith]

/-- After any run from `SigningRound::new`: every share stored in `decrypted_shares` is
    for one of this signer's keys; a source party is in `invalid_private_shares` exactly
    when, since the most recent `DkgBegin`, a `DkgPrivateShares` listed under it a share
    for one of this signer's keys that does not open; and the next call's `DkgEnd`, if
    any, reports success exactly when no share failed since that `DkgBegin` (the call's
    own message included) and `compute_secrets` succeeded on the round its handler
    left. -/
theorem privateShares_bookkeeping_exact
    (h₀ : SigningRound.new threshold totalSigners totalKeys signerId keyIds
      networkPrivateKey publicKeys rng₀ = some s₀)
    (h : s₀.run l = some s) :
    (∀ src row, s.decryptedShares.get? src = some row →
        ∀ dst ∈ row.keys, dst ∈ Signer.getKeyIds s.signer) ∧
      (∀ src, src ∈ s.invalidPrivateShares ↔
        ShareFailed (Signer.getKeyIds s.signer) s.sharedSecretWith
          (sinceDkgBegin (l.map Prod.fst)) src) ∧
      (∀ m rng s' out rng' (e : DkgEnd C), s.process m rng = some (s', .ok out, rng') →
        .dkgEnd e ∈ out →
        ∃ t out₁, s.handle m rng = some (t, .ok out₁, rng') ∧
          (e.status.isSuccess = true ↔
            (∀ src, ¬ ShareFailed (Signer.getKeyIds s.signer) s.sharedSecretWith
              (sinceDkgBegin (l.map Prod.fst ++ [m])) src) ∧
            (Signer.computeSecrets t.signer t.decryptedShares t.commitments.values).2 =
              .ok ())) := by
  have hinv := run_invalidPrivateShares_since h₀ h
  refine ⟨fun src row => run_decryptedShares_keys h₀ h,
    fun src => by rw [hinv, mem_flatMap_privateFailures], fun m rng s' out rng' e hp he => ?_⟩
  obtain ⟨t, out₁, hh, -, hend, -⟩ := dkgEnd_of_process hp he
  refine ⟨t, out₁, hh, ?_⟩
  obtain ⟨status, hst, hsucc⟩ := dkgEnded_snd_isSuccess t
  rw [hst, Message.dkgEnd.injEq] at hend
  subst hend
  -- `dkg_ended` reads the failures of the history extended by `m`
  rw [hsucc, Bool.and_eq_true, List.isEmpty_iff, List.eq_nil_iff_forall_not_mem,
    handle_invalidPrivateShares hh, hinv, invalidStep_since, toBool_eq_true_iff]
  simp only [mem_flatMap_privateFailures]

end FromNew

/-- Every `DkgEnd` is answered by a call whose handler left the round in `DkgPrivateGather`
    (found there, or moved there from `DkgPrivateDistribute` by the `DkgPrivateBegin` the
    call handles), and which moves it on to `Idle`; the `DkgEnd` carries the round's id and
    this signer's.  Over any run with no `DkgBegin` after its first message, at most one
    `DkgEnd` is answered. -/
theorem dkgEnd_closes_round_once (s : SigningRound C σ) :
    (∀ m rng s' out rng' (e : DkgEnd C), s.process m rng = some (s', .ok out, rng') →
      .dkgEnd e ∈ out →
      (∃ t out₁, s.handle m rng = some (t, .ok out₁, rng') ∧
        t.state = .dkgPrivateGather) ∧
      (s.state = .dkgPrivateGather ∨
        (s.state = .dkgPrivateDistribute ∧ ∃ b, m = .dkgPrivateBegin b)) ∧
      s'.state = .idle ∧ e.dkgId = s'.dkgId ∧ e.signerId = s.signerId) ∧
    (∀ l s' out, s.runOutputs l = some (s', out) →
      (∀ d ∈ l.tail, d.1.isDkgBegin = false) →
      (dkgEndOutcomes out).length ≤ 1) := by
  refine ⟨fun m rng s' out rng' e hp he => ?_, fun l s' out h hl => ?_⟩
  · obtain ⟨t, out₁, hh, hend, he, rfl⟩ := dkgEnd_of_process hp he
    have ht := state_of_canDkgEnd hend
    obtain ⟨status, hst⟩ := t.dkgEnded_snd
    rw [hst, Message.dkgEnd.injEq] at he
    subst he
    exact ⟨⟨t, out₁, hh, ht⟩, handle_into_privateGather hh ht, rfl,
      by simp [dkgEnded_fst], (sameIdentity_handle hh).signerId⟩
  · induction l generalizing s out with
    | nil => cases h; exact Nat.zero_le _
    | cons d l ih =>
      obtain ⟨⟨s₁, r, rng₁⟩, hp, hq⟩ := Option.bind_eq_some.1 h
      obtain ⟨⟨s₂, out₂⟩, hrest, he⟩ := Option.map_eq_some'.1 hq
      cases he
      have hl' : ∀ d ∈ l, d.1.isDkgBegin = false := hl
      rw [dkgEndOutcomes_append, List.length_append]
      rcases process_dkgEndOutcomes hp with h₀ | ⟨h₁, hidle⟩
      · rw [h₀, List.length_nil, Nat.zero_add]
        exact ih s₁ out₂ hrest fun d hd => hl' d (List.mem_of_mem_tail hd)
      · rw [h₁, (runOutputs_of_idle hidle hl' hrest).2]
        rfl

end SigningRound

namespace NatBackend

open SigningRound

/-- `privateShares_bookkeeping_exact` after the run that takes `round₀` to
    `DkgPrivateGather`. -/
theorem privateShares_bookkeeping_exact_toPrivateGather :
    ∃ s, round₀.run toPrivateGather = some s ∧
      (∀ src row, s.decryptedShares.get? src = some row →
          ∀ dst ∈ row.keys, dst ∈ Signer.getKeyIds s.signer) ∧
      (∀ src, src ∈ s.invalidPrivateShares ↔
        ShareFailed (Signer.getKeyIds s.signer) s.sharedSecretWith
          (sinceDkgBegin (toPrivateGather.map Prod.fst)) src) ∧
      (∀ m rng s' out rng' (e : DkgEnd crypto), s.process m rng = some (s', .ok out, rng') →
        .dkgEnd e ∈ out →
        ∃ t out₁, s.handle m rng = some (t, .ok out₁, rng') ∧
          (e.status.isSuccess = true ↔
            (∀ src, ¬ ShareFailed (Signer.getKeyIds s.signer) s.sharedSecretWith
              (sinceDkgBegin (toPrivateGather.map Prod.fst ++ [m])) src) ∧
            (Signer.computeSecrets t.signer t.decryptedShares t.commitments.values).2 =
              .ok ())) :=
  ⟨_, rfl, privateShares_bookkeeping_exact new_eq_round₀ rfl⟩

/-- `dkgEnd_closes_round_once` at the call that closes `privateGather`: the second peer's
    private shares. -/
theorem dkgEnd_closes_round_once_privateGather :
    ∃ s₁ s₂ rng₁ rng₂,
      privateGather.process (sharesOf 1).msg 5 = some (s₁, .ok [], rng₁) ∧
      s₁.process (sharesOf 2).msg rng₁ =
        some (s₂, .ok [.dkgEnd ⟨1, 1, .success⟩], rng₂) ∧
      (∃ t out₁, s₁.handle (sharesOf 2).msg rng₁ = some (t, .ok out₁, rng₂) ∧
        t.state = .dkgPrivateGather) ∧
      (s₁.state = .dkgPrivateGather ∨
        (s₁.state = .dkgPrivateDistribute ∧ ∃ b, (sharesOf 2).msg = .dkgPrivateBegin b)) ∧
      s₂.state = .idle ∧ (⟨1, 1, .success⟩ : DkgEnd crypto).dkgId = s₂.dkgId ∧
      (⟨1, 1, .success⟩ : DkgEnd crypto).signerId = s₁.signerId :=
  ⟨_, _, _, _, rfl, rfl,
    (dkgEnd_closes_round_once _).1 _ _ _ _ _ _ rfl (List.mem_singleton_self _)⟩

end NatBackend

end Wsts
