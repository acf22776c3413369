/-
  Wsts.StateMachine.Signer.Basic

  The signer's round record and its transition graph (`state_machine/signer/mod.rs`):
  `State`, `Error`, `SigningRound`, `SigningRound::new`, `reset`, and the
  `StateMachine` implementation `can_move_to` / `move_to`.

  A `&mut self` method returning `Result<(), Error>` becomes a function returning
  `Except Error (SigningRound C σ)`: `move_to` changes the round only when the move is
  accepted, so its error leaves the round as it was.
-/

import Wsts.Traits

namespace Wsts

/-- Signer states. -/
inductive State where
  | idle
  | dkgPublicDistribute
  | dkgPublicGather
  | dkgPrivateDistribute
  | dkgPrivateGather
  | signGather
  | signed
  deriving DecidableEq, Repr

/-- The error type for a signer.  `BadStateChange` carries the two states its message
    formats as `"{prev:?} to {next:?}"`. -/
inductive Error where
  | invalidPartyID
  | invalidDkgPublicShares
  | invalidDkgPrivateShares (srcIds : List Nat)
  | invalidNonceResponse
  | invalidSignatureShare
  | badStateChange (prev next : State)
  deriving DecidableEq, Repr

/-- `SigningRound`.  `sign_id` and `sign_iter_id` are left out: `new` sets them and
    only log lines read them.  `new` asserts `threshold ≤ total_keys`; the record keeps
    that fact. -/
structure SigningRound (C : Crypto) (σ : Type) where
  dkgId : Nat
  threshold : Nat
  totalSigners : Nat
  totalKeys : Nat
  signer : σ
  signerId : Nat
  state : State
  commitments : KeyMap C.PolyCommitment
  decryptedShares : KeyMap (KeyMap C.Scalar)
  invalidPrivateShares : List Nat
  publicNonces : List C.PublicNonce
  networkPrivateKey : C.Scalar
  publicKeys : PublicKeys C
  threshold_le : threshold ≤ totalKeys

variable {C : Crypto} {σ : Type}

-- ============================================================================
-- Transition graph
-- ============================================================================

/-- `can_move_to`'s `accepted`: the transitions of spec §4.4. -/
def accepted (prevState : State) : State → Bool
  | .idle => true
  | .dkgPublicDistribute =>
    prevState == .idle || prevState == .dkgPublicGather || prevState == .dkgPrivateDistribute
  | .dkgPublicGather => prevState == .dkgPublicDistribute
  | .dkgPrivateDistribute => prevState == .dkgPublicGather
  | .dkgPrivateGather => prevState == .dkgPrivateDistribute
  | .signGather => prevState == .idle
  | .signed => prevState == .signGather

namespace SigningRound

/-- `can_move_to`. -/
def canMoveTo (s : SigningRound C σ) (state : State) : Except Error Unit :=
  if accepted s.state state then .ok () else .error (.badStateChange s.state state)

/-- `move_to`: the round in its new state, or the error of `can_move_to`. -/
def moveTo (s : SigningRound C σ) (state : State) : Except Error (SigningRound C σ) :=
  match s.canMoveTo state with
  | .ok () => .ok { s with state }
  | .error e => .error e

theorem moveTo_eq_ok {s s' : SigningRound C σ} {state : State} :
    s.moveTo state = .ok s' ↔ accepted s.state state ∧ s' = { s with state } := by
  unfold moveTo canMoveTo
  split_ifs with h <;> simp [h, eq_comm]

theorem moveTo_eq_error {s : SigningRound C σ} {state : State} {e : Error} :
    s.moveTo state = .error e ↔
      accepted s.state state = false ∧ e = .badStateChange s.state state := by
  unfold moveTo canMoveTo
  split_ifs with h <;> simp [h, eq_comm]

/-- A move the graph accepts. -/
theorem moveTo_of_accepted {s : SigningRound C σ} {state : State}
    (h : accepted s.state state) : s.moveTo state = .ok { s with state } :=
  moveTo_eq_ok.2 ⟨h, rfl⟩

/-- A move the graph refuses: `BadStateChange`, and the round is not touched. -/
theorem moveTo_of_not_accepted {s : SigningRound C σ} {state : State}
    (h : accepted s.state state = false) :
    s.moveTo state = .error (.badStateChange s.state state) :=
  moveTo_eq_error.2 ⟨h, rfl⟩

-- ============================================================================
-- Construction and reset
-- ============================================================================

variable [Signer C σ]

/-- `SigningRound::new`; `none` where its `assert!(threshold <= total_keys)` panics. -/
def new (threshold totalSigners totalKeys signerId : Nat) (keyIds : List Nat)
    (networkPrivateKey : C.Scalar) (publicKeys : PublicKeys C) (rng : C.Rng) :
    Option (SigningRound C σ) :=
  if h : threshold ≤ totalKeys then
    some { dkgId := 0, threshold, totalSigners, totalKeys,
           signer := (Signer.new signerId keyIds totalSigners totalKeys threshold rng).1,
           signerId, state := .idle, commitments := .empty, decryptedShares := .empty,
           invalidPrivateShares := [], publicNonces := [], networkPrivateKey, publicKeys,
           threshold_le := h }
  else none

/-- `reset`: a new round id, the four per-round collections emptied, the signer's
    polynomials regenerated. -/
def reset (s : SigningRound C σ) (dkgId : Nat) (rng : C.Rng) : SigningRound C σ × C.Rng :=
  ({ s with dkgId, commitments := .empty, decryptedShares := .empty,
            invalidPrivateShares := [], publicNonces := [],
            signer := (Signer.resetPolys s.signer rng).1 },
   (Signer.resetPolys s.signer rng).2)

end SigningRound

end Wsts
