/-
  Wsts.StateMachine.Signer.Run

  Runs of the signer: `SigningRound::new`, then one `process` call after another, each
  drawing from whatever the OS entropy source holds at that time.  A call that returns
  `Err` does not end the run (the caller goes on sending messages); a panic does.
  `Reachable` is the set of rounds runs leave behind.

  The phase invariant (`Reachable.resting`): between two calls a round is in `Idle`,
  `DkgPublicGather`, `DkgPrivateDistribute` or `DkgPrivateGather`.  `DkgPublicDistribute`
  is only passed through inside a `DkgBegin`, and `SignGather` / `Signed` are never
  entered.  `callMoves` lists the states a call's `move_to`s set, in the order the code
  sets them; each is a `can_move_to` edge into those phases, and the last is where the
  call leaves the round (`process_moves`, `dkgPhases_between_calls`).  A refused move
  returns `Err` before it sets the state, so it is never among them.
-/

import Wsts.StateMachine.Signer.Spec
import Wsts.NatBackend

namespace Wsts

/-- The states a round is found in between two `process` calls. -/
def State.resting : State → Bool
  | .idle | .dkgPublicGather | .dkgPrivateDistribute | .dkgPrivateGather => true
  | .dkgPublicDistribute | .signGather | .signed => false

namespace SigningRound

variable {C : Crypto} {σ : Type} [Signer C σ]

/-- A run: each message processed in turn, with the entropy given for its call; `none`
    when a call panics. -/
def run (s : SigningRound C σ) : List (Message C × C.Rng) → Option (SigningRound C σ)
  | [] => some s
  | (m, rng) :: rest => (s.process m rng).bind fun p => p.1.run rest

@[simp] theorem run_nil (s : SigningRound C σ) : s.run [] = some s := rfl

theorem run_cons (s : SigningRound C σ) (m : Message C) (rng : C.Rng)
    (rest : List (Message C × C.Rng)) :
    s.run ((m, rng) :: rest) = (s.process m rng).bind fun p => p.1.run rest := rfl

theorem run_append (s : SigningRound C σ) (l₁ l₂ : List (Message C × C.Rng)) :
    s.run (l₁ ++ l₂) = (s.run l₁).bind fun s' => s'.run l₂ := by
  induction l₁ generalizing s with
  | nil => rfl
  | cons d l₁ ih =>
    obtain ⟨m, rng⟩ := d
    simp only [List.cons_append, run_cons, Option.bind_assoc, ih]

/-- What a call answers with: its `Ok` messages; an `Err` sends nothing. -/
def answers : Except Error (List (Message C)) → List (Message C)
  | .ok out => out
  | .error _ => []

/-- A run that also collects every call's answers, in order. -/
def runOutputs (s : SigningRound C σ) :
    List (Message C × C.Rng) → Option (SigningRound C σ × List (Message C))
  | [] => some (s, [])
  | (m, rng) :: rest => (s.process m rng).bind fun p =>
    (p.1.runOutputs rest).map fun q => (q.1, answers p.2.1 ++ q.2)

/-- A run's first call, then the rest of the run from the round that call leaves. -/
theorem runOutputs_cons_inv {s s' : SigningRound C σ} {d : Message C × C.Rng}
    {l : List (Message C × C.Rng)} {out : List (Message C)}
    (h : s.runOutputs (d :: l) = some (s', out)) :
    ∃ t r rng₁ out', s.process d.1 d.2 = some (t, r, rng₁) ∧
      t.runOutputs l = some (s', out') ∧ out = answers r ++ out' := by
  obtain ⟨⟨t, r, rng₁⟩, hp, hq⟩ := Option.bind_eq_some.1 h
  obtain ⟨⟨t', out'⟩, hrest, hq⟩ := Option.map_eq_some'.1 hq
  cases hq
  exact ⟨t, r, rng₁, out', hp, hrest, rfl⟩

/-- The rounds a run from `SigningRound::new` can leave. -/
inductive Reachable : SigningRound C σ → Prop
  | new {threshold totalSigners totalKeys signerId : Nat} {keyIds : List Nat}
      {networkPrivateKey : C.Scalar} {publicKeys : PublicKeys C} {rng : C.Rng}
      {s : SigningRound C σ}
      (h : SigningRound.new threshold totalSigners totalKeys signerId keyIds
        networkPrivateKey publicKeys rng = some s) : Reachable s
  | process {s s' : SigningRound C σ} {m : Message C} {rng rng' : C.Rng}
      {r : Except Error (List (Message C))}
      (hs : Reachable s) (h : s.process m rng = some (s', r, rng')) : Reachable s'

theorem Reachable.run {s s' : SigningRound C σ} {l : List (Message C × C.Rng)}
    (hs : Reachable s) (h : s.run l = some s') : Reachable s' := by
  induction l generalizing s with
  | nil => cases h; exact hs
  | cons d l ih =>
    obtain ⟨p, hp, hl⟩ := Option.bind_eq_some.1 h
    exact ih (hs.process hp) hl

-- ============================================================================
-- The phase invariant
-- ============================================================================

theorem state_of_new {threshold totalSigners totalKeys signerId : Nat} {keyIds : List Nat}
    {networkPrivateKey : C.Scalar} {publicKeys : PublicKeys C} {rng : C.Rng}
    {s : SigningRound C σ}
    (h : SigningRound.new threshold totalSigners totalKeys signerId keyIds
      networkPrivateKey publicKeys rng = some s) : s.state = .idle := by
  unfold SigningRound.new at h
  split_ifs at h
  cases h
  rfl

/-- One call keeps the round in a resting state. -/
theorem process_resting {s s' : SigningRound C σ} {m : Message C} {rng rng' : C.Rng}
    {r : Except Error (List (Message C))} (hs : s.state.resting)
    (h : s.process m rng = some (s', r, rng')) : s'.state.resting := by
  obtain ⟨s₁, r₁, hh, hr⟩ := process_inv h
  have h₁ : s₁.state.resting := by
    rcases handle_state hh with h' | h' | h' <;> rw [h'] <;> first | exact hs | rfl
  rcases hr with ⟨out, -, rfl, -⟩ | ⟨e, -, rfl, -⟩
  · rcases checkCompletion_state s₁ out with h' | ⟨-, h'⟩ | ⟨-, h'⟩ <;> rw [h']
    · exact h₁
    · rfl
    · rfl
  · exact h₁

/-- Between calls a round is in `Idle`, `DkgPublicGather`, `DkgPrivateDistribute` or
    `DkgPrivateGather`. -/
theorem Reachable.resting {s : SigningRound C σ} (hs : Reachable s) : s.state.resting := by
  induction hs with
  | new h => rw [state_of_new h]; rfl
  | process _ h ih => exact process_resting ih h

-- ============================================================================
-- Moves within a call
-- ============================================================================

/-- A move a call on `m` makes: an edge `can_move_to` accepts, into a DKG phase, or into
    `DkgPublicDistribute` while handling a `DkgBegin`. -/
def PhaseMove (m : Message C) (a b : State) : Prop :=
  accepted a b = true ∧
    (b.resting = true ∨ (b = .dkgPublicDistribute ∧ ∃ d, m = .dkgBegin d))

/-- `path` leads from `a` to `b`, each of its steps a `PhaseMove` of a call on `m`. -/
def MovesAlong (m : Message C) (a : State) (path : List State) (b : State) : Prop :=
  List.Chain (PhaseMove m) a path ∧ (a :: path).getLast (List.cons_ne_nil _ _) = b

theorem MovesAlong.append {m : Message C} {a b c : State} {p₁ p₂ : List State}
    (h₁ : MovesAlong m a p₁ b) (h₂ : MovesAlong m b p₂ c) : MovesAlong m a (p₁ ++ p₂) c := by
  induction p₁ generalizing a with
  | nil =>
    obtain ⟨-, rfl⟩ := h₁
    exact h₂
  | cons x p ih =>
    obtain ⟨hc, hl⟩ := h₁
    obtain ⟨hx, hc⟩ := List.chain_cons.1 hc
    obtain ⟨hc', hl'⟩ := ih ⟨hc, hl⟩
    exact ⟨.cons hx hc', hl'⟩

/-- The states `move_to` sets while a handler runs, in order: `dkg_begin` moves to
    `DkgPublicDistribute` and `dkg_public_begin` on to `DkgPublicGather`, and
    `dkg_private_begin` moves to `DkgPrivateGather`.  A refused move returns `Err` before
    setting anything, and no other handler moves. -/
def handlerMoves (state : State) : Message C → List State
  | .dkgBegin _ =>
    if accepted state .dkgPublicDistribute then [.dkgPublicDistribute, .dkgPublicGather]
    else []
  | .dkgPrivateBegin _ => if accepted state .dkgPrivateGather then [.dkgPrivateGather] else []
  | _ => []

/-- The states the completion check of `process` moves to: `DkgPrivateDistribute` when
    `public_shares_done`, else `Idle` when `can_dkg_end`. -/
def completionMoves (s : SigningRound C σ) : List State :=
  if s.publicSharesDone then [.dkgPrivateDistribute] else if s.canDkgEnd then [.idle] else []

/-- The states a `process` call moves the round to, in order: the handler's, then the
    completion check's when the handler returns `Ok`; `none` when the handler panics. -/
def callMoves (s : SigningRound C σ) (m : Message C) (rng : C.Rng) : Option (List State) :=
  (s.handle m rng).map fun q =>
    handlerMoves s.state m ++
      match q.2.1 with
      | .ok _ => completionMoves q.1
      | .error _ => []

section Moves

variable {s s' : SigningRound C σ} {m : Message C} {rng rng' : C.Rng}
  {r : Except Error (List (Message C))}

/-- A handler's moves are `PhaseMove` edges, and leave the round where the handler does. -/
theorem handle_moves (h : s.handle m rng = some (s', r, rng')) :
    MovesAlong m s.state (handlerMoves s.state m) s'.state := by
  have hr := handle_round h
  cases m <;> simp only at hr
  case dkgPrivateShares p => rw [eq_of_dkgPrivateShares s hr]; exact ⟨.nil, rfl⟩
  all_goals subst hr
  case dkgBegin b =>
    dsimp only [handlerMoves]
    split_ifs with hacc
    · exact ⟨.cons ⟨hacc, .inr ⟨rfl, b, rfl⟩⟩ (.cons ⟨rfl, .inl rfl⟩ .nil), rfl⟩
    · exact ⟨.nil, rfl⟩
  case dkgPrivateBegin b =>
    dsimp only [handlerMoves]
    split_ifs with hacc
    · exact ⟨.cons ⟨hacc, .inl rfl⟩ .nil, rfl⟩
    · exact ⟨.nil, rfl⟩
  all_goals exact ⟨.nil, rfl⟩

/-- The completion check's moves are accepted edges into `DkgPrivateDistribute` (from
    `DkgPublicGather`) and `Idle`, and leave the round where the check does. -/
theorem checkCompletion_moves (s : SigningRound C σ) (out : List (Message C)) (m : Message C) :
    MovesAlong m s.state (completionMoves s) (s.checkCompletion out).1.state := by
  rw [checkCompletion_eq, completionMoves]
  split_ifs with h₁
  · exact ⟨.cons ⟨by simp [state_of_publicSharesDone h₁, accepted], .inl rfl⟩ .nil, rfl⟩
  · exact ⟨.cons ⟨rfl, .inl rfl⟩ .nil, rfl⟩
  · exact ⟨.nil, rfl⟩

/-- Every call, `Ok` or `Err`, moves the round along its own moves to where it leaves it. -/
theorem process_moves (h : s.process m rng = some (s', r, rng')) :
    ∃ path, s.callMoves m rng = some path ∧ MovesAlong m s.state path s'.state := by
  obtain ⟨s₁, r₁, hh, ⟨out, rfl, rfl, -⟩ | ⟨e, rfl, rfl, -⟩⟩ := process_inv h
  · exact ⟨_, by rw [callMoves, hh]; rfl, (handle_moves hh).append (checkCompletion_moves s₁ out m)⟩
  · refine ⟨handlerMoves s.state m ++ [], by rw [callMoves, hh]; rfl, ?_⟩
    rw [List.append_nil]
    exact handle_moves hh

/-- Between the calls of a run from `SigningRound::new`, the round is in a DKG phase.  The
    states each call, `Ok` or `Err`, moves it to (those its `move_to`s set, in order) are
    `can_move_to` edges from where it was to where it is left, that enter only DKG phases,
    and `DkgPublicDistribute` only inside a `DkgBegin`; a refused move is not taken. -/
theorem dkgPhases_between_calls (hs : Reachable s) (h : s.process m rng = some (s', r, rng')) :
    s.state.resting ∧ s'.state.resting ∧
      ∃ path, s.callMoves m rng = some path ∧ MovesAlong m s.state path s'.state :=
  ⟨hs.resting, (hs.process h).resting, process_moves h⟩

end Moves

end SigningRound

namespace NatBackend

open SigningRound

/-- `dkgPhases_between_calls` at `round₀` and its `DkgBegin{1}`. -/
theorem dkgPhases_between_calls_round₀ :
    ∃ s' r rng', round₀.process (.dkgBegin ⟨1⟩) 1 = some (s', r, rng') ∧
      round₀.state.resting ∧ s'.state.resting ∧
      ∃ path, round₀.callMoves (.dkgBegin ⟨1⟩) 1 = some path ∧
        MovesAlong (C := crypto) (.dkgBegin ⟨1⟩) round₀.state path s'.state :=
  ⟨_, _, _, rfl, dkgPhases_between_calls (.new new_eq_round₀) rfl⟩

/-- There the round passes through `DkgPublicDistribute` to `DkgPublicGather`; the
    `DkgPrivateBegin` it refuses in `Idle` moves it nowhere. -/
example : round₀.callMoves (.dkgBegin ⟨1⟩) 1 = some [.dkgPublicDistribute, .dkgPublicGather] ∧
    round₀.callMoves (.dkgPrivateBegin ⟨1⟩) 1 = some [] := ⟨rfl, rfl⟩

end NatBackend

end Wsts
