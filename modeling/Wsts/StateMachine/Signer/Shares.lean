/-
  Wsts.StateMachine.Signer.Shares

  The two loops over private shares: `dkg_private_begin` encrypting this signer's
  shares for every destination key, and `dkg_private_shares` decrypting those addressed
  to this signer.

  `decryptShares_eq` says once what the decryption loop computes: the shares addressed
  to one of `key_ids` that decrypt and parse (`decryptedEntries`), inserted in order, and
  one copy of the source party for each such share that does not (`decryptFailures`).
  `process_dkgPrivateShares` lifts it to a whole message.  The encryption loop encrypts
  the share for `dst_key_id` under the secret shared with the network key of key id
  `dst_key_id + 1` (`encryptShares_get?_of_mem`).

  Under the backend's laws — decryption inverts encryption, shared secrets are
  symmetric, scalars survive their encoding — the two loops agree: what signer `B`
  stores from signer `A`'s `DkgPrivateShares` is `A`'s shares for `B`'s keys, and no
  share is marked invalid (`privateShares_roundTrip`).
-/

import Wsts.StateMachine.Signer.Restart

namespace Wsts

/-- A ciphertext opened under a shared secret: decrypted, then parsed as a scalar. -/
def Crypto.openShare (C : Crypto) (sharedSecret c : Bytes) : Option C.Scalar :=
  (C.decrypt sharedSecret c).bind C.scalarTryFrom

namespace SigningRound

variable {C : Crypto} {σ : Type}

-- ============================================================================
-- Decryption: `dkg_private_shares`
-- ============================================================================

/-- The shares of a list of ciphertexts that `dkg_private_shares` stores: those
    addressed to one of `keyIds` that open. -/
def decryptedEntries (keyIds : List Nat) (sharedSecret : Bytes) (l : List (Nat × Bytes)) :
    List (Nat × C.Scalar) :=
  l.filterMap fun x => if x.1 ∈ keyIds then (C.openShare sharedSecret x.2).map (x.1, ·) else none

/-- What `dkg_private_shares` appends to `invalid_private_shares` for the ciphertexts of
    source party `srcId`: the party once for every share addressed to `keyIds` that does
    not open. -/
def decryptFailures (C : Crypto) (keyIds : List Nat) (sharedSecret : Bytes) (srcId : Nat)
    (l : List (Nat × Bytes)) : List Nat :=
  l.filterMap fun x =>
    if x.1 ∈ keyIds ∧ (C.openShare sharedSecret x.2).isNone then some srcId else none

/-- The decryption loop: the shares that open are inserted in order, and the source
    party is appended once for every share that does not. -/
theorem decryptShares_eq (keyIds : List Nat) (sharedSecret : Bytes) (srcId : Nat)
    (acc : KeyMap C.Scalar × List Nat) (l : List (Nat × Bytes)) :
    decryptShares keyIds sharedSecret srcId acc l =
      ((decryptedEntries keyIds sharedSecret l).foldl (fun m x => m.insert x.1 x.2) acc.1,
       acc.2 ++ decryptFailures C keyIds sharedSecret srcId l) := by
  induction l generalizing acc with
  | nil => simp [decryptShares, decryptedEntries, decryptFailures]
  | cons x l ih =>
    obtain ⟨d, b⟩ := x
    rw [decryptShares, ih]
    by_cases hd : d ∈ keyIds
    · cases hdec : C.decrypt sharedSecret b with
      | none => simp [hd, hdec, decryptedEntries, decryptFailures, Crypto.openShare]
      | some plain =>
        cases hp : C.scalarTryFrom plain <;>
          simp [hd, hdec, hp, decryptedEntries, decryptFailures, Crypto.openShare]
    · simp [hd, decryptedEntries, decryptFailures]

theorem decryptedEntries_cons (keyIds : List Nat) (sharedSecret : Bytes) (d : Nat) (c : Bytes)
    (l : List (Nat × Bytes)) :
    decryptedEntries keyIds sharedSecret ((d, c) :: l) =
      (if d ∈ keyIds then ((C.openShare sharedSecret c).map (d, ·)).toList else []) ++
        decryptedEntries keyIds sharedSecret l := by
  by_cases hd : d ∈ keyIds <;> cases ho : C.openShare sharedSecret c <;>
    simp [decryptedEntries, List.filterMap_cons, hd, ho]

/-- The shares stored for one source party, key by key: for ciphertexts under distinct
    keys, a key of `keyIds` holds its ciphertext's share when that opens. -/
theorem get?_ofList_decryptedEntries (keyIds : List Nat) (sharedSecret : Bytes)
    {l : List (Nat × Bytes)} (hl : (l.map Prod.fst).Nodup) (dst : Nat) :
    (KeyMap.ofList (decryptedEntries keyIds sharedSecret l)).get? dst =
      if dst ∈ keyIds then (l.lookup dst).bind (C.openShare sharedSecret) else none := by
  rw [KeyMap.ofList, KeyMap.get?_foldl_insert, KeyMap.get?_empty, Option.or_none]
  induction l with
  | nil => simp [decryptedEntries]
  | cons x l ih =>
    obtain ⟨d, c⟩ := x
    rw [List.map_cons, List.nodup_cons] at hl
    rw [decryptedEntries_cons, List.reverse_append, List.lookup_append, ih hl.2,
      KeyMap.lookup_cons_eq_ite]
    by_cases hdst : dst = d
    · subst hdst
      rw [KeyMap.lookup_eq_none_of_not_mem hl.1]
      by_cases hd : dst ∈ keyIds <;> cases ho : C.openShare sharedSecret c <;> simp [hd, ho]
    · by_cases hd : d ∈ keyIds <;> cases C.openShare sharedSecret c <;>
        simp [hd, hdst, KeyMap.lookup_cons_eq_ite]

/-- The entries `dkg_private_shares` writes into `decrypted_shares` for the ciphertexts
    of a message: for each source party, its shares addressed to `keyIds` that open. -/
def openedShares (keyIds : List Nat) (sharedSecret : Bytes)
    (shares : List (Nat × KeyMap Bytes)) : List (Nat × KeyMap C.Scalar) :=
  shares.map fun src => (src.1, KeyMap.ofList (decryptedEntries keyIds sharedSecret src.2.entries))

@[simp] theorem map_fst_openedShares (keyIds : List Nat) (sharedSecret : Bytes)
    (shares : List (Nat × KeyMap Bytes)) :
    (openedShares (C := C) keyIds sharedSecret shares).map Prod.fst = shares.map Prod.fst := by
  simp [openedShares, Function.comp_def]

/-- The entry a message writes for a source party: its last ciphertexts listed for it,
    opened. -/
theorem lookup_reverse_openedShares (keyIds : List Nat) (sharedSecret : Bytes)
    (shares : List (Nat × KeyMap Bytes)) (src : Nat) :
    (openedShares (C := C) keyIds sharedSecret shares).reverse.lookup src =
      (shares.reverse.lookup src).map fun cts =>
        KeyMap.ofList (decryptedEntries keyIds sharedSecret cts.entries) := by
  rw [openedShares, ← List.map_reverse]
  exact KeyMap.lookup_map_snd
    (fun cts : KeyMap Bytes => KeyMap.ofList (decryptedEntries keyIds sharedSecret cts.entries)) _ _

/-- What `dkg_private_shares` appends to `invalid_private_shares` for a message. -/
def failedSources (C : Crypto) (keyIds : List Nat) (sharedSecret : Bytes)
    (shares : List (Nat × KeyMap Bytes)) : List Nat :=
  shares.flatMap fun src => decryptFailures C keyIds sharedSecret src.1 src.2.entries

/-- The outer loop of `dkg_private_shares`: each listed source party's entry is replaced
    by its shares that open, and the failures are appended. -/
theorem foldl_storePrivateShares_eq (keyIds : List Nat) (sharedSecret : Bytes)
    (l : List (Nat × KeyMap Bytes)) (s : SigningRound C σ) :
    l.foldl (storePrivateShares keyIds sharedSecret) s =
      { s with
        decryptedShares := (openedShares keyIds sharedSecret l).foldl
          (fun m x => m.insert x.1 x.2) s.decryptedShares,
        invalidPrivateShares :=
          s.invalidPrivateShares ++ failedSources C keyIds sharedSecret l } := by
  induction l generalizing s with
  | nil => simp [openedShares, failedSources]
  | cons src l ih =>
    rw [List.foldl_cons, ih]
    simp [storePrivateShares, decryptShares_eq, openedShares, failedSources, KeyMap.ofList]

-- ============================================================================
-- Encryption: `dkg_private_begin`
-- ============================================================================

section Encrypt

variable (s : SigningRound C σ)

@[simp] theorem encryptShares_nil (acc : KeyMap Bytes) (rng : C.Rng) :
    s.encryptShares acc [] rng = some (acc, rng) := rfl

/-- One step of the encryption loop: the key of key id `dst + 1` is found and
    decompresses, the share is encrypted under the secret shared with it, and the
    ciphertext is stored under `dst`. -/
theorem encryptShares_cons_eq_some {acc : KeyMap Bytes} {d : Nat} {share : C.Scalar}
    {rest : List (Nat × C.Scalar)} {rng : C.Rng} {out : KeyMap Bytes × C.Rng}
    (h : s.encryptShares acc ((d, share) :: rest) rng = some out) :
    ∃ key P c rng₁, s.publicKeys.keyIds.get? ((d + 1) % 2 ^ 32) = some key ∧
      C.toPoint key = some P ∧
      C.encrypt (C.makeSharedSecret s.networkPrivateKey P) (C.scalarToBytes share) rng =
        (some c, rng₁) ∧
      s.encryptShares (acc.insert d c) rest rng₁ = some out := by
  simp only [encryptShares, Option.bind_eq_bind, Option.bind_eq_some] at h
  obtain ⟨key, hkey, P, hP, c, hc, h⟩ := h
  exact ⟨key, P, c, _, hkey, hP, Prod.ext hc rfl, h⟩

/-- The encryption loop leaves the accumulator's entry of a key it does not list. -/
theorem encryptShares_get?_of_not_mem {acc res : KeyMap Bytes} {l : List (Nat × C.Scalar)}
    {rng rng' : C.Rng} (h : s.encryptShares acc l rng = some (res, rng')) {dst : Nat}
    (hdst : dst ∉ l.map Prod.fst) : res.get? dst = acc.get? dst := by
  induction l generalizing acc rng with
  | nil =>
    simp only [encryptShares_nil, Option.some.injEq, Prod.mk.injEq] at h
    rw [h.1]
  | cons x l ih =>
    obtain ⟨key, P, c, rng₁, -, -, -, h⟩ := encryptShares_cons_eq_some s h
    simp only [List.map_cons, List.mem_cons, not_or] at hdst
    rw [ih h hdst.2, KeyMap.get?_insert, if_neg hdst.1]

/-- For shares under distinct keys, the encryption loop stores under each `dst` a
    ciphertext of its share, encrypted under the secret shared with the network key of
    key id `dst + 1`. -/
theorem encryptShares_get?_of_mem {acc res : KeyMap Bytes} {l : List (Nat × C.Scalar)}
    {rng rng' : C.Rng} (hl : (l.map Prod.fst).Nodup)
    (h : s.encryptShares acc l rng = some (res, rng')) {dst : Nat} {share : C.Scalar}
    (hmem : (dst, share) ∈ l) :
    ∃ key P c r r', s.publicKeys.keyIds.get? ((dst + 1) % 2 ^ 32) = some key ∧
      C.toPoint key = some P ∧
      C.encrypt (C.makeSharedSecret s.networkPrivateKey P) (C.scalarToBytes share) r =
        (some c, r') ∧ res.get? dst = some c := by
  induction l generalizing acc rng with
  | nil => cases hmem
  | cons x l ih =>
    obtain ⟨d, sh⟩ := x
    obtain ⟨key, P, c, rng₁, hkey, hP, hc, hrest⟩ := encryptShares_cons_eq_some s h
    rw [List.map_cons, List.nodup_cons] at hl
    rcases List.mem_cons.1 hmem with heq | hmem
    · obtain ⟨rfl, rfl⟩ := Prod.mk.inj heq
      refine ⟨key, P, c, rng, rng₁, hkey, hP, hc, ?_⟩
      rw [encryptShares_get?_of_not_mem s hrest hl.1, KeyMap.get?_insert, if_pos rfl]
    · exact ih hl.2 hrest hmem

/-- The outer encryption loop keeps the source parties in order and encrypts each one's
    shares with the inner loop. -/
theorem encryptPrivateShares_spec {l : List (Nat × KeyMap C.Scalar)} {rng rng' : C.Rng}
    {out : List (Nat × KeyMap Bytes)} (h : s.encryptPrivateShares l rng = some (out, rng')) :
    out.map Prod.fst = l.map Prod.fst ∧
      ∀ k enc, (k, enc) ∈ out → ∃ shares r r', (k, shares) ∈ l ∧
        s.encryptShares .empty shares.entries r = some (enc, r') := by
  induction l generalizing rng out with
  | nil =>
    simp only [encryptPrivateShares, Option.some.injEq, Prod.mk.injEq] at h
    simp [← h.1]
  | cons x l ih =>
    obtain ⟨k, shares⟩ := x
    simp only [encryptPrivateShares, Option.bind_eq_bind, Option.bind_eq_some,
      Option.some.injEq] at h
    obtain ⟨e, he, more, hmore, rfl, -⟩ := h
    obtain ⟨hkeys, hmem⟩ := ih hmore
    refine ⟨by simp [hkeys], fun k' enc h => ?_⟩
    rcases List.mem_cons.1 h with h | h
    · obtain ⟨rfl, rfl⟩ := Prod.mk.inj h
      exact ⟨shares, _, _, List.mem_cons_self _ _, he⟩
    · obtain ⟨shares', r, r', hl, he'⟩ := hmem k' enc h
      exact ⟨shares', r, r', List.mem_cons_of_mem _ hl, he'⟩

end Encrypt

variable [Signer C σ]

theorem dkgPrivateShares_eq (s : SigningRound C σ) (p : DkgPrivateShares) :
    s.dkgPrivateShares p = (s.sharedSecretWith p.signerId).map fun sharedSecret =>
      { s with
        decryptedShares := (openedShares (Signer.getKeyIds s.signer) sharedSecret p.shares).foldl
          (fun m x => m.insert x.1 x.2) s.decryptedShares,
        invalidPrivateShares := s.invalidPrivateShares ++
          failedSources C (Signer.getKeyIds s.signer) sharedSecret p.shares } := by
  simp only [dkgPrivateShares, foldl_storePrivateShares_eq]

/-- A `DkgPrivateShares` from a signer whose network key is not known panics. -/
theorem process_dkgPrivateShares_eq_none {s : SigningRound C σ} {p : DkgPrivateShares}
    (hss : s.sharedSecretWith p.signerId = none) (rng : C.Rng) :
    s.process (.dkgPrivateShares p) rng = none := by
  simp [process, handle, dkgPrivateShares_eq, hss]

/-- A `DkgPrivateShares` from a signer whose network key is known replaces the listed
    source parties' entries by their shares that open and appends the failures; the
    rest of the round changes at most through the completion check. -/
theorem process_dkgPrivateShares {s : SigningRound C σ} {p : DkgPrivateShares} {ss : Bytes}
    (hss : s.sharedSecretWith p.signerId = some ss) (rng : C.Rng) :
    ∃ s' r, s.process (.dkgPrivateShares p) rng = some (s', r, rng) ∧
      s'.decryptedShares = (openedShares (Signer.getKeyIds s.signer) ss p.shares).foldl
        (fun m x => m.insert x.1 x.2) s.decryptedShares ∧
      s'.invalidPrivateShares = s.invalidPrivateShares ++
        failedSources C (Signer.getKeyIds s.signer) ss p.shares := by
  simp only [process, handle, dkgPrivateShares_eq, hss, Option.map_some']
  exact ⟨_, _, rfl, by simp, by simp⟩

/-- The `DkgPrivateShares` a `DkgPrivateBegin` call emits carries this signer's shares,
    as the two encryption loops encrypted them. -/
theorem dkgPrivateShares_of_process {s s' : SigningRound C σ} {b : DkgBegin}
    {rng rng' : C.Rng} {out : List (Message C)} {pm : DkgPrivateShares}
    (h : s.process (.dkgPrivateBegin b) rng = some (s', .ok out, rng'))
    (hpm : .dkgPrivateShares pm ∈ out) :
    ∃ e, s.encryptPrivateShares (Signer.getShares s.signer).entries rng = some e ∧
      pm = { dkgId := s.dkgId, signerId := s.signerId, shares := e.1 } := by
  obtain ⟨s₁, r₁, hh, ⟨out₁, rfl, -, hout⟩ | ⟨_, rfl, -, he⟩⟩ := process_inv h
  · obtain ⟨extra, hx, hextra⟩ := checkCompletion_snd s₁ out₁
    rw [hx, Except.ok.injEq] at hout
    subst hout
    simp only [handle, dkgPrivateBegin_eq, Option.map_eq_some'] at hh
    obtain ⟨e, he, hh⟩ := hh
    split_ifs at hh
    · simp only [Prod.mk.injEq, Except.ok.injEq] at hh
      obtain ⟨-, rfl, -⟩ := hh
      rcases List.mem_append.1 hpm with hpm | hpm
      · exact ⟨e, he, by simpa using hpm⟩
      · rcases hextra with rfl | ⟨_, rfl⟩ <;> simp at hpm
    · simp at hh
  · cases he

-- ============================================================================
-- The round trip
-- ============================================================================

/-- The backend laws the round trip rests on, for the map `pub` from a network private
    key to its public key: decryption inverts encryption, Diffie-Hellman secrets are
    symmetric, and a scalar survives its byte encoding. -/
structure RoundTripLaws (C : Crypto) (pub : C.Scalar → C.PublicKey) : Prop where
  decrypt_encrypt : ∀ key data rng c rng', C.encrypt key data rng = (some c, rng') →
    C.decrypt key c = some data
  sharedSecret_comm : ∀ a b pa pb, C.toPoint (pub a) = some pa → C.toPoint (pub b) = some pb →
    C.makeSharedSecret a pb = C.makeSharedSecret b pa
  scalarTryFrom_scalarToBytes : ∀ x, C.scalarTryFrom (C.scalarToBytes x) = some x

/-- A configuration in which signer `A` can send private shares to signer `B`: `B` lists
    `A`'s network public key under `A`'s id, and `A` lists `B`'s under the 1-based id of
    each of `B`'s keys. -/
structure Addressed (pub : C.Scalar → C.PublicKey) (A B : SigningRound C σ) : Prop where
  sender : B.publicKeys.signers.get? A.signerId = some (pub A.networkPrivateKey)
  sender_point : (C.toPoint (pub A.networkPrivateKey)).isSome
  recipient : ∀ k ∈ Signer.getKeyIds B.signer,
    A.publicKeys.keyIds.get? (k + 1) = some (pub B.networkPrivateKey)
  keyId_lt : ∀ k ∈ Signer.getKeyIds B.signer, k + 1 < 2 ^ 32

section RoundTrip

variable {pub : C.Scalar → C.PublicKey} {A B : SigningRound C σ} {PA : C.Point}

/-- One source party's shares: what `A` encrypts for a key of `B` opens under the secret
    `B` shares with `A` to the share itself, and a key `A` has no share for gets no
    ciphertext. -/
theorem openShare_encryptShares (laws : RoundTripLaws C pub) (hAB : Addressed pub A B)
    (hPA : C.toPoint (pub A.networkPrivateKey) = some PA) {row : KeyMap C.Scalar}
    {enc : KeyMap Bytes} {r r' : C.Rng} (h : A.encryptShares .empty row.entries r = some (enc, r'))
    {dst : Nat} (hdst : dst ∈ Signer.getKeyIds B.signer) :
    (enc.get? dst).bind (C.openShare (C.makeSharedSecret B.networkPrivateKey PA)) =
      row.get? dst := by
  cases hrow : row.get? dst with
  | none =>
    have hnot : dst ∉ row.entries.map Prod.fst := fun hm => by
      simpa [hrow] using KeyMap.mem_keys.1 hm
    rw [encryptShares_get?_of_not_mem A h hnot, KeyMap.get?_empty]
    rfl
  | some share =>
    obtain ⟨key, P, c, r₁, r₂, hkey, hP, hc, hget⟩ :=
      encryptShares_get?_of_mem A row.keys_nodup h (KeyMap.get?_eq_some_iff.1 hrow)
    rw [Nat.mod_eq_of_lt (hAB.keyId_lt dst hdst), hAB.recipient dst hdst,
      Option.some.injEq] at hkey
    subst hkey
    rw [hget, Option.some_bind, Crypto.openShare,
      ← laws.sharedSecret_comm _ _ _ _ hPA hP, laws.decrypt_encrypt _ _ _ _ _ hc,
      Option.some_bind, laws.scalarTryFrom_scalarToBytes]

variable {encrypted : List (Nat × KeyMap Bytes)} {r r' : C.Rng}

/-- Every ciphertext `A` encrypted for a key of `B` opens under the secret `B` shares with
    `A`: `B` marks no source party invalid. -/
theorem failedSources_encryptPrivateShares (laws : RoundTripLaws C pub) (hAB : Addressed pub A B)
    (hPA : C.toPoint (pub A.networkPrivateKey) = some PA)
    (he : A.encryptPrivateShares (Signer.getShares A.signer).entries r = some (encrypted, r')) :
    failedSources C (Signer.getKeyIds B.signer) (C.makeSharedSecret B.networkPrivateKey PA)
      encrypted = [] := by
  rw [failedSources, List.flatMap_eq_nil_iff]
  rintro ⟨k, enc⟩ hmem
  obtain ⟨row, r, r', -, henc⟩ := (encryptPrivateShares_spec A he).2 k enc hmem
  refine List.filterMap_eq_nil_iff.2 fun ⟨dst, c⟩ hc => if_neg fun ⟨hdst, hnone⟩ => ?_
  have hrow : dst ∈ row.keys := by
    by_contra hn
    simpa [KeyMap.get?_eq_some_iff.2 hc] using encryptShares_get?_of_not_mem A henc hn
  have hopen := openShare_encryptShares laws hAB hPA henc hdst
  rw [KeyMap.get?_eq_some_iff.2 hc, Option.some_bind] at hopen
  rw [hopen, ← Option.not_isSome, KeyMap.mem_keys.1 hrow] at hnone
  cases hnone

/-- `A`'s encrypted shares list each source party of `A` once, with the ciphertexts of its
    row of shares. -/
theorem mem_encryptPrivateShares
    (he : A.encryptPrivateShares (Signer.getShares A.signer).entries r = some (encrypted, r'))
    {src : Nat} {row : KeyMap C.Scalar} (hrow : (Signer.getShares A.signer).get? src = some row) :
    ∃ enc, (src, enc) ∈ encrypted ∧
      ∃ r₁ r₂, A.encryptShares .empty row.entries r₁ = some (enc, r₂) := by
  obtain ⟨hkeys, hencs⟩ := encryptPrivateShares_spec A he
  have hsrc : src ∈ encrypted.map Prod.fst := by
    rw [hkeys]
    exact List.mem_map_of_mem _ (KeyMap.get?_eq_some_iff.1 hrow)
  obtain ⟨⟨k, enc⟩, hmem, rfl⟩ := List.mem_map.1 hsrc
  obtain ⟨row', r₁, r₂, hrow', hencr⟩ := hencs k enc hmem
  obtain rfl : row' = row := Option.some.inj ((KeyMap.get?_eq_some_iff.2 hrow').symm.trans hrow)
  exact ⟨enc, hmem, r₁, r₂, hencr⟩

/-- Private shares round-trip: when signer `B` processes the `DkgPrivateShares` that
    signer `A`'s `DkgPrivateBegin` emitted (`A = B` allowed), every source party of `A`
    gets an entry in `B`'s `decrypted_shares` holding exactly `A`'s shares for `B`'s
    keys, and no share is marked invalid. -/
theorem privateShares_roundTrip (laws : RoundTripLaws C pub) (hAB : Addressed pub A B)
    {A' : SigningRound C σ} {b : DkgBegin} {rngA rngA' : C.Rng} {out : List (Message C)}
    {pm : DkgPrivateShares}
    (hsend : A.process (.dkgPrivateBegin b) rngA = some (A', .ok out, rngA'))
    (hpm : .dkgPrivateShares pm ∈ out) (rngB : C.Rng) :
    ∃ B' r, B.process (.dkgPrivateShares pm) rngB = some (B', r, rngB) ∧
      B'.invalidPrivateShares = B.invalidPrivateShares ∧
      ∀ src row, (Signer.getShares A.signer).get? src = some row →
        ∃ m, B'.decryptedShares.get? src = some m ∧
          ∀ dst, m.get? dst = if dst ∈ Signer.getKeyIds B.signer then row.get? dst else none := by
  obtain ⟨⟨encrypted, rngE⟩, he, rfl⟩ := dkgPrivateShares_of_process hsend hpm
  obtain ⟨PA, hPA⟩ := Option.isSome_iff_exists.1 hAB.sender_point
  have hss : B.sharedSecretWith A.signerId =
      some (C.makeSharedSecret B.networkPrivateKey PA) := by
    simp [sharedSecretWith, hAB.sender, hPA]
  obtain ⟨B', r, hB, hdec, hinv⟩ :=
    @process_dkgPrivateShares _ _ _ B ⟨A.dkgId, A.signerId, encrypted⟩ _ hss rngB
  refine ⟨B', r, hB, ?_, fun src row hrow => ?_⟩
  · rw [hinv, failedSources_encryptPrivateShares laws hAB hPA he, List.append_nil]
  -- the entry of `src` holds `row` restricted to `B`'s keys
  obtain ⟨enc, henc, r, r', hencr⟩ := mem_encryptPrivateShares he hrow
  refine ⟨KeyMap.ofList (decryptedEntries (Signer.getKeyIds B.signer)
    (C.makeSharedSecret B.networkPrivateKey PA) enc.entries), ?_, fun dst => ?_⟩
  · rw [hdec]
    refine KeyMap.get?_foldl_insert_of_mem _ ?_ (List.mem_map.2 ⟨(src, enc), henc, rfl⟩)
    rw [map_fst_openedShares, (encryptPrivateShares_spec A he).1]
    exact (Signer.getShares A.signer).keys_nodup
  · rw [get?_ofList_decryptedEntries _ _ enc.keys_nodup]
    split_ifs with hdst
    · exact openShare_encryptShares laws hAB hPA hencr hdst
    · rfl

end RoundTrip

end SigningRound

end Wsts

namespace Wsts

namespace NatBackend

open SigningRound

/-- The backend meets the round-trip laws, a private key being its own public key. -/
theorem roundTripLaws : RoundTripLaws crypto id where
  decrypt_encrypt := decrypt_encrypt
  sharedSecret_comm a b pa pb ha hb := by
    simp only [crypto, id] at ha hb
    split_ifs at ha hb
    cases ha
    cases hb
    exact makeSharedSecret_comm a b
  scalarTryFrom_scalarToBytes := scalarTryFrom_scalarToBytes

/-- `round₀` once both commitments are in: it waits in `DkgPrivateDistribute`. -/
def sharesDue : SigningRound crypto NatSigner :=
  (round₀.run (toPrivateGather.take 3)).get (by decide)

/-- `privateShares_roundTrip` from signer 1 to itself. -/
theorem privateShares_roundTrip_sharesDue :
    RoundTripLaws crypto id ∧ Addressed id sharesDue sharesDue ∧
      ∃ A' out rng', sharesDue.process (.dkgPrivateBegin ⟨1⟩) 4 = some (A', .ok out, rng') ∧
        ∃ pm, .dkgPrivateShares pm ∈ out ∧
          ∃ B' r, sharesDue.process (.dkgPrivateShares pm) 5 = some (B', r, 5) ∧
            B'.invalidPrivateShares = sharesDue.invalidPrivateShares ∧
            ∀ src row, (Signer.getShares sharesDue.signer).get? src = some row →
              ∃ m, B'.decryptedShares.get? src = some m ∧
                ∀ dst, m.get? dst =
                  if dst ∈ Signer.getKeyIds sharesDue.signer then row.get? dst else none :=
  have addressed : Addressed id sharesDue sharesDue := ⟨rfl, rfl, by decide, by decide⟩
  ⟨roundTripLaws, addressed, _, _, _, rfl, _, .head _,
   @privateShares_roundTrip _ _ _ _ _ _ roundTripLaws addressed _ ⟨1⟩ 4 _ _ _ rfl (.head _) 5⟩

end NatBackend

end Wsts
