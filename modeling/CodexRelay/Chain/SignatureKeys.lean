import CodexRelay.Library.Outcome
import CodexRelay.Chain.Types

/-!
Contract: the keys that signed a transaction, recovered with a cache that all calls share.

Owns:
- `transaction::id`, `sig_digest` and `get_signature_keys`;
- the recovery cache, a container of at most one entry for each signature, in the order of
  insertion;
- when the cache has no influence on the keys.

Does not own: what `fc` does to recover a key.

An entry of the cache holds the transaction id and the signature, and not the digest that the
signature was recovered from. The digest also depends on the chain id and on the context-free
data.
-/

namespace CodexRelay.Chain

open Library List

variable {signatures : List Signature} {recoveredPubKeys : Finset PublicKey}

variable {index : Nat} {keys : Finset PublicKey} {sigCpuUsage : Int}

/-! ### Digests -/

/-- The functions of `fc` that signatures of transactions use. -/
structure SignaturePrimitives where
  packTransaction : Transaction → Bytes
  /-- `fc::raw::pack` of a digest or a chain id -/
  packDigest : Digest → Bytes
  /-- `fc::raw::pack` of a `vector<bytes>` -/
  packContextFreeData : List Bytes → Bytes
  /-- `digest_type::encoder` -/
  sha256 : Bytes → Digest
  /-- `public_key_type( sig, digest )`; `none` when it throws -/
  recoverKey : Signature → Digest → Option PublicKey

namespace Transaction

def id (fc : SignaturePrimitives) (trx : Transaction) : TransactionId :=
  fc.sha256 (fc.packTransaction trx)

def sigDigest (fc : SignaturePrimitives) (trx : Transaction) (chainId : Digest) (cfd : List Bytes) :
    Digest :=
  fc.sha256 (fc.packDigest chainId ++ fc.packTransaction trx ++
    fc.packDigest (if cfd.isEmpty then 0 else fc.sha256 (fc.packContextFreeData cfd)))

end Transaction

/-! ### The cache -/

structure CachedPubKey where
  trxId : TransactionId
  pubKey : PublicKey
  sig : Signature
  cpuUsage : Int

/-- `recovery_cache_type`, in the order of insertion; `by_sig` is unique. -/
structure RecoveryCache where
  entries : List CachedPubKey
  unique : (entries.map (·.sig)).Nodup

namespace RecoveryCache

@[irreducible] def recoveryCacheSize : Nat := 10000

def empty : RecoveryCache := ⟨[], nodup_nil⟩

def find (cache : RecoveryCache) (sig : Signature) : Option CachedPubKey :=
  cache.entries.find? (·.sig = sig)

/-- `emplace_back`, which fails on a signature that is there. -/
def emplaceBack (cache : RecoveryCache) (cached : CachedPubKey) : RecoveryCache :=
  if absent : cached.sig ∉ cache.entries.map (·.sig) then
    { entries := cache.entries ++ [cached]
      unique := by
        rw [map_append, map_singleton]
        exact cache.unique.append (nodup_singleton _) (disjoint_singleton.mpr absent) }
  else cache

/-- The oldest entries are erased while there are more than `recovery_cache_size`. -/
def trim (cache : RecoveryCache) : RecoveryCache where
  entries := cache.entries.drop (cache.entries.length - recoveryCacheSize)
  unique := cache.unique.sublist ((drop_sublist _ _).map _)

variable {cache : RecoveryCache} {cached : CachedPubKey} {sig : Signature}

theorem mem_emplaceBack {other : CachedPubKey}
    (member : other ∈ (cache.emplaceBack cached).entries) :
    other ∈ cache.entries ∨ other = cached := by
  by_cases absent : cached.sig ∉ cache.entries.map (·.sig)
  · rw [emplaceBack, dif_pos absent] at member
    simpa using member
  · rw [emplaceBack, dif_neg absent] at member
    exact .inl member

end RecoveryCache

/-! ### Recovery -/

/-- The arguments of `get_signature_keys`, and what the clock shows while it runs. -/
structure RecoveryCall where
  trx : Transaction
  signatures : List Signature
  chainId : Digest
  deadline : Int
  cfd : List Bytes
  allowDuplicateKeys : Bool
  start : Int
  digestEnd : Int
  /-- `sig_start` of the signature at an index -/
  sigStart : Nat → Int
  /-- the time when the signature at an index has been recovered -/
  sigEnd : Nat → Int

abbrev RecoveryM := EStateM ChainException RecoveryCache

namespace RecoveryCall

variable (fc : SignaturePrimitives) (call : RecoveryCall)

def trxId : TransactionId := call.trx.id fc

def digest : Digest := call.trx.sigDigest fc call.chainId call.cfd

/-- Recover the key of the signature at an index and put it into the cache. -/
def recoverAndCache (index : Nat) (sig : Signature) : RecoveryM (PublicKey × Int) := do
  match fc.recoverKey sig (call.digest fc) with
  | none => throw ⟨.fcException, "unable to reconstruct public key from signature"⟩
  | some recov =>
    let cpuUsage := call.sigEnd index - call.sigStart index
    modify fun cache => cache.emplaceBack ⟨call.trxId fc, recov, sig, cpuUsage⟩
    return (recov, cpuUsage)

/-- The key of the signature at an index, from the cache if it has one for this transaction. -/
def keyOf (index : Nat) (sig : Signature) : RecoveryM (PublicKey × Int) := do
  let cache ← get
  match cache.find sig with
  | none => call.recoverAndCache fc index sig
  | some it =>
    if it.trxId ≠ call.trxId fc then call.recoverAndCache fc index sig
    else return (it.pubKey, it.cpuUsage)

def recoverSignatures : (index : Nat) → List Signature → (recoveredPubKeys : Finset PublicKey) →
    (sigCpuUsage : Int) → RecoveryM (Finset PublicKey × Int)
  | _, [], recoveredPubKeys, sigCpuUsage => return (recoveredPubKeys, sigCpuUsage)
  | index, sig :: rest, recoveredPubKeys, sigCpuUsage => do
      require (call.sigStart index < call.deadline)
        ⟨.txCpuUsageExceeded, "transaction signature verification executed for too long"⟩
      let (recov, cpuUsage) ← call.keyOf fc index sig
      require (call.allowDuplicateKeys ∨ recov ∉ recoveredPubKeys)
        ⟨.txDuplicateSig, "transaction includes more than one signature signed using the same key associated with public key"⟩
      recoverSignatures (index + 1) rest (insert recov recoveredPubKeys) (sigCpuUsage + cpuUsage)

/-- `transaction::get_signature_keys`: the keys and the time they took. -/
def getSignatureKeys : RecoveryM (Finset PublicKey × Int) := do
  let (recoveredPubKeys, sigCpuUsage) ← call.recoverSignatures fc 0 call.signatures ∅ 0
  modify RecoveryCache.trim
  return (recoveredPubKeys, sigCpuUsage + (call.digestEnd - call.start))

/-! ### Recovery without a cache -/

def recoverAll : (index : Nat) → List Signature → (recoveredPubKeys : Finset PublicKey) →
    Checked (Finset PublicKey)
  | _, [], recoveredPubKeys => .ok recoveredPubKeys
  | index, sig :: rest, recoveredPubKeys => do
      eosAssert (call.sigStart index < call.deadline) .txCpuUsageExceeded
        "transaction signature verification executed for too long"
      match fc.recoverKey sig (call.digest fc) with
      | none => .error ⟨.fcException, "unable to reconstruct public key from signature"⟩
      | some recov =>
        eosAssert (call.allowDuplicateKeys ∨ recov ∉ recoveredPubKeys) .txDuplicateSig
          "transaction includes more than one signature signed using the same key associated with public key"
        recoverAll (index + 1) rest (insert recov recoveredPubKeys)

def signatureKeys : Checked (Finset PublicKey) := call.recoverAll fc 0 call.signatures ∅

variable {fc call}

theorem recoverAll_eq_ok
    (recovered : call.recoverAll fc index signatures recoveredPubKeys = .ok keys) (key : PublicKey) :
    key ∈ keys ↔ key ∈ recoveredPubKeys ∨
      ∃ sig ∈ signatures, fc.recoverKey sig (call.digest fc) = some key := by
  induction signatures generalizing index recoveredPubKeys with
  | nil =>
    obtain rfl := Except.ok.inj recovered
    simp
  | cons sig rest ih =>
    obtain ⟨_, -, recovered⟩ := of_bind recovered
    cases found : fc.recoverKey sig (call.digest fc) with
    | none =>
      rw [found] at recovered
      cases recovered
    | some recov =>
      rw [found] at recovered
      obtain ⟨_, -, recovered⟩ := of_bind recovered
      rw [ih recovered, Finset.mem_insert, exists_mem_cons_iff, found]
      simp only [Option.some.injEq]
      grind

/-- A call without a cache that returns has the keys of its signatures. -/
theorem mem_signatureKeys (recovered : call.signatureKeys fc = .ok keys) (key : PublicKey) :
    key ∈ keys ↔ ∃ sig ∈ call.signatures, fc.recoverKey sig (call.digest fc) = some key := by
  rw [recoverAll_eq_ok recovered]
  simp

/-! ### What the cache holds -/

def keysOf : EStateM.Result ChainException RecoveryCache (Finset PublicKey × Int) →
    Checked (Finset PublicKey)
  | .ok value _ => .ok value.1
  | .error thrown _ => .error thrown

def cacheAfter (fc : SignaturePrimitives) : List RecoveryCall → RecoveryCache :=
  List.foldl (fun cache call => finalState (call.getSignatureKeys fc cache)) RecoveryCache.empty

/-- Every entry was recovered by one of the calls, for its transaction. -/
def Sound (fc : SignaturePrimitives) (calls : List RecoveryCall) (cache : RecoveryCache) : Prop :=
  ∀ cached ∈ cache.entries, ∃ call ∈ calls, cached.sig ∈ call.signatures ∧
    cached.trxId = call.trxId fc ∧ fc.recoverKey cached.sig (call.digest fc) = some cached.pubKey

/-- Calls for the same transaction with a signature in common have the same digest. -/
def Agrees (fc : SignaturePrimitives) (call earlier : RecoveryCall) : Prop :=
  earlier.trxId fc = call.trxId fc → (∃ sig ∈ earlier.signatures, sig ∈ call.signatures) →
    earlier.digest fc = call.digest fc

section Loop

variable {calls : List RecoveryCall} {cache : RecoveryCache} {sig : Signature}

theorem Sound.emplaceBack (sound : Sound fc calls cache) (member : call ∈ calls)
    (signed : sig ∈ call.signatures) {recov : PublicKey} {cpuUsage : Int}
    (recovered : fc.recoverKey sig (call.digest fc) = some recov) :
    Sound fc calls (cache.emplaceBack ⟨call.trxId fc, recov, sig, cpuUsage⟩) := by
  intro cached cachedMember
  rcases RecoveryCache.mem_emplaceBack cachedMember with older | rfl
  · exact sound cached older
  · exact ⟨call, member, signed, rfl, recovered⟩

theorem recoverAndCache_sound (index : Nat) (sound : Sound fc calls cache) (member : call ∈ calls)
    (signed : sig ∈ call.signatures) :
    Sound fc calls (finalState (call.recoverAndCache fc index sig cache)) := by
  unfold recoverAndCache
  cases recovered : fc.recoverKey sig (call.digest fc) with
  | none => exact sound
  | some recov => exact sound.emplaceBack member signed recovered

theorem keyOf_sound (index : Nat) (sound : Sound fc calls cache) (member : call ∈ calls)
    (signed : sig ∈ call.signatures) :
    Sound fc calls (finalState (call.keyOf fc index sig cache)) := by
  unfold keyOf
  rw [Library.get_bind]
  cases cache.find sig with
  | none => exact recoverAndCache_sound index sound member signed
  | some it =>
    dsimp only
    split_ifs
    · exact recoverAndCache_sound index sound member signed
    · exact sound

theorem recoverSignatures_sound (sound : Sound fc calls cache) (member : call ∈ calls)
    (signed : ∀ sig ∈ signatures, sig ∈ call.signatures) :
    Sound fc calls (finalState
      (call.recoverSignatures fc index signatures recoveredPubKeys sigCpuUsage cache)) := by
  induction signatures generalizing index recoveredPubKeys sigCpuUsage cache with
  | nil => exact sound
  | cons sig rest ih =>
    unfold recoverSignatures
    apply finalState_bind (Sound fc calls) (finalState_require sound)
    intro _ cache sound
    apply finalState_bind (Sound fc calls) (keyOf_sound index sound member (signed sig mem_cons_self))
    intro _ cache sound
    apply finalState_bind (Sound fc calls) (finalState_require sound)
    intro _ cache sound
    exact ih sound fun other later => signed other (mem_cons_of_mem _ later)

/-- Every entry of the cache stems from a call, whatever the calls were. -/
theorem cacheAfter_sound (fc : SignaturePrimitives) (calls : List RecoveryCall) :
    Sound fc calls (cacheAfter fc calls) := by
  induction calls using List.reverseRecOn with
  | nil =>
    intro cached member
    exact absurd member not_mem_nil
  | append_singleton calls call ih =>
    have sound : Sound fc (calls ++ [call]) (cacheAfter fc calls) := by
      intro cached member
      obtain ⟨earlier, earlierMember, facts⟩ := ih cached member
      exact ⟨earlier, mem_append_left _ earlierMember, facts⟩
    have member : call ∈ calls ++ [call] := mem_append_right _ mem_cons_self
    rw [cacheAfter, foldl_append, foldl_cons, foldl_nil]
    apply finalState_bind (Sound fc (calls ++ [call]))
      (recoverSignatures_sound sound member fun _ signed => signed)
    intro _ cache sound cached trimmed
    exact sound cached (mem_of_mem_drop trimmed)

theorem keyOf_of_agrees (index : Nat) (sound : Sound fc calls cache)
    (agrees : ∀ earlier ∈ calls, call.Agrees fc earlier) (signed : sig ∈ call.signatures) :
    match fc.recoverKey sig (call.digest fc) with
    | none => call.keyOf fc index sig cache =
        .error ⟨.fcException, "unable to reconstruct public key from signature"⟩ cache
    | some key => ∃ cpuUsage cache', call.keyOf fc index sig cache = .ok (key, cpuUsage) cache' := by
  have uncached : match fc.recoverKey sig (call.digest fc) with
      | none => call.recoverAndCache fc index sig cache =
          .error ⟨.fcException, "unable to reconstruct public key from signature"⟩ cache
      | some key => ∃ cpuUsage cache',
          call.recoverAndCache fc index sig cache = .ok (key, cpuUsage) cache' := by
    unfold recoverAndCache
    cases fc.recoverKey sig (call.digest fc) with
    | none => rfl
    | some recov => exact ⟨_, _, rfl⟩
  unfold keyOf
  rw [Library.get_bind]
  cases found : cache.find sig with
  | none => exact uncached
  | some it =>
    dsimp only
    split_ifs with same
    · exact uncached
    · obtain rfl : it.sig = _ := by simpa using find?_some found
      obtain ⟨earlier, earlierMember, earlierSigned, sameId, recovered⟩ :=
        sound it (mem_of_find?_eq_some found)
      have sameTrx : earlier.trxId fc = call.trxId fc := sameId.symm.trans (not_not.mp same)
      rw [agrees earlier earlierMember sameTrx ⟨it.sig, earlierSigned, signed⟩] at recovered
      rw [recovered]
      exact ⟨_, _, rfl⟩

theorem recoverSignatures_of_agrees (sound : Sound fc calls cache) (member : call ∈ calls)
    (agrees : ∀ earlier ∈ calls, call.Agrees fc earlier)
    (signed : ∀ sig ∈ signatures, sig ∈ call.signatures) :
    keysOf (call.recoverSignatures fc index signatures recoveredPubKeys sigCpuUsage cache) =
      call.recoverAll fc index signatures recoveredPubKeys := by
  induction signatures generalizing index recoveredPubKeys sigCpuUsage cache with
  | nil => rfl
  | cons sig rest ih =>
    have signedFirst := signed sig mem_cons_self
    unfold recoverSignatures recoverAll
    by_cases inTime : call.sigStart index < call.deadline
    · rw [require_bind inTime, eosAssert, if_pos inTime, ok_bind]
      have key := keyOf_of_agrees index sound agrees signedFirst
      cases recovered : fc.recoverKey sig (call.digest fc) with
      | none =>
        rw [recovered] at key
        rw [bind_of_error key]
        rfl
      | some recov =>
        rw [recovered] at key
        obtain ⟨cpuUsage, cache', ran⟩ := key
        have sound' := keyOf_sound index sound member signedFirst
        rw [ran] at sound'
        rw [bind_of_ok ran]
        dsimp only
        by_cases fresh : call.allowDuplicateKeys ∨ recov ∉ recoveredPubKeys
        · rw [require_bind fresh, eosAssert, if_pos fresh, ok_bind]
          exact ih sound' fun other later =>
            signed other (mem_cons_of_mem _ later)
        · rw [require_bind_of_not fresh, eosAssert, if_neg fresh]
          rfl
    · rw [require_bind_of_not inTime, eosAssert, if_neg inTime]
      rfl

theorem keysOf_getSignatureKeys (sound : Sound fc calls cache) (member : call ∈ calls)
    (agrees : ∀ earlier ∈ calls, call.Agrees fc earlier) :
    keysOf (call.getSignatureKeys fc cache) = call.signatureKeys fc := by
  have keys : keysOf (call.recoverSignatures fc 0 call.signatures ∅ 0 cache) = call.signatureKeys fc :=
    recoverSignatures_of_agrees sound member agrees fun _ signed => signed
  unfold getSignatureKeys
  rw [← keys]
  cases ran : call.recoverSignatures fc 0 call.signatures ∅ 0 cache with
  | ok value cache' =>
    rw [bind_of_ok ran]
    rfl
  | error thrown cache' => rw [bind_of_error ran]

/-- After any calls, a call that agrees with each of them on the digest of the signatures that
they share returns or throws what it does without a cache; what it returns are the keys of
its signatures. -/
theorem getSignatureKeys_history_independent (agrees : ∀ earlier ∈ calls, call.Agrees fc earlier) :
    keysOf (call.getSignatureKeys fc (cacheAfter fc calls)) = call.signatureKeys fc ∧
      ∀ keys, keysOf (call.getSignatureKeys fc (cacheAfter fc calls)) = .ok keys →
        ∀ key, key ∈ keys ↔
          ∃ sig ∈ call.signatures, fc.recoverKey sig (call.digest fc) = some key := by
  have sound : Sound fc (call :: calls) (cacheAfter fc calls) := by
    intro cached member
    obtain ⟨earlier, earlierMember, facts⟩ := cacheAfter_sound fc calls cached member
    exact ⟨earlier, mem_cons_of_mem _ earlierMember, facts⟩
  have agreesAll : ∀ earlier ∈ call :: calls, call.Agrees fc earlier := by
    intro earlier member
    rcases mem_cons.mp member with rfl | older
    · exact fun _ _ => rfl
    · exact agrees earlier older
  have same := keysOf_getSignatureKeys sound mem_cons_self agreesAll
  refine ⟨same, fun keys returned => ?_⟩
  rw [same] at returned
  exact mem_signatureKeys returned

end Loop

/-! ### Samples -/

/-- A transaction packs to nothing, a digest is the sum of the bytes, and a key is recovered from
every digest. -/
def summing : SignaturePrimitives where
  packTransaction _ := []
  packDigest digest := [UInt8.ofNat digest]
  packContextFreeData data := 1 :: data.flatten
  sha256 bytes := (bytes.map UInt8.toNat).sum
  recoverKey sig digest := some (sig + digest)

def signedOnce (cfd : List Bytes) : RecoveryCall where
  trx := {}
  signatures := [100]
  chainId := 3
  deadline := 1000
  cfd := cfd
  allowDuplicateKeys := false
  start := 0
  digestEnd := 1
  sigStart _ := 1
  sigEnd _ := 2

/-- The key of the signature with other context-free data is returned. -/
theorem stale_key_of_other_context_free_data :
    keysOf ((signedOnce []).getSignatureKeys summing (cacheAfter summing [])) = .ok {103} ∧
    keysOf ((signedOnce [[7]]).getSignatureKeys summing (cacheAfter summing [signedOnce []])) =
      .ok {103} ∧
    (signedOnce [[7]]).signatureKeys summing = .ok {111} := by
  decide +kernel

theorem keys_of_same_context_free_data :
    (∀ earlier ∈ [signedOnce [[7]]], (signedOnce [[7]]).Agrees summing earlier) ∧
    keysOf ((signedOnce [[7]]).getSignatureKeys summing (cacheAfter summing [signedOnce [[7]]])) =
      (signedOnce [[7]]).signatureKeys summing := by
  have agrees : ∀ earlier ∈ [signedOnce [[7]]], (signedOnce [[7]]).Agrees summing earlier := by
    intro earlier member
    obtain rfl := mem_singleton.mp member
    exact fun _ _ => rfl
  exact ⟨agrees, (getSignatureKeys_history_independent agrees).1⟩

end RecoveryCall

end CodexRelay.Chain
