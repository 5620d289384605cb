import Mathlib

/-!
Contract: the value types shared by the chain library and the exceptions it
throws.

Owns:
- digests, block ids, keys and signatures as numbers, and names with their text;
- `action`, `transaction` and `validate_and_extract_extensions`;
- `ChainException`, an exception type of `exceptions.hpp` with its text;
- block ids with a given number;
- `Primitives`, the functions of `fc` (hashing, packing, key recovery), which is
  a submodule and not part of the repository.

A digest is read as the number `_hash[0] * 2^192 + _hash[1] * 2^128 + _hash[2] * 2^64
+ _hash[3]`, so that `sha256_less` is the order of the numbers.
-/

namespace CodexRelay.Chain

/-- `account_name`; the empty name is `0`. -/
abbrev AccountName := Nat

/-- `digest_type`, `checksum256_type`. -/
abbrev Digest := Nat

abbrev BlockId := Nat

abbrev PublicKey := Nat

abbrev Signature := Nat

/-- `flat_map<account_name,uint32_t>`. -/
abbrev ProducerMap := AList fun _ : AccountName => Nat

/-- The exception types of `exceptions.hpp` that the modelled code throws, and
`std::bad_alloc`, `boost::interprocess::bad_alloc`, `std::logic_error`, `std::out_of_range` and
`std::ios_base::failure`. `stdException` is one of these after `fc` has wrapped it.
`fcException` is an exception that `fc` throws itself. `fault` is no exception: it marks a step
that has no defined behaviour (a division by zero, an access outside a vector). -/
inductive ExceptionCode where
  | blockValidateException
  | producerDoubleConfirm
  | producerScheduleException
  | unlinkableBlockException
  | wrongProducer
  | wrongSigningKey
  | invalidBlockHeaderExtension
  | illFormedProtocolFeatureActivation
  | unpackException
  | forkDatabaseException
  | forkDbBlockNotFound
  | databaseException
  | blockLogAppendFail
  | controllerEmitSignalException
  | resourceLimitException
  | rateLimitingStateInconsistent
  | txCpuUsageExceeded
  | blockCpuUsageExceeded
  | greylistCpuUsageExceeded
  | deadlineException
  | leewayDeadlineException
  | txNetUsageExceeded
  | blockNetUsageExceeded
  | greylistNetUsageExceeded
  | blockResourceExhausted
  | transactionException
  | missingAuthException
  | actionValidateException
  | accountNameExistsException
  | accountQueryException
  | permissionQueryException
  | invalidPermission
  | irrelevantAuthException
  | unsatisfiedAuthorization
  | keyBlacklistException
  | invalidContractVmType
  | invalidContractVmVersion
  | setExactCode
  | invalidTablePayer
  | invalidTableIterator
  | tableAccessViolation
  | subjectiveBlockProductionException
  | cfaInsideGeneratedTx
  | txNoAuths
  | invalidTransactionExtension
  | illFormedDeferredTransactionGenerationContext
  | deferredTxDuplicate
  | unknownTransactionException
  | expiredTxException
  | txExpTooFarException
  | txDuplicate
  | disallowedTransactionExtensionsBadBlockException
  | txDuplicateSig
  | txIrrelevantSig
  | actorWhitelistException
  | actorBlacklistException
  | contractWhitelistException
  | contractBlacklistException
  | actionBlacklistException
  | protocolFeatureBadBlockException
  | nameTypeException
  | fixedKeyTypeException
  | tableOperationNotPermitted
  | tableNotInCache
  | snapshotException
  | abiException
  | abiRecursionDepthException
  | packException
  | invalidTypeInsideAbi
  | duplicateAbiTypeDefException
  | duplicateAbiStructDefException
  | duplicateAbiActionDefException
  | duplicateAbiTableDefException
  | duplicateAbiErrMsgDefException
  | duplicateAbiVariantDefException
  | abiCircularDefException
  | unsupportedAbiVersionException
  | protocolFeatureException
  | blockLogException
  | blockLogUnsupportedVersion
  | reversibleBlocksException
  | pluginException
  | eosioAssertMessageException
  | fcException
  | stdException
  | badAlloc
  | interprocessBadAlloc
  | logicError
  | outOfRange
  | iosFailure
  | fault
deriving DecidableEq

/-- The types that derive from `fc::exception`. -/
def ExceptionCode.isFc : ExceptionCode → Bool
  | .badAlloc => false
  | .interprocessBadAlloc => false
  | .logicError => false
  | .outOfRange => false
  | .iosFailure => false
  | .fault => false
  | _ => true

structure ChainException where
  code : ExceptionCode
  what : String
deriving DecidableEq

/-- What a function returns that may throw. -/
abbrev Checked := Except ChainException

def eosAssert (test : Prop) [Decidable test] (code : ExceptionCode) (what : String) :
    Checked Unit :=
  if test then .ok () else .error ⟨code, what⟩

@[simp] theorem eosAssert_eq_ok {test : Prop} [Decidable test] {code : ExceptionCode}
    {what : String} {done : Unit} : eosAssert test code what = .ok done ↔ test := by
  unfold eosAssert
  split_ifs with holds <;> simp [holds]

theorem eosAssert_of {test : Prop} [Decidable test] (holds : test) (code : ExceptionCode)
    (what : String) : eosAssert test code what = .ok () :=
  if_pos holds

/-- `FC_CAPTURE_AND_RETHROW`, which wraps an exception of the standard library. -/
def captureAndRethrow {α : Type} : Checked α → Checked α
  | .ok value => .ok value
  | .error thrown =>
    if thrown.code.isFc then .error thrown else .error { thrown with code := .stdException }

@[simp] theorem captureAndRethrow_eq_ok {α : Type} {program : Checked α} {value : α} :
    captureAndRethrow program = .ok value ↔ program = .ok value := by
  cases program with
  | ok => rfl
  | error thrown =>
    simp only [captureAndRethrow]
    split_ifs <;> simp

/-- A sequence of fallible steps succeeds exactly when each of them does. -/
theorem sequence_eq_ok {ε α β : Type} {first : Except ε α} {rest : α → Except ε β} {result : β} :
    (first >>= rest) = .ok result ↔ ∃ value, first = .ok value ∧ rest value = .ok result := by
  rcases first with thrown | value <;> simp [bind, Except.bind]

theorem of_bind {ε α β : Type} {first : Except ε α} {rest : α → Except ε β} {result : β}
    (ran : (first >>= rest) = .ok result) : ∃ value, first = .ok value ∧ rest value = .ok result :=
  sequence_eq_ok.mp ran

theorem ok_bind {ε α β : Type} (value : α) (rest : α → Except ε β) :
    (Except.ok value >>= rest) = rest value :=
  rfl

theorem exists_eq_ok {α : Type} {result : Checked α} {post : α → Prop}
    [DecidablePred post] (computed : (match result with
      | .ok value => decide (post value)
      | .error _ => false) = true) : ∃ value, result = .ok value ∧ post value := by
  cases result with
  | ok value => exact ⟨value, rfl, of_decide_eq_true computed⟩
  | error thrown => cases computed

theorem error_bind {ε α β : Type} (thrown : ε) (rest : α → Except ε β) :
    ((.error thrown : Except ε α) >>= rest) = .error thrown :=
  rfl

/-! ### Producer schedules -/

structure ProducerKey where
  producerName : AccountName
  blockSigningKey : PublicKey
deriving DecidableEq

structure ProducerSchedule where
  version : Nat := 0
  producers : List ProducerKey := []

structure ScheduleInfo where
  scheduleLibNum : Nat := 0
  scheduleHash : Digest := 0
  schedule : ProducerSchedule := {}

/-! ### Block headers -/

/-- `block_header`; the timestamp is its slot. -/
structure BlockHeader where
  timestamp : Nat := 0
  producer : AccountName := 0
  confirmed : Nat := 1
  previous : BlockId := 0
  transactionMroot : Digest := 0
  actionMroot : Digest := 0
  scheduleVersion : Nat := 0
  newProducers : Option ProducerSchedule := none
  headerExtensions : List (Nat × List UInt8) := []

structure SignedBlockHeader extends BlockHeader where
  producerSignature : Signature := 0

structure Primitives where
  /-- `digest_type::hash( schedule )` -/
  hashSchedule : ProducerSchedule → Digest
  /-- `digest_type::hash( header )` -/
  hashHeader : BlockHeader → Digest
  /-- `digest_type::hash( std::make_pair( first, second ) )` -/
  hashPair : Digest → Digest → Digest
  /-- `digest_type::hash( make_canonical_pair( left, right ) )` -/
  hashCanonicalPair : Digest → Digest → Digest
  /-- `fc::raw::pack( protocol_feature_activation )` -/
  packFeatures : List Digest → List UInt8
  /-- `fc::raw::unpack` into a `protocol_feature_activation`; `none` when it throws -/
  unpackFeatures : List UInt8 → Option (List Digest)
  /-- `fc::crypto::public_key( signature, digest )`; `none` when it throws -/
  recoverKey : Signature → Digest → Option PublicKey

/-- Functions that answer zero to everything, for runs on fixed inputs. -/
def Primitives.zero : Primitives where
  hashSchedule _ := 0
  hashHeader _ := 0
  hashPair _ _ := 0
  hashCanonicalPair _ _ := 0
  packFeatures _ := []
  unpackFeatures _ := none
  recoverKey _ _ := none

def endianReverseU32 (value : Nat) : Nat :=
  value % 256 * 2 ^ 24 + value / 2 ^ 8 % 256 * 2 ^ 16 + value / 2 ^ 16 % 256 * 2 ^ 8 +
    value / 2 ^ 24 % 256

namespace BlockHeader

def numFromId (id : BlockId) : Nat := endianReverseU32 (id / 2 ^ 192 % 2 ^ 32)

def blockNum (header : BlockHeader) : Nat := (numFromId header.previous + 1) % 2 ^ 32

/-- `block_header::id`: the digest of the header with the block number in its
first 32 bits. -/
def id (fc : Primitives) (header : BlockHeader) : BlockId :=
  let digest := fc.hashHeader header
  digest - digest / 2 ^ 192 % 2 ^ 32 * 2 ^ 192 + endianReverseU32 header.blockNum * 2 ^ 192

end BlockHeader

variable {fc : Primitives}

theorem endianReverseU32_lt (value : Nat) : endianReverseU32 value < 2 ^ 32 := by
  unfold endianReverseU32
  omega

theorem endianReverseU32_bytes {a b c d : Nat} (aByte : a < 256) (bByte : b < 256)
    (cByte : c < 256) (dByte : d < 256) :
    endianReverseU32 (a * 2 ^ 24 + b * 2 ^ 16 + c * 2 ^ 8 + d) =
      d * 2 ^ 24 + c * 2 ^ 16 + b * 2 ^ 8 + a := by
  unfold endianReverseU32
  omega

theorem endianReverseU32_involutive {value : Nat} (width : value < 2 ^ 32) :
    endianReverseU32 (endianReverseU32 value) = value := by
  have byte : ∀ n, n % 256 < 256 := fun n => Nat.mod_lt n (by decide)
  conv_lhs =>
    arg 1
    unfold endianReverseU32
  rw [endianReverseU32_bytes (byte _) (byte _) (byte _) (byte _)]
  omega

theorem BlockHeader.numFromId_id (header : BlockHeader) :
    numFromId (header.id fc) = header.blockNum := by
  have width : header.blockNum < 2 ^ 32 := Nat.mod_lt _ (by decide)
  have reversed := endianReverseU32_lt header.blockNum
  have first : header.id fc / 2 ^ 192 % 2 ^ 32 = endianReverseU32 header.blockNum := by
    unfold BlockHeader.id
    generalize endianReverseU32 header.blockNum = number at reversed
    generalize fc.hashHeader header = digest
    dsimp only
    omega
  unfold numFromId
  rw [first, endianReverseU32_involutive width]

def unhashedId (num : Nat) : BlockId := endianReverseU32 num * 2 ^ 192

theorem numFromId_unhashedId {num : Nat} (width : num < 2 ^ 32) :
    BlockHeader.numFromId (unhashedId num) = num := by
  unfold BlockHeader.numFromId unhashedId
  rw [Nat.mul_div_cancel _ (by decide), Nat.mod_eq_of_lt (endianReverseU32_lt num),
    endianReverseU32_involutive width]

/-! ### Names -/

abbrev PermissionName := Nat

abbrev ActionName := Nat

def charToSymbol (c : Char) : Nat :=
  if 'a' ≤ c ∧ c ≤ 'z' then c.toNat - 'a'.toNat + 6
  else if '1' ≤ c ∧ c ≤ '5' then c.toNat - '1'.toNat + 1
  else 0

/-- The part of `string_to_name` for the characters from position `i` on. -/
def stringToNameFrom : (i : Nat) → List Char → Nat
  | _, [] => 0
  | i, c :: rest =>
    if i < 12 then charToSymbol c % 2 ^ 5 * 2 ^ (64 - 5 * (i + 1)) + stringToNameFrom (i + 1) rest
    else charToSymbol c % 2 ^ 4

/-- `string_to_name`, `N(X)`. -/
def stringToName (str : List Char) : Nat := stringToNameFrom 0 str

/-- `charmap` of `name::to_string`. -/
def charmap : List Char :=
  ['.', '1', '2', '3', '4', '5', 'a', 'b', 'c', 'd', 'e', 'f', 'g', 'h', 'i', 'j', 'k', 'l', 'm',
    'n', 'o', 'p', 'q', 'r', 's', 't', 'u', 'v', 'w', 'x', 'y', 'z']

def nameToString (value : Nat) : List Char :=
  let symbols := (List.range 12).map (fun i => value / 2 ^ (64 - 5 * (i + 1)) % 2 ^ 5) ++ [value % 2 ^ 4]
  (symbols.map fun symbol => charmap.getD symbol '.').rdropWhile (· = '.')

def ownerName : PermissionName := stringToName ['o', 'w', 'n', 'e', 'r']

def activeName : PermissionName := stringToName ['a', 'c', 't', 'i', 'v', 'e']

def systemAccountName : AccountName := stringToName ['c', 'o', 'd', 'e', 'x']

def producersAccountName : AccountName :=
  stringToName ['c', 'o', 'd', 'e', 'x', '.', 'p', 'r', 'o', 'd', 's']

def chainConfigName : AccountName :=
  stringToName ['c', 'o', 'd', 'e', 'x', '.', 'c', 'o', 'n', 'f', 'i', 'g']

def eosioCodeName : PermissionName :=
  stringToName ['c', 'o', 'd', 'e', 'x', '.', 'c', 'o', 'd', 'e']

def eosioAnyName : PermissionName :=
  stringToName ['c', 'o', 'd', 'e', 'x', '.', 'a', 'n', 'y']

/-! ### Actions and transactions -/

/-- `bytes`, `shared_blob`. -/
abbrev Bytes := List UInt8

abbrev TransactionId := Digest

structure PermissionLevel where
  actor : AccountName
  permission : PermissionName
deriving DecidableEq

structure Action where
  account : AccountName
  name : ActionName
  authorization : List PermissionLevel
  data : Bytes
deriving DecidableEq

/-- `transaction`, with the fields of `transaction_header`. -/
structure Transaction where
  expiration : Nat := 0
  refBlockNum : Nat := 0
  refBlockPrefix : Nat := 0
  maxNetUsageWords : Nat := 0
  maxCpuUsageMs : Nat := 0
  delaySec : Nat := 0
  contextFreeActions : List Action := []
  actions : List Action := []
  transactionExtensions : List (Nat × Bytes) := []

structure GenerationContext where
  senderTrxId : TransactionId
  senderId : Nat
  sender : AccountName

namespace Transaction

def firstAuthorizer (trx : Transaction) : AccountName :=
  ((trx.actions.flatMap (·.authorization)).head?.map (·.actor)).getD 0

/-- The loop of `validate_and_extract_extensions`; the only type has the id 0 and is unique. -/
def extractExtensions (unpack : Bytes → Option GenerationContext) :
    (first : Bool) → (idTypeLowerBound : Nat) → List (Nat × Bytes) →
      Checked (List GenerationContext)
  | _, _, [] => .ok []
  | first, idTypeLowerBound, (id, bytes) :: rest => do
      eosAssert (idTypeLowerBound ≤ id) .invalidTransactionExtension
        "Transaction extensions are not in the correct order (ascending id types required)"
      eosAssert (id = 0) .invalidTransactionExtension
        "Transaction extension with id type ${id} is not supported"
      let context ← (unpack bytes).elim
        (.error ⟨.unpackException, "deferred_transaction_generation_context"⟩) Except.ok
      eosAssert (first ∨ idTypeLowerBound < id) .invalidTransactionExtension
        "Transaction extension with id type ${id} is not allowed to repeat"
      let results ← extractExtensions unpack false id rest
      return context :: results

def validateAndExtractExtensions (unpack : Bytes → Option GenerationContext) (trx : Transaction) :
    Checked (List GenerationContext) :=
  extractExtensions unpack true 0 trx.transactionExtensions

end Transaction

end CodexRelay.Chain
