/-!
# Errors

An `Error` is a refusal that the caller receives as an answer. It is one of seven kinds; a kind
that has several causes carries the cause. The wording lives in `Error.message` and nowhere else.

A refused padding carries no cause: the reader of the error must not learn which of the padding
rules was broken.
-/

namespace PublicKeyCrypto

/-- Families whose private key is an exponent and whose public key is a power. -/
inductive PowerFamily
  | dsa
  | diffieHellman
  | elGamal
  deriving DecidableEq, Repr

/-- Schemes whose signatures are pairs of numbers. -/
inductive PairScheme
  | dsa
  | ecdsa
  | gost
  deriving DecidableEq, Repr

/-- Objects that answer only after a successful `init`. -/
inductive Component
  | rsa
  | elGamal
  | pss
  | signer (scheme : PairScheme)
  | diffieHellman
  | ecdh
  | ecmqv
  | derivation
  | dhKeyEncryption
  | ecdhKeyEncryption
  | aes
  | stealing
  deriving DecidableEq, Repr

/-- Causes of an `invalidArgument`. -/
inductive ArgumentCause
  | dsaGroupSizes
  | dsaOrderNotDivisor
  | dsaGeneratorOrder
  | modulusNotOdd (family : PowerFamily)
  | generatorRange (family : PowerFamily)
  | subgroupOrderRange
  | privateLengthTooLarge (family : PowerFamily)
  | rsaSizeTooSmall
  | rsaExponentNotOdd
  | elGamalNeedsPublic
  | elGamalNeedsPrivate
  | signingNeedsPrivate (scheme : PairScheme)
  | verificationNeedsPublic (scheme : PairScheme)
  | paddedInputTooLarge
  | randomPayloadNeedsPrivate
  | diffieHellmanNeedsPrivate
  | ecdhNeedsPrivate
  | foreignParameters
  | objectIdentifier
  | aesKeyLength
  | wrapBlockSize
  | wrapIvLength
  | stealingIvLength
  deriving DecidableEq, Repr

/-- Causes of an `invalidKey`. -/
inductive KeyCause
  | rsaModulusNotOdd
  | rsaExponentRange
  | rsaFactors
  | rsaCrtRange
  | privateValueRange (family : PowerFamily)
  | publicValueRange (family : PowerFamily)
  | publicValueOutsideSubgroup
  | scalarRange
  | pointAtInfinity
  | pointEncoding
  deriving DecidableEq, Repr

/-- Causes of a `dataLength`. -/
inductive LengthCause
  | numberTooLarge
  | rsaInput
  | elGamalInput
  | elGamalCiphertextLength
  | elGamalCiphertextValue
  | oaepInput
  | derivedOutput
  | aesBlock
  | wrapTooShort
  | wrapNotWhole
  | stealingTooShort
  deriving DecidableEq, Repr

/-- Causes of an `invalidState`. -/
inductive StateCause
  | notInitialised (what : Component)
  | rsaCheckFailed
  | signerForVerification (scheme : PairScheme)
  | signerForSigning (scheme : PairScheme)
  | messageAlreadySent
  | agreementCompleted
  | messageNotSent
  | notWrapping
  | notUnwrapping
  deriving DecidableEq, Repr

/-- Causes of an `invalidAgreement`. -/
inductive AgreementCause
  | sharedOne
  | ecdhInfinity
  | ecmqvInfinity
  deriving DecidableEq, Repr

/-- A refusal. -/
inductive Error
  /-- Wrong parameter, or a key of the wrong role. -/
  | invalidArgument (cause : ArgumentCause)
  /-- Key or public value outside its range. -/
  | invalidKey (cause : KeyCause)
  /-- Modulus too small for the chosen hash and salt sizes. -/
  | keyTooSmall
  /-- Malformed padding or failed integrity check. -/
  | invalidCipherText
  /-- Input or output length outside the supported range. -/
  | dataLength (cause : LengthCause)
  /-- Operation invoked out of order. -/
  | invalidState (cause : StateCause)
  /-- The agreement gave a degenerate value. -/
  | invalidAgreement (cause : AgreementCause)
  deriving DecidableEq, Repr

namespace PowerFamily

/-- Name of the family in messages. -/
def label : PowerFamily → String
  | dsa => "DSA"
  | diffieHellman => "DH"
  | elGamal => "ElGamal"

end PowerFamily

namespace PairScheme

/-- Name of the scheme in messages. -/
def label : PairScheme → String
  | dsa => "DSA"
  | ecdsa => "ECDSA"
  | gost => "GOST3410"

end PairScheme

namespace Component

/-- Name of the object in messages. -/
def label : Component → String
  | rsa => "RSA engine"
  | elGamal => "ElGamal engine"
  | pss => "PSS signer"
  | signer scheme => scheme.label ++ " signer"
  | diffieHellman => "DH agreement"
  | ecdh => "ECDH agreement"
  | ecmqv => "ECMQV agreement"
  | derivation => "KDF"
  | dhKeyEncryption => "DH KEK generator"
  | ecdhKeyEncryption => "ECDH KEK generator"
  | aes => "AES engine"
  | stealing => "CTS cipher"

end Component

namespace ArgumentCause

/-- Text of the cause. -/
def text : ArgumentCause → String
  | dsaGroupSizes => "invalid DSA group sizes"
  | dsaOrderNotDivisor => "q does not divide p-1"
  | dsaGeneratorOrder => "DSA generator has wrong order"
  | modulusNotOdd family => family.label ++ " modulus must be an odd prime"
  | generatorRange family => family.label ++ " generator out of range"
  | subgroupOrderRange => "DH subgroup order out of range"
  | privateLengthTooLarge family => family.label ++ " private value length too large"
  | rsaSizeTooSmall => "RSA key size too small"
  | rsaExponentNotOdd => "RSA public exponent must be odd"
  | elGamalNeedsPublic => "ElGamal public key required for encryption"
  | elGamalNeedsPrivate => "ElGamal private key required for decryption"
  | signingNeedsPrivate scheme => scheme.label ++ " private key required for signing"
  | verificationNeedsPublic scheme => scheme.label ++ " public key required for verification"
  | paddedInputTooLarge => "input data too large"
  | randomPayloadNeedsPrivate => "decode-or-random is only for decryption with a private key"
  | diffieHellmanNeedsPrivate => "DH agreement requires a private key"
  | ecdhNeedsPrivate => "ECDH agreement requires a private key"
  | foreignParameters => "DH public key has wrong domain parameters"
  | objectIdentifier => "invalid object identifier"
  | aesKeyLength => "AES key must be 16, 24 or 32 bytes"
  | wrapBlockSize => "key wrap requires a 128-bit block cipher"
  | wrapIvLength => "IV must be 8 bytes"
  | stealingIvLength => "IV length must match the block size"

end ArgumentCause

namespace KeyCause

/-- Text of the cause. -/
def text : KeyCause → String
  | rsaModulusNotOdd => "RSA modulus must be odd"
  | rsaExponentRange => "RSA public exponent out of range"
  | rsaFactors => "RSA factors do not match modulus"
  | rsaCrtRange => "RSA CRT component out of range"
  | privateValueRange family => family.label ++ " private value out of range"
  | publicValueRange family => family.label ++ " public value out of range"
  | publicValueOutsideSubgroup => "DH public value not in subgroup"
  | scalarRange => "EC private scalar out of range"
  | pointAtInfinity => "EC public point is the point at infinity"
  | pointEncoding => "invalid EC point encoding"

end KeyCause

namespace LengthCause

/-- Text of the cause. -/
def text : LengthCause → String
  | numberTooLarge => "integer too large for output length"
  | rsaInput => "input too large for RSA cipher"
  | elGamalInput => "input too large for ElGamal cipher"
  | elGamalCiphertextLength => "invalid ElGamal ciphertext length"
  | elGamalCiphertextValue => "ElGamal ciphertext value too large"
  | oaepInput => "input data too long"
  | derivedOutput => "output length too large"
  | aesBlock => "AES block must be 16 bytes"
  | wrapTooShort => "wrap data must be at least 16 bytes"
  | wrapNotWhole => "wrap data must be a multiple of 8 bytes"
  | stealingTooShort => "need at least one block of input for CTS"

end LengthCause

namespace StateCause

/-- Text of the cause. -/
def text : StateCause → String
  | notInitialised what => what.label ++ " not initialised"
  | rsaCheckFailed => "RSA private operation check failed"
  | signerForVerification scheme => scheme.label ++ " signer initialised for verification"
  | signerForSigning scheme => scheme.label ++ " signer initialised for signing"
  | messageAlreadySent => "DH message already calculated"
  | agreementCompleted => "DH agreement already completed"
  | messageNotSent => "DH message not yet calculated"
  | notWrapping => "not set for wrapping"
  | notUnwrapping => "not set for unwrapping"

end StateCause

namespace AgreementCause

/-- Text of the cause. -/
def text : AgreementCause → String
  | sharedOne => "shared key can't be 1"
  | ecdhInfinity => "infinity is not a valid agreement value for ECDH"
  | ecmqvInfinity => "infinity is not a valid agreement value for MQV"

end AgreementCause

namespace Error

/-- The full wording of an error: its kind, then its cause. -/
def message : Error → String
  | invalidArgument cause => "invalid argument: " ++ cause.text
  | invalidKey cause => "invalid key: " ++ cause.text
  | keyTooSmall => "key too small for the selected encoding parameters"
  | invalidCipherText => "invalid cipher text"
  | dataLength cause => "data length error: " ++ cause.text
  | invalidState cause => "invalid state: " ++ cause.text
  | invalidAgreement cause => "invalid agreement: " ++ cause.text

/-- The error of an object that has not been initialised. -/
def notInitialised (what : Component) : Error := invalidState (.notInitialised what)

end Error

/-- The reply of an object to a call: the answer, and the object as the call left it. An object
also goes on from the state in which a refused call left it. -/
abbrev Reply (σ α : Type) := Except Error α × σ

end PublicKeyCrypto
