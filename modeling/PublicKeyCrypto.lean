import PublicKeyCrypto.Bytes
import PublicKeyCrypto.Cipher.Basic
import PublicKeyCrypto.Cipher.Block
import PublicKeyCrypto.Cipher.Oaep
import PublicKeyCrypto.Cipher.Pkcs1
import PublicKeyCrypto.Cipher.Stack
import PublicKeyCrypto.Cipher.View
import PublicKeyCrypto.Curve.Basic
import PublicKeyCrypto.Curve.Ecdh
import PublicKeyCrypto.Curve.Ecdsa
import PublicKeyCrypto.Curve.Ecmqv
import PublicKeyCrypto.Curve.Gost
import PublicKeyCrypto.Curve.Key
import PublicKeyCrypto.Curve.Standard
import PublicKeyCrypto.Curve.Weierstrass
import PublicKeyCrypto.Der.Basic
import PublicKeyCrypto.Der.ObjectIdentifier
import PublicKeyCrypto.Der.Tree
import PublicKeyCrypto.Derivation.Counter
import PublicKeyCrypto.Derivation.KeyEncryption
import PublicKeyCrypto.Derivation.Mgf1
import PublicKeyCrypto.DiffieHellman.Agreement
import PublicKeyCrypto.DiffieHellman.Key
import PublicKeyCrypto.Direction
import PublicKeyCrypto.Dsa.Key
import PublicKeyCrypto.Dsa.Scheme
import PublicKeyCrypto.ElGamal.Cipher
import PublicKeyCrypto.ElGamal.Key
import PublicKeyCrypto.Error
import PublicKeyCrypto.Fault
import PublicKeyCrypto.Hash.Basic
import PublicKeyCrypto.Hash.Padding
import PublicKeyCrypto.Hash.Sha1
import PublicKeyCrypto.Hash.Sha256
import PublicKeyCrypto.Hash.Sha3
import PublicKeyCrypto.Hash.Sha512
import PublicKeyCrypto.KeyHalf
import PublicKeyCrypto.Mask
import PublicKeyCrypto.Number.Bits
import PublicKeyCrypto.Number.Modular
import PublicKeyCrypto.Number.Primality
import PublicKeyCrypto.Pss
import PublicKeyCrypto.Random.Draw
import PublicKeyCrypto.Random.PrivateValue
import PublicKeyCrypto.Random.Sampler
import PublicKeyCrypto.Random.Seeded
import PublicKeyCrypto.Rsa.Cipher
import PublicKeyCrypto.Rsa.Key
import PublicKeyCrypto.Rsa.KeyGenerator
import PublicKeyCrypto.Signature.Basic
import PublicKeyCrypto.Signature.Nonce
import PublicKeyCrypto.Signature.Signer
import PublicKeyCrypto.Symmetric.Aes
import PublicKeyCrypto.Symmetric.Basic
import PublicKeyCrypto.Symmetric.KeyWrap
import PublicKeyCrypto.Symmetric.Stealing
import PublicKeyCrypto.Symmetric.Toy
import PublicKeyCrypto.Text.Blank
import PublicKeyCrypto.Proofs.Bytes
import PublicKeyCrypto.Proofs.Number.Encoding
import PublicKeyCrypto.Proofs.Number.BigEndian
import PublicKeyCrypto.Proofs.Number.Modular
import PublicKeyCrypto.Proofs.Number.Subgroup
import PublicKeyCrypto.Proofs.Number.Weight
import PublicKeyCrypto.Proofs.Number.NonAdjacent
import PublicKeyCrypto.Proofs.Random.Outcomes
import PublicKeyCrypto.Proofs.Random.Sampler
import PublicKeyCrypto.Proofs.Random.PrivateValue
import PublicKeyCrypto.Proofs.Rsa.Consistent
import PublicKeyCrypto.Proofs.Rsa.Operation
import PublicKeyCrypto.Proofs.Rsa.RoundTrip
import PublicKeyCrypto.Proofs.Signature.Dsa
import PublicKeyCrypto.Proofs.Curve.CyclicGroup
import PublicKeyCrypto.Proofs.Signature.Ecdsa
import PublicKeyCrypto.Proofs.Signature.Gost
import PublicKeyCrypto.Proofs.Pss.Encoding
import PublicKeyCrypto.Proofs.Pss.Session
import PublicKeyCrypto.Proofs.Cipher.Pkcs1
import PublicKeyCrypto.Proofs.Cipher.Oaep
import PublicKeyCrypto.Proofs.Cipher.Stack
import PublicKeyCrypto.Proofs.ElGamal.Operation
import PublicKeyCrypto.Proofs.Cipher.RoundTrip
import PublicKeyCrypto.Proofs.Symmetric.Inverses
import PublicKeyCrypto.Proofs.Symmetric.KeyWrap
import PublicKeyCrypto.Proofs.Symmetric.Stealing
import PublicKeyCrypto.Proofs.Symmetric.Chaining
import PublicKeyCrypto.Proofs.Session.Transcript
import PublicKeyCrypto.Proofs.DiffieHellman.Session
import PublicKeyCrypto.Proofs.DiffieHellman.Exchange
import PublicKeyCrypto.Proofs.DiffieHellman.Degenerate
import PublicKeyCrypto.Proofs.DiffieHellman.Symmetry
import PublicKeyCrypto.Proofs.Session.Refusal
import PublicKeyCrypto.Proofs.Session.SetUp
import PublicKeyCrypto.Proofs.Symmetric.RejectedKey
import PublicKeyCrypto.Proofs.Cipher.Keys
import PublicKeyCrypto.Proofs.Cipher.RejectedKey
import PublicKeyCrypto.Proofs.Cipher.SmallKey
import PublicKeyCrypto.Proofs.Cipher.Faultless
import PublicKeyCrypto.Proofs.Session.Restart
import PublicKeyCrypto.Proofs.Cipher.Overwritten
import PublicKeyCrypto.Proofs.Session.Anew
import PublicKeyCrypto.Proofs.Cipher.Indistinguishable
import PublicKeyCrypto.Proofs.Cipher.ScanMasks
import PublicKeyCrypto.Proofs.Curve.Ecmqv
import PublicKeyCrypto.Proofs.Cipher.UniqueSignature
import PublicKeyCrypto.Proofs.Cipher.AcceptedBlocks
import PublicKeyCrypto.Proofs.Cipher.ExpectedLength
import PublicKeyCrypto.Proofs.Pss.Verification
import PublicKeyCrypto.Proofs.Pss.ShortSignature
import PublicKeyCrypto.Proofs.ElGamal.RoundTrip
import PublicKeyCrypto.Proofs.Number.Primality
import PublicKeyCrypto.Proofs.Rsa.KeyGenerator
import PublicKeyCrypto.Proofs.Signature.Rfc6979
import PublicKeyCrypto.Proofs.Signature.DeterministicNonce
import PublicKeyCrypto.Proofs.Signature.FirstSuitable
import PublicKeyCrypto.Proofs.Signature.Malleability
import PublicKeyCrypto.Proofs.Signature.RejectedNonce
import PublicKeyCrypto.Proofs.Signature.DsaSignable
import PublicKeyCrypto.Proofs.Derivation.Stream
import PublicKeyCrypto.Proofs.Derivation.Identification
import PublicKeyCrypto.Proofs.Keys.Generated
import PublicKeyCrypto.Proofs.Der.Number
import PublicKeyCrypto.Proofs.Der.Reader
import PublicKeyCrypto.Proofs.DiffieHellman.Confinement
import PublicKeyCrypto.Proofs.Rsa.Recombination
import PublicKeyCrypto.Proofs.Number.StrongTest
