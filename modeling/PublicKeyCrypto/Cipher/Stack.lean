import PublicKeyCrypto.Cipher.Oaep
import PublicKeyCrypto.Cipher.Pkcs1

/-!
# Stacks of encodings

An encoding turns one cipher into another, so that encodings can be laid over each other to any
depth. A layer is told of a new key in two parts: before the cipher under it sees the key, and
after that cipher has accepted it.

## Main Definitions

* `Layer` — an encoding of either kind
* `CipherStack` — layers over a cipher, as an `AsymmetricCipher`
-/

namespace PublicKeyCrypto

/-- An encoding laid over a cipher. -/
inductive Layer
  | pkcs1 (l : Pkcs1)
  | oaep (l : Oaep)

namespace Layer

/-- Name of the encoding. -/
def name : Layer → String
  | pkcs1 _ => "PKCS1"
  | oaep _ => "OAEP"

/-- What the layer takes over before the cipher under it sees the key. -/
def beforeInit (direction : Direction) (isPrivate : Bool) : Layer → Layer
  | pkcs1 l => pkcs1 { l with direction, withPrivateKey := isPrivate }
  | oaep l => oaep l

/-- What the layer takes over after the cipher under it has accepted the key. -/
def afterInit (direction : Direction) : Layer → Layer
  | pkcs1 l => pkcs1 l
  | oaep l => oaep { l with direction }

/-- Least length of the blocks of the cipher under the layer. -/
def leastBlock : Layer → Nat
  | pkcs1 _ => Pkcs1.headerLength
  | oaep l => l.overhead

/-- What the layer makes of the cipher under it. -/
def view (below : CipherView) : Layer → CipherView
  | pkcs1 l =>
    { inputSize := l.inputSize below.inputSize
      outputSize := l.outputSize below.outputSize
      process := l.process below }
  | oaep l =>
    { inputSize := l.inputSize below.inputSize
      outputSize := l.outputSize below.outputSize
      process := l.process below }

end Layer

/-- Layers over a cipher, the outermost layer first. -/
inductive CipherStack (E : Type)
  | base (cipher : E)
  | layer (top : Layer) (below : CipherStack E)

namespace CipherStack

variable {E S P : Type} [AsymmetricCipher E S P]

/-- Name of the outermost algorithm. -/
def name : CipherStack E → String
  | base e => AsymmetricCipher.name e
  | layer top _ => top.name

/-- Names of the ciphers under each layer, for the innermost layer first. -/
def underlyingNames : CipherStack E → List String
  | base _ => []
  | layer _ below => below.underlyingNames ++ [below.name]

/-- Sizes and operation of the stack. -/
def view : CipherStack E → CipherView
  | base e => CipherView.ofCipher e
  | layer top below => top.view below.view

/-- Length of the modulus, in bits. -/
def keySize : CipherStack E → Nat
  | base e => AsymmetricCipher.keySize e
  | layer _ below => below.keySize

/-- Sets the direction and the key, from the outermost layer to the cipher and back. A layer
refuses a key whose blocks are too short for it. -/
def init : CipherStack E → Direction → KeyHalf S P → Reply (CipherStack E) Unit
  | base e, direction, key =>
    let (answer, e') := AsymmetricCipher.init e direction key
    (answer, base e')
  | layer top below, direction, key =>
    let told := top.beforeInit direction key.isPrivate
    match below.init direction key with
    | (.error e, below') => (.error e, layer told below')
    | (.ok (), below') =>
      let top' := told.afterInit direction
      let answer := if below'.view.blockSize direction < top'.leastBlock
        then .error .keyTooSmall else .ok ()
      (answer, layer top' below')

instance : AsymmetricCipher (CipherStack E) S P where
  name := name
  init := init
  inputSize c := c.view.inputSize
  outputSize c := c.view.outputSize
  keySize := keySize
  process c := c.view.process

end CipherStack

end PublicKeyCrypto
