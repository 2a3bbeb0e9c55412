import PublicKeyCrypto.Curve.Weierstrass

/-!
# Standard curves

## Main Definitions

* `WeierstrassCurve.p256` — the curve P-256 of FIPS 186
* `WeierstrassCurve.secp256k1` — the curve secp256k1 of SEC 2
-/

namespace PublicKeyCrypto.WeierstrassCurve

/-- P-256. -/
def p256 : WeierstrassCurve where
  name := "P-256"
  p := 0xffffffff00000001000000000000000000000000ffffffffffffffffffffffff
  a := 0xffffffff00000001000000000000000000000000fffffffffffffffffffffffc
  b := 0x5ac635d8aa3a93e7b3ebbd55769886bc651d06b0cc53b0f63bce3c3e27d2604b
  order := 0xffffffff00000000ffffffffffffffffbce6faada7179e84f3b9cac2fc632551
  gx := 0x6b17d1f2e12c4247f8bce6e563a440f277037d812deb33a0f4a13945d898c296
  gy := 0x4fe342e2fe1a7f9b8ee7eb4a7c0f9e162bce33576b315ececbb6406837bf51f5
  coordinateSize := 32

/-- secp256k1. -/
def secp256k1 : WeierstrassCurve where
  name := "secp256k1"
  p := 0xfffffffffffffffffffffffffffffffffffffffffffffffffffffffefffffc2f
  a := 0
  b := 7
  order := 0xfffffffffffffffffffffffffffffffebaaedce6af48a03bbfd25e8cd0364141
  gx := 0x79be667ef9dcbbac55a06295ce870b07029bfcdb2dce28d959f2815b16f81798
  gy := 0x483ada7726a3c4655da4fbfc0e1108a8fd17b448a68554199c47d08ffb10d4b8
  coordinateSize := 32

end PublicKeyCrypto.WeierstrassCurve
