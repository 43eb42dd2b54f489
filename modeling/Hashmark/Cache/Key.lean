import Hashmark.Path

/-!
# Cache keys

A key is the digest of the path of a template and of an optional discriminator, in hexadecimal
digits. A zero byte, which no path has, stands between the two.

The digest multiplies two words of 64 bits to one of 128 bits and folds its halves together. A text
of up to 16 bytes is read as two words that may overlap, and its length is mixed into the second
one. A longer text is first mixed in block by block. Very short texts can have the same digest,
as `t0` and `t10` do, so an engine has to check what it finds under a key.
-/

namespace Hashmark

namespace Digest

/-- The halves of the product of two words, joined by exclusive or. -/
def fold (a b : UInt64) : UInt64 :=
  let product := a.toNat * b.toNat
  UInt64.ofNat product ^^^ UInt64.ofNat (product / UInt64.size)

/-- Some bytes as a number, the first one as its last digit. -/
def word (bytes : List UInt8) : UInt64 :=
  bytes.foldr (fun b n => n <<< 8 ||| b.toUInt64) 0

/-- What the mixing starts from. -/
def seed : UInt64 := 0xbdd89aa982704029

/-- What is mixed into the first word. -/
def firstSecret : UInt64 := 0x8bb84b93962eacc9

/-- What is mixed into the first word of a block. -/
def blockSecret : UInt64 := 0x4b33a62ed433d4a3

/-- The two words that a text of up to 16 bytes is read as. -/
def words (bytes : List UInt8) : UInt64 × UInt64 :=
  let n := bytes.length
  if 8 ≤ n then (word (bytes.take 8), word (bytes.drop (n - 8)))
  else if 4 ≤ n then (word (bytes.take 4), word (bytes.drop (n - 4)))
  else
    let byte (i : Nat) : UInt64 := (bytes[i]?.map UInt8.toUInt64).getD 0
    (byte 0 <<< 45 ||| byte (n - 1), byte (n / 2))

/-- The seed with blocks of 16 bytes mixed in, as long as more than 16 bytes are left. -/
def mixBlocks (seed : UInt64) (bytes : List UInt8) : UInt64 :=
  if bytes.length ≤ 16 then seed
  else
    mixBlocks
      (fold (word (bytes.take 8) ^^^ blockSecret) (word ((bytes.drop 8).take 8) ^^^ seed))
      (bytes.drop 16)
termination_by bytes.length
decreasing_by simp only [List.length_drop]; omega

end Digest

open Digest in
/-- The digest of some bytes. -/
def digest (bytes : List UInt8) : UInt64 :=
  let length := UInt64.ofNat bytes.length
  if bytes.length ≤ 16 then
    let (a, b) := words bytes
    fold (a ^^^ firstSecret) (b ^^^ seed ^^^ length)
  else
    let (a, b) := words (bytes.drop (bytes.length - 16))
    fold (a ^^^ length ^^^ firstSecret) (b ^^^ mixBlocks seed bytes)

/-- The last `places` hexadecimal digits of a number, with zeros in front. -/
def hexDigits (places n : Nat) : List Char :=
  match places with
  | 0 => []
  | places + 1 => hexDigits places (n / 16) ++ [Nat.digitChar (n % 16)]

/-- The digest of some bytes in 16 hexadecimal digits. -/
def hexDigest (bytes : List UInt8) : String :=
  String.ofList (hexDigits 16 (digest bytes).toNat)

/-- The bytes that the key of a template is the digest of. -/
def keyMaterial (p : Path) (discriminator : Option String) : List UInt8 :=
  p.text.toUTF8.toList ++
    match discriminator with
    | some d => 0 :: d.toUTF8.toList
    | none => []

/-- The key of a template. -/
def cacheKey (discriminator : Option String) (p : Path) : String :=
  hexDigest (keyMaterial p discriminator)

end Hashmark
