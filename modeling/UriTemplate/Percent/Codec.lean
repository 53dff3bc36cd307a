import UriTemplate.Percent.Piece
import UriTemplate.Utf8

/-!
# Percent-encoding

Three functions on text, each a map over its characters or its pieces:

* `encode` writes every byte outside the unreserved class as an uppercase triple;
* `decode` turns triples into bytes, keeps all else, and reads the bytes as UTF-8;
* `normalize` writes the digits of triples in upper case and changes nothing else.
-/

namespace UriTemplate

/-! ## Hexadecimal digits -/

def hexValue (c : Char) : Nat :=
  if c.isDigit then c.toNat - 0x30
  else if 'a' ≤ c then c.toNat - 0x61 + 10
  else c.toNat - 0x41 + 10

/-- The uppercase digit for a value below sixteen. -/
def hexDigit (n : Nat) : Char :=
  if n < 10 then Char.ofNat (0x30 + n) else Char.ofNat (0x41 + (n - 10))

namespace Piece

/-- The bytes a piece stands for: one for a triple, the UTF-8 form of any other character. -/
def bytes : Piece → List UInt8
  | triple hi lo => [UInt8.ofNat (16 * hexValue hi + hexValue lo)]
  | char c => String.utf8EncodeChar c

def upper : Piece → Piece
  | triple hi lo => triple hi.toUpper lo.toUpper
  | char c => char c

/-- The triple that stands for a byte. -/
def ofByte (b : UInt8) : Piece := triple (hexDigit (b.toNat / 16)) (hexDigit (b.toNat % 16))

/-- The pieces a character is encoded as. -/
def encodeChar (c : Char) : List Piece :=
  if isUnreserved c then [char c] else (String.utf8EncodeChar c).map ofByte

end Piece

namespace Percent

/-! ## On characters -/

/-- Each character by itself, as is or as triples. -/
def encodeChars (cs : List Char) : List Char := Piece.toChars (cs.flatMap Piece.encodeChar)

/-- The bytes that a text stands for, read as UTF-8. -/
def decodeChars (cs : List Char) : List Char := Utf8.read ((Piece.ofChars cs).flatMap Piece.bytes)

def normalizeChars (cs : List Char) : List Char := Piece.toChars ((Piece.ofChars cs).map Piece.upper)

@[simp] theorem decodeChars_nil : decodeChars [] = [] := rfl

/-! ## On strings -/

/-- The percent-encoded form of any text. -/
def encode (s : String) : String := String.ofList (encodeChars s.toList)

/-- The text that a percent-encoded form stands for; what is no triple stands for itself. -/
def decode (s : String) : String := String.ofList (decodeChars s.toList)

/-- The same text with the digits of its triples in upper case. -/
def normalize (s : String) : String := String.ofList (normalizeChars s.toList)

@[simp] theorem toList_encode (s : String) : (encode s).toList = encodeChars s.toList :=
  String.toList_ofList

@[simp] theorem toList_decode (s : String) : (decode s).toList = decodeChars s.toList :=
  String.toList_ofList

@[simp] theorem toList_normalize (s : String) : (normalize s).toList = normalizeChars s.toList :=
  String.toList_ofList

end Percent

end UriTemplate
