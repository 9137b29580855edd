import CostAnalysis.Source.Lexer
import CostAnalysis.Text.Encoding

/-!
# Reading source files

The encoding of a source file is found from its bytes: a byte order mark
announces UTF-16; else the bytes are UTF-8 if they are well-formed; else they
are Western.

Choosing the encoding, reading UTF-8 and removing the mark is what happens here.
The decoders of the other encodings come from a library, so `decodeChars` takes
them as an argument (`Decoders`), and what is proved about it rests on a named
assumption about them.  `Decoders.standard` are the ones that programs run with.
-/

namespace CostAnalysis

/-- The decoders of the encodings other than UTF-8.  They are given all bytes of
a file, the mark included, and never fail: what is malformed is replaced. -/
structure Decoders where
  /-- Decodes a file that begins with a mark of UTF-16 in some byte order. -/
  utf16 : Text.ByteOrder → List UInt8 → List Char
  /-- Decodes a file that is no UTF-8. -/
  western : List UInt8 → List Char

/-- The decoders of the library.  Both of them drop the mark; the Western one
gives way to UTF-8 where the file begins with the mark of that. -/
def Decoders.standard : Decoders where
  utf16 order bytes := Text.replaceMalformed (Text.decodeUtf16 order (bytes.drop 2))
  western bytes :=
    match bytes with
    | 0xEF :: 0xBB :: 0xBF :: rest => Text.replaceMalformed (Text.decodeUtf8 rest)
    | _ => Text.decodeWestern bytes

/-- The characters of a source file. -/
def decodeChars (decoders : Decoders) (bytes : List UInt8) : List Char :=
  match bytes with
  | 0xFF :: 0xFE :: _ => decoders.utf16 .littleEndian bytes
  | 0xFE :: 0xFF :: _ => decoders.utf16 .bigEndian bytes
  | _ => (Text.wellFormed? (Text.decodeUtf8 bytes)).getD (decoders.western bytes)

/-- The text of a source file, without a leading mark. -/
def decodeSource (bytes : List UInt8) : String :=
  String.ofList (stripMark (decodeChars .standard bytes))

end CostAnalysis
