import PioSyntax.Text.Digit
import PioSyntax.Text.Utf8

namespace PioSyntax.Uri

open Text

def byte? (high low : Char) : Option UInt8 :=
  if isHexDigit high && isHexDigit low then
    match hexDigit? high, hexDigit? low with
    | some h, some l => some (16 * h + l).toUInt8
    | _, _ => none
  else none

/-- The bytes that a URI writes. A percent sign without two digits after it is written as itself. -/
def bytes : Text → Bytes
  | '%' :: high :: low :: cs =>
    match byte? high low with
    | some b => b :: bytes cs
    | none => Utf8.encodeChar '%' ++ bytes (high :: low :: cs)
  | c :: cs => Utf8.encodeChar c ++ bytes cs
  | [] => []

def unquote (uri : Text) : Text := Utf8.decodeLenient (bytes uri)

end PioSyntax.Uri
