import PioSyntax.Classification
import PioSyntax.Style.Table

namespace PioSyntax.Html

open Text

def escapeChar (c : Char) : Text :=
  if c = '&' then "&amp;"
  else if c = '<' then "&lt;"
  else if c = '>' then "&gt;"
  else if 0x7F < c.toNat then "&#x" ++ (Nat.toDigits 16 c.toNat).map Char.toUpper ++ ";"
  else [c]

def escape (text : Text) : Text := text.flatMap escapeChar

def escapeAttribute (text : Text) : Text :=
  (escape text).flatMap fun c => if c = '"' then "&quot;" else [c]

def cssClass (c : Category) : Text :=
  "pio-" ++ c.name.map fun ch => if ch = '_' then '-' else ch.toLower

/-- The language of the last block whose body starts at an offset. -/
def languageAt (blocks : List ForeignBlock) (offset : Nat) : Text :=
  ((blocks.reverse.find? (·.body.start = offset)).map (·.language)).getD []

def token (blocks : List ForeignBlock) (t : Token) : Text :=
  match t.category with
  | .plain => escape t.text
  | .foreignBlock =>
    "<span class=\"" ++ cssClass t.category ++ "\" data-language=\"" ++
      escapeAttribute (languageAt blocks t.span.start) ++ "\">" ++ escape t.text ++ "</span>"
  | c => "<span class=\"" ++ cssClass c ++ "\">" ++ escape t.text ++ "</span>"

def fragment (c : Classification) : Text :=
  "<pre class=\"pio\">" ++ c.withPlain.flatMap (token c.blocks) ++ "</pre>"

def stylesheet (styles : StyleTable) : Text :=
  Category.all.flatMap fun c =>
    let declarations := (styles c).css
    if declarations = [] then []
    else "." ++ cssClass c ++ " \x7b " ++ declarations ++ " \x7d\n"

def document (c : Classification) (styles : StyleTable) (title : Text) : Text :=
  "<!DOCTYPE html>\n<html>\n<head>\n<meta charset=\"utf-8\">\n<title>" ++ escape title ++
    "</title>\n<style>\n" ++ stylesheet styles ++ "</style>\n</head>\n<body>\n" ++ fragment c ++
    "\n</body>\n</html>\n"

def defaultTitle : Text := "PIO source"

end PioSyntax.Html
