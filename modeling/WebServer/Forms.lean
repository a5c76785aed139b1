import WebServer.KeyedList
import WebServer.StaticFiles

/-!
# Form bodies and alert pages

What the account handlers read and write: the fields of a form body, and the page that
shows a message and leads on. A form that names a field twice has its last value, and a
field that is not there is empty. The page after a success leads to another place than
the page after a failure, whatever the two messages are.
-/

namespace WebServer

/-- The bytes of a literal in UTF-8. -/
def utf8 (s : String) : Str := s.toUTF8.data.toList

/-! ## Forms -/

def ampersand : Byte := 38
def equalsSign : Byte := 61

/-- `params[key] = value` for a pair with an equals sign. -/
def storePair (params : List (Str × Str)) (pair : Str) : List (Str × Str) :=
  match splitAtByte equalsSign pair with
  | none => params
  | some (key, value) => KeyedList.put params (urlDecode key) (urlDecode value)

/-- The loop stops at the end of the body; the empty piece behind a last ampersand has no
equals sign and would store nothing. -/
def parseFormBody (body : Str) : List (Str × Str) := (body.splitOn ampersand).foldl storePair []

/-- `params[name]` -/
def formValue (body name : Str) : Str := ((parseFormBody body).lookup name).getD []

/-! ## Pages -/

def hexDigit (n : Nat) : Byte := if n < 10 then 48 + n.toUInt8 else 87 + n.toUInt8

/-- Two lower case hexadecimal digits. -/
def hexByte (b : Byte) : Str := [hexDigit (b.toNat / 16), hexDigit (b.toNat % 16)]

namespace HtmlEscape

def escapeHtmlChar (c : Byte) : Str :=
  if c = 38 then lit "&amp;"
  else if c = 60 then lit "&lt;"
  else if c = 62 then lit "&gt;"
  else if c = 34 then lit "&quot;"
  else if c = 39 then lit "&#39;"
  else [c]

def escapeHtml (input : Str) : Str := input.flatMap escapeHtmlChar

def escapeJsChar (c : Byte) : Str :=
  if c = 92 then lit "\\\\"
  else if c = 39 then lit "\\'"
  else if c = 34 then lit "\\\""
  else if c = lf then lit "\\n"
  else if c = cr then lit "\\r"
  else if c = 9 then lit "\\t"
  else if c = slash then lit "\\/"
  else if c < 32 then lit "\\x" ++ hexByte c
  else [c]

def escapeJsString (input : Str) : Str := input.flatMap escapeJsChar

end HtmlEscape

def redirect (success : Bool) : Str := if success then lit "/hello.html" else lit "/"

def buildAlertPage (message : Str) (success : Bool) : Str :=
  lit "<!DOCTYPE html><html><head><meta charset=\"UTF-8\">" ++
  utf8 "<title>登录结果</title></head><body>" ++
  lit "<script>alert('" ++ HtmlEscape.escapeJsString message ++ lit "');" ++
  lit "location.href='" ++ HtmlEscape.escapeHtml (redirect success) ++ lit "';</script>" ++
  lit "</body></html>"

end WebServer
