import WebServer.Bytes

/-!
# Paths, files, types and compression

The helpers behind static files: percent decoding, the path check, the file
queries, the type table and gzip. The file system is an oracle over the strings
that reach the system calls, fixed while a request is processed; nothing ties its
four answers together. zlib is a state machine given from outside.
-/

namespace WebServer

/-! ## File system -/

structure Stat where
  regular : Bool
  size : Nat

/-- A successful open for reading: what can be read, and the size `fstat` reports. -/
structure OpenFile where
  content : Str
  size : Nat

structure FileSystem where
  stat : Str → Option Stat
  openRead : Str → Option OpenFile
  realpath : Str → Option Str

/-- One name of a finite file system: what it resolves to, and the content of a
regular file. Other contents are those of a directory. -/
structure Entry where
  path : Str
  target : Str
  content : Option Str

def FileSystem.table (entries : List Entry) : FileSystem where
  stat path := (entries.find? (·.path = path)).map fun e =>
    { regular := e.content.isSome, size := (e.content.getD []).length }
  openRead path := (entries.find? (·.path = path)).map fun e =>
    { content := e.content.getD [], size := (e.content.getD []).length }
  realpath path := (entries.find? (·.path = path)).map (·.target)

namespace FileUtil

def exists_ (fs : FileSystem) (path : Str) : Bool := (fs.stat (cStr path)).isSome

def isRegularFile (fs : FileSystem) (path : Str) : Bool :=
  match fs.stat (cStr path) with
  | none => false
  | some st => st.regular

/-- `open` and the constructor of `std::ifstream` take the same C string. -/
def openFile (fs : FileSystem) (path : Str) : Option OpenFile := fs.openRead (cStr path)

def readFile (fs : FileSystem) (path : Str) : Option Str := (openFile fs path).map (·.content)

def fileSize (fs : FileSystem) (path : Str) : Nat :=
  match fs.stat (cStr path) with
  | none => 0
  | some st => st.size

end FileUtil

/-! ## Percent decoding -/

def hexToChar (c : Byte) : Option Nat :=
  if 48 ≤ c ∧ c ≤ 57 then some (c.toNat - 48)
  else if 65 ≤ c ∧ c ≤ 70 then some (c.toNat - 65 + 10)
  else if 97 ≤ c ∧ c ≤ 102 then some (c.toNat - 97 + 10)
  else none

def percent : Byte := 37
def plus : Byte := 43

def urlDecode : Str → Str
  | [] => []
  | c :: rest =>
    if c = percent then
      match rest with
      | h :: l :: rest' =>
        match hexToChar h, hexToChar l with
        | some hi, some lo => (hi * 16 + lo).toUInt8 :: urlDecode rest'
        | _, _ => c :: urlDecode (h :: l :: rest')
      | short => c :: urlDecode short
    else if c = plus then space :: urlDecode rest
    else c :: urlDecode rest

/-! ## Path check -/

namespace PathUtil

def dot : Byte := 46

/-- One component of the loop over the pieces between slashes. -/
def pushComponent (components : List Str) (component : Str) : List Str :=
  if component = [] ∨ component = [dot] then components
  else if component = [dot, dot] then components.dropLast
  else components ++ [component]

def normalizePath (path : Str) : Str :=
  let components := (path.splitOn slash).foldl pushComponent []
  let result := components.flatMap fun comp => slash :: comp
  if result = [] then [slash] else result

/-- The empty string stands for a failed `realpath`. -/
def getAbsolutePath (fs : FileSystem) (path : Str) : Str := (fs.realpath (cStr path)).getD []

/-- The answer is the empty string for a refused path. -/
def safePath (fs : FileSystem) (resourceDir requestPath : Str) : Str :=
  if 0 ∈ requestPath then []
  else
    let decoded := urlDecode requestPath
    if 0 ∈ decoded then []
    else
      let normalized := normalizePath decoded
      if contains normalized [dot, dot] then []
      else
        let normalized := if normalized.head? = some slash then normalized
          else if normalized = [] then normalized else slash :: normalized
        let absResourceDir := getAbsolutePath fs resourceDir
        if absResourceDir = [] then []
        else
          let absFullPath := getAbsolutePath fs (resourceDir ++ normalized)
          if absFullPath = [] then []
          else if find absResourceDir absFullPath ≠ some 0 then []
          else if absResourceDir.length < absFullPath.length ∧
              absFullPath[absResourceDir.length]? ≠ some slash then []
          else normalized

end PathUtil

/-! ## Types -/

namespace MimeType

def mimeMap : List (Str × Str) :=
  [(lit ".html", lit "text/html"),
   (lit ".css", lit "text/css"),
   (lit ".js", lit "application/javascript"),
   (lit ".json", lit "application/json"),
   (lit ".png", lit "image/png"),
   (lit ".jpg", lit "image/jpeg"),
   (lit ".jpeg", lit "image/jpeg"),
   (lit ".gif", lit "image/gif"),
   (lit ".ico", lit "image/x-icon"),
   (lit ".txt", lit "text/plain"),
   (lit ".svg", lit "image/svg+xml")]

/-- From the last dot on. -/
def extension (path : Str) : Option Str :=
  if PathUtil.dot ∈ path then
    some (PathUtil.dot :: (path.reverse.takeWhile (· ≠ PathUtil.dot)).reverse)
  else none

def getMime (path : Str) : Str :=
  match extension path with
  | none => lit "application/octet-stream"
  | some ext => (mimeMap.lookup ext).getD (lit "application/octet-stream")

end MimeType

/-! ## Compression -/

inductive ZRet where
  | ok | streamEnd | bufError | other
  deriving DecidableEq

/-- zlib as the code uses it: `deflateInit2` on an input, and `deflate(Z_FINISH)`,
which is told how much output fits and says what it wrote. -/
structure Zlib where
  State : Type
  deflateInit2 : Str → Option State
  deflate : State → Nat → ZRet × Str × State

/-- A zlib whose `deflateInit2` always fails. -/
def Zlib.failing : Zlib := ⟨Unit, fun _ => none, fun zs _ => (.other, [], zs)⟩

namespace GzipUtil

def compress (z : Zlib) (body : Str) : Option Str :=
  match z.deflateInit2 body with
  | none => none
  | some zs =>
    let outSize := body.length
    let (ret, out, zs) := z.deflate zs outSize
    if ret = .streamEnd then some out
    else if ret = .ok ∨ ret = .bufError then
      let outSize := out.length + body.length / 2 + 128
      let (ret, more, _) := z.deflate zs (outSize - out.length)
      if ret = .streamEnd then some (out ++ more) else none
    else none

def shouldCompress (contentType : Str) : Bool :=
  contains contentType (lit "text/") || contains contentType (lit "application/json") ||
    contains contentType (lit "application/javascript") ||
    contains contentType (lit "application/xml")

end GzipUtil

end WebServer
