import DArc.Archive.ByteStream
import DArc.Library.Separated

/-!
# Compressors

A compressor is a sequence of methods, each of which is a name with parameters behind colons.

### Outline

* `methodName`: the name of a method;
* `isFakeMethod`, `isFakeCompressor`: data that cannot be unpacked;
* `typeByCompressor`: the type of files, guessed by their compressor.
-/

namespace DArc.Compression

open DArc.Archive (Str)

/-- A string of the source. -/
def text (s : String) : Str := s.toList.map fun c => Fin.ofNat 0x110000 c.toNat

/-- `Compressor`. -/
abbrev Compressor := List Str

/-- `method_name`. -/
def methodName (method : Str) : Str := (split 58 method).headD []

/-- `aNO_COMPRESSION`. -/
def noCompression : Compressor := [text "storing"]

/-- `isFakeMethod`. -/
def isFakeMethod (method : Str) : Bool :=
  methodName method = text "fake" || methodName method = text "crc"

/-- `isFakeCompressor`, which is not defined for the empty list. -/
def isFakeCompressor : Compressor → Bool
  | [] => false
  | method :: xs => isFakeMethod method && xs.isEmpty

/-- `isDICT_Method`. -/
def isDictMethod (method : Str) : Bool := methodName method = text "dict"

/-- `isTTA_Method`. -/
def isTtaMethod (method : Str) : Bool := methodName method = text "tta"

/-- `isMM_Method`. -/
def isMmMethod (method : Str) : Bool := methodName method = text "mm"

/-- `isJPG_Method`. -/
def isJpgMethod (method : Str) : Bool := methodName method = text "jpg"

/-- `isMMType`. -/
def isMMType (x : Str) : Bool := x = text "$wav" || x = text "$bmp"

/-- `typeByCompressor`. -/
def typeByCompressor (c : Compressor) : Str :=
  let xs := c.map methodName
  if xs.contains (text "tta") then text "$wav"
  else if xs.contains (text "mm") then text "$bmp"
  else if xs.contains (text "grzip") then text "$text"
  else if xs.contains (text "ppmd") then text "$text"
  else if xs.contains (text "pmm") then text "$text"
  else if xs.contains (text "dict") then text "$text"
  else if xs = noCompression then text "$compressed"
  else if xs = [text "rep", text "tor"] then text "$compressed"
  else if xs.contains (text "ecm") then text "$iso"
  else if xs.contains (text "precomp") then text "$precomp"
  else if xs = [text "precomp", text "rep"] then text "$jpgsolid"
  else if xs.contains (text "jpg") then text "$jpg"
  else if xs.contains (text "exe") then text "$binary"
  else if xs.contains (text "lzma") then text "$obj"
  else if xs.contains (text "tor") then text "$obj"
  else text "default"

/-- `typesByCompressor`. -/
def typesByCompressor : List Str :=
  [text "$wav", text "$bmp", text "$text", text "$compressed", text "$iso", text "$precomp",
    text "$jpgsolid", text "$jpg", text "$obj", text "$binary", text "$exe"]

end DArc.Compression
