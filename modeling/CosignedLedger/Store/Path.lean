import CosignedLedger.Store.Basic

/-!
# Paths in writing

Where a path leads depends on the folders that are there; here is what its text alone decides.
-/

namespace CosignedLedger.Path

def nameLimit : Nat := 255

def textLimit : Nat := 4095

/-- The pieces of a text between its slashes, one more than there are slashes. -/
def pieces (text : String) : List String :=
  let (first, rest) := text.toList.foldr
    (fun c (piece, rest) => if c = '/' then ([], piece :: rest) else (c :: piece, rest)) ([], [])
  (first :: rest).map String.ofList

def parts (text : String) : List String := (pieces text).filter (· ≠ "")

def endsInSlash (text : String) : Bool := text.toList.getLast? = some '/'

def check (text : String) : Except FileFault Unit :=
  if '\x00' ∈ text.toList then .error .nulByte
  else if text = "" then .error .notFound
  else if textLimit < text.utf8ByteSize then .error .nameTooLong
  else .ok ()

/-- Some pieces without those at their end that lead nowhere. -/
def trimEnd (pieces : List String) : List String :=
  (pieces.reverse.dropWhile fun piece => piece = "" || piece = ".").reverse

/-- The path of the folder in which a path stands: all before its last part. It is empty if there
is nothing before it. -/
def folder (text : String) : String :=
  "/".intercalate (trimEnd (trimEnd (pieces text)).dropLast)

end CosignedLedger.Path
