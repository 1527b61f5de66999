import XiFront.PathName

namespace XiFront

structure Config where
  entry : String
  compileOnly : Bool
  dumpTree : Bool
  noSystem : Bool
  cacheDir : String
  deriving DecidableEq, Repr

namespace Config

def cacheName : List Char :=
  ".xicache".toList

/-- The cache directory next to a file. -/
def defaultCacheDir (entry : String) : String :=
  String.ofList
    (PathName.child ((PathName.parent? entry.toList).getD []) cacheName)

def ofEntry (entry : String) : Config where
  entry := entry
  compileOnly := false
  dumpTree := false
  noSystem := false
  cacheDir := defaultCacheDir entry

/-- What the files made for an entry are named after. -/
def stem (c : Config) : String :=
  match PathName.stem? c.entry.toList with
  | some s => String.ofList s
  | none => "main"

end Config

end XiFront
