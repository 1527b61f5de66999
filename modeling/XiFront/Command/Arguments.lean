import XiFront.Config

namespace XiFront.Command

/-- What the arguments of the compiler can set. -/
structure Options where
  file : String
  compileOnly : Bool
  dumpTree : Bool
  noSystem : Bool
  cacheDir : Option String
  verbose : Bool
  deriving DecidableEq, Repr

def Options.config (o : Options) : Config :=
  { Config.ofEntry o.file with
    compileOnly := o.compileOnly
    dumpTree := o.dumpTree
    noSystem := o.noSystem
    cacheDir := o.cacheDir.getD (Config.ofEntry o.file).cacheDir }

/-- What a list of arguments asks for. -/
inductive Request where
  | misuse
  | help
  | version
  | compile (options : Options)
  deriving DecidableEq, Repr

inductive Flag where
  | compileOnly
  | dumpTree
  | noSystem
  | verbose
  | help
  | version
  deriving DecidableEq, Repr

namespace Flag

def ofName? : List Char → Option Flag
  | ['c', 'o', 'm', 'p', 'i', 'l', 'e'] => some compileOnly
  | ['a', 's', 't'] => some dumpTree
  | ['n', 'o', '-', 's', 'y', 's'] => some noSystem
  | ['v', 'e', 'r', 'b', 'o', 's', 'e'] => some verbose
  | ['h', 'e', 'l', 'p'] => some help
  | ['v', 'e', 'r', 's', 'i', 'o', 'n'] => some version
  | _ => none

def ofLetter? : Char → Option Flag
  | 'c' => some compileOnly
  | 'v' => some verbose
  | 'h' => some help
  | 'V' => some version
  | _ => none

end Flag

/-- What the arguments read so far have set. -/
structure Settings where
  flags : List Flag
  cacheDir : Option String
  file : Option String
  deriving DecidableEq, Repr

namespace Settings

def initial : Settings :=
  ⟨[], none, none⟩

/-- A flag is given at most once; a request for information ends the reading. -/
def setFlag (s : Settings) (f : Flag) : Except Request Settings :=
  match f with
  | .help => .error .help
  | .version => .error .version
  | f => if f ∈ s.flags then .error .misuse else .ok { s with flags := f :: s.flags }

def setLetters (s : Settings) : List Char → Except Request Settings
  | [] => .ok s
  | c :: cs =>
      match Flag.ofLetter? c with
      | none => .error .misuse
      | some f =>
          match s.setFlag f with
          | .ok s => s.setLetters cs
          | .error r => .error r

def setCacheDir (s : Settings) (dir : List Char) : Except Request Settings :=
  if dir = [] ∨ s.cacheDir.isSome then .error .misuse
  else .ok { s with cacheDir := some (String.ofList dir) }

def setFile (s : Settings) (file : List Char) : Except Request Settings :=
  if file = [] ∨ s.file.isSome then .error .misuse
  else .ok { s with file := some (String.ofList file) }

def setFiles (s : Settings) : List (List Char) → Except Request Settings
  | [] => .ok s
  | a :: as =>
      match s.setFile a with
      | .ok s => s.setFiles as
      | .error r => .error r

def request (s : Settings) : Request :=
  match s.file with
  | none => .misuse
  | some file =>
      .compile
        { file
          compileOnly := decide (.compileOnly ∈ s.flags)
          dumpTree := decide (.dumpTree ∈ s.flags)
          noSystem := decide (.noSystem ∈ s.flags)
          cacheDir := s.cacheDir
          verbose := decide (.verbose ∈ s.flags) }

end Settings

/-- Whether an argument can be the value of the option before it. -/
def isValue : List Char → Bool
  | '-' :: _ :: _ => false
  | _ => true

def cacheDirName : List Char :=
  "cache-dir".toList

def splitLong (option : List Char) : List Char × Option (List Char) :=
  match option.dropWhile (· ≠ '=') with
  | [] => (option, none)
  | _ :: value => (option.takeWhile (· ≠ '='), some value)

def readArguments (s : Settings) : List (List Char) → Except Request Settings
  | [] => .ok s
  | ['-', '-'] :: files => s.setFiles files
  | ('-' :: '-' :: option) :: others =>
      match splitLong option with
      | (name, attached) =>
          if name = cacheDirName then
            match attached, others with
            | some dir, others =>
                match s.setCacheDir dir with
                | .ok s => readArguments s others
                | .error r => .error r
            | none, [] => .error .misuse
            | none, dir :: others =>
                if isValue dir then
                  match s.setCacheDir dir with
                  | .ok s => readArguments s others
                  | .error r => .error r
                else .error .misuse
          else
            match Flag.ofName? name, attached with
            | some f, none =>
                match s.setFlag f with
                | .ok s => readArguments s others
                | .error r => .error r
            | _, _ => .error .misuse
  | ('-' :: c :: letters) :: others =>
      match s.setLetters (c :: letters) with
      | .ok s => readArguments s others
      | .error r => .error r
  | file :: others =>
      match s.setFile file with
      | .ok s => readArguments s others
      | .error r => .error r

def request (arguments : List String) : Request :=
  match readArguments .initial (arguments.map String.toList) with
  | .ok s => s.request
  | .error r => r

end XiFront.Command
