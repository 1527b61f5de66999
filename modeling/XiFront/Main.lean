import XiFront.Command.Listing

namespace XiFront

def Fault.ofError : IO.Error → Fault
  | .noFileOrDirectory _ _ _ => missing
  | .inappropriateType _ code _ => if code = 21 then isDirectory else notDirectory
  | .alreadyExists _ _ _ => exists_
  | e => other (toString e)

def loadFile (name : String) : IO (Except Error Tree) := do
  try
    let content ← IO.FS.readBinFile name
    match String.fromUTF8? content with
    | some text => return Tree.parse text.toList
    | none => return .error (.unreadable name Fault.notText.message)
  catch e => return .error (.unreadable name (Fault.ofError e).message)

/-- Writes a dump, and tells what kept it from being written. -/
def writeDump (c : Config) (files : List Dump.Output) : IO (Option Fault) := do
  try
    IO.FS.createDirAll c.cacheDir
    for (name, text?) in files do
      match text? with
      | .ok text => IO.FS.writeFile (String.ofList name) (String.ofList text)
      | .error fault => return some fault
    return none
  catch e => return some (Fault.ofError e)

def compileFile (c : Config) : IO Command.Report := do
  match ← loadFile c.entry with
  | .error e => return .failure c.entry e
  | .ok t =>
      let (files, known) := Command.dump Command.tools c t
      if c.dumpTree then
        if let some fault ← writeDump c files then return .dumpFailure fault
      return Command.finish c t known

def compileArguments (arguments : List String) : IO Command.Report :=
  match Command.tools.request arguments with
  | .misuse => return .misuse
  | .help => return .help
  | .version => return .version
  | .compile options => compileFile options.config

def listArguments : List String → IO Command.Report
  | [] => return ⟨2, "", Listing.usageText⟩
  | name :: _ => return Listing.report name (← loadFile name)

end XiFront

def main (arguments : List String) : IO UInt32 := do
  let program := (toString (← IO.appPath)).toList
  let report ←
    if XiFront.PathName.stem? program = some "print_ast".toList then XiFront.listArguments arguments
    else XiFront.compileArguments arguments
  IO.print report.out
  IO.eprint report.err
  return UInt32.ofNat report.exit
