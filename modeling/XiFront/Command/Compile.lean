import XiFront.Command.Arguments
import XiFront.Command.Dump
import XiFront.Workspace

namespace XiFront.Command

/-- How a program ends, and what it has printed. -/
structure Report where
  exit : Nat
  out : String
  err : String
  deriving DecidableEq, Repr

def versionText : String :=
  "xilang 0.1.0\n"

def usageText : String :=
  "usage: xilang [-c|--compile] [--ast] [--no-sys] [--cache-dir DIR] [-v|--verbose] FILE\n"

namespace Report

def misuse : Report :=
  ⟨2, "", usageText⟩

def help : Report :=
  ⟨0, usageText, ""⟩

def version : Report :=
  ⟨0, versionText, ""⟩

/-- A fault of the compiler itself is told apart from a fault of the source. -/
def failure (entry : String) (e : Error) : Report :=
  ⟨if e.isInternal then 101 else 1, "", entry ++ ": " ++ e.label ++ ": " ++ e.message ++ "\n"⟩

def dumpFailure (fault : Fault) : Report :=
  ⟨1, "", "Error writing AST dump: " ++ fault.message ++ "\n"⟩

def success (entry : String) (t : Tree) (count : Nat) : Report :=
  ⟨0,
    "✓ " ++ entry ++ " parsed (" ++ toString t.size ++ " nodes, " ++ toString count ++
      " lowered)\n",
    ""⟩

end Report

/-- What the compiler does not do itself: reading arguments, and writing documents. -/
structure Tools where
  request : List String → Request
  pretty : Json → Except Fault (List Char)

/-- The files to dump, and what is known after they have been put together. -/
def dump (tools : Tools) (c : Config) (t : Tree) : List Dump.Output × Known :=
  if c.dumpTree then
    match (Dump.files tools.pretty c t).run.run .empty with
    | (.ok files, known) => (files, known)
    | (.error _, known) => ([], known)
  else ([], .empty)

/-- Finds the meaning of every node, some of which may be known. -/
def finish (c : Config) (t : Tree) (known : Known) : Report :=
  match (Inquiry.all t).run.run known with
  | (.ok count, _) => .success c.entry t count
  | (.error e, _) => .failure c.entry e

def compile (tools : Tools) (s : Store) (c : Config) : Report × Store :=
  match s.load c.entry with
  | .error e => (.failure c.entry e, s)
  | .ok t =>
      match dump tools c t with
      | (files, known) =>
          if c.dumpTree then
            match s.makeDirectories c.cacheDir.toList with
            | .error fault => (.dumpFailure fault, s)
            | .ok s =>
                match Dump.writeAll s files with
                | (some fault, s) => (.dumpFailure fault, s)
                | (none, s) => (finish c t known, s)
          else (finish c t known, s)

def runWith (tools : Tools) (s : Store) (arguments : List String) : Report × Store :=
  match tools.request arguments with
  | .misuse => (.misuse, s)
  | .help => (.help, s)
  | .version => (.version, s)
  | .compile options => compile tools s options.config

def tools : Tools where
  request := request
  pretty := fun document => .ok document.render

def run (s : Store) (arguments : List String) : Report × Store :=
  runWith tools s arguments

end XiFront.Command
