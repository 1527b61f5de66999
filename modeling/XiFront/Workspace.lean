import XiFront.Session
import XiFront.Store

namespace XiFront

def Store.load (s : Store) (name : String) : Except Error Tree :=
  match s.read name.toList with
  | .ok source => Tree.parse source
  | .error fault => .error (.unreadable name fault.message)

structure SourceFile where
  name : String
  outcome : Option (Except Error Session)

namespace SourceFile

def unread (name : String) : SourceFile :=
  ⟨name, none⟩

def isRead (f : SourceFile) : Bool :=
  f.outcome.isSome

def read (f : SourceFile) (s : Store) : Except Error Session × SourceFile :=
  match f.outcome with
  | some outcome => (outcome, f)
  | none =>
      let outcome := (s.load f.name).map Session.start
      (outcome, { f with outcome := some outcome })

end SourceFile

structure Workspace where
  store : Store
  files : List SourceFile

namespace Workspace

def empty : Workspace :=
  ⟨.empty, []⟩

inductive Step where
  | write (name : String) (content : ByteArray)
  | makeDirectory (name : String)
  | remove (name : String)
  | openFile (name : String)
  | parse (file : Nat)
  | ask (file : Nat) (o : Session.Operation)

inductive Answer where
  | done
  | opened (file : Nat)
  | noSuchFile
  | parsed (outcome : Except Error Session)
  | failed (e : Error)
  | answered (a : Session.Answer)

/-- The workspace with a changed store; a change that cannot be made is not made. -/
def withStore (w : Workspace) (change : Except Fault Store) : Workspace :=
  match change with
  | .ok store => { w with store }
  | .error _ => w

def setFile (w : Workspace) (i : Nat) (f : SourceFile) : Workspace :=
  { w with files := w.files.set i f }

def step (w : Workspace) : Step → Answer × Workspace
  | .write name content => (.done, w.withStore (w.store.provide name.toList content))
  | .makeDirectory name => (.done, w.withStore (w.store.makeDirectories name.toList))
  | .remove name => (.done, w.withStore (w.store.remove name.toList))
  | .openFile name => (.opened w.files.length, { w with files := w.files ++ [.unread name] })
  | .parse i =>
      match w.files[i]? with
      | none => (.noSuchFile, w)
      | some f =>
          match f.read w.store with
          | (outcome, f) => (.parsed outcome, w.setFile i f)
  | .ask i o =>
      match w.files[i]? with
      | none => (.noSuchFile, w)
      | some f =>
          match f.read w.store with
          | (.error e, f) => (.failed e, w.setFile i f)
          | (.ok s, f) =>
              match s.step o with
              | (a, after) => (.answered a, w.setFile i { f with outcome := some (.ok after) })

end Workspace

end XiFront
