import Inclusion.CommandLine.Help
import Inclusion.Store.View

/-!
# The program

Looks at the files that a command needs, runs the command on what was seen and carries out the
changes. Which files are needed is found in two steps: the manifest names the settings file and the
modules, and the settings file names the other projects.
-/
namespace Inclusion.Main

open CommandLine

def versionText : String := "inclusion 0.1.0\n"

/-- What the system says to an error code, which it may report negated in 32 bits. -/
def reason (code : UInt32) (details : String) : String :=
  let code := if code < 0x80000000 then code else 0 - code
  if code = 13 then "Permission denied (os error 13)"
  else if code = 20 then Disk.notFolder
  else if code = 21 then Disk.isFolder
  else if code = 36 then Disk.nameTooLong
  else details ++ " (os error " ++ toString code ++ ")"

/-- Why the system refused something. -/
def faultOf : IO.Error → FileFault
  | .noFileOrDirectory .. => .absent
  | .alreadyExists _ code details | .otherError code details | .resourceBusy code details
  | .resourceVanished code details | .unsupportedOperation code details
  | .hardwareFault code details | .unsatisfiedConstraints code details
  | .illegalOperation code details | .protocolError code details | .timeExpired code details
  | .interrupted _ code details | .invalidArgument _ code details
  | .permissionDenied _ code details | .resourceExhausted _ code details
  | .inappropriateType _ code details | .noSuchThing _ code details =>
    .refused (reason code details)
  | .unexpectedEof => .refused "unexpected end of file"
  | .userError text => .refused text

/-- The name by which the disk knows a file. -/
def nameOf (path : Path) : IO String := do
  match ← (IO.FS.realPath path.text).toBaseIO with
  | .ok name => return toString name
  | .error _ => return path.text

/-- Looks at a path, unless it was looked at before. -/
def look (view : View) (path : Path) : IO View := do
  if view.knows path then return view
  match ← (IO.FS.readBinFile path.text).toBaseIO with
  | .ok bytes =>
    let obstacle ←
      match ← (IO.FS.Handle.mk path.text .readWrite).toBaseIO with
      | .ok _ => pure none
      | .error e =>
        match faultOf e with
        | .absent => pure none
        | .refused reason => pure (some reason)
    return view.see path (← nameOf path) { entry := .file bytes, obstacle }
  | .error e =>
    let fault := faultOf e
    if fault = .refused Disk.isFolder then
      return view.see path (← nameOf path) { entry := .folder }
    else return view.miss path fault

/-- Looks at a manifest and at the files that belong to its workspace. -/
def survey (manifest : Path) (workspaceOf : View → Except Error Workspace) : IO View := do
  let mut view ← look {} manifest
  for _ in [0:2] do
    match workspaceOf view with
    | .ok w => view ← w.files.foldlM look view
    | .error _ => pure ()
  return view

/-- Carries out changes, up to the first that fails. -/
def carryOut : List (Path × String) → IO (Except Error Unit)
  | [] => return .ok ()
  | (path, text) :: changes => do
    match ← (IO.FS.writeFile path.text text).toBaseIO with
    | .ok () => carryOut changes
    | .error e => return .error (.ofFileFault path (faultOf e))

/-- Writes a message to the log file, or to the error stream if there is none. -/
def note (logFile : Option String) (text : String) : IO Unit := do
  let opened? ← logFile.mapM fun file => (IO.FS.Handle.mk file .append).toBaseIO
  match opened? with
  | some (.ok handle) => handle.putStrLn text
  | _ => IO.eprintln text

/-- Reads the workspace anew after each pause, for ever. -/
partial def keepWatching (logFile : Option String) (pause : UInt32) (w : Workspace) :
    IO Unit := do
  IO.sleep pause
  let view ← survey (Workspace.manifestPath w.base w.config) fun view =>
    (w.reload view true).map Prod.fst
  match w.reload view true with
  | .error e =>
    note logFile ("Keeping previous manifest: " ++ e.message)
    keepWatching logFile pause w
  | .ok (w, view) =>
    if let .error e ← carryOut view.changes then note logFile e.message
    keepWatching logFile pause w

/-- Runs a command and shows its text. -/
def perform (call : Invocation) : IO UInt32 := do
  let view ← survey (Workspace.manifestPath call.root call.config) fun view =>
    (Workspace.load view call.root call.config).map Prod.fst
  let (result, after) := call.command.run view call.root call.config
  match (← carryOut after.changes).bind fun () => result with
  | .error e =>
    if call.logFile.isSome then note call.logFile e.message
    IO.eprintln ("error: " ++ e.message)
    return 1
  | .ok text =>
    IO.print text
    match call.command, Workspace.load view call.root call.config with
    | .watch seconds, .ok (w, _) =>
      keepWatching call.logFile (min (seconds * 1000) 0xFFFFFFFF).toUInt32 w
    | _, _ => pure ()
    return 0

end Inclusion.Main

open Inclusion in
def main (arguments : List String) : IO UInt32 := do
  match CommandLine.parse arguments with
  | .ok call => Main.perform call
  | .error .help =>
    IO.print CommandLine.helpText
    return 0
  | .error .version =>
    IO.print Main.versionText
    return 0
  | .error .nothing =>
    IO.eprint CommandLine.helpText
    return 2
  | .error refusal =>
    IO.eprintln ("error: " ++ refusal.message)
    return 2
