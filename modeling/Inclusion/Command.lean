import Inclusion.Report
import Inclusion.Workspace.Change
import Inclusion.Workspace.Update

/-!
# Commands

What each command does to the files of a workspace, and the text that it prints. A command that
fails may have changed files before it did: opening a workspace enforces its policy.

* `run_status_store`: showing the status changes no file.
-/
namespace Inclusion

inductive Command
  /-- Makes an empty manifest. -/
  | init (name : String)
  /-- Shows the modules without changing a file. -/
  | status
  /-- Reads everything anew and enforces the policy. -/
  | refresh
  | includeModule (name : String)
  | excludeModule (name : String)
  /-- Refreshes again and again, with pauses of so many seconds. -/
  | watch (seconds : Nat)
deriving DecidableEq, Repr

namespace Command

variable {σ : Type}

def init.run [CreatingStore σ] (store : σ) (root : Path) (config : Config) (name : String) :
    Except Error String × σ :=
  let path := Workspace.manifestPath root config
  match Manifest.create store path name with
  | .error e => (.error e, store)
  | .ok (_, store) =>
    (.ok ("Created workspace '" ++ name ++ "' in " ++ path.text ++ "\n"), store)

def refreshText (r : Report) : String :=
  "Refreshed workspace '" ++ r.name ++ "': " ++ toString r.modules.length ++ " modules, "
    ++ toString (r.modules.countP (·.included)) ++ " included, "
    ++ toString (r.modules.countP (·.error.isSome)) ++ " with errors\n"

/-- Opens the workspace and goes on with it. -/
def withWorkspace [Store σ] (store : σ) (root : Path) (config : Config)
    (act : Workspace → σ → Except Error String × σ) : Except Error String × σ :=
  match Workspace.load store root config with
  | .error e => (.error e, store)
  | .ok (w, store) => act w store

/-- Runs a command once. Watching starts by opening the workspace. -/
def run [CreatingStore σ] (store : σ) (root : Path) (config : Config) :
    Command → Except Error String × σ
  | .init name => init.run store root config name
  | .status => ((Workspace.inspect store root config).map fun w => w.report.render, store)
  | .refresh =>
    withWorkspace store root config fun w store => (.ok (refreshText w.report), store)
  | .includeModule name =>
    withWorkspace store root config fun w store =>
      let (result, _, store) := w.includeModule store name
      (result.map fun _ => "Included '" ++ name ++ "'\n", store)
  | .excludeModule name =>
    withWorkspace store root config fun w store =>
      let (result, _, store) := w.excludeModule store name
      (result.map fun _ => "Excluded '" ++ name ++ "'\n", store)
  | .watch _ => withWorkspace store root config fun _ store => (.ok "", store)

theorem run_status_store [CreatingStore σ] (store : σ) (root : Path) (config : Config) :
    (run store root config .status).2 = store := rfl

end Command

end Inclusion
