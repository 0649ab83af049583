import Inclusion.Workspace.Basic

/-!
# Reports

What a workspace shows of itself: its modules with their standing, its roots and the failure of its
settings file, and the text of that.

* `map_name_report`: a report lists the manifest modules in the order in which they are kept.
-/
namespace Inclusion

/-- What is reported of one manifest module. -/
structure ModuleReport where
  name : String
  path : String
  group : String
  included : Bool
  /-- Whether the module is named like the workspace. -/
  primary : Bool
  error : Option String
  dependencies : List String
deriving DecidableEq, Repr

structure Report where
  name : String
  modules : List ModuleReport
  roots : List String
  settingsError : Option String
deriving DecidableEq, Repr

/-- What is reported of a manifest module. -/
def Workspace.reportModule (w : Workspace) (u : Manifest.Module) : ModuleReport :=
  let node? := w.nodes.get? u.name
  { name := u.name, path := u.path, group := u.group,
    included := w.included.contains u.name,
    primary := u.name == w.manifest.name,
    error := (node?.bind (·.file.error)).map Error.message,
    dependencies := (node?.map (·.all.keys)).getD [] }

def Workspace.report (w : Workspace) : Report :=
  { name := w.manifest.name,
    modules := w.modules.values.map w.reportModule,
    roots := w.roots,
    settingsError := w.settings.error.map Error.message }

/-- Text that ends with a line feed. -/
def textLine (text : String) : String := text ++ "\n"

/-- A line for a text that may be missing. -/
def optionalLine (label : String) (text? : Option String) : String :=
  match text? with
  | none => ""
  | some text => textLine (label ++ text)

def ModuleReport.render (m : ModuleReport) : String :=
  textLine ("  [" ++ (if m.included then "x" else " ") ++ "] " ++ m.name
      ++ (if m.primary then " (primary)" else "") ++ "  " ++ m.group ++ "  " ++ m.path)
    ++ (if m.dependencies = [] then ""
        else textLine ("      depends on: " ++ ", ".intercalate m.dependencies))
    ++ optionalLine "      error: " m.error

/-- The text of a report. -/
def Report.render (r : Report) : String :=
  textLine ("Workspace '" ++ r.name ++ "'")
    ++ optionalLine "  settings: " r.settingsError
    ++ String.join (r.modules.map ModuleReport.render)
    ++ textLine ("Roots: " ++ ", ".intercalate r.roots)

theorem Workspace.map_name_report (w : Workspace) :
    w.report.modules.map ModuleReport.name = w.modules.values.map Manifest.Module.name := by
  simp [report, reportModule, Function.comp_def]

end Inclusion
