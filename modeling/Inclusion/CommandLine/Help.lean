import Inclusion.CommandLine

/-!
# Help

The text that explains the command line. It lists every command, and every option of watching.

* `mem_flags_watch`: these are all the options.
-/
namespace Inclusion.CommandLine

namespace CommandName

/-- What a command does, in a few words. -/
def summary : CommandName → String
  | init => "Create an empty workspace manifest"
  | status => "Show the modules and whether they are included, without changing files"
  | refresh => "Read every file anew and bring declarations in line with the settings"
  | includeModule => "Take a module of the manifest into the workspace as source"
  | excludeModule => "Take a module of the manifest out of the workspace"
  | watch => "Refresh repeatedly until interrupted"

/-- The name of a command with its operand. -/
def usage (c : CommandName) : String := c.name ++ if c.takesOperand then " <NAME>" else ""

end CommandName

namespace Flag

def summary : Flag → String
  | root => "Workspace root (default: the working folder)"
  | manifestFile => "Workspace manifest, relative to the root"
  | buildFile => "Name of the build file in the folder of each module"
  | settingsFile => "Name of the settings file"
  | logFile => "Append messages to this file"
  | interval => "Seconds between refreshes (default: 2)"

def usage (f : Flag) : String :=
  (match f.letter? with
    | some letter => "-" ++ letter.toString ++ ", "
    | none => "    ")
    ++ "--" ++ f.name ++ " <VALUE>"

end Flag

/-- One line of a table: what is explained, and the explanation in its column. -/
def helpLine (left right : String) : String :=
  "  " ++ left ++ "".pushn ' ' (30 - left.length) ++ right ++ "\n"

def helpText : String :=
  "Usage: inclusion [OPTIONS] <COMMAND>\n\nCommands:\n"
    ++ String.join (CommandName.all.map fun c => helpLine c.usage c.summary)
    ++ "\nOptions:\n"
    ++ String.join (CommandName.watch.flags.map fun f => helpLine f.usage f.summary)

theorem mem_flags_watch (f : Flag) : f ∈ CommandName.watch.flags := by cases f <;> decide

end Inclusion.CommandLine
