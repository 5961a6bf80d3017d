import Mathlib.Data.List.Basic

/-! The boot service: what it is configured with, its systemd unit and the commands shown.

A string is the list of its bytes, each as the character of that number: paths and
arguments need not be text. -/
namespace Marshal.Startup

/-- The environment the boot service reproduces. -/
structure Config where
  Binary : List Char
  User : List Char
  Home : List Char
  /-- Empty where the unit leaves it out. -/
  XDGData : List Char
  System : Bool
  Args : List (List Char)

/-- The subcommand to run: the daemon, if none is given. -/
def Config.args (c : Config) : List (List Char) := if c.Args.isEmpty then ["daemon".toList] else c.Args

structure Cmd where
  Name : List Char
  Args : List (List Char)

/-- `strings.Join` -/
def join (parts : List (List Char)) (sep : List Char) : List Char := sep.intercalate parts

def containsAny (s : List Char) (chars : String) : Bool := s.any fun c => c ∈ chars.toList

/-! ### Commands for a human -/

/-- A part with one of these characters is shown in quotes. -/
def shellSignificant : String := " \t\n\"'\\$\x60&;|<>()\x7b\x7d[]*?#~"

def shellQuote (s : List Char) : List Char :=
  if s ≠ [] ∧ containsAny s shellSignificant = false then s
  else '\'' :: (s.flatMap fun c => if c = '\'' then "'\\''".toList else [c]) ++ ['\'']

def Cmd.Display (c : Cmd) : List Char := join (shellQuote c.Name :: c.Args.map shellQuote) [' ']

/-! ### The systemd unit -/

def systemdEnv (key val : List Char) : List Char :=
  if containsAny val " \t\"\\" then
    let escaped := val.flatMap fun c => if c = '\\' then ['\\', '\\'] else if c = '"' then ['\\', '"'] else [c]
    "Environment=\"".toList ++ key ++ ['='] ++ escaped ++ ['"', '\n']
  else "Environment=".toList ++ key ++ ['='] ++ val ++ ['\n']

def renderSystemdUnit (c : Config) : List Char :=
  "[Unit]\n".toList ++
  "Description=Marshal (".toList ++ join c.args [' '] ++ ")\n".toList ++
  "After=network.target\n\n".toList ++
  "[Service]\n".toList ++
  "Type=simple\n".toList ++
  "ExecStart=".toList ++ c.Binary ++ [' '] ++ join c.args [' '] ++ ['\n'] ++
  "Restart=on-failure\n".toList ++
  (if c.System then "User=".toList ++ c.User ++ ['\n'] else []) ++
  systemdEnv "HOME".toList c.Home ++
  (if c.XDGData ≠ [] then systemdEnv "XDG_DATA_HOME".toList c.XDGData else []) ++
  "\n[Install]\n".toList ++
  (if c.System then "WantedBy=multi-user.target\n".toList else "WantedBy=default.target\n".toList)

end Marshal.Startup
