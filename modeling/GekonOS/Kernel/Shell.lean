import GekonOS.Kernel.Keyboard

set_option autoImplicit false

namespace GekonOS

-- the calls the shell makes to the console
inductive ConsoleCall where
  | setColor (color : String)
  | kprintf (text : String)
  -- `kprintf("%c", key)`
  | kprintfChar (key : UInt8)
  -- the two lines of `dump` with the values of eight registers
  | kprintfRegisters
deriving DecidableEq

/-- The globals of the command line. -/
structure Cli where
  cliLen : Nat
  cli : Vector UInt8 256

-- `cli[i] = v`; there is no successor for a store outside the array
def Cli.store (c : Cli) (i : Nat) (v : UInt8) : Option Cli :=
  if within : i < 256 then some { c with cli := c.cli.set i v } else none

-- the C string at the start of `cli`
def Cli.string (c : Cli) : List UInt8 := c.cli.toList.takeWhile (· ≠ 0)

def bytesOf (text : String) : List UInt8 := text.toList.map chr

def showCmdline (c : Cli) : Cli × List ConsoleCall :=
  ({ cliLen := 0, cli := c.cli.set 0 0 },
    [.setColor "GREEN", .kprintf "[root]# ", .setColor "LIGHT_GREY"])

inductive Command where
  -- prints and returns 1
  | print (texts : List String)
  -- prints and goes on with the next test
  | dump
  | halt
  | gui

-- each test of `parse_cli`: the string, the length it asks for and what it guards
def commands : List (String × Nat × Command) := [
  ("help", 4, .print ["\n\t\t\tAvailable commands:\n",
    "\tcls \thalt \thelp \tinfo \tkill \tlist \tls\n",
    "\tmem \treboot \ttask \ttasks \ttime \ttop \tuptime\n", "\tver\n",
    "Other commands can only be executed if they are in the bin directory\n\n"]),
  ("list", 4, .print ["Usage: list <group>\n"]),
  ("list pci", 8, .print []),
  ("time", 4, .print []),
  ("uptime", 6, .print []),
  ("mem", 3, .print []),
  ("dump", 4, .dump),
  ("cpuinfo", 7, .print []),
  ("cls", 3, .print []),
  ("halt", 4, .halt),
  ("reboot", 6, .print []),
  ("shutdown", 8, .print []),
  ("gui", 3, .gui),
  ("ls", 2, .print []),
  ("task", 4, .print ["Add a demo task.\nUsage: task <pid>\n"]),
  ("kill", 4, .print ["Usage: kill <pid>\n"]),
  ("top", 3, .print []),
  ("ver", 3, .print [])]

inductive Outcome where
  | returned (value : Int)
  -- interrupts are off and the processor waits
  | halted
  | guiInit
deriving DecidableEq

def runCommands (line : List UInt8) (cliLen : Nat) :
    List (String × Nat × Command) → List ConsoleCall × Outcome
  | [] => ([], .returned 0)
  | (name, len, command) :: rest =>
    if line = bytesOf name ∧ cliLen = len then
      match command with
      | .print texts => (texts.map .kprintf, .returned 1)
      | .dump =>
        let (calls, outcome) := runCommands line cliLen rest
        (.kprintfRegisters :: calls, outcome)
      | .halt => ([.kprintf "stopping interrupts...", .kprintf "Ok.\n",
          .kprintf "system halted!\n"], .halted)
      | .gui => ([], .guiInit)
    else runCommands line cliLen rest

def parseCli (c : Cli) : Option (Cli × List ConsoleCall × Outcome) := do
  let c ← c.store c.cliLen 0
  pure (c, runCommands c.string c.cliLen commands)

-- one key in the `switch` of `lsh_loop`, up to the call of `parse_cli`
def editLine (key : UInt8) (c : Cli) : Option (Cli × List ConsoleCall) :=
  if key = 8 then
    if c.cliLen ≠ 0 then
      some ({ c with cliLen := c.cliLen - 1 }, [.kprintfChar key, .kprintf " ", .kprintfChar key])
    else some (c, [])
  else if key = chr '\n' then some (c, [.kprintf "\n"])
  else if key = chr '\t' then some (c, [])
  else do
    let c ← c.store c.cliLen key
    pure ({ c with cliLen := c.cliLen + 1 }, [.kprintfChar key])

inductive ShellPc where
  -- before `show_cmdline`
  | prompt
  -- before `kbd_keys_available`
  | poll
  -- before `kbd_get_key`
  | getKey
  -- before `if(!key)`
  | dispatch (key : UInt8)
  -- before `parse_cli`
  | parse
  | halted
  | gui
deriving DecidableEq

structure Machine where
  pc : ShellPc
  cli : Cli
  keyboard : Keyboard

inductive ShellAction where
  | quiet (calls : List ConsoleCall)
  | getKey (key : UInt8)
  -- the string `parse_cli` compares, once it is terminated
  | parseCli (line : List UInt8) (calls : List ConsoleCall)
deriving DecidableEq

def afterParse : Outcome → ShellPc
  | .returned _ => .prompt
  | .halted => .halted
  | .guiInit => .gui

-- `none`: no step of `lsh_loop`, or a store outside `cli`
def lshLoop (s : Machine) : Option (Machine × ShellAction) :=
  match s.pc with
  | .prompt =>
    let (cli, calls) := showCmdline s.cli
    some ({ s with pc := .poll, cli := cli }, .quiet calls)
  | .poll =>
    some ({ s with pc := if kbdKeysAvailable s.keyboard ≠ 0 then .poll else .getKey }, .quiet [])
  | .getKey =>
    let (key, keyboard) := kbdGetKey s.keyboard
    some ({ s with pc := .dispatch key, keyboard := keyboard }, .getKey key)
  | .dispatch key =>
    if key = 0 then some ({ s with pc := .poll }, .quiet [])
    else do
      let (cli, calls) ← editLine key s.cli
      pure ({ s with pc := if key = chr '\n' then .parse else .poll, cli := cli }, .quiet calls)
  | .parse => do
    let (cli, calls, outcome) ← parseCli s.cli
    pure ({ s with pc := afterParse outcome, cli := cli }, .parseCli cli.string calls)
  | .halted => none
  | .gui => none

end GekonOS
