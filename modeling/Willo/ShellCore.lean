import Mathlib.Data.List.Sort
import Willo.KernelFs

/-! The line-oriented shell (`shell.rs`): one command line against the mount table.
Output is a string; a command that panics ends without one. -/

namespace Willo.ShellCore
open Text Paths ByteCodec BlockDevice FaultState TreeStore MountTable KernelFs

structure Shell where
  vfs : Vfs Backend
  cwd : Str

structure World where
  shell : Shell
  kernel : Kernel

abbrev ShellM (α : Type) := ExceptT Fault (StateM World) α

def newShell (vfs : Vfs Backend) : Shell := ⟨vfs, [slash]⟩

def newlineByte : UInt8 := 10

def prompt (s : Shell) : Str := text "willo:" ++ s.cwd ++ text "$ "

def helpLines : List String :=
  ["willo shell — built-in commands:",
    "  pwd                  print working directory",
    "  ls [path]            list entries in path (or cwd)",
    "  cd <path>            change directory",
    "  cat <path>           print file contents",
    "  echo <text>          echo arguments",
    "  clear                clear the screen",
    "  mount                show what is mounted at /",
    "  uptime               show timer ticks since boot",
    "  touch <path>         create empty file (or truncate)",
    "  mkdir <path>         create directory",
    "  rm <path>            delete file or empty directory",
    "  write <path> <text>  overwrite file with text",
    "  help                 show this help"]

def helpText : Str := helpLines.flatMap fun line => text line ++ [newlineByte]

def clearSentinel : Str := text "\x1bCLR"

/-! Words of a line. -/

def isAsciiWhitespace (b : UInt8) : Bool := b == 32 || b == 9 || b == 10 || b == 12 || b == 13

/-- `split_ascii_whitespace`, with the word read so far. -/
def splitWords : Str → Str → List Str
  | word, [] => if word = [] then [] else [word]
  | word, b :: rest =>
    if isAsciiWhitespace b then
      if word = [] then splitWords [] rest else word :: splitWords [] rest
    else splitWords (word ++ [b]) rest

def tokens (line : Str) : List Str := splitWords [] line

def joinSpace : List Str → Str
  | [] => []
  | [word] => word
  | word :: words => word ++ space :: joinSpace words

/-! Calls into the file systems. -/

/-- A call whose end, if it comes to one, is looked at as a `Result`. -/
def call {α : Type} (x : KernelM α) : ShellM (Except FsError α) :=
  ExceptT.mk fun w =>
    match exec x w.kernel with
    | (.ok a, k) => (.ok (.ok a), { w with kernel := k })
    | (.error (.err e), k) => (.ok (.error e), { w with kernel := k })
    | (.error f, k) => (.error f, { w with kernel := k })

def ask {α : Type} (x : KernelM α) : ShellM α :=
  ExceptT.mk fun w => let r := exec x w.kernel; (r.1, { w with kernel := r.2 })

def mutate (abs : Str) (op : Mutation UInt8) : ShellM (Except FsError Unit) :=
  ExceptT.mk fun w =>
    match KernelFs.apply w.shell.vfs abs op w.kernel with
    | (.ok u, vfs, k) => (.ok (.ok u), ⟨{ w.shell with vfs := vfs }, k⟩)
    | (.error (.err e), vfs, k) => (.ok (.error e), ⟨{ w.shell with vfs := vfs }, k⟩)
    | (.error f, vfs, k) => (.error f, ⟨{ w.shell with vfs := vfs }, k⟩)

theorem exec_call {α : Type} (x : KernelM α) (w : World) :
    exec (call x) w =
      match exec x w.kernel with
      | (.ok a, k) => (.ok (.ok a), { w with kernel := k })
      | (.error (.err e), k) => (.ok (.error e), { w with kernel := k })
      | (.error f, k) => (.error f, { w with kernel := k }) := rfl

theorem exec_ask {α : Type} (x : KernelM α) (w : World) :
    exec (ask x) w = ((exec x w.kernel).1, { w with kernel := (exec x w.kernel).2 }) := rfl

theorem exec_mutate (abs : Str) (op : Mutation UInt8) (w : World) :
    exec (mutate abs op) w =
      match KernelFs.apply w.shell.vfs abs op w.kernel with
      | (.ok u, vfs, k) => (.ok (.ok u), ⟨{ w.shell with vfs := vfs }, k⟩)
      | (.error (.err e), vfs, k) => (.ok (.error e), ⟨{ w.shell with vfs := vfs }, k⟩)
      | (.error f, vfs, k) => (.error f, ⟨{ w.shell with vfs := vfs }, k⟩) := rfl

/-- `{e:?}`. -/
def debugName : FsError → Str
  | .notFound => text "NotFound"
  | .notADir => text "NotADir"
  | .isADir => text "IsADir"
  | .io => text "Io"
  | .unsupported => text "Unsupported"

/-! The commands. -/

def target (cwd : Str) : Option Str → Str
  | some p => normalize cwd p
  | none => cwd

def lsLines (vfs : Vfs Backend) (target : Str) : List Str → ShellM Str
  | [] => pure []
  | name :: names => do
    let dir ← ask (isDir vfs (trimEnd target ++ slash :: name))
    let rest ← lsLines vfs target names
    pure (name ++ (if dir then [slash] else []) ++ [newlineByte] ++ rest)

def cmdLs (path : Option Str) : ShellM Str := do
  let w ← get
  let target := target w.shell.cwd path
  match ← call (listDir w.shell.vfs target) with
  | .ok entries => lsLines w.shell.vfs target (entries.insertionSort (· ≤ ·))
  | .error .notFound => pure (text "ls: not found: " ++ target ++ [newlineByte])
  | .error .notADir => pure (text "ls: not a directory: " ++ target ++ [newlineByte])
  | .error .isADir => throw .panic
  | .error .io => pure (text "ls: i/o error: " ++ target ++ [newlineByte])
  | .error .unsupported => pure (text "ls: unsupported: " ++ target ++ [newlineByte])

def cmdCd (path : Option Str) : ShellM Str := do
  let w ← get
  let p := match path with
    | some p => normalize w.shell.cwd p
    | none => [slash]
  let dir ← ask (isDir w.shell.vfs p)
  if dir then do
    modify fun w => { w with shell := { w.shell with cwd := p } }
    pure []
  else pure (text "cd: not a directory: " ++ p ++ [newlineByte])

/-- The bytes of a file as text: as they are, or one character per byte. -/
def fileText (bytes : Bytes) : Str :=
  match fromUtf8 bytes with
  | some s => s
  | none => bytes.flatMap Fat.pushByte

def terminated (s : Str) : Str := if s.getLast? = some newlineByte then s else s ++ [newlineByte]

def cmdCat : Option Str → ShellM Str
  | none => pure (text "cat: missing operand\n")
  | some path => do
    let w ← get
    let p := normalize w.shell.cwd path
    match ← call (readFile w.shell.vfs p) with
    | .ok bytes => pure (terminated (fileText bytes))
    | .error .notFound => pure (text "cat: not found: " ++ p ++ [newlineByte])
    | .error .isADir => pure (text "cat: is a directory: " ++ p ++ [newlineByte])
    | .error .notADir => pure (text "cat: not a directory: " ++ p ++ [newlineByte])
    | .error .io => pure (text "cat: i/o error: " ++ p ++ [newlineByte])
    | .error .unsupported => pure (text "cat: unsupported: " ++ p ++ [newlineByte])

def runMutation (name path : Str) (op : Mutation UInt8) : ShellM Str := do
  let w ← get
  let p := normalize w.shell.cwd path
  match ← mutate p op with
  | .ok () => pure []
  | .error .unsupported => pure (name ++ text ": read-only filesystem\n")
  | .error e => pure (name ++ text ": " ++ p ++ text ": " ++ debugName e ++ [newlineByte])

def cmdTouch : Option Str → ShellM Str
  | none => pure (text "touch: missing operand\n")
  | some path => runMutation (text "touch") path .createFile

def cmdMkdir : Option Str → ShellM Str
  | none => pure (text "mkdir: missing operand\n")
  | some path => runMutation (text "mkdir") path .createDir

def cmdRm : Option Str → ShellM Str
  | none => pure (text "rm: missing operand\n")
  | some path => runMutation (text "rm") path .remove

def cmdWrite : List Str → ShellM Str
  | [] => pure (text "write: missing operand: <path> <text...>\n")
  | path :: words => runMutation (text "write") path (.writeFile (joinSpace words ++ [newlineByte]))

def mountLines (vfs : Vfs Backend) : Str :=
  vfs.mounts.flatMap fun m =>
    (if m.pfx = [] then [slash] else m.pfx) ++ text " on " ++ m.fs.backing ++ [newlineByte]

def command (cmd : Str) (args : List Str) : ShellM Str :=
  if cmd = text "pwd" then do
    let w ← get
    pure (w.shell.cwd ++ [newlineByte])
  else if cmd = text "ls" then cmdLs args.head?
  else if cmd = text "cd" then cmdCd args.head?
  else if cmd = text "cat" then cmdCat args.head?
  else if cmd = text "echo" then pure (joinSpace args ++ [newlineByte])
  else if cmd = text "clear" then pure clearSentinel
  else if cmd = text "mount" then do
    let w ← get
    pure (mountLines w.shell.vfs)
  else if cmd = text "uptime" then do
    let w ← get
    pure (uptimeText w.kernel.ticks)
  else if cmd = text "touch" then cmdTouch args.head?
  else if cmd = text "mkdir" then cmdMkdir args.head?
  else if cmd = text "rm" then cmdRm args.head?
  else if cmd = text "write" then cmdWrite args
  else if cmd = text "help" then pure helpText
  else pure (text "willo: command not found: " ++ cmd ++ [newlineByte])

def executeLine (line : Str) : ShellM Str :=
  match tokens line with
  | [] => pure []
  | cmd :: args => command cmd args

/-- Lines one after the other, each with what the timer shows when it runs. -/
def session : List (Nat × Str) → ShellM (List Str)
  | [] => pure []
  | (ticks, line) :: lines => do
    modify fun w => { w with kernel := { w.kernel with ticks := ticks } }
    let out ← executeLine line
    let outs ← session lines
    pure (out :: outs)

end Willo.ShellCore
