import Precompile.CommandLine.Commands

/-!
The program: it reads the disk, does what its arguments ask for, and prints.
-/

namespace Precompile.CommandLine

/-- The line that is printed when the arguments make no sense. -/
def usage : String :=
  "usage: aot [--quiet] [--verbose] [--color auto|always|never] [--config PATH] " ++
    "build|routes|check|watch"

/-- The exit code when the arguments make no sense. -/
def misuseCode : Nat := 2

/-- The entry of a directory that leads to a path. -/
def entryOf (path : String) : IO.FS.DirEntry := ⟨path, "."⟩

/-- Prints what a command prints. -/
def print (output : Output) : IO Unit := do
  (← IO.getStdout).putStr output.stdout
  (← IO.getStderr).putStr output.stderr
  (← IO.getStdout).flush

def readText (path : String) : IO (Option String) := do
  return String.fromUTF8? (← IO.FS.readBinFile path)

/-- Adds what lies below a directory to the image of the disk. -/
partial def readBelow (dir : String) (d : Disk) : IO Disk := do
  let mut d := d.makeDir ⟨dir⟩
  for entry in ← (entryOf dir).path.readDir do
    let path := dir ++ "/" ++ entry.fileName
    if ← (entryOf path).path.isDir then
      d ← readBelow path d
    else
      try
        d := d.write ⟨path⟩ (← readText path)
      catch _ => pure ()
  return d

/-- Adds a directory, with what lies below it and the directories above it. -/
def readTree (dir : Path) (d : Disk) : IO Disk := do
  let d := (Disk.ancestors dir).foldl Disk.makeDir d
  if ← (entryOf dir.text).path.isDir then readBelow dir.text d else return d

/-- Adds a file, if it is there. -/
def readFile (path : Path) (d : Disk) : IO Disk := do
  try
    return d.write path (← readText path.text)
  catch _ => return d

/-- The directories that a project may read, and the file of the compiler's configuration. -/
def placesOf (d : Disk) (cwd : Path) (named : Option String) : List Path × Option Path :=
  match loadOptions d cwd named with
  | .error _ => ([], none)
  | .ok (given, dir) =>
    match ConfigLocation.find given dir (.disk d) with
    | .ok location => ([dir.normalize, location.basePath], some location.tsConfigPath)
    | .error _ => ([dir.normalize], none)

/-- The part of the disk that a command works on. -/
def readDisk (cwd : Path) (named : Option String) : IO Disk := do
  let mut d := (Disk.ancestors cwd ++ [cwd]).foldl Disk.makeDir .empty
  match named with
  | some text =>
    let path := (cwd.join ⟨text⟩).normalize
    if ← (entryOf path.text).path.isDir then
      d := (Disk.ancestors path ++ [path]).foldl Disk.makeDir d
      d ← readFile (path.join ⟨configName⟩) d
    else d ← readFile path d
  | none =>
    for dir in ascend cwd.components.length cwd do
      d ← readFile (dir.join ⟨configName⟩) d
  let (dirs, config) := placesOf d cwd named
  for dir in dirs do
    d ← readTree dir d
  match config with
  | some path => readFile path d
  | none => return d

/-- Watches until so many cycles were run after the first. -/
partial def watch (interval : Nat) (limit : Option Nat) (style : Style) (look : IO Disk)
    (w : Watcher) : IO Watcher := do
  if w.isDone limit then return w
  IO.sleep (UInt32.ofNat interval)
  let d ← look
  let (next, output) := (w.mapFiles fun _ => .disk d).poll collaborators style
  print output
  watch interval limit style look next

/-- Does what an invocation asks for, and gives the exit code. -/
def execute (i : Invocation) : IO Nat := do
  let style := Style.ofInvocation i (← IO.getEnv "TERM")
  let cwd : Path := ⟨(← IO.currentDir).toString⟩
  let look := readDisk cwd i.config
  match perform i style (← look) cwd with
  | .answered a =>
    print a.output
    return a.exit
  | .watching interval limit w =>
    let (first, output) := w.settle collaborators style
    print output
    return (← watch interval limit style look first).exitCode

end Precompile.CommandLine

open Precompile.CommandLine in
/-- The program. -/
def main (args : List String) : IO UInt32 := do
  match Request.parse? args with
  | none =>
    print (.message usage)
    return UInt32.ofNat misuseCode
  | some .version =>
    print versionAnswer.output
    return UInt32.ofNat versionAnswer.exit
  | some (.run i) => return UInt32.ofNat (← execute i)
