import MapScript.Command.Run

/-! The program: it takes what a command needs from the file system and the environment, and puts back what
the command leaves. -/

namespace MapScript.Command

def toName (path : Path) : String := path.toText.toString?.getD ""

def toBytes (bytes : Bytes) : ByteArray := ⟨bytes.toArray⟩

def ways (path : Path) : List Path :=
  (List.range path.parts.length).map fun n => { path with parts := path.parts.take (n + 1) }

def look (folder : Folder) (path : Path) : IO Folder := do
  try
    if ← (← IO.FS.realPath (toName path)).isDir then
      return { folder with directories := path :: folder.directories }
    else
      let bytes ← IO.FS.readBinFile (toName path)
      return { folder with files := (path, bytes.toList) :: folder.files }
  catch _ => return folder

def perform : Change → IO Unit
  | .write path bytes => IO.FS.writeBinFile (toName path) (toBytes bytes)
  | .move source target => IO.FS.rename (toName source) (toName target)

def environment : IO Settings.Environment := do
  let level ← IO.getEnv "RMSCHECK_COMPATIBILITY"
  let rules ← IO.getEnv "RMSCHECK_LINTS"
  let home ← IO.getEnv "HOME"
  return {
    level := level.map Text.ofString
    rules := rules.map Text.ofString
    home := Path.ofText (Text.ofString (home.getD "/")) }

def finish : Ending → IO UInt32
  | .status code => return code.toUInt32
  | .broken fault => do
    (← IO.getStderr).write (toBytes (fault.report ++ "\n").encode)
    return 1

def execute (request : Request) : IO UInt32 := do
  let env ← environment
  let folder ← ((paths env request).flatMap ways).foldlM look {}
  let (ending, world) := run env folder request
  world.changes.reverse.forM perform
  (← IO.getStdout).write (toBytes world.output)
  (← IO.getStderr).write (toBytes world.errors.encode)
  finish ending

def start (args : List Text) : IO UInt32 := do
  match Request.ofTexts args with
  | .ok request => execute request
  | .error .help => do
    (← IO.getStdout).write (toBytes (Usage.overview ++ "\n").encode)
    return 0
  | .error .version => do
    (← IO.getStdout).write (toBytes (Usage.version ++ "\n").encode)
    return 0
  | .error .misused => do
    (← IO.getStderr).write (toBytes (Usage.synopsis ++ "\n").encode)
    return 2

end MapScript.Command

def main (args : List String) : IO UInt32 :=
  MapScript.Command.start (args.map MapScript.Text.ofString)
