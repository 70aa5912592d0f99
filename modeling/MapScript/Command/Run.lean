import MapScript.Check
import MapScript.Command.Request
import MapScript.Edit
import MapScript.Layout.Trial
import MapScript.Report.Encode
import MapScript.Settings.Document
import MapScript.Settings.Load

/-! What the commands do. A command reads files from a folder and writes to two streams and to the folder;
it leaves a list of the changes it makes. -/

namespace MapScript

def Settings.Draft.load (env : Environment) (folder : Folder) (origin : Origin) :
    Except LoadFault (Draft × Settings) :=
  loadWith Value.ofBytes env folder origin

def Layout.tryFormat (options : Options) (tabSize : Option Int) (source : Text) : Except Fault Text :=
  formatWithin (Nat.pow 2 40) options tabSize source

namespace Command

inductive Change where
  | write (path : Path) (bytes : Bytes)
  | move (source target : Path)

/-- All that a command can see and change. What is written comes last piece first, and so do the changes. -/
structure World where
  folder : Folder
  out : List Bytes := []
  messages : List Text := []
  changes : List Change := []

namespace World

def output (w : World) : Bytes := w.out.reverse.flatten

def errors (w : World) : Text := w.messages.reverse.flatten

end World

inductive Fault where
  | settings (fault : Settings.LoadFault)
  | file (fault : Folder.Fault)
  | numeral (fault : Numeral.TooLong)
  | layout (fault : Layout.Fault)

/-- How a command ends: with a status, or with a failure that it has no status for. -/
inductive Ending where
  | status (code : Nat)
  | broken (fault : Fault)

abbrev Run := ExceptT Fault (StateM World)

def showGlyph : Glyph → Text
  | .char c => [.char c]
  | .stray b => "\\udc" ++ Text.hex 2 (0x80 + b.val)

def World.report (w : World) (t : Text) : World :=
  { w with messages := (t.flatMap showGlyph ++ "\n") :: w.messages }

def statusOf (problems : Bool) : Nat := if problems then 1 else 0

namespace Run

def write (bytes : Bytes) : Run Unit := modify fun w => { w with out := bytes :: w.out }

def printLine (t : Text) : Run Unit := write (Text.encode (t ++ "\n"))

def reportLine (t : Text) : Run Unit := modify (·.report t)

def readFile (path : Path) : Run Bytes := do
  match (← get).folder.read path with
  | .ok bytes => return bytes
  | .error fault => throw (.file fault)

def change (c : Change) : Run Unit := do
  let w ← get
  let result := match c with
    | .write path bytes => w.folder.write path bytes
    | .move source target => w.folder.move source target
  match result with
  | .ok folder => set { w with folder, changes := c :: w.changes }
  | .error fault => throw (.file fault)

/-- The file next to a script that keeps what was in it; a directory of that name keeps it inside. -/
def backupPath (folder : Folder) (path : Path) : Path :=
  let backup := path.addSuffix ".bak"
  if folder.isDirectory (folder.place backup) then backup.child path.name else backup

def replaceScript (path : Path) (text : Text) (backup : Bool) : Run Unit := do
  if backup then
    let old ← readFile path
    change (.write (backupPath (← get).folder path) old)
  let fresh := path.addSuffix ".tmp"
  change (.write fresh text.encode)
  change (.move fresh path)

def loadSettings (env : Settings.Environment) (config : Option Path) :
    Run (Settings.Draft × Settings) := do
  let origin : Settings.Origin := match config with
    | some path => .named path
    | none => .search (Settings.searched env)
  match Settings.Draft.load env (← get).folder origin with
  | .ok loaded => return loaded
  | .error fault => throw (.settings fault)

def checkSettings (env : Settings.Environment) (options : CheckOptions) : Run Settings := do
  let (draft, settings) ← loadSettings env options.config
  match options.level with
  | none => return settings
  | some level =>
    match (draft.override "compatibility" (.text level)).2 with
    | .ok settings => return settings
    | .error fault => throw (.settings (.unusable fault))

def runCheck (settings : Settings) (options : CheckOptions) (sources : List (Text × Text)) :
    Run Report := do
  let job : Check :=
    { level := settings.level
      rules := settings.rules
      builtinMap := options.builtinMap
      sources := Source.number sources }
  match job.run with
  | .ok report => return report
  | .error fault => throw (.numeral fault)

def check (env : Settings.Environment) (files : List Path) (json : Bool) (options : CheckOptions) :
    Run Nat := do
  let settings ← checkSettings env options
  let sources ← files.mapM fun path => do
    return (path.toText, Text.readReplacing (← readFile path))
  let report ← runCheck settings options sources
  let problems := report.diagnostics
  if json then
    printLine (Json.render 0 (.object
      [("files", .list (report.sources.map fun s => .text s.name)),
       ("warnings", .list (problems.map report.toJson))]))
  else
    problems.forM fun d => printLine (report.format d)
    if !problems.isEmpty then
      printLine ("\n" ++ Text.ofNat problems.length ++ " problems found ("
        ++ Text.ofNat report.errorCount ++ " errors)")
  return statusOf !problems.isEmpty

def itemJson (item : Item) : Json :=
  .object [("atom", item.atom.toJson), ("errors", .list (item.flaws.map fun f => .object f.fields))]

def parse (file : Path) (json : Bool) : Run Nat := do
  let items := Item.parse 0 (Text.readReplacing (← readFile file))
  if json then printLine (Json.render 0 (.list (items.map itemJson)))
  else
    items.forM fun item => do
      printLine (Text.ofNat item.atom.start ++ ".." ++ Text.ofNat item.atom.stop ++ " "
        ++ item.atom.describe)
      item.flaws.forM fun f => printLine ("    ! " ++ f.kind.message)
  return statusOf (items.any fun item => !item.flaws.isEmpty)

def describeFix (report : Report) (s : Suggestion) : Text :=
  let start := report.place s.span
  let stop := report.place { s.span with start := s.span.stop }
  (if s.replacement.isSafe then "autofix " else "UNSAFE autofix ") ++ start ++ " -> " ++ stop ++ " to "
    ++ s.replacement.text?.getD []

def fix (env : Settings.Environment) (file : Path) (dryRun risky backup : Bool)
    (options : CheckOptions) : Run Nat := do
  let settings ← checkSettings env options
  let source := Text.readKeeping (← readFile file)
  let report ← runCheck settings options [(file.toText, source)]
  let (fixed, made) := Edit.apply source report.diagnostics (risky || settings.fixRisky) (some 0)
  made.forM fun s => reportLine (describeFix report s)
  if dryRun then write fixed.encode
  else if !made.isEmpty then replaceScript file fixed backup
  let rest ← runCheck settings options [(file.toText, fixed)]
  rest.diagnostics.forM fun d => reportLine (rest.format d)
  return statusOf !rest.diagnostics.isEmpty

def layoutOf (settings : Settings) (tabs noAlign : Bool) : Layout.Options :=
  { settings.layout with
    useSpaces := settings.layout.useSpaces && !tabs
    alignArgs := settings.layout.alignArgs && !noAlign }

def tabSizeOf (settings : Settings) : TabSize → Option Int
  | .settled => some settings.layout.tabSize
  | .number n => some n
  | .missing => none

def layOut (settings : Settings) (tabSize : TabSize) (tabs noAlign : Bool) (source : Text) : Run Text :=
  match Layout.tryFormat (layoutOf settings tabs noAlign) (tabSizeOf settings tabSize) source with
  | .ok result => return result
  | .error fault => throw (.layout fault)

def format (env : Settings.Environment) (file : Path) (inPlace onlyCheck : Bool) (tabSize : TabSize)
    (tabs noAlign : Bool) (config : Option Path) : Run Nat := do
  let (_, settings) ← loadSettings env config
  let source := Text.readKeeping (← readFile file)
  let result ← layOut settings tabSize tabs noAlign source
  if onlyCheck then
    printLine (file.toText ++ (if result = source then " is formatted" else " needs formatting"))
    return statusOf (result ≠ source)
  else if inPlace then
    if result ≠ source then replaceScript file result false
    printLine ("Formatted: " ++ file.toText)
    return 0
  else
    write result.encode
    return 0

def request (env : Settings.Environment) : Request → Run Nat
  | .overview => do
    printLine Usage.overview
    return 0
  | .check files json options => check env files json options
  | .parse file json => parse file json
  | .fix file dryRun risky backup options => fix env file dryRun risky backup options
  | .format file inPlace onlyCheck tabSize tabs noAlign config =>
    format env file inPlace onlyCheck tabSize tabs noAlign config

end Run

def Fault.isExpected : Fault → Bool
  | .settings (.unusable (.nestedRule _)) => false
  | .settings (.unusable (.tooLong _)) => false
  | .settings (.noText _) => false
  | .settings (.scalar _) => false
  | .settings .noCharacter => false
  | .settings _ => true
  | .file fault => fault.reason != .nullByte
  | .numeral _ => false
  | .layout _ => false

def Fault.report : Fault → Text
  | .settings (.unreadable fault) => "Error: " ++ fault.message
  | .settings fault => "Config error: " ++ fault.message
  | .file fault => "Error: " ++ fault.message
  | .numeral fault => "a number has " ++ Text.ofNat fault.digits ++ " digits"
  | .layout fault => fault.message

def settle (w : World) (fault : Fault) : Ending × World :=
  if fault.isExpected then (.status 2, w.report fault.report) else (.broken fault, w)

def run (env : Settings.Environment) (folder : Folder) (request : Request) : Ending × World :=
  match ((Run.request env request).run).run { folder } with
  | (.ok code, w) => (.status code, w)
  | (.error fault, w) => settle w fault

def paths (env : Settings.Environment) (request : Request) : List Path :=
  let files := request.files
  files ++ files.map (·.addSuffix ".bak") ++ files.map (·.addSuffix ".tmp") ++ Settings.searched env

end Command

end MapScript
