import MapScript.Command.Switch
import MapScript.Path

/-! What the arguments of a command ask for, and what the program says about itself. -/

namespace MapScript.Command

structure CheckOptions where
  level : Option Text
  config : Option Path
  builtinMap : Bool

inductive TabSize where
  | settled
  | number (n : Int)
  | missing
deriving DecidableEq, Repr

inductive Request where
  | overview
  | check (files : List Path) (json : Bool) (options : CheckOptions)
  | parse (file : Path) (json : Bool)
  | fix (file : Path) (dryRun risky backup : Bool) (options : CheckOptions)
  | format (file : Path) (inPlace onlyCheck : Bool) (tabSize : TabSize) (tabs noAlign : Bool)
      (config : Option Path)

/-- The arguments of a command as far as they are read. The files are those of one run of arguments between
switches; `waiting` is a switch that still needs its value, and `before` what takes effect with it. Whatever
belongs to nothing is stray. -/
structure Reading where
  settings : List Setting := []
  files : List Text := []
  inRun : Bool := false
  before : List Setting := []
  waiting : Option Switch := none
  stray : Bool := false

namespace Reading

/-- Makes a setting. Asking for a text ends it all, and so does a tab size that is no number. -/
def set (r : Reading) : Setting → Except Stop Reading
  | (.help, _) => .error .help
  | (.version, _) => .error .version
  | (.tabSize, some value) =>
    match Text.integer? value with
    | some _ => .ok { r with settings := (.tabSize, some value) :: r.settings }
    | none => .error .misused
  | setting => .ok { r with settings := setting :: r.settings }

def setAll (r : Reading) (settings : List Setting) : Except Stop Reading :=
  settings.foldlM set r

def addFile (many : Bool) (r : Reading) (t : Text) : Reading :=
  if r.files.isEmpty || (r.inRun && many) then { r with files := r.files ++ [t], inRun := true }
  else { r with stray := true }

def addSwitch (table : Table) (r : Reading) (s : Switch) (short : Bool) (attached : Option Text) :
    Except Stop Reading := do
  let e ← expand table s short attached
  let r := { r with inRun := false }
  match e.waiting with
  | some s => return { r with before := e.settings, waiting := some s }
  | none => r.setAll e.settings

def step (table : Table) (many : Bool) (r : Reading) (a : Argument) : Except Stop Reading :=
  match r.waiting, a with
  | some s, .plain t => setAll { r with before := [], waiting := none } (r.before ++ [(s, some t)])
  | some _, _ => .error .misused
  | none, .plain t => .ok (r.addFile many t)
  | none, .divider => .ok { r with stray := r.stray || (!r.files.isEmpty && !r.inRun) }
  | none, .switch s short attached => r.addSwitch table s short attached
  | none, .unknown => .ok { r with inRun := false, stray := true }

def ofTexts (table : Table) (many : Bool) (args : List Text) : Except Stop Reading := do
  let r ← (← Argument.ofTexts table args).foldlM (step table many) {}
  if r.waiting.isSome || r.files.isEmpty || r.stray then .error .misused else .ok r

def has (r : Reading) (s : Switch) : Bool := r.settings.any (·.1 == s)

def value? (r : Reading) (s : Switch) : Option Text := (r.settings.lookup s).join

def nonempty? (r : Reading) (s : Switch) : Option Text := (r.value? s).filter fun t => !t.isEmpty

def config (r : Reading) : Option Path := (r.nonempty? .config).map Path.ofText

def checkOptions (r : Reading) : CheckOptions := ⟨r.nonempty? .level, r.config, r.has .builtin⟩

def tabSize (r : Reading) : TabSize :=
  match r.has .tabSize, (r.value? .tabSize).bind Text.integer? with
  | false, _ => .settled
  | true, some n => .number n
  | true, none => .missing

def file (r : Reading) : Path := Path.ofText (r.files.headD [])

end Reading

namespace Request

def ofCommand (name : Text) (args : List Text) : Except Stop Request :=
  if name = "check" then do
    let r ← Reading.ofTexts Table.check true args
    return .check (r.files.map Path.ofText) (r.has .json) r.checkOptions
  else if name = "parse" then do
    let r ← Reading.ofTexts Table.parse false args
    return .parse r.file (r.has .json)
  else if name = "fix" then do
    let r ← Reading.ofTexts Table.fix false args
    return .fix r.file (r.has .dryRun) (r.has .risky) (!r.has .noBackup) r.checkOptions
  else if name = "format" then do
    let r ← Reading.ofTexts Table.format false args
    return .format r.file (r.has .inPlace) (r.has .onlyCheck) r.tabSize (r.has .tabs)
      (r.has .noAlign) r.config
  else .error .misused

def ofArguments (stray : Bool) : List (Argument × Text) → Except Stop Request
  | [] => if stray then .error .misused else .ok .overview
  | (.plain name, _) :: rest => do
    let request ← ofCommand name (rest.map Prod.snd)
    if stray then .error .misused else return request
  | (.divider, _) :: _ => .error .misused
  | (.unknown, _) :: rest => ofArguments true rest
  | (.switch s short attached, _) :: rest => do
    let e ← expand Table.common s short attached
    let _ ← Reading.setAll {} e.settings
    ofArguments stray rest

def ofTexts (args : List Text) : Except Stop Request := do
  ofArguments false ((← Argument.ofTexts Table.common args).zip args)

def files : Request → List Path
  | .overview => []
  | .check files _ options => files ++ options.config.toList
  | .parse file _ => [file]
  | .fix file _ _ _ options => file :: options.config.toList
  | .format file _ _ _ _ _ config => file :: config.toList

end Request

namespace Usage

def version : Text := "rmscheck 0.1.0"

def synopsis : Text := "usage: rmscheck [-h] [--version] [-v] \x7bcheck,parse,fix,format\x7d ..."

def overview : Text :=
  synopsis ++ "\n\nStatic checker for Age of Empires II random map scripts\n\n"
    ++ "  check   Check script files\n"
    ++ "  parse   Show the atoms of a script file\n"
    ++ "  fix     Apply suggested fixes\n"
    ++ "  format  Format a script file"

end Usage

end MapScript.Command
