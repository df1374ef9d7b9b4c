import SigV4.NginxModule.Conf

/-!
# Loading an `http` block

NGINX calls the handler of each directive in file order, gives each nested block a fresh
`LocConf`, calls `init_main_conf` after the closing brace of `http`, and last merges the
configurations of the blocks from the outside in.
-/

namespace SigV4

open Outcome

/-- The directives of the module, in the order of `COMMANDS`. -/
inductive Command where
  | verify
  | clockSkew
  | defaultMaxExpires
  | methods
  | logDenies
  | logAll
  | credential
  deriving DecidableEq, Repr

/-- What stands between the braces of `http`, `server` or `location`, in file order. -/
inductive Block where
  | done
  | directive (command : Command) (args : List Bytes) (rest : Block)
  /-- A nested `server` or `location`. -/
  | block (inner rest : Block)

/-- The configurations of the nested blocks: each with those nested in it, then its
siblings. -/
inductive Locations where
  | done
  | block (loc : LocConf) (inner rest : Locations)

/-- Where a block stands: `http` itself, or nested in it. -/
inductive Level where
  | http
  | nested
  deriving DecidableEq, Repr

namespace Command

/-- `NGX_HTTP_MAIN_CONF` stands for `http` only, the flags of `sigv4_verify` for all. -/
def allowedAt : Command → Level → Bool
  | verify, _ => true
  | _, .http => true
  | _, .nested => false

/-- `NGX_CONF_TAKE1` and `NGX_CONF_1MORE`. -/
def takes : Command → List Bytes → Bool
  | methods, args => !args.isEmpty
  | credential, args => !args.isEmpty
  | _, args => args.length == 1

/-- The handler of each directive. -/
def set (command : Command) (args : List Bytes) (main : MainConf) (loc : LocConf) :
    Outcome ConfError (MainConf × LocConf) :=
  match command with
  | verify => setMode args main loc
  | clockSkew => (·, loc) <$> setClockSkew args main
  | defaultMaxExpires => (·, loc) <$> setDefaultMaxExpires args main
  | methods => (·, loc) <$> setMethods args main
  | logDenies => (·, loc) <$> setLogDenies args main
  | logAll => (·, loc) <$> setLogAll args main
  | credential => (·, loc) <$> setCredential args main

/-- NGINX checks where a directive stands and how many arguments it has before it calls the
handler. -/
def call (command : Command) (level : Level) (args : List Bytes) (main : MainConf)
    (loc : LocConf) : Outcome ConfError (MainConf × LocConf) := do
  exitIf (!command.allowedAt level) (.logged [.text "directive is not allowed here"])
  exitIf (!command.takes args) (.logged [.text "invalid number of arguments in directive"])
  command.set args main loc

end Command

/-- The configurations after a block has been read. -/
def Block.parse (level : Level) :
    Block → MainConf → LocConf → Outcome ConfError (MainConf × LocConf × Locations)
  | .done, main, loc => ok (main, loc, .done)
  | .directive command args rest, main, loc => do
    let (main, loc) ← command.call level args main loc
    rest.parse level main loc
  | .block inner rest, main, loc => do
    let (main, innerLoc, locations) ← inner.parse .nested main .default
    let (main, loc, siblings) ← rest.parse level main loc
    ok (main, loc, .block innerLoc locations siblings)

/-- Each configuration is merged with that of the block around it. -/
def Locations.merge (prev : LocConf) : Locations → Locations
  | .done => .done
  | .block loc inner rest => .block (loc.merge prev) (inner.merge (loc.merge prev)) (rest.merge prev)

/-- Reading an `http` block: the configuration of the workers. -/
def loadHttp (C : Crypto) (fs : FileSystem) (http : Block) :
    Outcome ConfError (MainConf × Locations) := do
  let (main, loc, locations) ← http.parse .http .default .default
  let main ← initMainConf C fs main
  ok (main, locations.merge loc)

end SigV4
