import MoonWiki.CommandLine
import MoonWiki.SocketWrite
import MoonWiki.StoreRuns
import MoonWiki.WikiExporter
import MoonWiki.Lua.Triples

/-! The program of `MoonWiki.c`: it starts, then serves connections or exports. -/
namespace MoonWiki
open Lua

/-! ### The outside -/

/-- An accepted connection as the C code sees it. -/
structure Client where
  connection : Connection
  address : Bytes
  /-- `ioctlsocket` succeeds -/
  nonBlocking : Bool
  sends : List SendOutcome

inductive AcceptOutcome
  | connected (client : Client)
  | interrupted
  | wouldBlock
  | failed

inductive BindOutcome
  | bound
  | addressInUse
  | failed
  deriving DecidableEq

inductive ListenOutcome
  | listening
  | interrupted
  | failed
  deriving DecidableEq

inductive ScriptError
  | commandLine (e : CommandError)
  | server (e : LuaError)

/-- What the system calls and the Lua library answer in a run. -/
structure Outside where
  luaOpens : Bool
  luaLoads : Bool
  /-- the message of an error, which names the line of the script -/
  message : ScriptError → Bytes
  opensLog : Bytes → Bool
  /-- `CreateDirectory` does not fail with `ERROR_PATH_NOT_FOUND` -/
  findsPath : Bytes → Bool
  startsWinSock : Bool
  opensSocket : Bool
  binds : BindOutcome
  listens : List ListenOutcome
  accepts : List AcceptOutcome
  sortByDate : DateSort

/-! ### The process -/

/-- The functions of `main.lua` that are accessible from C code. -/
inductive LuaFunction
  | processRequest
  | parseCommandLineArgs
  | getServerConfig
  | doExport
  deriving DecidableEq

/-- A value on the stack of the Lua interpreter. -/
inductive LuaValue
  | nil
  | boolean (b : Bool)
  | number (x : Rat)
  | string (s : Bytes)
  | function (f : LuaFunction)

namespace LuaValue

/-- `lua_toboolean` -/
def toBoolean : LuaValue → Bool
  | nil => false
  | boolean b => b
  | _ => true

/-- `lua_tonumber` of a number; anything else is zero. -/
def toNumber : LuaValue → Rat
  | number x => x
  | _ => 0

/-- `lua_tostring` of a string; anything else is `NULL`. -/
def toString? : LuaValue → Option Bytes
  | string s => some s
  | _ => none

def ofString? : Option Bytes → LuaValue
  | some s => string s
  | none => nil

end LuaValue

inductive LogFile
  | stdout
  | file (name : Bytes)
  deriving DecidableEq

/-- What the process does, in order. Connections are numbered in the order of `accept`; the
level is that of the Lua stack. -/
inductive Event
  | stdout (text : Bytes)
  | stderr (text : Bytes)
  | openLog (name : Bytes) (clear : Bool)
  | log (text : Bytes)
  | createDirectory (name : Bytes)
  | listen (port : Int)
  | accept (n level : Nat)
  | request (n : Nat)
  | send (n : Nat) (bytes : Bytes)
  | close (n : Nat)
  | closeListener
  | closeLua
  deriving DecidableEq

/-- The static variables of `MoonWiki.c`, the state of the Lua scripts, and what was done. The
head of the stack is its top. -/
structure Process where
  port : Int := 80
  logfd : Option LogFile := none
  connectionSocket : Option (Nat × Client) := none
  exportDir : Option Bytes := none
  luaOpen : Bool := false
  stack : List LuaValue := []
  config : CommandConfig := {}
  disk : Disk
  accepted : Nat := 0
  events : List Event := []

/-- How a run stops: `waiting` when a call of the system has not returned yet, `undefined` for
what C leaves undefined. -/
inductive Stop
  | exit (code : Nat)
  | waiting
  | undefined
  deriving DecidableEq

abbrev Program := Run Process Stop

def emit (e : Event) : Program Unit :=
  Run.modify fun p => { p with events := p.events ++ [e] }

/-- `vfprintf` to a log file that is `NULL` is undefined. -/
def toLog (text : Bytes) : Program Unit := do
  if (← Run.get).logfd = none then Run.error .undefined else emit (.log text)

def closeLua : Program Unit := do
  if (← Run.get).luaOpen then
    emit .closeLua
    Run.modify fun p => { p with luaOpen := false }

def fatalError (text : Bytes) : Program Unit := do
  emit (.stderr text)
  closeLua
  Run.error (.exit 1)

/-! ### The Lua stack -/

def push (values : List LuaValue) : Program Unit :=
  Run.modify fun p => { p with stack := values.reverse ++ p.stack }

/-- `lua_pop` -/
def pop (n : Nat) : Program Unit :=
  Run.modify fun p => { p with stack := p.stack.drop n }

/-- The value at the index `-i`. -/
def slot (i : Nat) : Program LuaValue := do
  return (← Run.get).stack.getD (i - 1) .nil

/-! ### The calls of Lua functions -/

/-- The call with `connectionSocket` as its argument. -/
def withSocket {α : Type} (f : Nat → Client → Program α) : Program α := do
  match (← Run.get).connectionSocket with
  | none => Run.error .undefined
  | some (n, client) => f n client

/-- The values a function returns, or its error. -/
abbrev CallResult := Except ScriptError (List LuaValue)

def commandResult : Except CommandError Bool → CallResult
  | .ok parsed => .ok [.boolean parsed]
  | .error e => .error (.commandLine e)

def callParseCommandLineArgs (args : List LuaValue) : Program CallResult := fun p =>
  let parsed := parseCommandLineArgs (args.filterMap LuaValue.toString?) ⟨p.config, []⟩
  (.ok (commandResult parsed.1),
    { p with config := parsed.2.config, events := p.events ++ parsed.2.printed.map .stdout })

def callGetServerConfig : Program CallResult := do
  let config := (← Run.get).config
  return .ok [.ofString? config.exportDir, .number config.port, .boolean config.clearLog,
    .ofString? config.logFile]

/-- The results of a function of the engine. -/
def engineResult {α : Type} (values : α → List LuaValue) : Except LuaError α → CallResult
  | .ok a => .ok (values a)
  | .error e => .error (.server e)

def serveRequest (n : Nat) (client : Client) : Program CallResult := fun p =>
  let served := client.connection.serve p.disk
  (.ok (engineResult (fun r => [.string r.1, .number r.2]) served.1),
    { p with disk := served.2.disk, events := p.events ++ [.request n] })

def callProcessRequest : Program CallResult := withSocket serveRequest

def callDoExport (outside : Outside) : Program CallResult := fun p =>
  let exported := MoonWiki.doExport exporterLinks
    ⟨p.config.exportDir.getD [], p.config.exportReverseLink⟩
    (WikiExporter.new outside.sortByDate p.disk)
  (.ok (engineResult (fun _ => []) exported.1), { p with disk := exported.2.engine.disk })

def callFunction (outside : Outside) (args : List LuaValue) : LuaFunction → Program CallResult
  | .processRequest => callProcessRequest
  | .parseCommandLineArgs => callParseCommandLineArgs args
  | .getServerConfig => callGetServerConfig
  | .doExport => callDoExport outside

/-- Missing results are `nil`, and those in excess are dropped. -/
def adjust (n : Nat) (values : List LuaValue) : List LuaValue :=
  (values ++ List.replicate n LuaValue.nil).take n

/-- The end of `lua_pcall` and of `doCall`. -/
def finishCall (outside : Outside) (outArgs : Nat) : CallResult → Program Unit
  | .ok results => push (adjust outArgs results)
  | .error e => fatalError (outside.message e ++ str "\n")

def doCall (outside : Outside) (inArgs outArgs : Nat) : Program Unit := do
  let stack := (← Run.get).stack
  match stack.drop inArgs with
  | .function f :: rest =>
    Run.modify fun p => { p with stack := rest }
    let result ← callFunction outside (stack.take inArgs).reverse f
    finishCall outside outArgs result
  | _ => Run.error .undefined

/-! ### Starting -/

def initLua (outside : Outside) : Program Unit := do
  if !outside.luaOpens then fatalError (str "Couldn't initialize Lua\n")
  Run.modify fun p => { p with luaOpen := true }
  if !outside.luaLoads then fatalError (str "Can't load lua code\n")

/-- The conversion of a number to `int` cuts it off towards zero. -/
def truncate (x : Rat) : Int := x.num.tdiv x.den

/-- `%d` -/
def intText (x : Int) : Bytes := (if x < 0 then str "-" else []) ++ decimal x.natAbs

/-- `argv` without the name of the program. -/
def readArguments (outside : Outside) (args : List Bytes) : Program Unit := do
  if args ≠ [] then
    push [.function .parseCommandLineArgs]
    push (args.map .string)
    doCall outside args.length 1
    let status := (← slot 1).toBoolean
    pop 1
    if !status then fatalError (str "Can't parse command line arguments\n")

def openLogFile (outside : Outside) : Program Unit := do
  let clearLog := (← slot 2).toBoolean
  match (← slot 1).toString? with
  | none => Run.modify fun p => { p with logfd := some .stdout }
  | some logFile =>
    emit (.openLog logFile clearLog)
    if outside.opensLog logFile then
      Run.modify fun p => { p with logfd := some (.file logFile) }
    else
      pop 4
      fatalError (str "Can't open logfile " ++ logFile ++ str "\n")

def readServerConfig (outside : Outside) : Program Unit := do
  push [.function .getServerConfig]
  doCall outside 0 4
  let exportDir := (← slot 4).toString?
  Run.modify fun p => { p with exportDir }
  if exportDir = none then
    let port := truncate (← slot 3).toNumber
    Run.modify fun p => { p with port }
    openLogFile outside
  pop 4

def readConfiguration (outside : Outside) (args : List Bytes) : Program Unit := do
  readArguments outside args
  readServerConfig outside

/-! ### Serving -/

/-- A call of `listen` that is interrupted is made again. -/
def listenLoop : List ListenOutcome → Program Unit
  | [] => Run.error .waiting
  | .listening :: _ => return ()
  | .interrupted :: outcomes => listenLoop outcomes
  | .failed :: _ => do
    emit .closeListener
    fatalError (str "Can't open socket\n")

def bindSocket : BindOutcome → Program Unit
  | .bound => return ()
  | .addressInUse => do
    emit .closeListener
    fatalError (str "Address in use\n")
  | .failed => do
    emit .closeListener
    fatalError (str "Can't open socket\n")

def createAcceptSocket (outside : Outside) : Program Unit := do
  if !outside.startsWinSock then fatalError (str "Can't initialize WinSock\n")
  if !outside.opensSocket then fatalError (str "Can't open socket\n")
  bindSocket outside.binds
  listenLoop outside.listens
  emit (.listen (← Run.get).port)

def accept (client : Client) : Program Unit :=
  Run.modify fun p => { p with
    connectionSocket := some (p.accepted, client)
    accepted := p.accepted + 1
    events := p.events ++ [.accept p.accepted p.stack.length] }

def closeConnection : Program Unit := withSocket fun n _ => emit (.close n)

def sendResult (result : Bytes) : Program Unit :=
  withSocket fun n client =>
    match writeToSocket result client.sends with
    | none => Run.error .waiting
    | some (_, sent) => emit (.send n sent)

/-- The body of the loop of `runServer` after `accept`. -/
def serveConnection (outside : Outside) (client : Client) : Program Unit := do
  accept client
  toLog (str "Accept: " ++ client.address ++ str ":" ++ intText (← Run.get).port ++ str "\n")
  if !client.nonBlocking then
    toLog (str "Setting socket to non-blocking mode failed\n")
    closeConnection
  else
    push [.function .processRequest]
    doCall outside 0 2
    let result := ((← slot 2).toString?).getD []
    let len := truncate (← slot 1).toNumber
    if 0 < len then sendResult result
    pop 2
    closeConnection
    toLog (str "-----\n")

/-- The loop of `runServer` with the loop around `accept` inside it. -/
def serverLoop (outside : Outside) : List AcceptOutcome → Program Unit
  | [] => Run.error .waiting
  | .interrupted :: outcomes => serverLoop outside outcomes
  | .wouldBlock :: outcomes => serverLoop outside outcomes
  | .failed :: outcomes => do
    Run.modify fun p => { p with connectionSocket := none }
    toLog (str "Accept failed\n")
    serverLoop outside outcomes
  | .connected client :: outcomes => do
    serveConnection outside client
    serverLoop outside outcomes

def serveAll (outside : Outside) : Program Unit := do
  createAcceptSocket outside
  toLog (str "Server init OK\n--------------\n")
  serverLoop outside outside.accepts

/-! ### Exporting -/

def exportAll (outside : Outside) (exportDir : Bytes) : Program Unit := do
  emit (.createDirectory exportDir)
  if !outside.findsPath exportDir then
    fatalError (str "Can't create " ++ exportDir ++ str " direcotry\n")
  push [.function .doExport]
  doCall outside 0 0

def mainAction (outside : Outside) : Option Bytes → Program Unit
  | some exportDir => exportAll outside exportDir
  | none => serveAll outside

/-- `main`, which returns 1. -/
def main (outside : Outside) (args : List Bytes) : Program Unit := do
  initLua outside
  readConfiguration outside args
  mainAction outside (← Run.get).exportDir
  Run.error (.exit 1)

end MoonWiki
