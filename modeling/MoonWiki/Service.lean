import MoonWiki.Program

/-! What a server is for: one connection after another, each answered once on the disk that the
ones before have left. -/
namespace MoonWiki
open Lua

/-- The client of an accepted connection. -/
def AcceptOutcome.client? : AcceptOutcome → Option Client
  | .connected client => some client
  | _ => none

/-- The clients that connect in a run. -/
def Outside.clients (outside : Outside) : List Client :=
  outside.accepts.filterMap AcceptOutcome.client?

variable {config : CommandConfig} {clients coming : List Client} {client : Client} {disk : Disk}

/-- How far the last accepted connection has come. -/
inductive Phase
  | closed
  | accepted (client : Client)
  | requested (client : Client) (response : Bytes)
  | answered (client : Client)
  | crashed

namespace Phase

/-- The client whose connection is open. -/
def client? : Phase → Option Client
  | closed => none
  | accepted client => some client
  | requested client _ => some client
  | answered client => some client
  | crashed => none

/-- The connection may be closed: it cannot be served, or the response is sent. -/
def done : Phase → Bool
  | accepted client => !client.nonBlocking
  | requested _ response => response.isEmpty
  | answered _ => true
  | _ => false

end Phase

/-- The port it listens on, the number of connections, the clients still to come, the last
connection, and the files. -/
structure Service where
  port : Option Int
  count : Nat
  coming : List Client
  phase : Phase
  disk : Disk

namespace Service

def initial (clients : List Client) (disk : Disk) : Service := ⟨none, 0, clients, .closed, disk⟩

/-- The request of a client is served, or ends the process with a Lua error. -/
def request (m : Service) (client : Client) : Service :=
  match client.connection.serve m.disk with
  | (.ok (response, _), s) => { m with phase := .requested client response, disk := s.disk }
  | (.error _, s) => { m with phase := .crashed, disk := s.disk }

/-- What may happen next. A client is accepted with an empty Lua stack while no connection is
open; what is sent to it is what `send` took of the response. -/
def next (config : CommandConfig) (m : Service) : Event → Option Service
  | .stdout text => if m.port = none ∧ text = usage then some m else none
  | .stderr _ => some m
  | .closeLua => some m
  | .closeListener => if m.port = none then some m else none
  | .openLog name clear =>
    if m.port = none ∧ config.exportDir = none ∧ config.logFile = some name ∧
      config.clearLog = clear then some m else none
  | .createDirectory name =>
    if m.port = none ∧ config.exportDir = some name then some m else none
  | .listen port =>
    if m.port = none ∧ config.exportDir = none ∧ port = truncate config.port then
      some { m with port := some port }
    else none
  | .log _ => if m.port ≠ none then some m else none
  | .accept n level =>
    match m.coming, m.phase with
    | client :: coming, .closed =>
      if m.port ≠ none ∧ n = m.count ∧ level = 0 then
        some { m with count := n + 1, coming, phase := .accepted client }
      else none
    | _, _ => none
  | .request n =>
    match m.phase with
    | .accepted client =>
      if n + 1 = m.count ∧ client.nonBlocking then some (m.request client) else none
    | _ => none
  | .send n bytes =>
    match m.phase with
    | .requested client response =>
      if n + 1 = m.count ∧ (writeToSocket response client.sends).map Prod.snd = some bytes then
        some { m with phase := .answered client }
      else none
    | _ => none
  | .close n =>
    if n + 1 = m.count ∧ m.phase.done then some { m with phase := .closed } else none

def run (config : CommandConfig) (clients : List Client) (disk : Disk) (events : List Event) :
    Option Service :=
  events.foldlM (next config) (initial clients disk)

/-- How a run may stop: it waits for a client when all have been served, or for a client to take
its response; it exits before it listens, or at a Lua error in a request. -/
def Stops (m : Service) : Stop → Prop
  | .waiting => m.phase = .closed ∧ (m.port ≠ none → m.coming = []) ∨
      ∃ client response, m.phase = .requested client response ∧
        writeToSocket response client.sends = none
  | .exit code => code = 1 ∧ (m.phase = .closed ∧ m.port = none ∨ m.phase = .crashed)
  | .undefined => False

theorem run_concat {events : List Event} {m : Service}
    (h : run config clients disk events = some m) (e : Event) :
    run config clients disk (events ++ [e]) = m.next config e := by
  rw [run] at h
  rw [run, List.foldlM_append, h]
  cases hnext : m.next config e with
  | none => simp [hnext]
  | some m' => simp [hnext]

theorem run_last {events : List Event} {e : Event} {m : Service}
    (h : run config clients disk (events ++ [e]) = some m) :
    ∃ m', run config clients disk events = some m' ∧ m'.next config e = some m := by
  cases hrun : run config clients disk events with
  | none =>
    rw [run] at hrun
    rw [run, List.foldlM_append, hrun] at h
    cases h
  | some m' =>
    rw [run_concat hrun] at h
    exact ⟨m', rfl, h⟩

/-- Everything that may happen, with what it changes. -/
theorem next_cases {m m' : Service} {e : Event} (h : m.next config e = some m') :
    (m' = m ∧ ∀ n bytes, e ≠ .send n bytes) ∨
    (e = .listen (truncate config.port) ∧ m' = { m with port := some (truncate config.port) }) ∨
    (∃ client coming, e = .accept m.count 0 ∧ m.phase = .closed ∧ m.coming = client :: coming ∧
      m' = { m with count := m.count + 1, coming, phase := .accepted client }) ∨
    (∃ n client, e = .request n ∧ n + 1 = m.count ∧ client.nonBlocking = true ∧
      m.phase = .accepted client ∧ m' = m.request client) ∨
    (∃ n bytes client response, e = .send n bytes ∧ n + 1 = m.count ∧
      m.phase = .requested client response ∧
      (writeToSocket response client.sends).map Prod.snd = some bytes ∧
      m' = { m with phase := .answered client }) ∨
    (∃ n, e = .close n ∧ m.phase.done = true ∧ m' = { m with phase := .closed }) := by
  have hsame : ∀ {c : Prop} [Decidable c], (if c then some m else none) = some m' → m' = m := by
    intro c _ h
    split_ifs at h
    exact (Option.some.inj h).symm
  cases e with
  | stdout text => exact .inl ⟨hsame h, by rintro _ _ ⟨⟩⟩
  | stderr text => exact .inl ⟨(Option.some.inj h).symm, by rintro _ _ ⟨⟩⟩
  | openLog name clear => exact .inl ⟨hsame h, by rintro _ _ ⟨⟩⟩
  | log text => exact .inl ⟨hsame h, by rintro _ _ ⟨⟩⟩
  | createDirectory name => exact .inl ⟨hsame h, by rintro _ _ ⟨⟩⟩
  | closeListener => exact .inl ⟨hsame h, by rintro _ _ ⟨⟩⟩
  | closeLua => exact .inl ⟨(Option.some.inj h).symm, by rintro _ _ ⟨⟩⟩
  | listen port =>
    rw [next] at h
    split_ifs at h with hlisten
    obtain ⟨_, _, rfl⟩ := hlisten
    exact .inr (.inl ⟨rfl, (Option.some.inj h).symm⟩)
  | accept n level =>
    rw [next] at h
    split at h
    · rename_i client coming hcoming hphase
      split_ifs at h with haccept
      obtain ⟨_, rfl, rfl⟩ := haccept
      exact .inr (.inr (.inl ⟨client, coming, rfl, hphase, hcoming, (Option.some.inj h).symm⟩))
    · cases h
  | request n =>
    rw [next] at h
    split at h
    · rename_i client hphase
      split_ifs at h with hrequest
      exact .inr (.inr (.inr (.inl ⟨n, client, rfl, hrequest.1, hrequest.2, hphase,
        (Option.some.inj h).symm⟩)))
    · cases h
  | send n bytes =>
    rw [next] at h
    split at h
    · rename_i client response hphase
      split_ifs at h with hsend
      exact .inr (.inr (.inr (.inr (.inl ⟨n, bytes, client, response, rfl, hsend.1, hphase, hsend.2,
        (Option.some.inj h).symm⟩))))
    · cases h
  | close n =>
    rw [next] at h
    split_ifs at h with hclose
    exact .inr (.inr (.inr (.inr (.inr ⟨n, rfl, hclose.2, (Option.some.inj h).symm⟩))))

theorem request_port (m : Service) (client : Client) : (m.request client).port = m.port := by
  rw [request]
  rcases client.connection.serve m.disk with ⟨e | ⟨response, length⟩, s⟩
  · rfl
  · rfl

theorem run_port {events : List Event} {m : Service} (h : run config clients disk events = some m)
    {port : Int} (hport : m.port = some port) : port = truncate config.port := by
  induction events using List.reverseRecOn generalizing m with
  | nil =>
    obtain rfl := Option.some.inj h
    cases hport
  | append_singleton events e ih =>
    obtain ⟨m', hrun, hnext⟩ := run_last h
    obtain ⟨rfl, _⟩ | ⟨_, rfl⟩ | ⟨client, coming, _, _, _, rfl⟩ | ⟨n, client, _, _, _, _, rfl⟩ |
      ⟨n, bytes, client, response, _, _, _, _, rfl⟩ | ⟨n, _, _, rfl⟩ := next_cases hnext
    · exact ih hrun hport
    · exact (Option.some.inj hport).symm
    · exact ih hrun hport
    · rw [request_port] at hport
      exact ih hrun hport
    · exact ih hrun hport
    · exact ih hrun hport

end Service

/-! ### What has been served -/

/-- The length of a response is returned with it. -/
theorem serve_length {c : Connection} {d : Disk} (response : Bytes) (length : Nat)
    (h : (c.serve d).1 = .ok (response, length)) : length = response.length := by
  rw [Connection.serve, processRequest, Run.bind_apply] at h
  rcases hrun : handleRequest (WikiEngine.new c.sortByDate c.socket (c.between d)) with
    ⟨e | r, s⟩
  · rw [hrun] at h
    cases h
  · rw [hrun] at h
    obtain ⟨rfl, rfl⟩ := Prod.mk.inj (Except.ok.inj h)
    rfl

theorem afterRun_concat {cs : List Connection} {c : Connection} {d : Disk}
    (h : afterRun cs disk = some d) (hserve : (c.serve d).1.isOk = true) :
    afterRun (cs ++ [c]) disk = some (c.serve d).2.disk := by
  induction cs generalizing disk with
  | nil =>
    obtain rfl := Option.some.inj h
    rw [List.nil_append, afterRun_cons hserve]
    rfl
  | cons c' cs ih =>
    rw [afterRun] at h
    rw [List.cons_append, afterRun]
    rcases hserve' : c'.serve disk with ⟨e | response, s⟩
    · rw [hserve'] at h
      cases h
    · rw [hserve'] at h
      exact ih h

/-- The connections of the clients that can be served. -/
def connections (clients : List Client) : List Connection :=
  (clients.filter (·.nonBlocking)).map (·.connection)

theorem connections_concat (clients : List Client) (client : Client) :
    connections (clients ++ [client]) =
      connections clients ++ if client.nonBlocking then [client.connection] else [] := by
  rw [connections, List.filter_append, List.map_append]
  cases h : client.nonBlocking with
  | true => simp [connections, h]
  | false => simp [connections, h]

/-- The response to a client that comes after the others. -/
structure Receives (disk : Disk) (others : List Client) (client : Client) (response : Bytes) :
    Prop where
  served : client.nonBlocking = true
  response : ∃ d, afterRun (connections others) disk = some d ∧
    (client.connection.serve d).1 = .ok (response, response.length)

/-- The disk is that of the accepted clients, the last one in its phase. -/
def Phase.Fits (disk : Disk) (before : List Client) (d : Disk) : Phase → Prop
  | .closed => afterRun (connections before) disk = some d
  | .accepted client => ∃ others, before = others ++ [client] ∧
      afterRun (connections others) disk = some d
  | .requested client response => (∃ others, before = others ++ [client] ∧
      Receives disk others client response) ∧ afterRun (connections before) disk = some d
  | .answered _ => afterRun (connections before) disk = some d
  | .crashed => True

theorem Phase.Fits.close {before : List Client} {d : Disk} {phase : Phase}
    (h : phase.Fits disk before d) (hdone : phase.done = true) :
    afterRun (connections before) disk = some d := by
  cases phase with
  | closed => cases hdone
  | accepted client =>
    obtain ⟨others, rfl, hrun⟩ := h
    have hblocks : client.nonBlocking = false := by simpa [Phase.done] using hdone
    rw [connections_concat, hblocks]
    simpa using hrun
  | requested client response => exact h.2
  | answered client => exact h
  | crashed => cases hdone

theorem Phase.Fits.request {others : List Client} {m : Service}
    (h : afterRun (connections others) disk = some m.disk) (hready : client.nonBlocking = true) :
    (m.request client).phase.Fits disk (others ++ [client]) (m.request client).disk := by
  rw [Service.request]
  rcases hserve : client.connection.serve m.disk with ⟨e | ⟨response, length⟩, s⟩
  · trivial
  · have hok : (client.connection.serve m.disk).1 = .ok (response, length) := by rw [hserve]
    have hrun := afterRun_concat h (c := client.connection) (by rw [hok]; rfl)
    refine ⟨⟨others, rfl, hready, m.disk, h, ?_⟩, ?_⟩
    · rw [hok, serve_length _ _ hok]
    · rw [connections_concat, hready]
      rw [hserve] at hrun
      exact hrun

/-- The client that bytes are sent to. -/
def Event.receiver : Event → Option Nat
  | .send n _ => some n
  | _ => none

/-- What was sent to the `n`-th client is what `send` took of its response. -/
def Sent (clients : List Client) (disk : Disk) (n : Nat) (bytes : Bytes) : Prop :=
  ∃ others client coming response, clients = others ++ client :: coming ∧ others.length = n ∧
    Receives disk others client response ∧
    (writeToSocket response client.sends).map Prod.snd = some bytes

/-- The invariant of the service. -/
structure Service.History (clients : List Client) (disk : Disk) (events : List Event)
    (m : Service) : Prop where
  accepted : ∃ before, clients = before ++ m.coming ∧ before.length = m.count ∧
    m.phase.Fits disk before m.disk
  sent : ∀ n bytes, .send n bytes ∈ events → Sent clients disk n bytes

theorem Service.History.extend {events : List Event} {m m' : Service} {e : Event}
    (h : m.History clients disk events) (he : ∀ n bytes, e ≠ .send n bytes)
    (haccepted : ∃ before, clients = before ++ m'.coming ∧ before.length = m'.count ∧
      m'.phase.Fits disk before m'.disk) :
    m'.History clients disk (events ++ [e]) := by
  refine ⟨haccepted, ?_⟩
  intro n bytes hmem
  rcases List.mem_append.mp hmem with hmem | hmem
  · exact h.sent n bytes hmem
  · exact absurd (List.mem_singleton.mp hmem).symm (he n bytes)

theorem Service.next_history {events : List Event} {m m' : Service} {e : Event}
    (h : m.History clients disk events) (hnext : m.next config e = some m') :
    m'.History clients disk (events ++ [e]) := by
  obtain ⟨before, hclients, hcount, hfits⟩ := h.accepted
  obtain ⟨rfl, he⟩ | ⟨rfl, rfl⟩ | ⟨client, coming, rfl, hphase, hcoming, rfl⟩ |
    ⟨n, client, rfl, _, hready, hphase, rfl⟩ |
    ⟨n, bytes, client, response, rfl, hn, hphase, hwrite, rfl⟩ |
    ⟨n, rfl, hdone, rfl⟩ := next_cases hnext
  · exact h.extend he h.accepted
  · exact h.extend (by rintro _ _ ⟨⟩) h.accepted
  · refine h.extend (by rintro _ _ ⟨⟩) ⟨before ++ [client], ?_, ?_, before, rfl, ?_⟩
    · rw [hclients, hcoming, List.append_assoc]
      rfl
    · rw [List.length_append, hcount]
      rfl
    · rw [hphase] at hfits
      exact hfits
  · rw [hphase] at hfits
    obtain ⟨others, rfl, hrun⟩ := hfits
    have hsame : (m.request client).coming = m.coming ∧ (m.request client).count = m.count := by
      rw [request]
      rcases client.connection.serve m.disk with ⟨e | ⟨response, length⟩, s⟩
      · exact ⟨rfl, rfl⟩
      · exact ⟨rfl, rfl⟩
    refine h.extend (by rintro _ _ ⟨⟩) ⟨_, ?_, ?_, Phase.Fits.request hrun hready⟩
    · rw [hsame.1, hclients]
    · rw [hsame.2, hcount]
  · rw [hphase] at hfits
    obtain ⟨⟨others, rfl, hreceives⟩, hrun⟩ := hfits
    refine ⟨⟨_, hclients, hcount, hrun⟩, ?_⟩
    intro k sent hmem
    rcases List.mem_append.mp hmem with hmem | hmem
    · exact h.sent k sent hmem
    · obtain ⟨rfl, rfl⟩ := Event.send.inj (List.mem_singleton.mp hmem)
      refine ⟨others, client, m.coming, response, ?_, ?_, hreceives, hwrite⟩
      · rw [hclients, List.append_assoc]
        rfl
      · rw [List.length_append] at hcount
        exact Nat.add_right_cancel (hcount.trans hn.symm)
  · exact h.extend (by rintro _ _ ⟨⟩) ⟨before, hclients, hcount, hfits.close hdone⟩

theorem Service.run_history {events : List Event} {m : Service}
    (h : Service.run config clients disk events = some m) : m.History clients disk events := by
  induction events using List.reverseRecOn generalizing m with
  | nil =>
    obtain rfl := Option.some.inj h
    refine ⟨⟨[], rfl, rfl, rfl⟩, ?_⟩
    intro n bytes hmem
    cases hmem
  | append_singleton events e ih =>
    obtain ⟨m', hrun, hnext⟩ := run_last h
    exact next_history (ih hrun) hnext

end MoonWiki
