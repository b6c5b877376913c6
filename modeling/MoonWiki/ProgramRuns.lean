import MoonWiki.Service

/-! Runs of the program against the service: its sockets, its Lua stack, its log and its disk. -/
namespace MoonWiki
open Lua Run

variable {outside : Outside} {config : CommandConfig} {clients coming : List Client}
  {client : Client} {disk : Disk} {p : Process} {st : List LuaValue} {text response : Bytes}

/-! ### The process and the service -/

/-- The process has done what the service does up to here. -/
structure Holds (config : CommandConfig) (clients : List Client) (disk : Disk) (port : Option Int)
    (coming : List Client) (phase : Phase) (st : List LuaValue) (p : Process) : Prop where
  run : Service.run config clients disk p.events = some ⟨port, p.accepted, coming, phase, p.disk⟩
  stack : p.stack = st
  socket : ∀ client, phase.client? = some client →
    ∃ n, p.accepted = n + 1 ∧ p.connectionSocket = some (n, client)

/-- It listens, and has a log file. -/
structure Serves (config : CommandConfig) (clients : List Client) (disk : Disk)
    (coming : List Client) (phase : Phase) (st : List LuaValue) (p : Process) : Prop
    extends Holds config clients disk (some p.port) coming phase st p where
  log : p.logfd ≠ none

/-- The process has stopped where the service may. -/
def Stopped (config : CommandConfig) (clients : List Client) (disk : Disk) (stop : Stop)
    (p : Process) : Prop :=
  ∃ m, Service.run config clients disk p.events = some m ∧ m.disk = p.disk ∧
    m.count = p.accepted ∧ m.Stops stop

variable {port : Option Int} {phase : Phase}

theorem Holds.stopped (h : Holds config clients disk port coming phase st p) {stop : Stop}
    (hstop : (Service.mk port p.accepted coming phase p.disk).Stops stop) :
    Stopped config clients disk stop p :=
  ⟨_, h.run, rfl, rfl, hstop⟩

theorem Holds.emit (h : Holds config clients disk port coming phase st p) {e : Event}
    (he : (Service.mk port p.accepted coming phase p.disk).next config e =
      some ⟨port, p.accepted, coming, phase, p.disk⟩) :
    Holds config clients disk port coming phase st { p with events := p.events ++ [e] } := by
  refine ⟨?_, h.stack, h.socket⟩
  rw [Service.run_concat h.run, he]

theorem emit_holds {e : Event} {E : Stop → Process → Prop}
    (he : ∀ n d, (Service.mk port n coming phase d).next config e =
      some ⟨port, n, coming, phase, d⟩) :
    Triple (Holds config clients disk port coming phase st) (emit e)
      (fun _ => Holds config clients disk port coming phase st) E := by
  refine (Triple.modify _).pre ?_
  intro s hs
  exact hs.emit (he _ _)

theorem closeLua_holds {E : Stop → Process → Prop} :
    Triple (Holds config clients disk port coming phase st) closeLua
      (fun _ => Holds config clients disk port coming phase st) E := by
  refine .get_bind fun s hs => .ite (fun _ => ?_) fun _ => (Triple.pure _).pre ?_
  · refine .pre ?_ (P := Holds config clients disk port coming phase st) ?_
    · refine .bind (emit_holds fun _ _ => rfl) fun _ => (Triple.modify _).pre ?_
      intro s hs
      exact ⟨hs.run, hs.stack, hs.socket⟩
    · rintro _ rfl
      exact hs
  · rintro _ rfl
    exact hs

theorem fatalError_stops {Q : Unit → Process → Prop}
    (hphase : phase = .closed ∧ port = none ∨ phase = .crashed) :
    Triple (Holds config clients disk port coming phase st) (fatalError text) Q
      (Stopped config clients disk) := by
  refine .bind (emit_holds fun _ _ => rfl) fun _ => .bind closeLua_holds fun _ => ?_
  refine (Triple.error _).pre ?_
  intro s hs
  exact hs.stopped ⟨rfl, hphase⟩

theorem toLog_serves (text : Bytes) :
    Triple (Serves config clients disk coming phase st) (toLog text)
      (fun _ => Serves config clients disk coming phase st) (Stopped config clients disk) := by
  refine .get_bind fun s hs => .ite (fun hnone => absurd hnone hs.log) fun _ => ?_
  refine (Triple.modify _).pre ?_
  rintro _ rfl
  exact ⟨hs.toHolds.emit rfl, hs.log⟩

theorem accept_serves (client : Client) :
    Triple (Serves config clients disk (client :: coming) .closed []) (accept client)
      (fun _ => Serves config clients disk coming (.accepted client) [])
      (Stopped config clients disk) := by
  refine (Triple.modify _).pre ?_
  intro s hs
  refine ⟨⟨?_, hs.stack, ?_⟩, hs.log⟩
  · rw [Service.run_concat hs.run, hs.stack]
    simp [Service.next]
  · intro c hc
    obtain rfl := Option.some.inj hc
    exact ⟨s.accepted, rfl, rfl⟩

theorem closeConnection_serves (hclient : phase.client? = some client) (hdone : phase.done) :
    Triple (Serves config clients disk coming phase st) closeConnection
      (fun _ => Serves config clients disk coming .closed st) (Stopped config clients disk) := by
  refine .get_bind fun s hs => ?_
  obtain ⟨n, hn, hsocket⟩ := hs.socket client hclient
  rw [hsocket]
  refine (Triple.modify _).pre ?_
  rintro _ rfl
  refine ⟨⟨?_, hs.stack, ?_⟩, hs.log⟩
  · rw [Service.run_concat hs.run, Service.next, if_pos ⟨hn.symm, hdone⟩]
  · intro c hc
    cases hc

theorem sendResult_serves :
    Triple (Serves config clients disk coming (.requested client response) st)
      (sendResult response) (fun _ => Serves config clients disk coming (.answered client) st)
      (Stopped config clients disk) := by
  refine .get_bind fun s hs => ?_
  obtain ⟨n, hn, hsocket⟩ := hs.socket client rfl
  rw [hsocket]
  dsimp only
  cases hwrite : writeToSocket response client.sends with
  | none =>
    refine (Triple.error _).pre ?_
    rintro _ rfl
    exact hs.toHolds.stopped (.inr ⟨client, response, rfl, hwrite⟩)
  | some written =>
    refine (Triple.modify _).pre ?_
    rintro _ rfl
    refine ⟨⟨?_, hs.stack, ?_⟩, hs.log⟩
    · rw [Service.run_concat hs.run]
      simp [Service.next, hn, hwrite]
    · intro c hc
      obtain rfl := Option.some.inj hc
      exact ⟨n, hn, hsocket⟩

theorem pop_serves (n : Nat) :
    Triple (Serves config clients disk coming phase st) (pop n)
      (fun _ => Serves config clients disk coming phase (st.drop n))
      (Stopped config clients disk) := by
  refine (Triple.modify _).pre ?_
  intro s hs
  refine ⟨⟨hs.run, ?_, hs.socket⟩, hs.log⟩
  rw [hs.stack]

theorem push_serves (values : List LuaValue) :
    Triple (Serves config clients disk coming phase st) (push values)
      (fun _ => Serves config clients disk coming phase (values.reverse ++ st))
      (Stopped config clients disk) := by
  refine (Triple.modify _).pre ?_
  intro s hs
  refine ⟨⟨hs.run, ?_, hs.socket⟩, hs.log⟩
  rw [hs.stack]

theorem serveRequest_apply (n : Nat) (client : Client) (p : Process) :
    serveRequest n client p =
      (.ok (engineResult (fun r => [.string r.1, .number r.2]) (client.connection.serve p.disk).1),
        { p with
          disk := (client.connection.serve p.disk).2.disk
          events := p.events ++ [.request n] }) := rfl

theorem slot_serves (i : Nat) :
    Triple (Serves config clients disk coming phase st) (slot i)
      (fun value p => value = st.getD (i - 1) .nil ∧ Serves config clients disk coming phase st p)
      (Stopped config clients disk) := by
  refine .get_bind fun s hs => (Triple.pure _).pre ?_
  rintro _ rfl
  exact ⟨by rw [hs.stack], hs⟩

/-- What a request makes of the service. -/
theorem callProcessRequest_serves (hready : client.nonBlocking = true) :
    Triple (Serves config clients disk coming (.accepted client) st) callProcessRequest
      (fun result p =>
        (∃ response : Bytes, result = .ok [.string response, .number response.length] ∧
          Serves config clients disk coming (.requested client response) st p) ∨
        (∃ e, result = .error e ∧ Serves config clients disk coming .crashed st p))
      (Stopped config clients disk) := by
  refine .get_bind fun s hs => ?_
  obtain ⟨n, hn, hsocket⟩ := hs.socket client rfl
  rw [hsocket]
  rintro s rfl
  refine .inl ⟨_, _, serveRequest_apply n client s, ?_⟩
  have hrun : Service.run config clients disk (s.events ++ [.request n]) =
      some ((Service.mk (some s.port) s.accepted coming (.accepted client) s.disk).request
        client) := by
    rw [Service.run_concat hs.run]
    simp [Service.next, hn, hready]
  have hlength := serve_length (c := client.connection) (d := s.disk)
  rcases hserve : client.connection.serve s.disk with ⟨e | ⟨response, length⟩, s'⟩
  · refine .inr ⟨.server e, rfl, ⟨⟨?_, hs.stack, ?_⟩, hs.log⟩⟩
    · rw [hrun, Service.request, hserve]
    · intro c hc
      cases hc
  · rw [hserve] at hlength
    obtain rfl := hlength response length rfl
    refine .inl ⟨response, rfl, ⟨⟨?_, hs.stack, ?_⟩, hs.log⟩⟩
    · rw [hrun, Service.request, hserve]
    · intro c hc
      obtain rfl := Option.some.inj hc
      exact ⟨n, hn, hsocket⟩

theorem finishCall_crashed (e : ScriptError) {Q : Unit → Process → Prop} :
    Triple (Serves config clients disk coming .crashed st) (finishCall outside 2 (.error e)) Q
      (Stopped config clients disk) := by
  intro s hs
  exact fatalError_stops (.inr rfl) s hs.toHolds

/-- The call takes the function off the stack and leaves the response and its length. -/
theorem doCall_processRequest (hready : client.nonBlocking = true) :
    Triple (Serves config clients disk coming (.accepted client) [.function .processRequest])
      (doCall outside 0 2)
      (fun _ p => ∃ response, Serves config clients disk coming (.requested client response)
        [.number response.length, .string response] p)
      (Stopped config clients disk) := by
  refine .get_bind fun s hs => ?_
  dsimp only
  rw [hs.stack]
  refine .bind (Q := fun _ => Serves config clients disk coming (.accepted client) []) ?_
    fun _ => .bind (callProcessRequest_serves hready) fun result => ?_
  · refine (Triple.modify _).pre ?_
    rintro s rfl
    exact ⟨⟨hs.run, rfl, hs.socket⟩, hs.log⟩
  · rintro s (⟨response, rfl, hs⟩ | ⟨e, rfl, hs⟩)
    · refine (push_serves _).mono (fun _ hs => hs) ?_ (fun _ _ hs => hs) s hs
      intro _ s hs
      exact ⟨response, hs⟩
    · exact finishCall_crashed e s hs

/-- One round of the loop: the connection is closed and the stack is empty again. -/
theorem serveConnection_serves (client : Client) :
    Triple (Serves config clients disk (client :: coming) .closed [])
      (serveConnection outside client)
      (fun _ => Serves config clients disk coming .closed []) (Stopped config clients disk) := by
  refine .bind (accept_serves client) fun _ => .get_bind fun s hs => ?_
  refine .bind (Q := fun _ => Serves config clients disk coming (.accepted client) [])
    ((toLog_serves _).pre ?_) fun _ => .ite (fun hready => ?_) fun hready => ?_
  · rintro _ rfl
    exact hs
  · exact .bind (toLog_serves _) fun _ => closeConnection_serves rfl hready
  · refine .bind (push_serves _) fun _ =>
      .bind (doCall_processRequest (by simpa using hready)) fun _ => .exists_pre fun response => ?_
    refine .bind (slot_serves 2) fun value => .and_pre ?_
    rintro rfl
    refine .bind (slot_serves 1) fun value => .and_pre ?_
    rintro rfl
    have hend : ∀ phase : Phase, phase.client? = some client → phase.done = true →
        Triple (Serves config clients disk coming phase
            [.number response.length, .string response])
          (do pop 2; closeConnection; toLog (str "-----\n"))
          (fun _ => Serves config clients disk coming .closed []) (Stopped config clients disk) := by
      intro phase hclient hdone
      exact .bind (pop_serves 2) fun _ => .bind (closeConnection_serves hclient hdone) fun _ =>
        toLog_serves _
    have hlen : truncate (LuaValue.number response.length).toNumber = response.length := by
      simp [LuaValue.toNumber, truncate]
    refine .ite (fun _ => .bind sendResult_serves fun _ => hend _ rfl rfl) fun hempty =>
      hend _ rfl ?_
    have hempty : ¬ 0 < truncate (LuaValue.number response.length).toNumber := hempty
    have hnil : response = [] := List.length_eq_zero_iff.mp (by omega)
    rw [hnil]
    rfl

/-- The loop goes on until no call of `accept` returns any more or the process ends. -/
theorem serverLoop_stops (outcomes : List AcceptOutcome) {Q : Unit → Process → Prop} :
    Triple (Serves config clients disk (outcomes.filterMap AcceptOutcome.client?) .closed [])
      (serverLoop outside outcomes) Q (Stopped config clients disk) := by
  induction outcomes with
  | nil =>
    refine (Triple.error _).pre ?_
    intro s hs
    exact hs.toHolds.stopped (.inl ⟨rfl, fun _ => rfl⟩)
  | cons outcome outcomes ih =>
    cases outcome with
    | interrupted => exact ih
    | wouldBlock => exact ih
    | failed =>
      refine .bind ((Triple.modify _).pre ?_) fun _ => .bind (toLog_serves _) fun _ => ih
      intro s hs
      refine ⟨⟨hs.run, hs.stack, ?_⟩, hs.log⟩
      intro c hc
      cases hc
    | connected client => exact .bind (serveConnection_serves client) fun _ => ih

/-! ### Starting -/

/-- The process is about to listen. -/
structure Starts (config : CommandConfig) (clients : List Client) (disk : Disk) (p : Process) : Prop
    extends Holds config clients disk none clients .closed [] p where
  log : p.logfd ≠ none
  port : p.port = truncate config.port

theorem fatalError_bind {α : Type} {f : Unit → Program α} {Q : α → Process → Prop} :
    Triple (Holds config clients disk none clients .closed st) (fatalError text >>= f) Q
      (Stopped config clients disk) :=
  .bind (Q := fun _ _ => False) (fatalError_stops (.inl ⟨rfl, rfl⟩)) fun _ _ hs => hs.elim

theorem closeListener_stops {Q : Unit → Process → Prop} :
    Triple (Holds config clients disk none clients .closed st)
      (do emit .closeListener; fatalError text) Q (Stopped config clients disk) :=
  .bind (emit_holds fun _ _ => rfl) fun _ => fatalError_stops (.inl ⟨rfl, rfl⟩)

theorem listenLoop_starts (outcomes : List ListenOutcome) :
    Triple (Starts config clients disk) (listenLoop outcomes)
      (fun _ => Starts config clients disk) (Stopped config clients disk) := by
  induction outcomes with
  | nil =>
    refine (Triple.error _).pre ?_
    intro s hs
    exact hs.toHolds.stopped (.inl ⟨rfl, fun h => absurd rfl h⟩)
  | cons outcome outcomes ih =>
    cases outcome with
    | listening => exact .pure (Q := fun _ => Starts config clients disk) ()
    | interrupted => exact ih
    | failed => exact closeListener_stops.pre fun _ hs => hs.toHolds

theorem bindSocket_starts (outcome : BindOutcome) :
    Triple (Starts config clients disk) (bindSocket outcome) (fun _ => Starts config clients disk)
      (Stopped config clients disk) := by
  cases outcome with
  | bound => exact .pure (Q := fun _ => Starts config clients disk) ()
  | addressInUse => exact closeListener_stops.pre fun _ hs => hs.toHolds
  | failed => exact closeListener_stops.pre fun _ hs => hs.toHolds

theorem createAcceptSocket_serves (hmode : config.exportDir = none) :
    Triple (Starts config clients disk) (createAcceptSocket outside)
      (fun _ => Serves config clients disk clients .closed []) (Stopped config clients disk) := by
  have hfatal : ∀ {f : Unit → Program Unit} {text : Bytes} {Q : Unit → Process → Prop},
      Triple (Starts config clients disk) (fatalError text >>= f) Q (Stopped config clients disk) :=
    fatalError_bind.pre fun _ hs => hs.toHolds
  refine .ite (fun _ => hfatal) fun _ => .ite (fun _ => hfatal) fun _ => ?_
  refine .bind (bindSocket_starts _) fun _ => .bind (listenLoop_starts _) fun _ =>
    .get_bind fun s hs => (Triple.modify _).pre ?_
  rintro s rfl
  refine ⟨⟨?_, hs.stack, ?_⟩, hs.log⟩
  · rw [Service.run_concat hs.run]
    simp [Service.next, hmode, hs.port]
  · intro c hc
    cases hc

theorem serveAll_stops (hmode : config.exportDir = none) {Q : Unit → Process → Prop} :
    Triple (Starts config outside.clients disk)
      (serveAll outside) Q
      (Stopped config outside.clients disk) :=
  .bind (createAcceptSocket_serves hmode) fun _ => .bind (toLog_serves _) fun _ =>
    serverLoop_stops _

theorem callDoExport_apply (p : Process) :
    callDoExport outside p =
      (.ok (engineResult (fun _ => []) (doExport exporterLinks
          ⟨p.config.exportDir.getD [], p.config.exportReverseLink⟩
          (WikiExporter.new outside.sortByDate p.disk)).1),
        { p with disk := (doExport exporterLinks
          ⟨p.config.exportDir.getD [], p.config.exportReverseLink⟩
          (WikiExporter.new outside.sortByDate p.disk)).2.engine.disk }) := rfl

/-- An export ends with a Lua error, for `findMatchingFiles` is `nil`. -/
theorem exportAll_stops {dir : Bytes} (hmode : config.exportDir = some dir)
    {Q : Unit → Process → Prop} :
    Triple (Holds config clients disk none clients .closed []) (exportAll outside dir) Q
      (Stopped config clients disk) := by
  refine .bind (emit_holds fun _ _ => ?_) fun _ => .ite (fun _ => fatalError_bind) fun _ => ?_
  · simp [Service.next, hmode]
  · refine .bind (Q := fun _ => Holds config clients disk none clients .closed
      [.function .doExport]) ((Triple.modify _).pre ?_) fun _ => ?_
    · intro s hs
      refine ⟨hs.run, ?_, hs.socket⟩
      rw [hs.stack]
      rfl
    · refine .get_bind fun s hs => ?_
      dsimp only
      rw [hs.stack]
      refine .bind (Q := fun _ => Holds config clients disk none clients .closed []) ?_ fun _ =>
        .bind (Q := fun result p => result = .error (.server .callNil) ∧
          Holds config clients disk none clients .closed [] p) ?_ fun result => .and_pre ?_
      · refine (Triple.modify _).pre ?_
        rintro s rfl
        exact ⟨hs.run, rfl, hs.socket⟩
      · intro s hs
        refine .inl ⟨_, _, callDoExport_apply s, ?_⟩
        rw [doExport_unlinked rfl]
        exact ⟨rfl, hs.run, hs.stack, hs.socket⟩
      · rintro rfl
        exact fatalError_stops (.inl ⟨rfl, rfl⟩)

/-! ### The command line -/

/-- A message of a run that comes to nothing. -/
def Event.IsMessage : Event → Prop
  | .stdout text => text = usage
  | .stderr _ => True
  | .closeLua => True
  | _ => False

/-- Nothing but messages so far. -/
structure Early (disk : Disk) (p : Process) : Prop where
  events : ∀ e ∈ p.events, e.IsMessage
  accepted : p.accepted = 0
  disk : p.disk = disk

def Quits (disk : Disk) (stop : Stop) (p : Process) : Prop := stop = .exit 1 ∧ Early disk p

theorem Service.run_messages {events : List Event} (h : ∀ e ∈ events, e.IsMessage) :
    Service.run config clients disk events = some (.initial clients disk) := by
  induction events using List.reverseRecOn with
  | nil => rfl
  | append_singleton events e ih =>
    have hrun := ih fun e' he' => h e' (List.mem_append_left _ he')
    have he := h e (List.mem_append_right _ (List.mem_singleton_self e))
    rw [Service.run_concat hrun]
    cases e <;> simp_all [Event.IsMessage, Service.next, Service.initial]

theorem Quits.stopped {stop : Stop} (h : Quits disk stop p) :
    Stopped config clients disk stop p := by
  obtain ⟨rfl, hearly⟩ := h
  exact ⟨_, Service.run_messages hearly.events, hearly.disk.symm, hearly.accepted.symm, rfl,
    .inl ⟨rfl, rfl⟩⟩

theorem Early.emit (h : Early disk p) {e : Event} (he : e.IsMessage) :
    Early disk { p with events := p.events ++ [e] } := by
  refine ⟨?_, h.accepted, h.disk⟩
  intro e' he'
  rcases List.mem_append.mp he' with he' | he'
  · exact h.events e' he'
  · obtain rfl := List.mem_singleton.mp he'
    exact he

theorem fatalError_quits {Q : Unit → Process → Prop} :
    Triple (Early disk) (fatalError text) Q (Quits disk) := by
  refine .bind (Q := fun _ => Early disk) ((Triple.modify _).pre ?_) fun _ =>
    .bind (Q := fun _ => Early disk) ?_ fun _ => (Triple.error _).pre fun _ hs => ⟨rfl, hs⟩
  · intro s hs
    exact hs.emit trivial
  · refine .get_bind fun s hs => .ite (fun _ => ?_) fun _ => (Triple.pure _).pre ?_
    · refine .bind (Q := fun _ => Early disk) ((Triple.modify _).pre ?_) fun _ =>
        (Triple.modify _).pre ?_
      · rintro s rfl
        exact hs.emit trivial
      · intro s hs
        exact ⟨hs.events, hs.accepted, hs.disk⟩
    · rintro _ rfl
      exact hs

theorem initLua_starts :
    Triple (· = { disk }) (initLua outside) (fun _ p => p = { disk, luaOpen := true })
      (Quits disk) := by
  have hearly : ∀ luaOpen, Early disk { disk, luaOpen } := by
    intro luaOpen
    exact ⟨fun e he => absurd he List.not_mem_nil, rfl, rfl⟩
  refine .ite (fun _ => .bind (Q := fun _ _ => False) (fatalError_quits.pre ?_) fun _ _ hs =>
    hs.elim) fun _ => .bind (Q := fun _ p => p = { disk, luaOpen := true })
      ((Triple.modify _).pre ?_) fun _ => .ite (fun _ => fatalError_quits.pre ?_) fun _ =>
      (Triple.pure _).pre fun _ hs => hs
  · rintro s rfl
    exact hearly _
  · rintro s rfl
    rfl
  · rintro s rfl
    exact hearly _

theorem parseCommandLineArgs_sequence {args : List Bytes} {items : List CommandItem}
    (hne : args ≠ []) (h : IsSequence args items) (s : CommandState) :
    parseCommandLineArgs args s = (.ok true, { s with config := settled s.config items }) := by
  have hrun := parseArguments_items h.2 [] s
  rw [List.append_nil, ← h.1] at hrun
  rw [parseCommandLineArgs, if_neg hne, hrun]
  rfl

/-- A command line that is no sequence of items is not accepted. -/
theorem parseCommandLineArgs_rejects {args : List Bytes}
    (h : ¬ ∃ items, IsSequence args items) (s : CommandState) :
    (parseCommandLineArgs args s).1 ≠ .ok true ∧
      ∃ printed, (parseCommandLineArgs args s).2.printed = s.printed ++ printed ∧
        ∀ text ∈ printed, text = usage := by
  obtain ⟨items, rest, hitems, hargs, hstuck⟩ := exists_items args
  have hrest : rest ≠ [] := by
    rintro rfl
    exact h ⟨items, by rw [hargs, List.append_nil], hitems⟩
  have hne : args ≠ [] := by
    rw [hargs]
    exact List.append_ne_nil_of_right_ne_nil _ hrest
  have hrun := parseArguments_items hitems rest s
  rw [← hargs] at hrun
  rw [parseCommandLineArgs, if_neg hne, hrun]
  rcases parseArguments_stuck hstuck hrest with ⟨husage, _⟩ | ⟨herror, _⟩
  · rw [husage]
    exact ⟨by rintro ⟨⟩, [usage], rfl, by simp⟩
  · rw [herror]
    exact ⟨by rintro ⟨⟩, [], (List.append_nil _).symm, by simp⟩

theorem callParseCommandLineArgs_apply (args : List Bytes) (p : Process) :
    callParseCommandLineArgs (args.map .string) p =
      (.ok (commandResult (parseCommandLineArgs args ⟨p.config, []⟩).1), { p with
        config := (parseCommandLineArgs args ⟨p.config, []⟩).2.config
        events := p.events ++ (parseCommandLineArgs args ⟨p.config, []⟩).2.printed.map .stdout }) := by
  have hargs : (args.map LuaValue.string).filterMap LuaValue.toString? = args := by
    rw [List.filterMap_map]
    exact List.filterMap_some
  rw [callParseCommandLineArgs, hargs]

theorem doCall_apply {f : LuaFunction} {args : List LuaValue} {n : Nat}
    (hstack : p.stack = args.reverse ++ .function f :: st) :
    doCall outside args.length n p =
      (callFunction outside args f >>= finishCall outside n) { p with stack := st } := by
  rw [doCall, Run.bind_apply, Run.get_apply]
  dsimp only
  rw [hstack, ← List.length_reverse, List.drop_left, List.take_left, List.reverse_reverse]
  rfl

/-- The arguments of a process that has just started, up to the result of the call. -/
theorem readArguments_call {args : List Bytes} (hne : args ≠ []) :
    readArguments outside args { disk, luaOpen := true } =
      (do
        finishCall outside 1 (commandResult (parseCommandLineArgs args {}).1)
        let status := (← slot 1).toBoolean
        pop 1
        if !status then fatalError (str "Can't parse command line arguments\n") : Program Unit)
      { disk
        luaOpen := true
        config := (parseCommandLineArgs args {}).2.config
        events := (parseCommandLineArgs args {}).2.printed.map .stdout } := by
  have hstart : readArguments outside args { disk, luaOpen := true } =
      (do
        doCall outside args.length 1
        let status := (← slot 1).toBoolean
        pop 1
        if !status then fatalError (str "Can't parse command line arguments\n") : Program Unit)
      { disk
        luaOpen := true
        stack := (args.map LuaValue.string).reverse ++ [.function .parseCommandLineArgs] } := by
    rw [readArguments, if_pos hne]
    rfl
  have hcall : doCall outside (args.map LuaValue.string).length 1
      { disk
        luaOpen := true
        stack := (args.map LuaValue.string).reverse ++ [.function .parseCommandLineArgs] } =
      (callFunction outside (args.map LuaValue.string) .parseCommandLineArgs >>=
        finishCall outside 1) { disk, luaOpen := true } :=
    doCall_apply rfl
  rw [List.length_map] at hcall
  rw [hstart, Run.bind_apply, hcall, callFunction, Run.bind_ok (callParseCommandLineArgs_apply ..),
    Run.bind_apply]
  rfl

theorem readArguments_sequence {args : List Bytes} {items : List CommandItem}
    (h : IsSequence args items) :
    readArguments outside args { disk, luaOpen := true } =
      (.ok (), { disk, luaOpen := true, config := settled {} items }) := by
  by_cases hne : args = []
  · have hnil : items = [] := by
      rcases items with _ | ⟨item, items⟩
      · rfl
      · have hargs := h.1
        rw [hne] at hargs
        cases item <;> cases hargs
    rw [hnil, settled_nil, readArguments, if_neg (not_not_intro hne)]
    rfl
  · rw [readArguments_call hne, parseCommandLineArgs_sequence hne h]
    rfl

theorem readArguments_rejects {args : List Bytes} (h : ¬ ∃ items, IsSequence args items)
    {Q : Unit → Process → Prop} :
    Triple (· = { disk, luaOpen := true }) (readArguments outside args) Q (Quits disk) := by
  have hne : args ≠ [] := by
    rintro rfl
    exact h ⟨[], rfl, by simp⟩
  obtain ⟨hresult, printed, hprinted, husage⟩ := parseCommandLineArgs_rejects h {}
  rintro s rfl
  rw [readArguments_call hne, hprinted]
  have hearly : ∀ (st : List LuaValue) (config : CommandConfig), Early disk
      { disk, luaOpen := true, stack := st, config, events := ([] ++ printed).map Event.stdout } := by
    intro st config
    refine ⟨?_, rfl, rfl⟩
    intro e he
    obtain ⟨text, htext, rfl⟩ := List.mem_map.mp he
    exact husage text htext
  rcases hparsed : (parseCommandLineArgs args {}).1 with e | parsed
  · refine Triple.bind (Q := fun _ _ => False) fatalError_quits (fun _ _ hs => hs.elim) _ ?_
    exact hearly _ _
  · cases parsed with
    | true => exact absurd hparsed hresult
    | false => exact fatalError_quits _ (hearly _ _)

/-! ### The configuration -/

/-- The process with the values of `getServerConfig` on its stack. -/
def configured (config : CommandConfig) (disk : Disk) : Process :=
  { disk, luaOpen := true, config, stack := [.ofString? config.logFile, .boolean config.clearLog,
      .number config.port, .ofString? config.exportDir] }

theorem openLogFile_apply {name : Bytes} (hlog : config.logFile = some name) (port : Int) :
    openLogFile outside { configured config disk with port } =
      (do
        emit (.openLog name config.clearLog)
        if outside.opensLog name then
          Run.modify fun p => { p with logfd := some (.file name) }
        else
          pop 4
          fatalError (str "Can't open logfile " ++ name ++ str "\n") : Program Unit)
      { configured config disk with port } := by
  obtain ⟨server, exportDir, reverseLink, clearLog, logFile, configPort⟩ := config
  obtain rfl : logFile = some name := hlog
  rfl

theorem openLogFile_stdout (hlog : config.logFile = none) (port : Int) :
    openLogFile outside { configured config disk with port } =
      (.ok (), { configured config disk with port, logfd := some .stdout }) := by
  obtain ⟨server, exportDir, reverseLink, clearLog, logFile, configPort⟩ := config
  obtain rfl : logFile = none := hlog
  rfl

theorem readServerConfig_export {dir : Bytes} (hmode : config.exportDir = some dir) :
    readServerConfig outside { disk, luaOpen := true, config } =
      (.ok (), { disk, luaOpen := true, config, exportDir := some dir }) := by
  obtain ⟨server, exportDir, reverseLink, clearLog, logFile, configPort⟩ := config
  obtain rfl : exportDir = some dir := hmode
  rfl

theorem readServerConfig_serve (hmode : config.exportDir = none) :
    readServerConfig outside { disk, luaOpen := true, config } =
      (openLogFile outside >>= fun _ => pop 4)
        { configured config disk with port := truncate config.port } := by
  obtain ⟨server, exportDir, reverseLink, clearLog, logFile, configPort⟩ := config
  obtain rfl : exportDir = none := hmode
  rfl

theorem openLogFile_starts (hmode : config.exportDir = none) :
    Triple (· = { configured config disk with port := truncate config.port })
      (openLogFile outside >>= fun _ => pop 4)
      (fun _ p => p.exportDir = none ∧ Starts config clients disk p)
      (Stopped config clients disk) := by
  have hopen : Holds config clients disk none clients .closed (configured config disk).stack
      { configured config disk with port := truncate config.port } :=
    ⟨rfl, rfl, by rintro _ ⟨⟩⟩
  rintro s rfl
  cases hlog : config.logFile with
  | none =>
    rw [Run.bind_ok (openLogFile_stdout hlog _)]
    refine .inl ⟨(), _, rfl, rfl, ⟨rfl, rfl, by rintro _ ⟨⟩⟩, ?_, rfl⟩
    exact Option.some_ne_none _
  | some name =>
    have hname : (Service.initial clients disk).next config (.openLog name config.clearLog) =
        some (.initial clients disk) :=
      if_pos ⟨rfl, hmode, hlog, rfl⟩
    have hevents := hopen.emit hname
    rw [Run.bind_apply, openLogFile_apply hlog, ← Run.bind_apply]
    by_cases hopens : outside.opensLog name = true
    · simp only [hopens, ↓reduceIte]
      refine .inl ⟨(), _, rfl, rfl, ⟨hevents.run, rfl, hevents.socket⟩, ?_, rfl⟩
      exact Option.some_ne_none _
    · have hpopped : Holds config clients disk none clients .closed [] { configured config disk with
          port := truncate config.port
          stack := []
          events := [.openLog name config.clearLog] } :=
        ⟨hevents.run, rfl, hevents.socket⟩
      simp only [hopens]
      rcases fatalError_stops (Q := fun _ _ => False) (.inl ⟨rfl, rfl⟩) _ hpopped with
        ⟨_, _, _, hfalse⟩ | ⟨stop, s, hrun, hstopped⟩
      · exact hfalse.elim
      · exact .inr ⟨stop, s, Run.bind_error hrun, hstopped⟩

theorem truncate_range {x : Rat} (hlow : 0 ≤ x) (hhigh : x ≤ 65535) :
    0 ≤ truncate x ∧ truncate x ≤ 65535 := by
  have hnum : 0 ≤ x.num := Rat.num_nonneg.mpr hlow
  have hfloor : truncate x = ⌊x⌋ := by
    rw [truncate, Rat.floor_def', Int.tdiv_eq_ediv_of_nonneg hnum]
  rw [hfloor]
  refine ⟨Int.floor_nonneg.mpr hlow, ?_⟩
  have hle := (Int.floor_le x).trans hhigh
  exact_mod_cast hle

theorem readServerConfig_starts :
    Triple (· = { disk, luaOpen := true, config }) (readServerConfig outside)
      (fun _ p => p.exportDir = config.exportDir ∧
        Holds config clients disk none clients .closed [] p ∧
        (config.exportDir = none → Starts config clients disk p))
      (Stopped config clients disk) := by
  rintro s rfl
  cases hmode : config.exportDir with
  | some dir =>
    rw [readServerConfig_export hmode]
    refine .inl ⟨(), _, rfl, rfl, ⟨rfl, rfl, by rintro _ ⟨⟩⟩, ?_⟩
    intro hnone
    cases hnone
  | none =>
    rw [readServerConfig_serve hmode]
    refine (openLogFile_starts hmode).mono (fun _ hs => hs) ?_ (fun _ _ hs => hs) _ rfl
    rintro _ s ⟨hdir, hs⟩
    exact ⟨hdir, hs.toHolds, fun _ => hs⟩

/-- The port of a command line is a port. -/
theorem port_range {items : List CommandItem} (h : ∀ item ∈ items, item.Valid) :
    0 ≤ truncate (settled {} items).port ∧ truncate (settled {} items).port ≤ 65535 := by
  have hport : ∀ c : CommandConfig, 0 ≤ c.port → c.port ≤ 65535 →
      0 ≤ (settled c items).port ∧ (settled c items).port ≤ 65535 := by
    induction items with
    | nil =>
      intro c hlow hhigh
      rw [settled_nil]
      exact ⟨hlow, hhigh⟩
    | cons item items ih =>
      intro c hlow hhigh
      obtain ⟨hitem, hitems⟩ := List.forall_mem_cons.mp h
      rw [settled_cons]
      cases item with
      | port number value => exact ih hitems _ hitem.2.1 hitem.2.2
      | exportDir dir => exact ih hitems _ hlow hhigh
      | reverseLink => exact ih hitems _ hlow hhigh
      | clearLog => exact ih hitems _ hlow hhigh
      | logFile file => exact ih hitems _ hlow hhigh
  obtain ⟨hlow, hhigh⟩ := hport {} (by norm_num) (by norm_num)
  exact truncate_range hlow hhigh

theorem main_stops {args : List Bytes} {items : List CommandItem} (h : IsSequence args items) :
    Triple (· = { disk }) (main outside args) (fun _ _ => False)
      (Stopped (settled {} items) outside.clients disk) := by
  have hstarted : Triple (· = { disk, luaOpen := true }) (readArguments outside args)
      (fun _ p => p = { disk, luaOpen := true, config := settled {} items })
      (Stopped (settled {} items) outside.clients disk) := by
    rintro s rfl
    exact .inl ⟨(), _, readArguments_sequence h, rfl⟩
  refine .bind (initLua_starts.mono (fun _ hs => hs) (fun _ _ hs => hs) fun _ _ => Quits.stopped)
    fun _ => ?_
  refine .bind (.bind hstarted fun _ => readServerConfig_starts) fun _ =>
    .get_bind fun s hs => .bind (Q := fun _ _ => False) ?_ fun _ _ hs => hs.elim
  obtain ⟨hdir, hs, hserve⟩ := hs
  rw [hdir]
  cases hmode : (settled {} items).exportDir with
  | some dir =>
    refine (exportAll_stops hmode).pre ?_
    rintro s rfl
    exact hs
  | none =>
    refine (serveAll_stops hmode).pre ?_
    rintro s rfl
    exact hserve hmode

theorem main_quits {args : List Bytes} (h : ¬ ∃ items, IsSequence args items) :
    Triple (· = { disk }) (main outside args) (fun _ _ => False) (Quits disk) :=
  .bind initLua_starts fun _ => .bind (Q := fun _ _ => False)
    (.bind (Q := fun _ _ => False) (readArguments_rejects h) fun _ _ hs => hs.elim)
    fun _ _ hs => hs.elim

end MoonWiki
