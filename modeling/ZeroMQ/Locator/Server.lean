import ZeroMQ.Lib.Run
import ZeroMQ.Locator.Protocol

/-!
# `zmq_server`

The server (`zmq_server/zmq_server.cpp`) keeps a table of objects and serves its
connections from one loop around `select`.  A command is read and answered as a
whole while the others wait.  `register_object` reads name and attributes into
local variables and touches the table after everything has been read and the
answer has been sent, so a client that breaks off leaves no trace.

The loop over the connections has a variable `rc` that both `select` and the
handlers assign.  It is positive until the first command has been processed,
and a connection that has nothing to say while `rc` is not zero is closed; the
one that takes its place in the list is passed over.

## Main definitions

* `registerObject`, `queryObject` — the handlers.
* `ZmqServer.traverse` — the loop over the connections.
* `ZmqServer.step` — a turn of the main loop.

## Main results

* `registration_atomic` — after every command served, the table is the fold of
  the complete and acknowledged `create` commands.
-/

namespace ZeroMQ

open ZeroMQ.Lib

/-- `object_table_t`. -/
abbrev ObjectTable := Std.ExtTreeMap Bytes AttrList

/-! ## The handlers -/

/-- What `register_object` reads.  When it gives up, the connection is closed,
and what it has read of the input does not matter. -/
def TcpSocket.readCreate (s : TcpSocket) :
    Option (Bytes × AttrList × TcpSocket) := do
  let (name, s) ← s.readFramed true
  let (attrs, s) ← s.readAttrs true ∅
  return (name, attrs, s)

/-- `register_object`. -/
def registerObject (objects : ObjectTable) (s : TcpSocket) :
    Int × ObjectTable × TcpSocket :=
  match s.readCreate with
  | none => (-1, objects, s)
  | some (name, attrs, s) =>
      let (n, s) := s.write [createOkId]
      if n ≠ 1 then (-1, objects, s)
      else (0, objects.insert name attrs, s)

/-- Write the pieces one after the other, and give up when one of them is not
written completely. -/
def TcpSocket.writeAll (s : TcpSocket) : List (List UInt8) → Int × TcpSocket
  | [] => (0, s)
  | data :: rest =>
      let (n, s) := s.write data
      if n ≠ data.length then (-1, s) else s.writeAll rest

/-- The pieces of a string: its size, cut to a byte, and so much of it. -/
def stringPieces (string : Bytes) : List (List UInt8) :=
  let size := UInt8.ofNat string.length
  [[size], string.take size.toNat]

/-- The answer to a `get` command. -/
def getReply (attrs : AttrList) : List (List UInt8) :=
  [getOkId] :: (attrs.toList.flatMap fun attr =>
    stringPieces attr.1 ++ stringPieces attr.2) ++ [[0]]

/-- `query_object`. -/
def queryObject (objects : ObjectTable) (s : TcpSocket) : Int × TcpSocket :=
  match s.readFramed true with
  | none => (-1, s)
  | some (name, s) =>
      match objects[name]? with
      | none => s.writeAll [[failId]]
      | some attrs => s.writeAll (getReply attrs)

/-- A command: its ID and the handler, with the value assigned to `rc`; `none`
is a jump to `error`. -/
def processCommand (objects : ObjectTable) (s : TcpSocket) :
    Option Int × ObjectTable × TcpSocket :=
  match s.readByte with
  | none => (none, objects, s)
  | some (cmd, s) =>
      if cmd = createId then
        let (rc, objects, s) := registerObject objects s
        (some rc, objects, s)
      else if cmd = getId then
        let (rc, s) := queryObject objects s
        (some rc, objects, s)
      else (none, objects, s)

/-! ## The main loop -/

/-- The history of a command served: the input of its connection then, what the
server has answered, whether the command has failed, and the table
afterwards. -/
structure Service where
  input : List UInt8
  reply : List UInt8
  failed : Bool
  objects : ObjectTable
  deriving DecidableEq

/-- The history of a command that is processed now. -/
def Service.of (objects : ObjectTable) (s : TcpSocket) : Service :=
  let (result, objects', s') := processCommand objects s
  { input := s.input, reply := s'.output.drop s.output.length,
    failed := result ≠ some 0, objects := objects' }

/-- What `select` has found: the connections that can be read, and those with
an error. -/
structure SelectResult where
  resultSet : List Nat
  errorSet : List Nat
  deriving DecidableEq, Repr

/-- The value of `select`. -/
def SelectResult.rc (r : SelectResult) : Int :=
  r.resultSet.length + r.errorSet.length

/-- The variables of `main`; connections have numbers for file descriptors.
`served` is the history of the commands. -/
structure ZmqServer where
  objects : ObjectTable
  socketList : List (Nat × TcpSocket)
  accepted : Nat
  served : List Service

namespace ZmqServer

/-- A server with the objects of its configuration file. -/
def start (objects : ObjectTable) : ZmqServer :=
  { objects := objects, socketList := [], accepted := 0, served := [] }

/-- The loop's body for one connection: the connection, unless it is closed,
`rc`, the table, and the history. -/
def visit (r : SelectResult) (rc : Int) (objects : ObjectTable)
    (c : Nat × TcpSocket) :
    Option TcpSocket × Int × ObjectTable × List Service :=
  if c.1 ∈ r.errorSet then (none, rc, objects, [])
  else if c.1 ∈ r.resultSet then
    let (result, objects', s) := processCommand objects c.2
    (if result = some 0 then some s else none, result.getD rc, objects',
      [Service.of objects c.2])
  else (if rc = 0 then some c.2 else none, rc, objects, [])

/-- The loop over the connections.  After a connection has been erased the
next one has its position, and is passed over. -/
def traverse (r : SelectResult) :
    Int → ObjectTable → List (Nat × TcpSocket) →
      ObjectTable × List (Nat × TcpSocket) × List Service
  | _, objects, [] => (objects, [], [])
  | rc, objects, c :: rest =>
      match visit r rc objects c, rest with
      | (some s, rc', objects', services), rest =>
          let (objects'', list, more) := traverse r rc' objects' rest
          (objects'', (c.1, s) :: list, services ++ more)
      | (none, _, objects', services), [] => (objects', [], services)
      | (none, rc', objects', services), d :: rest =>
          let (objects'', list, more) := traverse r rc' objects' rest
          (objects'', d :: list, services ++ more)

/-- What `select` may report: a new connection, with what its client is going
to send and how the calls of `send` will fare, or readable connections. -/
inductive Act where
  | accept (s : TcpSocket)
  | serve (r : SelectResult)
  deriving DecidableEq, Repr

/-- A turn of the main loop. -/
def step (srv : ZmqServer) : Act → Option ZmqServer
  | .accept s =>
      some
        { srv with
          socketList := srv.socketList ++ [(srv.accepted, s)]
          accepted := srv.accepted + 1 }
  | .serve r =>
      if r.rc = 0 then none
      else
        let (objects, list, services) :=
          traverse r r.rc srv.objects srv.socketList
        some
          { srv with
            objects := objects
            socketList := list
            served := srv.served ++ services }

end ZmqServer

/-! ## What a handler writes -/

namespace TcpSocket

/-- A part of the data is sent, and all of it when its length is returned. -/
theorem write_output (s : TcpSocket) (data : List UInt8) :
    ∃ k, (s.write data).2.output = s.output ++ data.take k ∧
      ((s.write data).1 = data.length → data.take k = data) := by
  unfold write
  split
  · exact ⟨data.length, by rw [List.take_length], fun _ => List.take_length⟩
  · next result sends hsends =>
      refine ⟨result.toNat, rfl, fun h => List.take_of_length_le ?_⟩
      have h : min result (data.length : Int) = data.length := h
      omega

theorem write_byte {s s' : TcpSocket} {b : UInt8} {n : Int}
    (h : s.write [b] = (n, s')) :
    s'.input = s.input ∧
      (n = 1 ∧ s'.output = s.output ++ [b] ∨ n ≠ 1 ∧ s'.output = s.output) := by
  unfold write at h
  split at h
  · cases h
    exact ⟨rfl, .inl ⟨rfl, rfl⟩⟩
  · next result sends hsends =>
      cases h
      refine ⟨rfl, ?_⟩
      by_cases hresult : 1 ≤ result
      · have htake : [b].take result.toNat = [b] :=
          List.take_of_length_le (by rw [List.length_singleton]; omega)
        exact .inl ⟨by rw [List.length_singleton]; omega, by rw [htake]⟩
      · have hzero : result.toNat = 0 := by omega
        exact .inr ⟨by rw [List.length_singleton]; omega,
          by rw [hzero, List.take_zero, List.append_nil]⟩

/-- What has been sent of several pieces is an initial part of them. -/
theorem writeAll_output (s : TcpSocket) (pieces : List (List UInt8)) :
    ∃ reply, (s.writeAll pieces).2.output = s.output ++ reply ∧
      reply <+: pieces.flatten := by
  induction pieces generalizing s with
  | nil => exact ⟨[], (List.append_nil _).symm, List.nil_prefix⟩
  | cons data rest ih =>
      obtain ⟨k, hout, hfull⟩ := s.write_output data
      simp only [writeAll]
      split
      · refine ⟨data.take k, hout, ?_⟩
        exact (List.take_prefix k data).trans (List.prefix_append _ _)
      · next hn =>
          obtain ⟨reply, hreply, hpre⟩ := ih (s.write data).2
          rw [hout, hfull (by omega), List.append_assoc] at hreply
          refine ⟨data ++ reply, hreply, ?_⟩
          exact (List.prefix_append_right_inj data).mpr hpre

end TcpSocket

/-- The answer to a query is never taken for that to a registration. -/
theorem queryObject_output (objects : ObjectTable) (s : TcpSocket) :
    ∃ reply, (queryObject objects s).2.output = s.output ++ reply ∧
      reply ≠ [createOkId] := by
  have hhead : ∀ (id : UInt8) (more reply : List UInt8), id ≠ createOkId →
      reply <+: id :: more → reply ≠ [createOkId] := by
    rintro id more _ hid hpre rfl
    obtain ⟨rest, hrest⟩ := hpre
    exact hid (List.cons.inj hrest).1.symm
  unfold queryObject
  split
  · exact ⟨[], (List.append_nil _).symm, by simp⟩
  · next name s' hread =>
      have hs : s'.output = s.output :=
        (congrArg TcpSocket.output (TcpSocket.readFramed_iff.mp hread).1).symm
      split
      · obtain ⟨reply, hout, hpre⟩ := s'.writeAll_output [[failId]]
        rw [hs] at hout
        exact ⟨reply, hout, hhead failId [] reply (by decide) hpre⟩
      · next attrs _ =>
          obtain ⟨reply, hout, hpre⟩ := s'.writeAll_output (getReply attrs)
          rw [hs] at hout
          exact ⟨reply, hout, hhead getOkId _ reply (by decide) hpre⟩

/-! ## A command -/

/-- The command of a service is a complete `create` command, and has been
acknowledged. -/
def Service.Creates (sv : Service) (name : Bytes)
    (attrs : List (Bytes × Bytes)) : Prop :=
  sv.reply = [createOkId] ∧ Fits false name ∧
    (∀ attr ∈ attrs, AttrFits false attr) ∧
    createCommand name attrs <+: sv.input

/-- What `register_object` parses is on the wire, after the command ID. -/
theorem TcpSocket.readCreate_spec {s s' : TcpSocket} {name : Bytes}
    {attrs : AttrList} (h : s.readCreate = some (name, attrs, s')) :
    ∃ l, s.Consumed (stringFrame name ++ attrFrames l) s' ∧ Fits true name ∧
      (∀ attr ∈ l, AttrFits true attr) ∧ attrs = AttrList.insertAll ∅ l := by
  simp only [readCreate, Option.bind_eq_bind, Option.bind_eq_some_iff,
    Prod.exists] at h
  obtain ⟨name, s₁, hname, attrs, s₂, hattrs, h⟩ := h
  cases h
  obtain ⟨hcons, hfits⟩ := readFramed_iff.mp hname
  obtain ⟨l, hcons', hfits', rfl⟩ := readAttrs_iff.mp hattrs
  exact ⟨l, hcons.trans hcons', hfits, hfits', rfl⟩

/-- A command served, as a step of the table. -/
inductive Service.Serves (objects : ObjectTable) (sv : Service) : Prop
  | create (name : Bytes) (attrs : List (Bytes × Bytes))
      (hcreates : sv.Creates name attrs) (hfailed : sv.failed = false)
      (hobjects : sv.objects = objects.insert name (AttrList.insertAll ∅ attrs))
  | other (hreply : sv.reply ≠ [createOkId]) (hobjects : sv.objects = objects)

theorem Fits.weaken {checked : Bool} {string : Bytes} (h : Fits checked string) :
    Fits false string :=
  ⟨h.1, nofun⟩

theorem AttrFits.weaken {checked : Bool} {attr : Bytes × Bytes}
    (h : AttrFits checked attr) : AttrFits false attr :=
  ⟨h.1, h.2.weaken⟩

/-- `register_object` changes the table together with the acknowledgement. -/
theorem registerObject_cases {objects objects' : ObjectTable}
    {s s' : TcpSocket} {rc : Int}
    (h : registerObject objects s = (rc, objects', s')) :
    (∃ name l, s.input = stringFrame name ++ attrFrames l ++ s'.input ∧
      Fits true name ∧ (∀ attr ∈ l, AttrFits true attr) ∧ rc = 0 ∧
      s'.output = s.output ++ [createOkId] ∧
      objects' = objects.insert name (AttrList.insertAll ∅ l)) ∨
    (objects' = objects ∧ s'.output = s.output) := by
  unfold registerObject at h
  split at h
  · cases h
    exact .inr ⟨rfl, rfl⟩
  · next name attrs s₁ hread =>
      obtain ⟨l, hcons, hname, hattrs, rfl⟩ := TcpSocket.readCreate_spec hread
      have hout : s₁.output = s.output := (congrArg TcpSocket.output hcons).symm
      have hin : s.input = stringFrame name ++ attrFrames l ++ s₁.input :=
        congrArg TcpSocket.input hcons
      rcases hwrite : s₁.write [createOkId] with ⟨n, s₂⟩
      simp only [hwrite] at h
      obtain ⟨hinput, ⟨rfl, houtput⟩ | ⟨hn, houtput⟩⟩ :=
        TcpSocket.write_byte hwrite
      · cases h
        exact .inl ⟨name, l, by rw [hin, hinput], hname, hattrs, rfl,
          by rw [houtput, hout], rfl⟩
      · rw [if_pos hn] at h
        cases h
        exact .inr ⟨rfl, houtput.trans hout⟩

theorem Service.of_serves (objects : ObjectTable) (s : TcpSocket) :
    (Service.of objects s).Serves objects := by
  unfold Service.of processCommand
  split
  next result objects' s' h =>
  split at h
  · cases h
    exact .other (by simp) rfl
  · next cmd s₁ hread =>
      have hcons := TcpSocket.readByte_iff.mp hread
      have hout : s₁.output = s.output := (congrArg TcpSocket.output hcons).symm
      have hin : s.input = cmd :: s₁.input := congrArg TcpSocket.input hcons
      split at h
      · next hcmd =>
          rcases hregister : registerObject objects s₁ with ⟨rc, objects₁, s₂⟩
          rw [hregister] at h
          cases h
          rcases registerObject_cases hregister with
            ⟨name, l, hinput, hname, hattrs, rfl, houtput, rfl⟩ |
            ⟨rfl, houtput⟩
          · refine .create name l ⟨?_, hname.weaken, fun attr hmem => ?_, ?_⟩
              (by simp) rfl
            · simp only [houtput, hout, List.drop_left]
            · exact (hattrs attr hmem).weaken
            · rw [hin, hcmd, hinput]
              exact List.prefix_append _ _
          · exact .other (by simp [houtput, hout]) rfl
      · split at h
        · obtain ⟨reply, houtput, hreply⟩ := queryObject_output objects s₁
          rcases hquery : queryObject objects s₁ with ⟨rc, s₂⟩
          rw [hquery] at h
          have houtput : s₂.output = s₁.output ++ reply := by
            rw [← houtput, hquery]
          cases h
          refine .other ?_ rfl
          simpa only [houtput, hout, List.drop_left] using hreply
        · cases h
          exact .other (by simp [hout]) rfl

/-! ## A run -/

/-- Commands served one after the other, from the first table to the last. -/
inductive Services : ObjectTable → List Service → ObjectTable → Prop
  | nil (objects : ObjectTable) : Services objects [] objects
  | cons {objects last : ObjectTable} {sv : Service} {svs : List Service}
      (hserves : sv.Serves objects) (hrest : Services sv.objects svs last) :
      Services objects (sv :: svs) last

variable {svs : List Service}

theorem Services.append {objects middle last : ObjectTable}
    {svs' : List Service} (h : Services objects svs middle)
    (h' : Services middle svs' last) : Services objects (svs ++ svs') last := by
  induction h with
  | nil => exact h'
  | cons hserves _ ih => exact .cons hserves (ih h')

theorem Services.split {objects last : ObjectTable} {sv : Service}
    {svs' : List Service} (h : Services objects (svs ++ sv :: svs') last) :
    ∃ middle, Services objects svs middle ∧ sv.Serves middle := by
  induction svs generalizing objects with
  | nil =>
      cases h with
      | cons hserves _ => exact ⟨objects, .nil objects, hserves⟩
  | cons first svs ih =>
      cases h with
      | cons hserves hrest =>
          obtain ⟨middle, hfirst, hsv⟩ := ih hrest
          exact ⟨middle, .cons hserves hfirst, hsv⟩

namespace ZmqServer

variable {r : SelectResult} {rc rc' : Int} {objects objects' : ObjectTable}
  {services : List Service}

/-- The loop's body serves one command at most. -/
theorem visit_services {c : Nat × TcpSocket} {s : Option TcpSocket}
    (h : visit r rc objects c = (s, rc', objects', services)) :
    Services objects services objects' := by
  unfold visit at h
  split at h
  · cases h
    exact .nil objects
  · split at h
    · have hserves := Service.of_serves objects c.2
      rcases hcommand : processCommand objects c.2 with ⟨result, objects₁, s₁⟩
      have hobjects : (Service.of objects c.2).objects = objects₁ := by
        simp only [Service.of, hcommand]
      rw [hcommand] at h
      cases h
      refine .cons hserves ?_
      rw [hobjects]
      exact .nil objects'
    · cases h
      exact .nil objects

/-- The loop over the connections serves commands one after the other. -/
theorem traverse_services {l : List (Nat × TcpSocket)} :
    Services objects (traverse r rc objects l).2.2
      (traverse r rc objects l).1 := by
  fun_induction traverse r rc objects l with
  | case1 rc objects => exact .nil objects
  | case2 rc objects c s rc' objects' services rest hvisit objects'' l' more
      htrav ih =>
      rw [htrav] at ih
      exact (visit_services hvisit).append ih
  | case3 rc objects c rc' objects' services hvisit =>
      exact visit_services hvisit
  | case4 rc objects c rc' objects' services d rest hvisit objects'' l' more
      htrav ih =>
      rw [htrav] at ih
      exact (visit_services hvisit).append ih

/-- Every turn of the main loop serves commands one after the other. -/
theorem services_of_run {srv : ZmqServer} {acts : List Act}
    (h : Run step Any (start objects) acts srv) :
    Services objects srv.served srv.objects := by
  refine Run.invariant (I := fun srv => Services objects srv.served srv.objects)
    (fun srv a srv' hservices _ hstep => ?_) h (.nil objects)
  cases a with
  | accept s =>
      cases hstep
      exact hservices
  | serve r =>
      simp only [step] at hstep
      split at hstep
      · cases hstep
      · cases hstep
        exact hservices.append traverse_services

end ZmqServer

/-! ## The fold of the acknowledged registrations -/

/-- A table after the registrations among some services: the complete and
acknowledged `create` commands count, in the order of service, and nothing
else does. -/
inductive Folded : ObjectTable → List Service → ObjectTable → Prop
  | nil (objects : ObjectTable) : Folded objects [] objects
  | create {objects last : ObjectTable} {sv : Service} {svs : List Service}
      (name : Bytes) (attrs : List (Bytes × Bytes))
      (hcreates : sv.Creates name attrs)
      (hrest : Folded (objects.insert name (AttrList.insertAll ∅ attrs)) svs
        last) :
      Folded objects (sv :: svs) last
  | other {objects last : ObjectTable} {sv : Service} {svs : List Service}
      (hreply : sv.reply ≠ [createOkId]) (hrest : Folded objects svs last) :
      Folded objects (sv :: svs) last

/-- A `create` command is not the beginning of another one. -/
theorem Service.Creates.unique {sv : Service} {name name' : Bytes}
    {attrs attrs' : List (Bytes × Bytes)} (h : sv.Creates name attrs)
    (h' : sv.Creates name' attrs') :
    name = name' ∧ AttrList.insertAll ∅ attrs = AttrList.insertAll ∅ attrs' := by
  have hparse : ∀ {name attrs}, sv.Creates name attrs → ∃ s s',
      TcpSocket.readFramed false ⟨sv.input.tail, [], []⟩ = some (name, s) ∧
        s.readAttrs false ∅ = some (AttrList.insertAll ∅ attrs, s') := by
    rintro name attrs ⟨-, hname, hattrs, rest, hinput⟩
    have hcons : TcpSocket.Consumed ⟨sv.input.tail, [], []⟩
        (stringFrame name ++ attrFrames attrs) ⟨rest, [], []⟩ := by
      rw [← hinput]
      rfl
    obtain ⟨s, hfirst, hsecond⟩ := hcons.split
    exact ⟨s, _, TcpSocket.readFramed_iff.mpr ⟨hfirst, hname⟩,
      TcpSocket.readAttrs_iff.mpr ⟨attrs, hsecond, hattrs, rfl⟩⟩
  obtain ⟨s, s₁, hname, hattrs⟩ := hparse h
  obtain ⟨s', s₁', hname', hattrs'⟩ := hparse h'
  rw [hname] at hname'
  cases hname'
  rw [hattrs] at hattrs'
  exact ⟨rfl, congrArg Prod.fst (Option.some.inj hattrs')⟩

theorem Folded.unique {objects last last' : ObjectTable}
    (h : Folded objects svs last) (h' : Folded objects svs last') :
    last = last' := by
  induction h with
  | nil => cases h'; rfl
  | create name attrs hcreates _ ih =>
      cases h' with
      | create name' attrs' hcreates' hrest' =>
          obtain ⟨hname, hattrs⟩ := hcreates.unique hcreates'
          rw [← hname, ← hattrs] at hrest'
          exact ih hrest'
      | other hreply => exact (hreply hcreates.1).elim
  | other hreply _ ih =>
      cases h' with
      | create _ _ hcreates' => exact (hreply hcreates'.1).elim
      | other _ hrest' => exact ih hrest'

theorem Services.folded {objects last : ObjectTable}
    (h : Services objects svs last) : Folded objects svs last := by
  induction h with
  | nil objects => exact .nil objects
  | cons hserves _ ih =>
      cases hserves with
      | create name attrs hcreates _ hobjects =>
          rw [hobjects] at ih
          exact .create name attrs hcreates ih
      | other hreply hobjects =>
          rw [hobjects] at ih
          exact .other hreply ih

theorem Services.folded_iff {objects last : ObjectTable}
    (h : Services objects svs last) (t : ObjectTable) :
    Folded objects svs t ↔ t = last :=
  ⟨fun h' => h'.unique h.folded, fun heq => heq ▸ h.folded⟩

/-- Registration is atomic.  Clients may send what they like and break off
anywhere, `select` may report them in any order, and an acknowledgement may
fail to be sent: after all the commands served, and after any of them, the table
is the fold of the registrations acknowledged up to then, and a command that
fails leaves it unchanged. -/
theorem registration_atomic {objects : ObjectTable} {acts : List ZmqServer.Act}
    {srv : ZmqServer}
    (h : Run ZmqServer.step Any (ZmqServer.start objects) acts srv) :
    (∀ t, Folded objects srv.served t ↔ t = srv.objects) ∧
      ∀ before sv after, srv.served = before ++ sv :: after →
        (∀ t, Folded objects (before ++ [sv]) t ↔ t = sv.objects) ∧
          (sv.failed = true → Folded objects before sv.objects) := by
  have hservices := ZmqServer.services_of_run h
  refine ⟨hservices.folded_iff, fun before sv after hserved => ?_⟩
  rw [hserved] at hservices
  obtain ⟨middle, hbefore, hserves⟩ := hservices.split
  refine ⟨?_, fun hfailed => ?_⟩
  · exact (hbefore.append (.cons hserves (.nil sv.objects))).folded_iff
  · cases hserves with
    | create _ _ _ hok => rw [hok] at hfailed; cases hfailed
    | other _ hobjects => rw [hobjects]; exact hbefore.folded

/-- A client registers `a`; another one breaks off in the middle of doing so and
is dropped; a third one sends an unknown command.  One registration has been
made. -/
theorem registration_atomic_broken_client :
    ∃ srv, Run ZmqServer.step Any (ZmqServer.start ∅)
        [.accept ⟨createCommand [97] [([107], [118])], [], []⟩,
          .accept ⟨[createId, 1, 97, 1, 107], [], []⟩,
          .accept ⟨[9, 1, 97], [], []⟩,
          .serve ⟨[0, 1], []⟩, .serve ⟨[2], []⟩, .serve ⟨[2], []⟩] srv ∧
      srv.served.length = 3 ∧ Folded ∅ srv.served srv.objects ∧
      srv.objects = (∅ : ObjectTable).insert [97]
        (AttrList.insertAll ∅ [([107], [118])]) :=
  Run.exists_of_exec (by decide +kernel) fun srv hrun hs =>
    ⟨And.left hs, ((registration_atomic hrun).1 srv.objects).mpr rfl,
      And.right hs⟩

end ZeroMQ
