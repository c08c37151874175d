import Mathlib.Logic.Function.Iterate
import ZeroMQ.Locator.Server

/-!
# Clients of the locator

`locator_t` (`libzmq/locator.cpp`) sends its request, reads the answer and
asserts that it is the expected one.  It does not look at the results of `read`
and `write`.  Here any number of them call one server, one at a time, and after
each call the server goes on until `select` has nothing to report.

Two things come between a call and its answer.  A string of size zero is read by
`tcp_socket_t::read` as the end of the connection, which makes the server give up
the command.  And a connection that is silent while `rc` in `main` still holds
the value of `select` is closed, although its client is only waiting for its
turn.

## Main definitions

* `Call.request`, `Call.receive` — the two halves of `register_endpoint` and
  `resolve_endpoint`.
* `LocatorSys` — the server, its clients, and the log of the calls.

## Main results

* `LocatorSys.rest_quiet` — the server comes to rest.
* `resolve_returns_registered` — as long as strings are not empty and callers
  are still connected, the server returns what has been registered.
* `registration_aborts` — calls that fail otherwise.
-/

namespace ZeroMQ

open ZeroMQ.Lib

variable {objects : ObjectTable} {s : TcpSocket} {i : Nat}

/-! ## `locator_t` -/

/-- A call of `register_endpoint` or of `resolve_endpoint`; the latter is given
an empty list of attributes. -/
inductive Call where
  | register (name : Bytes) (attrs : AttrList)
  | resolve (name : Bytes)
  deriving DecidableEq

/-- How a call ends: it returns, an assertion fails, or the connection is cut
among the attributes, and the code goes on with what its variables hold. -/
inductive Outcome where
  | registered
  | resolved (attrs : AttrList)
  | aborted
  | cut
  deriving DecidableEq

namespace Call

def name : Call → Bytes
  | register name _ => name
  | resolve name => name

/-- The attributes given. -/
def attrs : Call → AttrList
  | register _ attrs => attrs
  | resolve _ => ∅

/-- The checks of `register_endpoint`.  A name that is resolved obeys them if it
has been registered. -/
def Passes (call : Call) : Prop :=
  call.name.length ≤ 255 ∧
    ∀ attr ∈ call.attrs.toList, attr.1.length < 256 ∧ attr.2.length < 256
  deriving Decidable

/-- No string of the call is empty. -/
def NonEmpty (call : Call) : Prop :=
  call.name ≠ [] ∧ ∀ attr ∈ call.attrs.toList, attr.1 ≠ [] ∧ attr.2 ≠ []
  deriving Decidable

/-- What is written to the server, piece by piece. -/
def request : Call → List (List UInt8)
  | register name attrs =>
      [createId] :: stringPieces name ++
        (attrs.toList.flatMap fun attr =>
          stringPieces attr.1 ++ stringPieces attr.2) ++ [[0]]
  | resolve name => [getId] :: stringPieces name

/-- What is done with the answer.  When there is none, `cmd` is still the ID of
the request. -/
def receive (call : Call) (s : TcpSocket) : Outcome × TcpSocket :=
  match call, s.readByte with
  | _, none => (.aborted, s)
  | register _ _, some (cmd, s) =>
      if cmd = createOkId then (.registered, s) else (.aborted, s)
  | resolve _, some (cmd, s) =>
      if cmd = getOkId then
        match s.readAttrs false ∅ with
        | some (attrs, s) => (.resolved attrs, s)
        | none => (.cut, s)
      else (.aborted, s)

end Call

/-! ## Clients and server -/

/-- The key of the attribute the server sets itself. -/
def locationKey : Bytes := "location".toList.map fun c => UInt8.ofNat c.toNat

/-- The table loaded from a configuration file with these names and locations.
The first one of a name is kept. -/
def configured (nodes : List (Bytes × Bytes)) : ObjectTable :=
  nodes.foldl (fun objects node =>
    objects.insertIfNew node.1
      (AttrList.insertAll ∅ [(locationKey, node.2)])) ∅

/-- The end of a connection at its client; it is closed when the client ends. -/
structure LocatorClient where
  socket : TcpSocket
  connected : Bool
  deriving DecidableEq, Repr

/-- The server, the clients by the numbers of their connections, and the history
of their calls. -/
structure LocatorSys where
  server : ZmqServer
  clients : Nat → LocatorClient
  log : List (Call × Outcome)

namespace LocatorSys

def start (nodes : List (Bytes × Bytes)) : LocatorSys :=
  { server := ZmqServer.start (configured nodes)
    clients := fun _ => { socket := ⟨[], [], []⟩, connected := false }
    log := [] }

/-- The connections `select` reports to be readable: there is something to be
read, or the client has closed its end. -/
def readable (sys : LocatorSys) : List Nat :=
  (sys.server.socketList.filter fun c =>
    c.2.input ≠ [] ∨ (sys.clients c.1).connected = false).map Prod.fst

/-- What the server has sent arrives at the clients. -/
def deliver (sys : LocatorSys) : LocatorSys :=
  { sys with
    server :=
      { sys.server with
        socketList := sys.server.socketList.map fun c =>
          (c.1, { c.2 with output := [] }) }
    clients := fun i =>
      let sent := (sys.server.socketList.filter fun c => c.1 = i).flatMap
        fun c => c.2.output
      let client := sys.clients i
      { client with
        socket := { client.socket with input := client.socket.input ++ sent } } }

/-- A turn of the server's main loop; without anything readable, `select`
blocks.  A command of which only a part has arrived is taken for one that was
cut off, where the server would block in `read`; clients send whole commands. -/
def turn (sys : LocatorSys) : LocatorSys :=
  match sys.server.step (.serve ⟨sys.readable, []⟩) with
  | none => sys
  | some server => deliver { sys with server := server }

/-- A bound for the turns of the server: each of them closes a connection or
reads something. -/
def load : List (Nat × TcpSocket) → Nat
  | [] => 0
  | c :: l => c.2.input.length + 1 + load l

/-- The server runs until nothing is readable. -/
def rest (sys : LocatorSys) : LocatorSys :=
  turn^[load sys.server.socketList] sys

/-- What a client has written arrives at the server, unless the connection has
been closed there. -/
def send (sys : LocatorSys) (i : Nat) (data : List UInt8) : LocatorSys :=
  { sys with
    server :=
      { sys.server with
        socketList := sys.server.socketList.map fun c =>
          if c.1 = i then (c.1, { c.2 with input := c.2.input ++ data })
          else c } }

/-- Client `i` changes. -/
def setClient (sys : LocatorSys) (i : Nat) (client : LocatorClient) :
    LocatorSys :=
  { sys with clients := fun j => if j = i then client else sys.clients j }

/-- A client connects, makes a call, or closes its connection. -/
inductive Act where
  | connect
  | call (i : Nat) (call : Call)
  | leave (i : Nat)
  deriving DecidableEq

/-- The client reads the answer; if an assertion fails, the process ends. -/
def finish (sys : LocatorSys) (i : Nat) (call : Call) : LocatorSys :=
  let (outcome, socket) := call.receive (sys.clients i).socket
  { sys.setClient i { socket := socket, connected := outcome ≠ .aborted } with
    log := sys.log ++ [(call, outcome)] }

/-- One action after the other, and the server comes to rest after each. -/
def step (sys : LocatorSys) : Act → Option LocatorSys
  | .connect =>
      (sys.server.step (.accept ⟨[], [], []⟩)).map fun server =>
        { sys with server := server }.setClient sys.server.accepted
          { socket := ⟨[], [], []⟩, connected := true }
  | .call i call =>
      if (sys.clients i).connected ∧ call.Passes then
        some ((sys.send i call.request.flatten).rest.finish i call).rest
      else none
  | .leave i =>
      if (sys.clients i).connected then
        some (sys.setClient i
          { sys.clients i with connected := false }).rest
      else none

/-- Client `i` is connected at the server's end, too. -/
def Listed (sys : LocatorSys) (i : Nat) : Prop :=
  i ∈ sys.server.socketList.map Prod.fst
  deriving Decidable

/-- The calls that are answered: no string is empty, and the server has not
closed the connection. -/
def Answerable (sys : LocatorSys) : Act → Prop
  | .call i call => call.NonEmpty ∧ sys.Listed i
  | _ => True

instance (sys : LocatorSys) : (a : Act) → Decidable (sys.Answerable a)
  | .connect => isTrue trivial
  | .call _ _ => inferInstanceAs (Decidable (_ ∧ _))
  | .leave _ => isTrue trivial

end LocatorSys

/-! ## The server comes to rest -/

namespace TcpSocket

theorem write_input (s : TcpSocket) (data : List UInt8) :
    (s.write data).2.input = s.input := by
  unfold write
  split <;> rfl

theorem writeAll_input (s : TcpSocket) (pieces : List (List UInt8)) :
    (s.writeAll pieces).2.input = s.input := by
  induction pieces generalizing s with
  | nil => rfl
  | cons data rest ih =>
      simp only [writeAll]
      split
      · exact s.write_input data
      · exact (ih _).trans (s.write_input data)

end TcpSocket

theorem queryObject_input (objects : ObjectTable) (s : TcpSocket) :
    (queryObject objects s).2.input.length ≤ s.input.length := by
  unfold queryObject
  split
  · exact Nat.le_refl _
  · next name s' hread =>
      have hlen := (TcpSocket.readFramed_iff.mp hread).1.length
      split <;> (rw [TcpSocket.writeAll_input]; omega)

theorem registerObject_input (objects : ObjectTable) (s : TcpSocket) :
    (registerObject objects s).2.2.input.length ≤ s.input.length := by
  unfold registerObject
  split
  · exact Nat.le_refl _
  · next name attrs s' hread =>
      obtain ⟨l, hcons, -⟩ := TcpSocket.readCreate_spec hread
      have hlen := hcons.length
      have hwrite := s'.write_input [createOkId]
      dsimp only
      split <;> (dsimp only; rw [hwrite]; omega)

/-- A command that assigns `rc` has been read at least in part. -/
theorem processCommand_input {objects' : ObjectTable} {s' : TcpSocket}
    {rc : Int} (h : processCommand objects s = (some rc, objects', s')) :
    s'.input.length < s.input.length := by
  unfold processCommand at h
  split at h
  · cases h
  · next cmd s₁ hread =>
      have hlen := (TcpSocket.readByte_iff.mp hread).length
      rw [List.length_singleton] at hlen
      split at h
      · have hle := registerObject_input objects s₁
        rcases hregister : registerObject objects s₁ with ⟨rc, objects₁, s₂⟩
        rw [hregister] at h hle
        cases h
        exact Nat.lt_of_le_of_lt hle (by omega)
      · split at h
        · have hle := queryObject_input objects s₁
          rcases hquery : queryObject objects s₁ with ⟨rc, s₂⟩
          rw [hquery] at h hle
          cases h
          exact Nat.lt_of_le_of_lt hle (by omega)
        · cases h

namespace LocatorSys

variable {sys : LocatorSys}

/-- A connection that is kept has been read from, if it was readable. -/
theorem visit_input {r : SelectResult} {rc rc' : Int} {objects' : ObjectTable}
    {c : Nat × TcpSocket} {services : List Service}
    (h : ZmqServer.visit r rc objects c = (some s, rc', objects', services)) :
    s.input.length ≤ c.2.input.length ∧
      (c.1 ∈ r.resultSet → s.input.length < c.2.input.length) := by
  unfold ZmqServer.visit at h
  split at h
  · cases h
  · split at h
    · rcases hcommand : processCommand objects c.2 with ⟨result, objects₁, s₁⟩
      rw [hcommand] at h
      by_cases hzero : result = some 0
      · subst hzero
        cases h
        have := processCommand_input hcommand
        exact ⟨by omega, fun _ => this⟩
      · simp only [if_neg hzero] at h
        cases h
    · next hready =>
        split at h
        · cases h
          exact ⟨Nat.le_refl _, fun hmem => absurd hmem hready⟩
        · cases h

/-- A turn in which something is readable closes a connection or reads
something. -/
theorem load_traverse (r : SelectResult) (rc : Int) (objects : ObjectTable)
    (l : List (Nat × TcpSocket)) :
    load (ZmqServer.traverse r rc objects l).2.1 ≤ load l ∧
      ((∃ c ∈ l, c.1 ∈ r.resultSet) →
        load (ZmqServer.traverse r rc objects l).2.1 < load l) := by
  fun_induction ZmqServer.traverse r rc objects l with
  | case1 rc objects => exact ⟨Nat.le_refl _, by simp⟩
  | case2 rc objects c s rc' objects' services rest hvisit objects'' l' more
      htrav ih =>
      simp only [htrav] at ih
      obtain ⟨hle, hlt⟩ := ih
      obtain ⟨hs, hread⟩ := visit_input hvisit
      simp only [load]
      refine ⟨by omega, ?_⟩
      rintro ⟨d, hmem, hd⟩
      rcases List.mem_cons.mp hmem with rfl | hmem
      · have := hread hd
        omega
      · have := hlt ⟨d, hmem, hd⟩
        omega
  | case3 rc objects c rc' objects' services hvisit =>
      simp [load]
  | case4 rc objects c rc' objects' services d rest hvisit objects'' l' more
      htrav ih =>
      simp only [htrav] at ih
      obtain ⟨hle, _⟩ := ih
      simp only [load]
      exact ⟨by omega, fun _ => by omega⟩

theorem mem_readable :
    i ∈ sys.readable ↔ ∃ c ∈ sys.server.socketList, c.1 = i ∧
      (c.2.input ≠ [] ∨ (sys.clients c.1).connected = false) := by
  simp only [readable, List.mem_map, List.mem_filter, decide_eq_true_eq]
  constructor
  · rintro ⟨c, ⟨hmem, hc⟩, rfl⟩
    exact ⟨c, hmem, rfl, hc⟩
  · rintro ⟨c, hmem, rfl, hc⟩
    exact ⟨c, ⟨hmem, hc⟩, rfl⟩

theorem turn_of_quiet (h : sys.readable = []) : sys.turn = sys := by
  simp [turn, ZmqServer.step, SelectResult.rc, h]

theorem turn_of_readable (h : sys.readable ≠ []) :
    ∃ rc objects list services,
      ZmqServer.traverse ⟨sys.readable, []⟩ rc sys.server.objects
        sys.server.socketList = (objects, list, services) ∧
      sys.turn = deliver { sys with
        server :=
          { sys.server with
            objects := objects
            socketList := list
            served := sys.server.served ++ services } } := by
  have hrc : SelectResult.rc ⟨sys.readable, []⟩ ≠ 0 := by
    have := List.length_pos_iff.mpr h
    simp only [SelectResult.rc, List.length_nil]
    omega
  refine ⟨SelectResult.rc ⟨sys.readable, []⟩, _, _, _, rfl, ?_⟩
  simp only [turn, ZmqServer.step, if_neg hrc]

theorem load_deliver (sys : LocatorSys) :
    load sys.deliver.server.socketList = load sys.server.socketList := by
  simp only [deliver]
  induction sys.server.socketList with
  | nil => rfl
  | cons c l ih => simp only [List.map_cons, load, ih]

theorem load_turn (h : sys.readable ≠ []) :
    load sys.turn.server.socketList < load sys.server.socketList := by
  obtain ⟨rc, objects, list, services, htrav, hturn⟩ := turn_of_readable h
  obtain ⟨i, hi⟩ := List.exists_mem_of_ne_nil _ h
  obtain ⟨c, hmem, rfl, hc⟩ := mem_readable.mp hi
  have hlt := (load_traverse ⟨sys.readable, []⟩ rc sys.server.objects
    sys.server.socketList).2 ⟨c, hmem, hi⟩
  rw [hturn, load_deliver]
  rwa [htrav] at hlt

/-- The server runs until nothing is readable. -/
theorem rest_quiet (sys : LocatorSys) : sys.rest.readable = [] := by
  have hbound : ∀ (n : Nat) (sys : LocatorSys),
      load sys.server.socketList ≤ n → (turn^[n] sys).readable = [] := by
    intro n
    induction n with
    | zero =>
        intro sys hload
        have hnil : sys.server.socketList = [] := by
          cases hlist : sys.server.socketList with
          | nil => rfl
          | cons c l =>
              rw [hlist, load] at hload
              omega
        simp [readable, hnil]
    | succ n ih =>
        intro sys hload
        by_cases hquiet : sys.readable = []
        · rw [Function.iterate_fixed (turn_of_quiet hquiet)]
          exact hquiet
        · rw [Function.iterate_succ_apply]
          have := load_turn hquiet
          exact ih _ (by omega)
  exact hbound _ sys (Nat.le_refl _)

/-! ## A turn with one request -/

section

variable {r : SelectResult} {rc rc' : Int} {objects' : ObjectTable}
  {c d : Nat × TcpSocket} {services : List Service}
  {rest : List (Nat × TcpSocket)}

theorem traverse_kept
    (h : ZmqServer.visit r rc objects c = (some s, rc', objects', services)) :
    ZmqServer.traverse r rc objects (c :: rest) =
      let (objects'', l, more) := ZmqServer.traverse r rc' objects' rest
      (objects'', (c.1, s) :: l, services ++ more) := by
  rw [ZmqServer.traverse.eq_def]
  simp only [h]

theorem traverse_closed
    (h : ZmqServer.visit r rc objects c = (none, rc', objects', services)) :
    ZmqServer.traverse r rc objects (c :: d :: rest) =
      let (objects'', l, more) := ZmqServer.traverse r rc' objects' rest
      (objects'', d :: l, services ++ more) := by
  rw [ZmqServer.traverse.eq_def]
  simp only [h]

/-- A connection without anything to be read is kept as it is, or closed. -/
theorem visit_of_empty (r : SelectResult) (rc : Int) (objects : ObjectTable)
    (h : c.2.input = []) :
    ∃ services,
      ZmqServer.visit r rc objects c = (some c.2, rc, objects, services) ∨
        ZmqServer.visit r rc objects c = (none, rc, objects, services) := by
  have hcommand : processCommand objects c.2 = (none, objects, c.2) := by
    have hread : c.2.readByte = none := by
      simp [TcpSocket.readByte, TcpSocket.readString, TcpSocket.read, h]
    rw [processCommand, hread]
  unfold ZmqServer.visit
  split
  · exact ⟨[], .inr rfl⟩
  · split
    · rw [hcommand]
      exact ⟨_, .inr rfl⟩
    · split
      · exact ⟨[], .inl rfl⟩
      · exact ⟨[], .inr rfl⟩

/-- Without anything to read, connections are closed and nothing else
happens. -/
theorem traverse_of_empty (r : SelectResult) (rc : Int)
    (objects : ObjectTable) :
    ∀ l : List (Nat × TcpSocket), (∀ c ∈ l, c.2.input = []) →
      ∃ l' services,
        ZmqServer.traverse r rc objects l = (objects, l', services) ∧
          l'.Sublist l
  | [], _ => ⟨[], [], rfl, List.Sublist.refl []⟩
  | c :: rest, h => by
      obtain ⟨hc, hrest⟩ := List.forall_mem_cons.mp h
      obtain ⟨services, hvisit | hvisit⟩ := visit_of_empty r rc objects hc
      · obtain ⟨l', more, htrav, hsub⟩ :=
          traverse_of_empty r rc objects rest hrest
        rw [traverse_kept hvisit, htrav]
        exact ⟨_, _, rfl, hsub.cons_cons c⟩
      · match rest with
        | [] =>
            rw [ZmqServer.traverse.eq_def]
            simp only [hvisit]
            exact ⟨_, _, rfl, List.nil_sublist _⟩
        | d :: rest =>
            obtain ⟨l', more, htrav, hsub⟩ := traverse_of_empty r rc objects
              rest (List.forall_mem_cons.mp hrest).2
            rw [traverse_closed hvisit, htrav]
            exact ⟨_, _, rfl, (hsub.cons_cons d).cons c⟩

/-- A request that succeeds is served, or passed over because the connection
before it has been closed. -/
theorem traverse_of_request {s' : TcpSocket} {after : List (Nat × TcpSocket)}
    (hi : i ∈ r.resultSet) (herror : r.errorSet = [])
    (hcommand : processCommand objects s = (some 0, objects', s'))
    (hafter : ∀ c ∈ after, c.2.input = []) (rc : Int) :
    ∀ before : List (Nat × TcpSocket), (∀ c ∈ before, c.2.input = []) →
      ∃ before' after' services, before'.Sublist before ∧
        after'.Sublist after ∧
        (ZmqServer.traverse r rc objects (before ++ (i, s) :: after) =
            (objects, before' ++ (i, s) :: after', services) ∨
          ZmqServer.traverse r rc objects (before ++ (i, s) :: after) =
            (objects', before' ++ (i, s') :: after', services))
  | [], _ => by
      have hvisit : ZmqServer.visit r rc objects (i, s) =
          (some s', 0, objects', [Service.of objects s]) := by
        simp [ZmqServer.visit, herror, hi, hcommand]
      obtain ⟨after', more, htrav, hsub⟩ :=
        traverse_of_empty r 0 objects' after hafter
      rw [List.nil_append, traverse_kept hvisit, htrav]
      exact ⟨[], after', _, List.Sublist.refl [], hsub, .inr rfl⟩
  | c :: before, h => by
      obtain ⟨hc, hbefore⟩ := List.forall_mem_cons.mp h
      obtain ⟨services, hvisit | hvisit⟩ := visit_of_empty r rc objects hc
      · obtain ⟨before', after', more, hsub, hsub', htrav⟩ :=
          traverse_of_request hi herror hcommand hafter rc before hbefore
        rw [List.cons_append, traverse_kept hvisit]
        refine ⟨c :: before', after', services ++ more, hsub.cons_cons c,
          hsub', ?_⟩
        rcases htrav with htrav | htrav <;> rw [htrav]
        · exact .inl rfl
        · exact .inr rfl
      · match before with
        | [] =>
            obtain ⟨after', more, htrav, hsub⟩ :=
              traverse_of_empty r rc objects after hafter
            rw [List.cons_append, List.nil_append, traverse_closed hvisit, htrav]
            exact ⟨[], after', _, List.nil_sublist _, hsub, .inl rfl⟩
        | d :: before =>
            obtain ⟨before', after', more, hsub, hsub', htrav⟩ :=
              traverse_of_request hi herror hcommand hafter rc before
                (List.forall_mem_cons.mp hbefore).2
            rw [List.cons_append, List.cons_append, traverse_closed hvisit]
            refine ⟨d :: before', after', services ++ more,
              (hsub.cons_cons d).cons c, hsub', ?_⟩
            rcases htrav with htrav | htrav <;> rw [htrav]
            · exact .inl rfl
            · exact .inr rfl

end

end LocatorSys

/-! ## Requests and answers -/

/-- What remains of a string when its size is cut to a byte. -/
def cutString (string : Bytes) : Bytes :=
  string.take (UInt8.ofNat string.length).toNat

/-- What remains of an attribute. -/
def cutAttr (attr : Bytes × Bytes) : Bytes × Bytes :=
  (cutString attr.1, cutString attr.2)

theorem cutString_length (string : Bytes) :
    (cutString string).length = string.length % 256 := by
  rw [cutString, List.length_take, UInt8.toNat_ofNat']
  omega

theorem cutString_of_lt {string : Bytes} (h : string.length < 256) :
    cutString string = string := by
  rw [cutString, TcpSocket.toNat_size h, List.take_length]

theorem stringPieces_flatten (string : Bytes) :
    (stringPieces string).flatten = stringFrame (cutString string) := by
  have hsize : UInt8.ofNat (cutString string).length =
      UInt8.ofNat string.length := by
    rw [cutString_length]
    exact UInt8.ofNat_mod_size
  rw [stringFrame, hsize, stringPieces, cutString]
  simp

theorem attrPieces_flatten (attrs : List (Bytes × Bytes)) :
    (attrs.flatMap fun attr =>
      stringPieces attr.1 ++ stringPieces attr.2).flatten ++ [0] =
      attrFrames (attrs.map cutAttr) := by
  rw [attrFrames]
  congr 1
  induction attrs with
  | nil => rfl
  | cons attr attrs ih =>
      rw [List.flatMap_cons, List.flatten_append, ih, List.map_cons,
        List.flatMap_cons, List.flatten_append, stringPieces_flatten,
        stringPieces_flatten, attrFrame, cutAttr]

theorem getReply_flatten (attrs : AttrList) :
    (getReply attrs).flatten =
      getOkId :: attrFrames (attrs.toList.map cutAttr) := by
  rw [getReply, List.cons_append, List.flatten_cons, List.flatten_append,
    List.flatten_singleton, attrPieces_flatten, List.singleton_append]

theorem map_cutAttr {l : List (Bytes × Bytes)}
    (h : ∀ attr ∈ l, attr.1.length < 256 ∧ attr.2.length < 256) :
    l.map cutAttr = l := by
  refine (List.map_congr_left fun attr hmem => ?_).trans (List.map_id l)
  obtain ⟨hkey, hvalue⟩ := h attr hmem
  rw [cutAttr, cutString_of_lt hkey, cutString_of_lt hvalue, id_eq]

namespace Call

variable {name : Bytes} {attrs : AttrList}

theorem register_request (h : (register name attrs).Passes) :
    (register name attrs).request.flatten =
      createCommand name attrs.toList := by
  have hname : cutString name = name := cutString_of_lt (Nat.lt_succ_of_le h.1)
  have hattrs : attrs.toList.map cutAttr = attrs.toList := map_cutAttr h.2
  rw [request, List.flatten_append, List.flatten_append, List.flatten_cons,
    List.flatten_singleton, List.append_assoc, attrPieces_flatten,
    stringPieces_flatten, hname, hattrs]
  rfl

theorem resolve_request (h : (resolve name).Passes) :
    (resolve name).request.flatten = getCommand name := by
  have hname : cutString name = name := cutString_of_lt (Nat.lt_succ_of_le h.1)
  rw [request, List.flatten_cons, stringPieces_flatten, hname]
  rfl

/-- What the server does to the table, and what it answers. -/
def answer (objects : ObjectTable) : Call → ObjectTable × List UInt8
  | register name attrs => (objects.insert name attrs, [createOkId])
  | resolve name =>
      match objects[name]? with
      | none => (objects, [failId])
      | some attrs => (objects, (getReply attrs).flatten)

/-- What the call comes to. -/
def result (objects : ObjectTable) : Call → Outcome
  | register _ _ => .registered
  | resolve name =>
      match objects[name]? with
      | none => .aborted
      | some attrs =>
          .resolved (AttrList.insertAll ∅ (attrs.toList.map cutAttr))

theorem fits_of_passes {call : Call} (h : call.Passes) (hne : call.NonEmpty) :
    Fits true call.name ∧ ∀ attr ∈ call.attrs.toList, AttrFits true attr := by
  refine ⟨⟨Nat.lt_succ_of_le h.1, fun _ => hne.1⟩, fun attr hmem => ?_⟩
  exact ⟨⟨(h.2 attr hmem).1, fun _ => (hne.2 attr hmem).1⟩,
    (h.2 attr hmem).2, fun _ => (hne.2 attr hmem).2⟩

end Call

theorem TcpSocket.writeAll_of_nil (h : s.sends = [])
    (pieces : List (List UInt8)) :
    s.writeAll pieces = (0, { s with output := s.output ++ pieces.flatten }) := by
  induction pieces generalizing s with
  | nil => simp [writeAll]
  | cons data rest ih =>
      have ih := ih (show ({ s with output := s.output ++ data } :
        TcpSocket).sends = [] from h)
      have hwrite : s.write data =
          ((data.length : Int), { s with output := s.output ++ data }) := by
        simp [write, h]
      simp only [writeAll, hwrite, ne_eq, not_true_eq_false, if_false]
      rw [ih, List.flatten_cons, List.append_assoc]

theorem TcpSocket.Consumed.all (data : List UInt8) :
    TcpSocket.Consumed ⟨data, [], []⟩ data ⟨[], [], []⟩ := by
  simp [TcpSocket.Consumed]

/-- The server's side of a call without empty strings. -/
theorem processCommand_request {call : Call} (objects : ObjectTable)
    (h : call.Passes) (hne : call.NonEmpty) :
    processCommand objects ⟨call.request.flatten, [], []⟩ =
      (some 0, (call.answer objects).1, ⟨[], (call.answer objects).2, []⟩) := by
  obtain ⟨hname, hattrs⟩ := call.fits_of_passes h hne
  cases call with
  | register name attrs =>
      have hcons : TcpSocket.Consumed
          ⟨stringFrame name ++ attrFrames attrs.toList, [], []⟩
          (stringFrame name ++ attrFrames attrs.toList) ⟨[], [], []⟩ :=
        .all _
      obtain ⟨s, hfirst, hsecond⟩ := hcons.split
      have hcreate : TcpSocket.readCreate
          ⟨stringFrame name ++ attrFrames attrs.toList, [], []⟩ =
          some (name, attrs, ⟨[], [], []⟩) := by
        simp only [TcpSocket.readCreate,
          TcpSocket.readFramed_iff.mpr ⟨hfirst, hname⟩,
          TcpSocket.readAttrs_iff.mpr ⟨_, hsecond, hattrs, rfl⟩,
          Option.bind_eq_bind, Option.bind_some, AttrList.insertAll_toList]
        rfl
      have hread : TcpSocket.readByte
          ⟨createCommand name attrs.toList, [], []⟩ = some (createId,
            ⟨stringFrame name ++ attrFrames attrs.toList, [], []⟩) :=
        TcpSocket.readByte_iff.mpr rfl
      rw [Call.register_request h, processCommand, hread]
      simp only [if_true, registerObject, hcreate]
      rfl
  | resolve name =>
      have hframe : TcpSocket.readFramed true ⟨stringFrame name, [], []⟩ =
          some (name, ⟨[], [], []⟩) :=
        TcpSocket.readFramed_iff.mpr ⟨.all _, hname⟩
      have hread : TcpSocket.readByte ⟨getCommand name, [], []⟩ =
          some (getId, ⟨stringFrame name, [], []⟩) :=
        TcpSocket.readByte_iff.mpr rfl
      rw [Call.resolve_request h, processCommand, hread]
      simp only [if_true, queryObject, hframe, Call.answer]
      rw [if_neg (by decide)]
      cases objects[name]? with
      | none => rfl
      | some attrs =>
          simp only [TcpSocket.writeAll_of_nil (s := ⟨[], [], []⟩) rfl]
          rfl

/-- The keys of every object can be told from the terminator when they are
written. -/
def Writable (objects : ObjectTable) : Prop :=
  ∀ (name : Bytes) (attrs : AttrList), objects[name]? = some attrs →
    ∀ attr ∈ attrs.toList, attr.1.length % 256 ≠ 0

theorem Writable.insert (h : Writable objects) (name : Bytes) {attrs : AttrList}
    (hattrs : ∀ attr ∈ attrs.toList, attr.1.length % 256 ≠ 0) :
    Writable (objects.insert name attrs) := by
  intro name' attrs' hget
  rw [Std.ExtTreeMap.getElem?_insert] at hget
  split at hget
  · cases hget
    exact hattrs
  · exact h name' attrs' hget

theorem Writable.insertIfNew (h : Writable objects) (name : Bytes)
    {attrs : AttrList}
    (hattrs : ∀ attr ∈ attrs.toList, attr.1.length % 256 ≠ 0) :
    Writable (objects.insertIfNew name attrs) := by
  intro name' attrs' hget
  rw [Std.ExtTreeMap.getElem?_insertIfNew] at hget
  split at hget
  · cases hget
    exact hattrs
  · exact h name' attrs' hget

theorem writable_configured (nodes : List (Bytes × Bytes)) :
    Writable (configured nodes) := by
  have hlocation : ∀ location : Bytes, ∀ attr ∈
      (AttrList.insertAll ∅ [(locationKey, location)]).toList,
      attr.1.length % 256 ≠ 0 := by
    intro location attr hmem
    rw [Std.ExtTreeMap.mem_toList_iff_getElem?_eq_some] at hmem
    simp only [AttrList.insertAll, List.foldl_cons, List.foldl_nil,
      Std.ExtTreeMap.getElem?_insert] at hmem
    split at hmem
    · next hkey =>
        rw [← Std.LawfulEqCmp.eq_of_compare hkey]
        decide
    · simp at hmem
  have hfold : ∀ (nodes : List (Bytes × Bytes)) (objects : ObjectTable),
      Writable objects → Writable (nodes.foldl (fun objects node =>
        objects.insertIfNew node.1
          (AttrList.insertAll ∅ [(locationKey, node.2)])) objects) := by
    intro nodes
    induction nodes with
    | nil => exact fun _ h => h
    | cons node nodes ih =>
        exact fun _ h => ih _ (h.insertIfNew node.1 (hlocation node.2))
  exact hfold nodes ∅ (fun name attrs hget => by simp at hget)

/-- The client's side of a call, if no key of the object found vanishes when its
size is cut to a byte. -/
theorem receive_answer (call : Call) (hkeys : Writable objects) :
    call.receive ⟨(call.answer objects).2, [], []⟩ =
      (call.result objects, ⟨[], [], []⟩) := by
  cases call with
  | register name attrs => rfl
  | resolve name =>
      simp only [Call.answer, Call.result]
      split
      · rfl
      · next attrs hattrs =>
          have hread : TcpSocket.readByte ⟨(getReply attrs).flatten, [], []⟩ =
              some (getOkId, ⟨attrFrames (attrs.toList.map cutAttr), [], []⟩) := by
            rw [getReply_flatten]
            exact TcpSocket.readByte_iff.mpr rfl
          have hfits : ∀ attr ∈ attrs.toList.map cutAttr,
              AttrFits false attr := by
            intro cut hcut
            obtain ⟨attr, hmem, rfl⟩ := List.mem_map.mp hcut
            have hkey := hkeys name attrs hattrs attr hmem
            rw [← cutString_length] at hkey
            have hlt : ∀ string, (cutString string).length < 256 := by
              intro string
              rw [cutString_length]
              omega
            exact ⟨⟨hlt _, fun _ hnil => hkey (by
              rw [show cutString attr.1 = [] from hnil]; rfl)⟩,
              hlt _, nofun⟩
          have hparse : TcpSocket.readAttrs false
              ⟨attrFrames (attrs.toList.map cutAttr), [], []⟩ ∅ =
                some (AttrList.insertAll ∅ (attrs.toList.map cutAttr),
                  ⟨[], [], []⟩) :=
            TcpSocket.readAttrs_iff.mpr ⟨_, .all _, hfits, rfl⟩
          simp only [Call.receive, hread, if_true, hparse]

/-! ## What the calls should come to -/

/-- The attributes this call registers under a name. -/
def Call.registers (name : Bytes) : Call → Option AttrList
  | register name' attrs => if name' = name then some attrs else none
  | resolve _ => none

/-- The last registration of a name. -/
def lastRegistered (log : List (Call × Outcome)) (name : Bytes) :
    Option AttrList :=
  (log.filterMap fun entry => entry.1.registers name).getLast?

theorem lastRegistered_snoc (log : List (Call × Outcome)) (call : Call)
    (outcome : Outcome) (name : Bytes) :
    lastRegistered (log ++ [(call, outcome)]) name =
      (call.registers name).or (lastRegistered log name) := by
  rw [lastRegistered, List.filterMap_append, List.getLast?_append]
  cases hregisters : call.registers name with
  | none => simp [hregisters, lastRegistered]
  | some attrs => simp [hregisters]

/-- A registration completes, and a name that has been registered is resolved
to the attributes of the last registration. -/
def Correct (before : List (Call × Outcome)) : Call → Outcome → Prop
  | .register _ _, outcome => outcome = .registered
  | .resolve name, outcome =>
      ∀ attrs, lastRegistered before name = some attrs →
        outcome = .resolved attrs

namespace LocatorSys

/-- Nothing is under way.  The table has the last registrations, and all the
calls have come to what they should. -/
structure Idle (sys : LocatorSys) : Prop where
  sockets : ∀ c ∈ sys.server.socketList, c.2 = ⟨[], [], []⟩
  nodup : (sys.server.socketList.map Prod.fst).Nodup
  accepted : ∀ c ∈ sys.server.socketList, c.1 < sys.server.accepted
  clients : ∀ i, (sys.clients i).socket = ⟨[], [], []⟩
  keys : Writable sys.server.objects
  registered : ∀ name attrs, lastRegistered sys.log name = some attrs →
    sys.server.objects[name]? = some attrs ∧
      ∀ attr ∈ attrs.toList, AttrFits true attr
  correct : ∀ before call outcome after,
    sys.log = before ++ (call, outcome) :: after → Correct before call outcome

variable {sys : LocatorSys} {l : List (Nat × TcpSocket)}

/-- All the connections of the server are open at the other end, too. -/
theorem Idle.quiet_iff (h : sys.Idle) :
    sys.readable = [] ↔
      ∀ c ∈ sys.server.socketList, (sys.clients c.1).connected = true := by
  constructor
  · intro hquiet c hmem
    by_contra hclosed
    have hread : c.1 ∈ sys.readable :=
      mem_readable.mpr ⟨c, hmem, rfl, .inr (by simpa using hclosed)⟩
    rw [hquiet] at hread
    cases hread
  · intro hconnected
    rw [List.eq_nil_iff_forall_not_mem]
    intro i hi
    obtain ⟨c, hmem, rfl, hinput | hclosed⟩ := mem_readable.mp hi
    · exact hinput (by rw [h.sockets c hmem])
    · rw [hconnected c hmem] at hclosed
      cases hclosed

theorem map_output_eq (h : ∀ c ∈ l, c.2.output = []) :
    (l.map fun c => (c.1, { c.2 with output := [] })) = l := by
  refine (List.map_congr_left fun c hmem => ?_).trans (List.map_id _)
  rw [id_eq, ← h c hmem]

theorem sent_eq_nil (h : ∀ c ∈ l, c.2.output = []) :
    (l.filter fun c => c.1 = i).flatMap (fun c => c.2.output) = [] := by
  refine List.flatMap_eq_nil_iff.mpr fun c hmem => ?_
  exact h c (List.mem_filter.mp hmem).1

theorem deliver_of_empty (h : ∀ c ∈ sys.server.socketList, c.2.output = []) :
    sys.deliver = sys := by
  simp only [deliver, sent_eq_nil h, map_output_eq h, List.append_nil]

/-- The answer to one request is delivered to its client. -/
theorem deliver_of_answer (sys : LocatorSys) {reply : List UInt8}
    {before after : List (Nat × TcpSocket)}
    (hlist : sys.server.socketList = before ++ (i, ⟨[], reply, []⟩) :: after)
    (hbefore : ∀ c ∈ before, c.2.output = [])
    (hafter : ∀ c ∈ after, c.2.output = []) :
    sys.deliver.server.socketList = before ++ (i, ⟨[], [], []⟩) :: after ∧
      sys.deliver.clients i = { sys.clients i with
        socket := { (sys.clients i).socket with
          input := (sys.clients i).socket.input ++ reply } } ∧
      ∀ j, j ≠ i → sys.deliver.clients j = sys.clients j := by
  have hsent : ∀ j, (sys.server.socketList.filter fun c => c.1 = j).flatMap
      (fun c => c.2.output) = if i = j then reply else [] := by
    intro j
    rw [hlist, List.filter_append, List.flatMap_append, sent_eq_nil hbefore,
      List.filter_cons]
    by_cases hij : i = j
    · simp [hij, sent_eq_nil hafter]
    · simp [hij, sent_eq_nil hafter]
  refine ⟨?_, ?_, fun j hj => ?_⟩
  · simp only [deliver, hlist, List.map_append, List.map_cons,
      map_output_eq hbefore, map_output_eq hafter]
  · simp only [deliver, hsent, if_true]
  · simp only [deliver, hsent, if_neg (Ne.symm hj), List.append_nil]

/-! ## A call -/

/-- `sys` is `sys₀` while client `i` is making a call: its connection and the
input of the client are under way, and the server may have closed other
connections. -/
structure During (sys₀ : LocatorSys) (i : Nat) (s : TcpSocket)
    (objects : ObjectTable) (input : List UInt8) (sys : LocatorSys) :
    Prop where
  sockets : ∃ before after,
    sys.server.socketList = before ++ (i, s) :: after ∧
      (before ++ (i, ⟨[], [], []⟩) :: after).Sublist sys₀.server.socketList
  objects : sys.server.objects = objects
  accepted : sys.server.accepted = sys₀.server.accepted
  client : sys.clients i = ⟨⟨input, [], []⟩, true⟩
  others : ∀ j, j ≠ i → sys.clients j = sys₀.clients j
  log : sys.log = sys₀.log

section

variable {sys₀ : LocatorSys} {data reply : List UInt8}

/-- A turn while the request is waiting. -/
theorem turn_of_pending (h₀ : sys₀.Idle) (hdata : data ≠ [])
    (hcommand : processCommand sys₀.server.objects ⟨data, [], []⟩ =
      (some 0, objects, ⟨[], reply, []⟩))
    (h : During sys₀ i ⟨data, [], []⟩ sys₀.server.objects [] sys) :
    During sys₀ i ⟨data, [], []⟩ sys₀.server.objects [] sys.turn ∨
      During sys₀ i ⟨[], [], []⟩ objects reply sys.turn := by
  obtain ⟨before, after, hlist, hsub⟩ := h.sockets
  have hbefore : ∀ c ∈ before, c.2 = ⟨[], [], []⟩ := fun c hmem =>
    h₀.sockets c (hsub.subset (List.mem_append_left _ hmem))
  have hafter : ∀ c ∈ after, c.2 = ⟨[], [], []⟩ := fun c hmem =>
    h₀.sockets c (hsub.subset (List.mem_append_right _
      (List.mem_cons_of_mem _ hmem)))
  have hi : i ∈ sys.readable := by
    refine mem_readable.mpr ⟨(i, ⟨data, [], []⟩), ?_, rfl, .inl hdata⟩
    rw [hlist]
    exact List.mem_append_right _ List.mem_cons_self
  obtain ⟨rc, objects', list, services, htrav, hturn⟩ :=
    turn_of_readable (List.ne_nil_of_mem hi)
  rw [hlist, h.objects] at htrav
  obtain ⟨before', after', services', hsub₁, hsub₂, htrav'⟩ :=
    traverse_of_request (r := ⟨sys.readable, []⟩) hi rfl hcommand
      (fun c hmem => by rw [hafter c hmem]) rc before
      (fun c hmem => by rw [hbefore c hmem])
  have hsub' : (before' ++ (i, (⟨[], [], []⟩ : TcpSocket)) :: after').Sublist
      sys₀.server.socketList :=
    (hsub₁.append (hsub₂.cons_cons _)).trans hsub
  have hbefore' : ∀ c ∈ before', c.2.output = [] := fun c hmem => by
    rw [hbefore c (hsub₁.subset hmem)]
  have hafter' : ∀ c ∈ after', c.2.output = [] := fun c hmem => by
    rw [hafter c (hsub₂.subset hmem)]
  rcases htrav' with htrav' | htrav'
  · -- the connection before this one has been closed
    rw [htrav] at htrav'
    cases htrav'
    refine .inl ?_
    rw [hturn, deliver_of_empty]
    · exact
        { sockets := ⟨before', after', rfl, hsub'⟩
          objects := rfl
          accepted := h.accepted
          client := h.client
          others := h.others
          log := h.log }
    · intro c hmem
      rcases List.mem_append.mp hmem with hmem | hmem
      · exact hbefore' c hmem
      · rcases List.mem_cons.mp hmem with rfl | hmem
        · rfl
        · exact hafter' c hmem
  · rw [htrav] at htrav'
    cases htrav'
    refine .inr ?_
    rw [hturn]
    obtain ⟨hlist', hclient, hothers⟩ := deliver_of_answer
      { sys with
        server :=
          { sys.server with
            objects := objects
            socketList := before' ++ (i, ⟨[], reply, []⟩) :: after'
            served := sys.server.served ++ services } } rfl hbefore' hafter'
    exact
      { sockets := ⟨before', after', hlist', hsub'⟩
        objects := rfl
        accepted := h.accepted
        client := by rw [hclient, h.client]; rfl
        others := fun j hj => (hothers j hj).trans (h.others j hj)
        log := h.log }

theorem during_send (h₀ : sys₀.Idle) (hlisted : sys₀.Listed i)
    (hconnected : (sys₀.clients i).connected = true) :
    During sys₀ i ⟨data, [], []⟩ sys₀.server.objects [] (sys₀.send i data) := by
  obtain ⟨c, hmem, hc⟩ := List.mem_map.mp hlisted
  obtain ⟨before, after, hlist⟩ := List.append_of_mem hmem
  have hempty : c = (i, ⟨[], [], []⟩) := Prod.ext hc (h₀.sockets c hmem)
  subst hempty
  have hnodup := h₀.nodup
  rw [hlist, List.map_append, List.map_cons, List.nodup_append] at hnodup
  obtain ⟨_, hnodup, hdisjoint⟩ := hnodup
  have hkeep : ∀ l : List (Nat × TcpSocket), (∀ c ∈ l, c.1 ≠ i) →
      (l.map fun c => if c.1 = i then
        (c.1, { c.2 with input := c.2.input ++ data }) else c) = l := by
    intro l hl
    refine (List.map_congr_left fun c hmem => ?_).trans (List.map_id _)
    rw [id_eq, if_neg (hl c hmem)]
  have hbefore : ∀ c ∈ before, c.1 ≠ i := fun c hmem =>
    hdisjoint c.1 (List.mem_map_of_mem hmem) i List.mem_cons_self
  have hafter : ∀ c ∈ after, c.1 ≠ i := fun c hmem heq =>
    (List.nodup_cons.mp hnodup).1
      (List.mem_map.mpr ⟨c, hmem, heq⟩)
  exact
    { sockets := by
        refine ⟨before, after, ?_, hlist ▸ List.Sublist.refl _⟩
        simp only [send, hlist, List.map_append, List.map_cons,
          hkeep before hbefore, hkeep after hafter]
        rfl
      objects := rfl
      accepted := rfl
      client := by
        show sys₀.clients i = _
        rw [← h₀.clients i, ← hconnected]
      others := fun _ _ => rfl
      log := rfl }

/-- When the server has come to rest, the request has been served. -/
theorem during_rest (h₀ : sys₀.Idle) (hquiet : sys₀.readable = [])
    (hlisted : sys₀.Listed i) (hconnected : (sys₀.clients i).connected = true)
    (hdata : data ≠ [])
    (hcommand : processCommand sys₀.server.objects ⟨data, [], []⟩ =
      (some 0, objects, ⟨[], reply, []⟩)) :
    During sys₀ i ⟨[], [], []⟩ objects reply (sys₀.send i data).rest := by
  have hserved : ∀ sys, During sys₀ i ⟨[], [], []⟩ objects reply sys →
      sys.readable = [] := by
    intro sys h
    obtain ⟨before, after, hlist, hsub⟩ := h.sockets
    rw [← hlist] at hsub
    rw [List.eq_nil_iff_forall_not_mem]
    intro j hj
    obtain ⟨c, hmem, rfl, hinput | hclosed⟩ := mem_readable.mp hj
    · exact hinput (by rw [h₀.sockets c (hsub.subset hmem)])
    · by_cases hc : c.1 = i
      · rw [hc, h.client] at hclosed
        cases hclosed
      · rw [h.others c.1 hc, h₀.quiet_iff.mp hquiet c (hsub.subset hmem)]
          at hclosed
        cases hclosed
  have hturns : ∀ n,
      During sys₀ i ⟨data, [], []⟩ sys₀.server.objects []
          (turn^[n] (sys₀.send i data)) ∨
        During sys₀ i ⟨[], [], []⟩ objects reply
          (turn^[n] (sys₀.send i data)) := by
    intro n
    induction n with
    | zero => exact .inl (during_send h₀ hlisted hconnected)
    | succ n ih =>
        rw [Function.iterate_succ_apply']
        rcases ih with ih | ih
        · exact turn_of_pending h₀ hdata hcommand ih
        · rw [turn_of_quiet (hserved _ ih)]
          exact .inr ih
  rcases hturns _ with hpending | hdone
  · obtain ⟨before, after, hlist, _⟩ := hpending.sockets
    have hi : i ∈ (sys₀.send i data).rest.readable := by
      refine mem_readable.mpr ⟨(i, ⟨data, [], []⟩), ?_, rfl, .inl hdata⟩
      rw [rest, hlist]
      exact List.mem_append_right _ List.mem_cons_self
    rw [rest_quiet] at hi
    cases hi
  · exact hdone

end

/-! ## The invariant -/

/-- Some connections may have been closed. -/
theorem Idle.sublist (h : sys.Idle) (hsub : l.Sublist sys.server.socketList)
    (served : List Service) :
    Idle { sys with
      server := { sys.server with socketList := l, served := served } } :=
  { h with
    sockets := fun c hmem => h.sockets c (hsub.subset hmem)
    nodup := h.nodup.sublist (hsub.map Prod.fst)
    accepted := fun c hmem => h.accepted c (hsub.subset hmem) }

theorem Idle.turn (h : sys.Idle) : sys.turn.Idle := by
  by_cases hquiet : sys.readable = []
  · rw [turn_of_quiet hquiet]
    exact h
  · obtain ⟨rc, objects, list, services, htrav, hturn⟩ :=
      turn_of_readable hquiet
    obtain ⟨list', services', htrav', hsub⟩ := traverse_of_empty
      ⟨sys.readable, []⟩ rc sys.server.objects sys.server.socketList
      (fun c hmem => by rw [h.sockets c hmem])
    rw [htrav] at htrav'
    cases htrav'
    rw [hturn, deliver_of_empty]
    · exact h.sublist hsub _
    · intro c hmem
      rw [h.sockets c (hsub.subset hmem)]

theorem Idle.rest (h : sys.Idle) : sys.rest.Idle := by
  have hturns : ∀ n, (LocatorSys.turn^[n] sys).Idle := by
    intro n
    induction n with
    | zero => exact h
    | succ n ih =>
        rw [Function.iterate_succ_apply']
        exact ih.turn
  exact hturns _

theorem Idle.start (nodes : List (Bytes × Bytes)) : (start nodes).Idle where
  sockets := by simp [LocatorSys.start, ZmqServer.start]
  nodup := by simp [LocatorSys.start, ZmqServer.start]
  accepted := by simp [LocatorSys.start, ZmqServer.start]
  clients _ := rfl
  keys := writable_configured nodes
  registered := by simp [LocatorSys.start, lastRegistered]
  correct := by simp [LocatorSys.start]

/-- A client that connects or closes its connection leaves nothing under
way. -/
theorem Idle.setClient (h : sys.Idle) (i : Nat) (connected : Bool) :
    (sys.setClient i ⟨⟨[], [], []⟩, connected⟩).Idle :=
  { h with
    clients := by
      intro j
      simp only [LocatorSys.setClient]
      split
      · rfl
      · exact h.clients j }

theorem Idle.accept (h : sys.Idle) {server : ZmqServer}
    (hstep : sys.server.step (.accept ⟨[], [], []⟩) = some server) :
    Idle { sys with server := server } := by
  cases hstep
  exact
    { h with
      sockets := by
        intro c hmem
        rcases List.mem_append.mp hmem with hmem | hmem
        · exact h.sockets c hmem
        · rw [List.mem_singleton.mp hmem]
      nodup := by
        simp only [List.map_append, List.map_cons, List.map_nil]
        rw [List.nodup_append]
        refine ⟨h.nodup, by simp, ?_⟩
        rintro j hj k hk rfl
        obtain ⟨c, hmem, rfl⟩ := List.mem_map.mp hj
        have := h.accepted c hmem
        rw [List.mem_singleton.mp hk] at this
        omega
      accepted := by
        intro c hmem
        rcases List.mem_append.mp hmem with hmem | hmem
        · exact Nat.lt_succ_of_lt (h.accepted c hmem)
        · rw [List.mem_singleton.mp hmem]
          exact Nat.lt_succ_self _ }

/-- A call that is answered comes to what it should. -/
theorem Idle.result_correct (h : sys.Idle) (call : Call) :
    Correct sys.log call (call.result sys.server.objects) := by
  cases call with
  | register name attrs => rfl
  | resolve name =>
      intro attrs hlast
      obtain ⟨hget, hfits⟩ := h.registered name attrs hlast
      have hcut : attrs.toList.map cutAttr = attrs.toList :=
        map_cutAttr fun attr hmem =>
          ⟨(hfits attr hmem).1.1, (hfits attr hmem).2.1⟩
      simp only [Call.result, hget, hcut, AttrList.insertAll_toList]

theorem Idle.answer_registered (h : sys.Idle) {call : Call}
    (hpasses : call.Passes) (hne : call.NonEmpty) (outcome : Outcome) :
    ∀ name attrs, lastRegistered (sys.log ++ [(call, outcome)]) name =
        some attrs →
      (call.answer sys.server.objects).1[name]? = some attrs ∧
        ∀ attr ∈ attrs.toList, AttrFits true attr := by
  intro name attrs hlast
  rw [lastRegistered_snoc] at hlast
  have hfits := (call.fits_of_passes hpasses hne).2
  cases call with
  | register name' attrs' =>
      simp only [Call.answer, Std.ExtTreeMap.getElem?_insert]
      by_cases hname : name' = name
      · simp only [Call.registers, hname, if_true, Option.some_or] at hlast
        cases hlast
        exact ⟨by simp [hname], hfits⟩
      · simp only [Call.registers, hname, if_false, Option.none_or] at hlast
        obtain ⟨hget, hattrs⟩ := h.registered name attrs hlast
        exact ⟨by simpa [hname] using hget, hattrs⟩
  | resolve name' =>
      obtain ⟨hget, hattrs⟩ := h.registered name attrs hlast
      refine ⟨?_, hattrs⟩
      simp only [Call.answer]
      split <;> exact hget

theorem Idle.answer_keys (h : sys.Idle) {call : Call} (hpasses : call.Passes)
    (hne : call.NonEmpty) : Writable (call.answer sys.server.objects).1 := by
  have hfits := (call.fits_of_passes hpasses hne).2
  cases call with
  | register name attrs =>
      refine h.keys.insert name fun attr hmem => ?_
      obtain ⟨⟨hlt, hnil⟩, _⟩ := hfits attr hmem
      have := List.length_pos_iff.mpr (hnil rfl)
      omega
  | resolve name =>
      simp only [Call.answer]
      split <;> exact h.keys

/-- A call without empty strings of a client that is still connected. -/
theorem Idle.call (h : sys.Idle) (hquiet : sys.readable = []) {call : Call}
    (hlisted : sys.Listed i) (hconnected : (sys.clients i).connected = true)
    (hpasses : call.Passes) (hne : call.NonEmpty) :
    ((sys.send i call.request.flatten).rest.finish i call).Idle := by
  have hdata : call.request.flatten ≠ [] := by
    cases call <;> simp [Call.request]
  have hduring := during_rest h hquiet hlisted hconnected hdata
    (processCommand_request sys.server.objects hpasses hne)
  obtain ⟨before, after, hlist, hsub⟩ := hduring.sockets
  rw [← hlist] at hsub
  have hfinish : (sys.send i call.request.flatten).rest.finish i call =
      { (sys.send i call.request.flatten).rest.setClient i
          ⟨⟨[], [], []⟩, call.result sys.server.objects ≠ .aborted⟩ with
        log := sys.log ++ [(call, call.result sys.server.objects)] } := by
    simp only [finish, hduring.client, receive_answer call h.keys, hduring.log]
  rw [hfinish]
  exact
    { sockets := fun c hmem => h.sockets c (hsub.subset hmem)
      nodup := h.nodup.sublist (hsub.map Prod.fst)
      accepted := fun c hmem => by
        have := h.accepted c (hsub.subset hmem)
        rw [← hduring.accepted] at this
        exact this
      clients := by
        intro j
        simp only [LocatorSys.setClient]
        split
        · rfl
        · next hj => rw [hduring.others j hj, h.clients j]
      keys := by
        have := h.answer_keys hpasses hne
        rw [← hduring.objects] at this
        exact this
      registered := by
        have := h.answer_registered hpasses hne
          (call.result sys.server.objects)
        rw [← hduring.objects] at this
        exact this
      correct := by
        intro first call' outcome last hlog
        rcases List.eq_nil_or_concat last with rfl | ⟨last, entry, rfl⟩
        · obtain ⟨rfl, hentry⟩ := List.append_inj' hlog rfl
          cases hentry
          exact h.result_correct call
        · rw [List.concat_eq_append] at hlog
          have hlog : sys.log ++ [(call, call.result sys.server.objects)] =
              (first ++ (call', outcome) :: last) ++ [entry] := by
            rw [List.append_assoc]
            exact hlog
          exact h.correct first call' outcome last
            (List.append_inj' hlog rfl).1 }

/-- Between two actions nothing is under way, and nothing is readable. -/
theorem idle_of_run {nodes : List (Bytes × Bytes)} {acts : List Act}
    (h : Run step Answerable (start nodes) acts sys) :
    sys.Idle ∧ sys.readable = [] := by
  refine Run.invariant (I := fun sys => sys.Idle ∧ sys.readable = []) ?_ h
    ⟨.start nodes, rfl⟩
  rintro sys a sys' ⟨hidle, hquiet⟩ hok hstep
  cases a with
  | connect =>
      rw [step, Option.map_eq_some_iff] at hstep
      obtain ⟨server, hserver, rfl⟩ := hstep
      have hidle' := (hidle.accept hserver).setClient sys.server.accepted true
      refine ⟨hidle', hidle'.quiet_iff.mpr fun c hmem => ?_⟩
      cases hserver
      simp only [LocatorSys.setClient]
      split
      · rfl
      · next hc =>
          rcases List.mem_append.mp hmem with hmem | hmem
          · exact hidle.quiet_iff.mp hquiet c hmem
          · rw [List.mem_singleton.mp hmem] at hc
            exact absurd rfl hc
  | call i call =>
      simp only [step] at hstep
      split at hstep
      · next hguard =>
          cases hstep
          exact ⟨(hidle.call hquiet hok.2 hguard.1 hguard.2 hok.1).rest,
            rest_quiet _⟩
      · cases hstep
  | leave i =>
      simp only [step] at hstep
      split at hstep
      · cases hstep
        rw [hidle.clients i]
        exact ⟨(hidle.setClient i false).rest, rest_quiet _⟩
      · cases hstep

end LocatorSys

/-! ## The result -/

/-- As long as no string of a call is empty and its caller has not been dropped
by the server, the locator returns what has been registered: every registration
completes, every name registered is resolved to the attributes of its last
registration, and between two calls nothing is left over at either end of a
connection. -/
theorem resolve_returns_registered {nodes : List (Bytes × Bytes)}
    {acts : List LocatorSys.Act} {sys : LocatorSys}
    (h : Run LocatorSys.step LocatorSys.Answerable (LocatorSys.start nodes)
      acts sys) :
    (∀ before call outcome after,
      sys.log = before ++ (call, outcome) :: after →
        Correct before call outcome) ∧
      (∀ c ∈ sys.server.socketList, c.2.input = [] ∧ c.2.output = []) ∧
      ∀ i, (sys.clients i).socket.input = [] := by
  have hidle := (LocatorSys.idle_of_run h).1
  refine ⟨hidle.correct, fun c hmem => ?_, fun i => ?_⟩
  · rw [hidle.sockets c hmem]
    exact ⟨rfl, rfl⟩
  · rw [hidle.clients i]

/-- A client registers an object twice and resolves it; another one asks for a
name that is not registered. -/
theorem resolve_returns_registered_twice :
    ∃ sys, Run LocatorSys.step LocatorSys.Answerable (LocatorSys.start [])
        [.connect,
          .call 0 (.register [97] (AttrList.insertAll ∅ [([107], [118])])),
          .call 0 (.register [97] (AttrList.insertAll ∅ [([107], [119])])),
          .connect, .call 0 (.resolve [97]), .call 1 (.resolve [98])] sys ∧
      sys.log.length = 4 ∧
      (∀ before call outcome after,
        sys.log = before ++ (call, outcome) :: after →
          Correct before call outcome) :=
  Run.exists_of_exec (by decide +kernel)
    fun _ hrun hlen => ⟨hlen, (resolve_returns_registered hrun).1⟩

/-- An attribute with an empty value passes the checks of the client, but the
server gives up the command, and the client aborts.  And a client that has been
silent while another one called is dropped, and aborts when it calls. -/
theorem registration_aborts :
    (∃ sys, Run LocatorSys.step Any (LocatorSys.start [])
        [.connect,
          .call 0 (.register [97] (AttrList.insertAll ∅ [([107], [])]))] sys ∧
      sys.log = [(.register [97] (AttrList.insertAll ∅ [([107], [])]),
        .aborted)]) ∧
    ∃ sys, Run LocatorSys.step Any (LocatorSys.start [])
        [.connect, .connect,
          .call 1 (.register [97] (AttrList.insertAll ∅ [([107], [118])])),
          .call 0 (.resolve [97])] sys ∧
      sys.log =
        [(.register [97] (AttrList.insertAll ∅ [([107], [118])]), .registered),
          (.resolve [97], .aborted)] :=
  ⟨Run.of_exec_any (by decide +kernel), Run.of_exec_any (by decide +kernel)⟩

end ZeroMQ
