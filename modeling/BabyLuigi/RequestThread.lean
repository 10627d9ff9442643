import BabyLuigi.BlockingQueue
import BabyLuigi.ConcurrentShyguy

/-!
# The request thread

The thread that takes requests from the input queue and hands them to the
server, while the schedule thread starts executions of its own. Each command
holds the server's mutex from its start to its end.
-/

set_option autoImplicit false

namespace BabyLuigi

open ConcurrentShyguy

inductive RequestPhase where
  | loopHead
  | dequeuing
  | holding (request : ShyguyRequest)
  | processed
  | ended

/-- The commands the server has carried out: a request of the input queue, or an
execution that the schedule thread asked for. -/
inductive Carried where
  | answered (request : ShyguyRequest) (answer : CommandResultType)
  | scheduled (dag : ShyguyDag) (answer : CommandResultType)

/-- The log lists the newest command first. -/
structure RequestServer (Store : Type) where
  terminator : Bool
  ioQueue : BlockingQueue Unit ShyguyRequest
  phase : RequestPhase
  shyguy : ConcurrentShyguy Store
  carried : List Carried

/-- 50 ms in nanosecond ticks. -/
def requestTimeout : Int := 50 * 1000000

namespace RequestServer

variable {Store : Type}

def initial (storage : Option Store) (now : Int) : RequestServer Store where
  terminator := true
  ioQueue := .initial now
  phase := .loopHead
  shyguy := .initial storage
  carried := []

/-- One step of a thread. After a request the thread posts the next scheduled
DAG and starts an executioner, which leaves the server as it is. -/
inductive Step (server : RequestServer Store) : RequestServer Store → Prop where
  | submit (request : ShyguyRequest) {queue : BlockingQueue Unit ShyguyRequest} :
      server.ioQueue.Step (.enqueue request) queue → Step server { server with ioQueue := queue }
  | loadTrue {queue : BlockingQueue Unit ShyguyRequest} :
      server.phase = .loopHead → server.terminator = true →
      server.ioQueue.Step (.dequeueWait () requestTimeout) queue →
      Step server { server with phase := .dequeuing, ioQueue := queue }
  | loadFalse :
      server.phase = .loopHead → server.terminator = false →
      Step server { server with phase := .ended }
  | wait {queue : BlockingQueue Unit ShyguyRequest} :
      server.phase = .dequeuing → server.ioQueue.Step (.wait ()) queue →
      Step server { server with ioQueue := queue }
  | wake {queue : BlockingQueue Unit ShyguyRequest} :
      server.phase = .dequeuing → server.ioQueue.Step (.wake ()) queue →
      Step server { server with ioQueue := queue }
  | timeOut {queue : BlockingQueue Unit ShyguyRequest} :
      server.phase = .dequeuing → server.ioQueue.Step (.timeOut ()) queue →
      Step server { server with phase := .loopHead, ioQueue := queue }
  | take {request : ShyguyRequest} {queue : BlockingQueue Unit ShyguyRequest} :
      server.phase = .dequeuing → server.ioQueue.Step (.take () request) queue →
      Step server { server with phase := .holding request, ioQueue := queue }
  | process (environment : Environment Store) {request : ShyguyRequest}
      {shyguy : ConcurrentShyguy Store} {answer : CommandResultType} :
      server.phase = .holding request →
      process environment server.shyguy request = .ok (shyguy, answer) →
      Step server
        { server with
          phase := .processed
          shyguy := shyguy
          carried := .answered request answer :: server.carried }
  | notify : server.phase = .processed → Step server { server with phase := .loopHead }
  | executeAt (environment : Environment Store) (dag : ShyguyDag) (scheduledTime : Int)
      {shyguy : ConcurrentShyguy Store} {answer : CommandResultType} :
      executeAt environment server.shyguy dag scheduledTime = .ok (shyguy, answer) →
      Step server
        { server with shyguy := shyguy, carried := .scheduled dag answer :: server.carried }
  | stop : Step server { server with terminator := false }
  | tick (later : Int) {queue : BlockingQueue Unit ShyguyRequest} :
      server.ioQueue.Step (.tick later) queue → Step server { server with ioQueue := queue }

def Reachable (storage : Option Store) (now : Int) (server : RequestServer Store) : Prop :=
  Relation.ReflTransGen Step (initial storage now) server

end RequestServer

end BabyLuigi
