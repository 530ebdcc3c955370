import Mathlib.Data.List.Sublists
import Mathlib.Logic.Function.Basic
import Trun.Scheduler.Service

/-!
# Messages to the steps that run

`send_scheduler_message` leaves a message with the worker that is to have it.  The worker fetches
its messages with a ping, hands each to the queue of the step that it is for, and the step may
respond; `get_scheduler_message_response` takes the response away again.  Pings fail, steps end and
workers are forgotten at any point in between.
-/

namespace Trun.Messages

abbrev MessageId := ℕ

/-- The arguments of `dispatch_scheduler_message`. -/
structure Mail where
  id : MessageId
  step : StepId
  content : String
  deriving DecidableEq

inductive RpcMessage where
  | dispatchSchedulerMessage (mail : Mail)
  | setWorkerProcesses (n : ℤ)
  deriving DecidableEq

/-- What a worker has of a step: nothing, a process without a queue, or one with a queue. -/
inductive Inbox where
  | notRunning
  | withoutQueue
  | queue (mails : List Mail)
  deriving DecidableEq

/-- What the scheduler keeps for the workers and, with the step objects of its table, for the
steps. -/
structure Post where
  rpcMessages : WorkerId → List RpcMessage := fun _ => []
  responses : StepId → Dict MessageId String := fun _ => ∅

/-- The scheduler, its workers, and what is under way between them. -/
structure Exchange where
  server : Scheduler
  post : Post := {}
  /-- The messages in the state file. -/
  saved : Option Post := none
  /-- The reply to a ping that has not arrived yet. -/
  pong : WorkerId → Option (List RpcMessage) := fun _ => none
  /-- What the keep-alive thread has left of the last reply. -/
  handling : WorkerId → List RpcMessage := fun _ => []
  workerProcesses : WorkerId → ℤ := fun _ => 1
  inbox : WorkerId → StepId → Inbox := fun _ _ => .notRunning
  /-- The messages that the code of a running step has taken out of its queue. -/
  inHand : WorkerId → StepId → List Mail := fun _ _ => []
  /-- History variables that no function reads. -/
  sent : WorkerId → List Mail := fun _ => []
  taken : WorkerId → StepId → List Mail := fun _ _ => []

inductive Act where
  /-- A request that has nothing to do with messages. -/
  | request (event : Event)
  | sends (moment : Moment) (worker : WorkerId) (mail : Mail)
  | setsProcesses (moment : Moment) (worker : WorkerId) (n : ℤ)
  | pings (moment : Moment) (worker : WorkerId)
  /-- The ping of a worker fails after it was served. -/
  | loses (worker : WorkerId)
  | receives (worker : WorkerId)
  /-- `_handle_rpc_message`. -/
  | handles (moment : Moment) (worker : WorkerId)
  | starts (worker : WorkerId) (step : StepId) (acceptsMessages : Bool)
  | takes (worker : WorkerId) (step : StepId)
  | responds (worker : WorkerId) (step : StepId) (id : MessageId) (response : String)
  | ends (worker : WorkerId) (step : StepId)
  /-- `get_scheduler_message_response`. -/
  | asks (step : StepId) (id : MessageId)

/-- The state file is read. -/
def Act.loads : Act → Prop
  | .request event => event.request = .load
  | _ => False

/-- The request prunes the worker, whatever object `get_work` may make for it afterwards. -/
def prunesWorker (env : Env) (s : Scheduler) (event : Event) (worker : WorkerId) : Bool :=
  env.prunes event && (s.workerAt worker).prune env.config event.moment.now

/-- The object of the worker is the same one after the request. -/
def keepsWorker (env : Env) (s : Scheduler) (event : Event) (worker : WorkerId) : Bool :=
  s.activeWorkers.contains worker && !prunesWorker env s event worker &&
    (env.after s event).activeWorkers.contains worker

/-- What is left when a request drops the objects of workers and steps from the tables. -/
def Post.survivors (env : Env) (post : Post) (s : Scheduler) (event : Event) : Post where
  rpcMessages := fun worker =>
    if keepsWorker env s event worker then post.rpcMessages worker else []
  responses := fun id =>
    if s.steps.get? id = (env.after s event).steps.get? id then post.responses id else ∅

def Post.addRpcMessage (post : Post) (worker : WorkerId) (message : RpcMessage) : Post :=
  { post with
    rpcMessages := Function.update post.rpcMessages worker
      (post.rpcMessages worker ++ [message]) }

/-- The second half of `fetch_rpc_messages`. -/
def Post.clear (post : Post) (worker : WorkerId) : Post :=
  { post with rpcMessages := Function.update post.rpcMessages worker [] }

def Post.setResponses (post : Post) (id : StepId) (responses : Dict MessageId String) : Post :=
  { post with responses := Function.update post.responses id responses }

namespace Exchange

variable (env : Env) (sendMessages : Bool)

/-- A request is served, and messages go with the objects that hold them. -/
def served (s : Exchange) (event : Event) : Exchange :=
  let server := env.after s.server event
  let post := s.post.survivors env s.server event
  match event.request with
  | .ping worker => { s with server := server, post := post.clear worker }
  | .dump => { s with server := server, post := post, saved := some post }
  | .load => { s with server := server, post := s.saved.getD post }
  | _ => { s with server := server, post := post }

def setInbox (s : Exchange) (worker : WorkerId) (step : StepId) (inbox : Inbox) : Exchange :=
  { s with
    inbox := Function.update s.inbox worker (Function.update (s.inbox worker) step inbox) }

def dispatchSchedulerMessage (s : Exchange) (worker : WorkerId) (mail : Mail) : Exchange :=
  match s.inbox worker mail.step with
  | .queue mails => s.setInbox worker mail.step (.queue (mails ++ [mail]))
  | .withoutQueue | .notRunning => s

def setWorkerProcesses (s : Exchange) (moment : Moment) (worker : WorkerId) (n : ℤ) : Exchange :=
  let processes := max 1 n
  { s.served env ⟨moment, .addWorker worker { workers := some processes }⟩ with
    workerProcesses := Function.update s.workerProcesses worker processes }

/-- The answer to `get_scheduler_message_response`. -/
def answer (s : Exchange) (step : StepId) (id : MessageId) : Option String :=
  if s.server.steps.contains step then (s.post.responses step).get? id else none

/-- What an act does.  It does nothing where the party is not ready for it. -/
def after (s : Exchange) : Act → Exchange
  | .request event => s.served env event
  | .sends moment worker mail =>
      if sendMessages then
        { s with server := s.server.ensureWorker moment.now worker
                 post := s.post.addRpcMessage worker (.dispatchSchedulerMessage mail)
                 sent := Function.update s.sent worker (s.sent worker ++ [mail]) }
      else s
  | .setsProcesses moment worker n =>
      { s with server := s.server.ensureWorker moment.now worker
               post := s.post.addRpcMessage worker (.setWorkerProcesses n) }
  | .pings moment worker =>
      -- the keep-alive thread sends no ping before it is done with the reply to the last one
      if (s.pong worker).isNone && (s.handling worker).isEmpty then
        let ping : Event := ⟨moment, .ping worker⟩
        let messages := (s.post.survivors env s.server ping).rpcMessages worker
        { s.served env ping with pong := Function.update s.pong worker (some messages) }
      else s
  | .loses worker => { s with pong := Function.update s.pong worker none }
  | .receives worker =>
      match s.pong worker with
      | some messages =>
          { s with pong := Function.update s.pong worker none
                   handling := Function.update s.handling worker messages }
      | none => s
  | .handles moment worker =>
      match s.handling worker with
      | [] => s
      | message :: rest =>
          let s := { s with handling := Function.update s.handling worker rest }
          match message with
          | .dispatchSchedulerMessage mail => s.dispatchSchedulerMessage worker mail
          | .setWorkerProcesses n => s.setWorkerProcesses env moment worker n
  | .starts worker step acceptsMessages =>
      { s.setInbox worker step (if acceptsMessages then .queue [] else .withoutQueue) with
        inHand := Function.update s.inHand worker (Function.update (s.inHand worker) step []) }
  | .takes worker step =>
      match s.inbox worker step with
      | .queue (mail :: rest) =>
          { s.setInbox worker step (.queue rest) with
            inHand := Function.update s.inHand worker
              (Function.update (s.inHand worker) step (s.inHand worker step ++ [mail]))
            taken := Function.update s.taken worker
              (Function.update (s.taken worker) step (s.taken worker step ++ [mail])) }
      | _ => s
  | .responds worker step id response =>
      -- `add_scheduler_message_response`, by `SchedulerMessage.respond` of a message in hand
      if (s.inHand worker step).any (·.id = id) && s.server.steps.contains step then
        { s with post := s.post.setResponses step ((s.post.responses step).set id response) }
      else s
  | .ends worker step =>
      { s.setInbox worker step .notRunning with
        inHand := Function.update s.inHand worker (Function.update (s.inHand worker) step []) }
  | .asks step id =>
      if s.server.steps.contains step then
        { s with post := s.post.setResponses step ((s.post.responses step).erase id) }
      else s

end Exchange

end Trun.Messages
