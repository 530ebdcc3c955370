import Mathlib.Algebra.Ring.Nat
import Mathlib.Data.List.Sort
import Mathlib.Data.Prod.Lex
import Mathlib.Data.String.Basic
import Trun.Python.OrderedSet
import Trun.Python.Slice
import Trun.Scheduler.Types

/-!
# The batch notifier

The scheduler's notifier counts failures, disables and scheduling failures for
each owner and each key, and mails the counts to the owners from time to time.
Mails go out owner by owner, and the delivery to any of them may raise.
-/

namespace Trun.Notification

inductive BatchMode where
  | all
  | family
  | unbatchedParams
  deriving DecidableEq

/-- The configuration of the `[batch-notifier]` section, and what is read of `[email]`. -/
structure Config where
  /-- In minutes. -/
  emailInterval : Int := 60
  batchMode : BatchMode := .unbatchedParams
  errorLines : Int := 20
  errorMessages : Int := 1
  groupByErrorMessages : Bool := true
  html : Bool := false
  receiver : Option String := none
  sender : String := ""

/-- What is counted. -/
inductive Kind where
  | failure
  | disable
  | schedulingFail
  deriving DecidableEq

abbrev Counter := Dict String ℕ

/-- The tuple that a mail shows for a key. -/
structure StepCounts where
  name : String
  failures : ℕ
  disables : ℕ
  schedulingFails : ℕ
  deriving DecidableEq

structure Mail where
  owner : String
  steps : List StepCounts
  subject : String
  body : String
  sender : String

structure BatchNotifier where
  failCounts : Dict String Counter := ∅
  disabledCounts : Dict String Counter := ∅
  schedulingFailCounts : Dict String Counter := ∅
  /-- The explanations of each `ExplQueue`, the oldest first. -/
  failExpls : Dict String (Dict String (List String)) := ∅
  nextSend : Time

/-! ## Texts -/

def rstrip (text : String) : String :=
  String.ofList (text.toList.reverse.dropWhile Char.isWhitespace).reverse

/-- `_plural_format`, for a noun that takes an `s`. -/
def pluralFormat (noun : String) (number : ℕ) : String :=
  let plural := if number = 1 then "" else "s"
  if number = 0 then "" else s!"{number} {noun}{plural}"

/-- `', '.join(filter(None, …))` of the counts. -/
def countText (failures disables schedulingFails : ℕ) : String :=
  ", ".intercalate (List.filter (· ≠ "")
    [pluralFormat "failure" failures, pluralFormat "disable" disables,
      pluralFormat "scheduling failure" schedulingFails])

namespace Config

variable (config : Config)

def defaultOwner : List String :=
  match config.receiver with
  | none => []
  | some receiver => (receiver.splitOn ",").filter (· ≠ "")

def key (stepName family : String) (unbatchedArgs : Dict String String) : String :=
  match config.batchMode with
  | .all => stepName
  | .family => family
  | .unbatchedParams =>
      let params := unbatchedArgs.entries.map fun arg => s!"{arg.1}={arg.2}"
      family ++ "(" ++ ", ".intercalate params ++ ")"

def formatExpl (expl : String) : String :=
  let lines := sliceFrom ((rstrip expl).splitOn "\n") (-config.errorLines)
  if config.html then "<pre>" ++ "\n".intercalate lines ++ "</pre>"
  else "\n" ++ "\n".intercalate (lines.map fun line => "      " ++ line)

def explBody (expls : List String) : String :=
  let lines := expls.map config.formatExpl
  "\n".intercalate (if lines ≠ [] ∧ !config.html then lines ++ [""] else lines)

def formatStep (step : StepCounts) : String :=
  let counts := countText step.failures step.disables step.schedulingFails
  s!"{step.name} ({counts})"

def explsKey (steps : List StepCounts) : ℤ ×ₗ ℤ ×ₗ String :=
  let failures := (steps.map fun step => step.failures + step.schedulingFails).sum
  let disables := (steps.map StepCounts.disables).sum
  let minName := (steps.map StepCounts.name).min?.getD ""
  toLex (-(failures : ℤ), toLex (-(disables : ℤ), minName))

def formatSteps (steps : List StepCounts) : String :=
  let lines := (steps.insertionSort fun a b => explsKey [a] ≤ explsKey [b]).map formatStep
  if config.html then "<li>" ++ "\n<br>".intercalate lines else "- " ++ "\n  ".intercalate lines

def stepExplGroups (expls : List (StepCounts × String)) : List (List StepCounts × String) :=
  if !config.groupByErrorMessages then expls.map fun entry => ([entry.1], entry.2)
  else
    let groups := expls.foldl
      (fun (groups : Dict String (List StepCounts)) entry =>
        groups.modify entry.2 [] (· ++ [entry.1])) ∅
    groups.entries.map fun group => (group.2, group.1)

/-- The text that `_email_body` makes of the counts. -/
def bodyText (expls : List (StepCounts × String)) : String :=
  let groups := (config.stepExplGroups expls).insertionSort fun a b =>
    explsKey a.1 ≤ explsKey b.1
  let lines := groups.flatMap fun group => [config.formatSteps group.1, group.2]
  let body := rstrip ("\n".intercalate (lines.filter (· ≠ "")))
  if config.html then s!"<ul>\n{body}\n</ul>" else body

def nextSend (now : Time) : Time := now + 60 * config.emailInterval

end Config

namespace BatchNotifier

/-- The notifier of `__init__`. -/
def start (config : Config) (now : Time) : BatchNotifier where
  nextSend := config.nextSend now

/-! ## Counting -/

/-- `self._…_counts[owner][key] += 1`. -/
def bump (n : BatchNotifier) (kind : Kind) (owner key : String) : BatchNotifier :=
  let change (counts : Dict String Counter) := counts.modify owner ∅ (·.modify key 0 (· + 1))
  match kind with
  | .failure => { n with failCounts := change n.failCounts }
  | .disable => { n with disabledCounts := change n.disabledCounts }
  | .schedulingFail => { n with schedulingFailCounts := change n.schedulingFailCounts }

/-- `self._fail_counts[owner].setdefault(key, 0)`. -/
def ensure (n : BatchNotifier) (owner key : String) : BatchNotifier :=
  { n with failCounts := n.failCounts.modify owner ∅ fun counts =>
      if counts.contains key then counts else counts.set key 0 }

/-- `self._fail_expls[owner][key].enqueue(expl)`. -/
def enqueue (n : BatchNotifier) (config : Config) (owner key expl : String) : BatchNotifier :=
  let push (expls : List String) :=
    let pushed := expls.erase expl ++ [expl]
    if config.errorMessages < pushed.length then pushed.tail else pushed
  { n with failExpls := n.failExpls.modify owner ∅ (·.modify key [] push) }

/-- `add_failure`, for the owners in the order in which the set comes up with them. -/
def addFailure (config : Config) (key expl : String) (owners : List String) (n : BatchNotifier) :
    BatchNotifier :=
  owners.foldl (fun n owner => (n.bump .failure owner key).enqueue config owner key expl) n

def addDisable (key : String) (owners : List String) (n : BatchNotifier) : BatchNotifier :=
  owners.foldl (fun n owner => (n.bump .disable owner key).ensure owner key) n

def addSchedulingFail (config : Config) (key expl : String) (owners : List String)
    (n : BatchNotifier) : BatchNotifier :=
  owners.foldl
    (fun n owner =>
      ((n.bump .schedulingFail owner key).enqueue config owner key expl).ensure owner key) n

/-! ## Sending -/

/-- The counts of the keys of `fail_counts`, and the texts of their explanations. -/
def expls (n : BatchNotifier) (config : Config) (owner : String) (failCounts : Counter) :
    List (StepCounts × String) :=
  failCounts.entries.map fun entry =>
    (⟨entry.1, entry.2, (n.disabledCounts.getD owner ∅).getD entry.1 0,
        (n.schedulingFailCounts.getD owner ∅).getD entry.1 0⟩,
      config.explBody ((n.failExpls.getD owner ∅).getD entry.1 []))

/-- The mail of `_send_email`, unless there is nothing to report. -/
def mail (n : BatchNotifier) (config : Config) (owner : String) (failCounts : Counter) :
    Option Mail :=
  let counts := countText failCounts.values.sum (n.disabledCounts.getD owner ∅).values.sum
    (n.schedulingFailCounts.getD owner ∅).values.sum
  if counts = "" then none
  else
    let start := if owner ∈ config.defaultOwner then "" else "Your steps have "
    let expls := n.expls config owner failCounts
    some
      { owner := owner
        steps := expls.map Prod.fst
        subject := s!"Trun: {start}{counts} in the last {config.emailInterval} minutes"
        body := config.bodyText expls
        sender := config.sender }

/-- The loop of `send_email`: what is delivered, until a delivery raises. -/
def deliver (n : BatchNotifier) (config : Config) (raises : String → Bool) :
    List (String × Counter) → List Mail × Bool
  | [] => ([], false)
  | (owner, failures) :: rest =>
    match n.mail config owner failures with
    | none => deliver n config raises rest
    | some mail =>
      if raises owner then ([], true)
      else
        let (mails, raised) := deliver n config raises rest
        (mail :: mails, raised)

/-- `send_email`: the mails that were delivered, whether it raises, and the notifier that the
`finally` block leaves. -/
def sendEmail (n : BatchNotifier) (config : Config) (now : Time) (raises : String → Bool) :
    (List Mail × Bool) × BatchNotifier :=
  (n.deliver config raises n.failCounts.entries, { nextSend := config.nextSend now })

end BatchNotifier

/-- A call of `add_failure`, `add_disable` or `add_scheduling_fail`. -/
structure Call where
  kind : Kind
  stepName : String
  family : String
  unbatchedArgs : Dict String String := ∅
  expl : String := ""
  owners : List String := []
  /-- The order in which the set of the owners comes up with them. -/
  order : HashOrder String := .insertion

inductive Event where
  | add (call : Call)
  /-- The delivery to some owners raises. -/
  | sendEmail (now : Time) (raises : String → Bool)
  | update (now : Time) (raises : String → Bool)

namespace Call

variable (config : Config) (call : Call)

def key : String := config.key call.stepName call.family call.unbatchedArgs

/-- `_owners`, as the loop goes over them. -/
def audience : List String :=
  call.order.arrange (OrderedSet.ofList (config.defaultOwner ++ call.owners)).elems

/-- What the call does. -/
def record (n : BatchNotifier) : BatchNotifier :=
  match call.kind with
  | .failure => n.addFailure config (call.key config) call.expl (call.audience config)
  | .disable => n.addDisable (call.key config) (call.audience config)
  | .schedulingFail =>
      n.addSchedulingFail config (call.key config) call.expl (call.audience config)

end Call

/-- A notifier, the mails that were delivered, and the calls since mails were last sent. -/
structure State where
  notifier : BatchNotifier
  mails : List Mail := []
  /-- No function reads it. -/
  pending : List Call := []

namespace State

/-- `send_email` is called now. -/
def sends (s : State) : Event → Bool
  | .add _ => false
  | .sendEmail _ _ => true
  | .update now _ => decide (s.notifier.nextSend ≤ now)

/-- What `send_email` does. -/
def send (config : Config) (s : State) (now : Time) (raises : String → Bool) : State :=
  let ((mails, _), notifier) := s.notifier.sendEmail config now raises
  { notifier := notifier, mails := s.mails ++ mails }

def after (config : Config) (s : State) : Event → State
  | .add call =>
      { s with notifier := call.record config s.notifier, pending := s.pending ++ [call] }
  | .sendEmail now raises => s.send config now raises
  | .update now raises => if s.notifier.nextSend ≤ now then s.send config now raises else s

def initial (config : Config) (now : Time) : State := ⟨.start config now, [], []⟩

end State

end Trun.Notification
