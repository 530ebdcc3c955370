import Trun.Scheduler.IndexRuns
import Trun.Scheduler.Messages

/-!
# How messages arrive

A message is in one place at a time, and no place lets a later message pass an earlier one.
-/

namespace Trun.Messages

def RpcMessage.mailFor (step : StepId) : RpcMessage → Option Mail
  | .dispatchSchedulerMessage mail => if mail.step = step then some mail else none
  | .setWorkerProcesses _ => none

def mailsFor (step : StepId) (messages : List RpcMessage) : List Mail :=
  messages.filterMap (·.mailFor step)

def Inbox.mails : Inbox → List Mail
  | .queue mails => mails
  | .notRunning | .withoutQueue => []

def Inbox.isQueue : Inbox → Bool
  | .queue _ => true
  | .notRunning | .withoutQueue => false

@[simp] theorem mailsFor_nil (step : StepId) : mailsFor step [] = [] := rfl

@[simp] theorem mailsFor_append (step : StepId) (front back : List RpcMessage) :
    mailsFor step (front ++ back) = mailsFor step front ++ mailsFor step back :=
  List.filterMap_append

theorem mailsFor_cons (step : StepId) (message : RpcMessage) (rest : List RpcMessage) :
    mailsFor step (message :: rest) = (message.mailFor step).toList ++ mailsFor step rest := by
  cases h : message.mailFor step with
  | none => exact List.filterMap_cons_none h
  | some mail => exact List.filterMap_cons_some h

namespace Exchange

variable {env : Env} {sendMessages : Bool} {s : Exchange} {act : Act} {w worker : WorkerId}
  {step target : StepId}

/-- The messages of a worker for a step that the step has taken, that wait in its queue, and that
are on their way to it, the oldest first. -/
def underWay (s : Exchange) (w : WorkerId) (step : StepId) : List Mail :=
  s.taken w step ++ ((s.inbox w step).mails ++ (mailsFor step (s.handling w) ++
    (mailsFor step ((s.pong w).getD []) ++ mailsFor step (s.post.rpcMessages w))))

def sentFor (s : Exchange) (w : WorkerId) (step : StepId) : List Mail :=
  (s.sent w).filter (·.step = step)

/-- The keep-alive thread waits for no reply while it handles one. -/
def ThreadsAreBusy (s : Exchange) : Prop := ∀ w, s.handling w ≠ [] → s.pong w = none

def posted (sendMessages : Bool) (w : WorkerId) (step : StepId) : Act → List Mail
  | .sends _ worker mail =>
      if sendMessages = true ∧ worker = w ∧ mail.step = step then [mail] else []
  | _ => []

/-- The act takes nothing from a worker and a step of it: the scheduler keeps the worker and does
not prune it, the step runs and has a queue, and no reply to a ping is lost. -/
def Spares (env : Env) (sendMessages : Bool) (w : WorkerId) (step : StepId) (s : Exchange)
    (act : Act) : Prop :=
  s.server.activeWorkers.contains w ∧
  (s.after env sendMessages act).server.activeWorkers.contains w ∧
  (s.inbox w step).isQueue ∧
  match act with
  | .request event => event.request ≠ .ping w ∧ prunesWorker env s.server event w = false
  | .loses worker => worker ≠ w
  | .starts worker step' _ | .ends worker step' => (worker, step') ≠ (w, step)
  | _ => True

/-- What an act does to the messages under way for one step. -/
structure Forwards (env : Env) (sendMessages : Bool) (s : Exchange) (act : Act) (w : WorkerId)
    (step : StepId) : Prop where
  order : ((s.after env sendMessages act).underWay w step).Sublist
    (s.underWay w step ++ posted sendMessages w step act)
  all : s.Spares env sendMessages w step act → (s.after env sendMessages act).underWay w step =
    s.underWay w step ++ posted sendMessages w step act

theorem forwards_of_eq (h : (s.after env sendMessages act).underWay w step =
    s.underWay w step ++ posted sendMessages w step act) :
    Forwards env sendMessages s act w step :=
  ⟨h ▸ List.Sublist.refl _, fun _ => h⟩

/-- Nothing new is under way, and what is not any more was taken from the worker. -/
theorem forwards_of_fewer (hposted : posted sendMessages w step act = [])
    (htaken : (s.after env sendMessages act).taken w step = s.taken w step)
    (hinbox : (s.after env sendMessages act).inbox w step = s.inbox w step ∨
      ((s.after env sendMessages act).inbox w step).mails = [] ∧
        ¬s.Spares env sendMessages w step act)
    (hhandling : mailsFor step ((s.after env sendMessages act).handling w) =
      mailsFor step (s.handling w))
    (hpong : (s.after env sendMessages act).pong w = s.pong w ∨
      (s.after env sendMessages act).pong w = none ∧ ¬s.Spares env sendMessages w step act)
    (hmessages : (s.after env sendMessages act).post.rpcMessages w = s.post.rpcMessages w ∨
      (s.after env sendMessages act).post.rpcMessages w = [] ∧
        ¬s.Spares env sendMessages w step act) :
    Forwards env sendMessages s act w step := by
  constructor
  · unfold underWay
    rw [hposted, List.append_nil, htaken, hhandling]
    refine (List.Sublist.refl _).append (List.Sublist.append ?_ ((List.Sublist.refl _).append
      (List.Sublist.append ?_ ?_)))
    · obtain h | ⟨h, -⟩ := hinbox <;> rw [h]
      exact List.nil_sublist _
    · obtain h | ⟨h, -⟩ := hpong <;> rw [h]
      exact List.nil_sublist _
    · obtain h | ⟨h, -⟩ := hmessages <;> rw [h]
      exact List.nil_sublist _
  · intro hspares
    have hinbox := hinbox.resolve_right fun h => h.2 hspares
    have hpong := hpong.resolve_right fun h => h.2 hspares
    have hmessages := hmessages.resolve_right fun h => h.2 hspares
    unfold underWay
    rw [hposted, List.append_nil, htaken, hinbox, hhandling, hpong, hmessages]

/-- What a served request leaves of the messages of a worker. -/
theorem served_rpcMessages (event : Event) (hload : event.request ≠ .load) :
    (s.served env event).post.rpcMessages w = s.post.rpcMessages w ∨
      (s.served env event).post.rpcMessages w = [] := by
  have hsurvivors :
      (s.post.survivors env s.server event).rpcMessages w = s.post.rpcMessages w ∨
        (s.post.survivors env s.server event).rpcMessages w = [] := by
    unfold Post.survivors
    dsimp only
    split
    · exact .inl rfl
    · exact .inr rfl
  unfold served
  split
  · rename_i worker hping
    by_cases hw : w = worker
    · subst hw
      exact .inr (by simp [Post.clear])
    · simpa [Post.clear, hw] using hsurvivors
  · exact hsurvivors
  · rename_i h
    exact (hload h).elim
  · exact hsurvivors

theorem served_server (env : Env) (s : Exchange) (event : Event) :
    (s.served env event).server = env.after s.server event := by
  unfold served
  split <;> rfl

/-- A worker that is in the table before and after a request that does not prune it keeps its
messages, unless it asks for them. -/
theorem served_rpcMessages_of_contains (event : Event) (hload : event.request ≠ .load)
    (hping : event.request ≠ .ping w) (hbefore : s.server.activeWorkers.contains w)
    (hprune : prunesWorker env s.server event w = false)
    (hafter : (s.served env event).server.activeWorkers.contains w) :
    (s.served env event).post.rpcMessages w = s.post.rpcMessages w := by
  rw [served_server] at hafter
  have hsurvivors : (s.post.survivors env s.server event).rpcMessages w =
      s.post.rpcMessages w := by
    simp [Post.survivors, keepsWorker, hbefore, hprune, hafter]
  unfold served
  split
  · rename_i worker h
    have hw : w ≠ worker := fun hw => hping (hw ▸ h)
    simpa [Post.clear, hw] using hsurvivors
  · exact hsurvivors
  · rename_i h
    exact (hload h).elim
  · exact hsurvivors

/-- A request touches neither the workers' sides nor what is under way between. -/
theorem served_taken (env : Env) (s : Exchange) (event : Event) :
    (s.served env event).taken = s.taken := by
  unfold served
  split <;> rfl

theorem served_inbox (env : Env) (s : Exchange) (event : Event) :
    (s.served env event).inbox = s.inbox := by
  unfold served
  split <;> rfl

theorem served_handling (env : Env) (s : Exchange) (event : Event) :
    (s.served env event).handling = s.handling := by
  unfold served
  split <;> rfl

theorem served_pong (env : Env) (s : Exchange) (event : Event) :
    (s.served env event).pong = s.pong := by
  unfold served
  split <;> rfl

theorem served_sent (env : Env) (s : Exchange) (event : Event) :
    (s.served env event).sent = s.sent := by
  unfold served
  split <;> rfl

theorem forwards_request {event : Event} (hload : event.request ≠ .load) :
    Forwards env sendMessages s (.request event) w step := by
  apply forwards_of_fewer rfl
  · exact congrFun (congrFun (served_taken env s event) w) step
  · exact .inl (congrFun (congrFun (served_inbox env s event) w) step)
  · exact congrArg (mailsFor step) (congrFun (served_handling env s event) w)
  · exact .inl (congrFun (served_pong env s event) w)
  · by_cases hspares : s.Spares env sendMessages w step (.request event)
    · obtain ⟨hbefore, hafter, -, hping, hprune⟩ := hspares
      exact .inl (served_rpcMessages_of_contains event hload hping hbefore hprune hafter)
    · exact (served_rpcMessages event hload).imp_right (⟨·, hspares⟩)

theorem forwards_sends {moment : Moment} {mail : Mail} :
    Forwards env sendMessages s (.sends moment worker mail) w step := by
  apply forwards_of_eq
  cases sendMessages with
  | false => simp [after, posted]
  | true =>
      by_cases hw : worker = w
      · subst hw
        have hmail : mailsFor step [.dispatchSchedulerMessage mail] =
            posted true worker step (.sends moment worker mail) := by
          by_cases hstep : mail.step = step <;> simp [mailsFor, RpcMessage.mailFor, posted, hstep]
        simp only [after, if_true, underWay, Post.addRpcMessage, Function.update_self,
          mailsFor_append, hmail, List.append_assoc]
      · simp [after, posted, underWay, Post.addRpcMessage, hw, Function.update_of_ne (Ne.symm hw)]

theorem forwards_setsProcesses {moment : Moment} {n : ℤ} :
    Forwards env sendMessages s (.setsProcesses moment worker n) w step := by
  apply forwards_of_eq
  by_cases hw : w = worker
  · subst hw
    simp [after, posted, underWay, Post.addRpcMessage, mailsFor, RpcMessage.mailFor]
  · simp [after, posted, underWay, Post.addRpcMessage, Function.update_of_ne hw]

/-- An act that does nothing. -/
theorem forwards_of_same (hposted : posted sendMessages w step act = [])
    (hsame : s.after env sendMessages act = s) : Forwards env sendMessages s act w step :=
  forwards_of_eq (by rw [hsame, hposted, List.append_nil])

theorem forwards_pings {moment : Moment} :
    Forwards env sendMessages s (.pings moment worker) w step := by
  by_cases hidle : (s.pong worker).isNone && (s.handling worker).isEmpty
  swap
  · exact forwards_of_same rfl (by simp only [after]; rw [if_neg hidle])
  have hafter : s.after env sendMessages (.pings moment worker) =
      { s.served env ⟨moment, .ping worker⟩ with
        pong := Function.update s.pong worker
          (some ((s.post.survivors env s.server ⟨moment, .ping worker⟩).rpcMessages worker)) } := by
    simp only [after]
    rw [if_pos hidle]
  by_cases hw : w = worker
  · subst hw
    rw [Bool.and_eq_true, Option.isNone_iff_eq_none, List.isEmpty_iff] at hidle
    obtain ⟨hpong, hhandling⟩ := hidle
    -- the messages go from the scheduler to the reply
    have hunder : (s.after env sendMessages (.pings moment w)).underWay w step =
        s.taken w step ++ ((s.inbox w step).mails ++ mailsFor step
          ((s.post.survivors env s.server ⟨moment, .ping w⟩).rpcMessages w)) := by
      rw [hafter]
      simp [underWay, served, Post.clear, hhandling]
    have hbefore : s.underWay w step = s.taken w step ++ ((s.inbox w step).mails ++
        mailsFor step (s.post.rpcMessages w)) := by
      simp [underWay, hpong, hhandling]
    have hposted : posted sendMessages w step (.pings moment w) = [] := rfl
    refine ⟨?_, fun hspares => ?_⟩
    · rw [hunder, hbefore, hposted, List.append_nil]
      refine (List.Sublist.refl _).append ((List.Sublist.refl _).append ?_)
      unfold Post.survivors
      dsimp only
      split
      · exact List.Sublist.refl _
      · exact List.nil_sublist _
    · rw [hunder, hbefore, hposted, List.append_nil]
      have hkept : (env.after s.server ⟨moment, .ping w⟩).activeWorkers.contains w := by
        rw [← served_server env s ⟨moment, .ping w⟩]
        have := hspares.2.1
        rwa [hafter] at this
      have hprune : prunesWorker env s.server ⟨moment, .ping w⟩ w = false := rfl
      simp [Post.survivors, keepsWorker, hspares.1, hprune, hkept]
  · apply forwards_of_fewer rfl <;> rw [hafter]
    · exact congrFun (congrFun (served_taken env s ⟨moment, .ping worker⟩) w) step
    · exact .inl (congrFun (congrFun (served_inbox env s ⟨moment, .ping worker⟩) w) step)
    · exact congrArg (mailsFor step) (congrFun (served_handling env s ⟨moment, .ping worker⟩) w)
    · exact .inl (Function.update_of_ne hw ..)
    · by_cases hspares : s.Spares env sendMessages w step (.pings moment worker)
      · refine .inl (served_rpcMessages_of_contains ⟨moment, .ping worker⟩ (by rintro ⟨⟩) ?_
          hspares.1 rfl ?_)
        · intro hping
          exact hw (Request.ping.inj hping).symm
        · have := hspares.2.1
          rwa [hafter] at this
      · exact (served_rpcMessages ⟨moment, .ping worker⟩ (by rintro ⟨⟩)).imp_right (⟨·, hspares⟩)

theorem forwards_loses : Forwards env sendMessages s (.loses worker) w step := by
  refine forwards_of_fewer rfl rfl (.inl rfl) rfl ?_ (.inl rfl)
  by_cases hw : w = worker
  · subst hw
    exact .inr ⟨Function.update_self .., fun hspares => hspares.2.2.2 rfl⟩
  · exact .inl (Function.update_of_ne hw ..)

theorem forwards_receives (hbusy : s.ThreadsAreBusy) :
    Forwards env sendMessages s (.receives worker) w step := by
  apply forwards_of_eq
  cases hpong : s.pong worker with
  | none => simp [after, hpong, posted]
  | some messages =>
      by_cases hw : w = worker
      · subst hw
        have hhandling : s.handling w = [] := by
          by_contra h
          rw [hbusy w h] at hpong
          cases hpong
        simp [after, hpong, posted, underWay, hhandling]
      · simp [after, hpong, posted, underWay, Function.update_of_ne hw]

theorem setInbox_self (inbox : Inbox) : (s.setInbox w step inbox).inbox w step = inbox := by
  simp [setInbox]

theorem setInbox_other {inbox : Inbox} (hother : (worker, target) ≠ (w, step)) :
    (s.setInbox worker target inbox).inbox w step = s.inbox w step := by
  by_cases hw : w = worker
  · subst hw
    have hstep : step ≠ target := fun h => hother (by rw [h])
    simp [setInbox, Function.update_of_ne hstep]
  · simp [setInbox, Function.update_of_ne hw]

/-- The keep-alive thread has one message less to handle. -/
def handledOne (s : Exchange) (worker : WorkerId) (rest : List RpcMessage) : Exchange :=
  { s with handling := Function.update s.handling worker rest }

theorem underWay_handledOne {message : RpcMessage} {rest : List RpcMessage}
    (hhandling : s.handling worker = message :: rest)
    (hother : worker = w → message.mailFor step = none) :
    (s.handledOne worker rest).underWay w step = s.underWay w step := by
  by_cases hw : w = worker
  · subst hw
    simp [underWay, handledOne, hhandling, mailsFor_cons, hother rfl]
  · simp [underWay, handledOne, Function.update_of_ne hw]

theorem after_dispatch {moment : Moment} {mail : Mail} {rest : List RpcMessage}
    (hhandling : s.handling worker = .dispatchSchedulerMessage mail :: rest) :
    s.after env sendMessages (.handles moment worker) =
      (s.handledOne worker rest).dispatchSchedulerMessage worker mail := by
  simp only [after, hhandling]
  rfl

theorem after_setWorkerProcesses {moment : Moment} {n : ℤ} {rest : List RpcMessage}
    (hhandling : s.handling worker = .setWorkerProcesses n :: rest) :
    s.after env sendMessages (.handles moment worker) =
      (s.handledOne worker rest).setWorkerProcesses env moment worker n := by
  simp only [after, hhandling]
  rfl

theorem forwards_dispatch {moment : Moment} {mail : Mail} {rest : List RpcMessage}
    (hhandling : s.handling worker = .dispatchSchedulerMessage mail :: rest) :
    Forwards env sendMessages s (.handles moment worker) w step := by
  have hafter := @after_dispatch env sendMessages s worker moment mail rest hhandling
  have hposted : posted sendMessages w step (.handles moment worker) = [] := rfl
  by_cases hother : (worker, mail.step) ≠ (w, step)
  · have hmail : worker = w → (RpcMessage.dispatchSchedulerMessage mail).mailFor step = none := by
      rintro rfl
      exact if_neg fun h => hother (by rw [h])
    apply forwards_of_eq
    rw [hafter, hposted, List.append_nil, ← underWay_handledOne hhandling hmail]
    unfold dispatchSchedulerMessage
    split
    · rename_i mails _
      have hinbox := @setInbox_other (s.handledOne worker rest) w worker step mail.step
        (.queue (mails ++ [mail])) hother
      simp only [underWay, setInbox] at hinbox ⊢
      rw [hinbox]
    · rfl
    · rfl
  · obtain ⟨rfl, rfl⟩ := Prod.mk.inj (not_not.mp hother)
    have hmail : (RpcMessage.dispatchSchedulerMessage mail).mailFor mail.step = some mail :=
      if_pos rfl
    -- without a queue the message is dropped
    have hdropped : (s.inbox worker mail.step).isQueue = false →
        s.after env sendMessages (.handles moment worker) = s.handledOne worker rest →
        Forwards env sendMessages s (.handles moment worker) worker mail.step := by
      intro hqueue hsame
      refine ⟨?_, fun hspares => ?_⟩
      · rw [hsame, hposted, List.append_nil]
        simp only [underWay, handledOne, hhandling, mailsFor_cons, hmail, Function.update_self]
        exact (List.Sublist.refl _).append ((List.Sublist.refl _).append
          ((List.sublist_append_right _ _).append (List.Sublist.refl _)))
      · rw [hspares.2.2.1] at hqueue
        cases hqueue
    cases hinbox : s.inbox worker mail.step with
    | notRunning =>
        exact hdropped (by rw [hinbox]; rfl)
          (by rw [hafter]; simp only [dispatchSchedulerMessage, handledOne, hinbox])
    | withoutQueue =>
        exact hdropped (by rw [hinbox]; rfl)
          (by rw [hafter]; simp only [dispatchSchedulerMessage, handledOne, hinbox])
    | queue mails =>
        apply forwards_of_eq
        rw [hafter, hposted, List.append_nil]
        simp [dispatchSchedulerMessage, handledOne, underWay, hinbox, setInbox, Inbox.mails,
          hhandling, mailsFor_cons, hmail]

theorem forwards_handles {moment : Moment} :
    Forwards env sendMessages s (.handles moment worker) w step := by
  cases hhandling : s.handling worker with
  | nil => exact forwards_of_same rfl (by simp only [after, hhandling])
  | cons message rest =>
      cases message with
      | dispatchSchedulerMessage mail => exact forwards_dispatch hhandling
      | setWorkerProcesses n =>
          have hafter := @after_setWorkerProcesses env sendMessages s worker moment n rest hhandling
          let event : Event := ⟨moment, .addWorker worker { workers := some (max 1 n) }⟩
          apply forwards_of_fewer rfl <;> rw [hafter]
          · exact congrFun (congrFun (served_taken env (s.handledOne worker rest) event) w) step
          · exact .inl
              (congrFun (congrFun (served_inbox env (s.handledOne worker rest) event) w) step)
          · refine (congrArg (mailsFor step)
              (congrFun (served_handling env (s.handledOne worker rest) event) w)).trans ?_
            by_cases hw : w = worker
            · subst hw
              simp [handledOne, hhandling, mailsFor_cons, RpcMessage.mailFor]
            · simp [handledOne, Function.update_of_ne hw]
          · exact .inl (congrFun (served_pong env (s.handledOne worker rest) event) w)
          · by_cases hspares : s.Spares env sendMessages w step (.handles moment worker)
            · refine .inl (@served_rpcMessages_of_contains env (s.handledOne worker rest) w event
                (by rintro ⟨⟩) (by rintro ⟨⟩) hspares.1 rfl ?_)
              have := hspares.2.1
              rwa [hafter] at this
            · exact (@served_rpcMessages env (s.handledOne worker rest) w event
                (by rintro ⟨⟩)).imp_right (⟨·, hspares⟩)

theorem forwards_starts {acceptsMessages : Bool} :
    Forwards env sendMessages s (.starts worker target acceptsMessages) w step := by
  refine forwards_of_fewer rfl rfl ?_ rfl (.inl rfl) (.inl rfl)
  by_cases hother : (worker, target) ≠ (w, step)
  · exact .inl (setInbox_other hother)
  · obtain ⟨rfl, rfl⟩ := Prod.mk.inj (not_not.mp hother)
    refine .inr ⟨?_, fun hspares => hspares.2.2.2 rfl⟩
    rw [after, show (Exchange.setInbox s worker target _).inbox worker target = _ from
      setInbox_self _]
    cases acceptsMessages <;> rfl

theorem forwards_ends : Forwards env sendMessages s (.ends worker target) w step := by
  refine forwards_of_fewer rfl rfl ?_ rfl (.inl rfl) (.inl rfl)
  by_cases hother : (worker, target) ≠ (w, step)
  · exact .inl (setInbox_other hother)
  · obtain ⟨rfl, rfl⟩ := Prod.mk.inj (not_not.mp hother)
    refine .inr ⟨?_, fun hspares => hspares.2.2.2 rfl⟩
    exact congrArg Inbox.mails (setInbox_self _)

theorem forwards_takes : Forwards env sendMessages s (.takes worker target) w step := by
  cases hinbox : s.inbox worker target with
  | notRunning => exact forwards_of_same rfl (by simp only [after, hinbox])
  | withoutQueue => exact forwards_of_same rfl (by simp only [after, hinbox])
  | queue mails =>
      cases mails with
      | nil => exact forwards_of_same rfl (by simp only [after, hinbox])
      | cons mail rest =>
          apply forwards_of_eq
          simp only [after, hinbox, posted, List.append_nil]
          by_cases hother : (worker, target) ≠ (w, step)
          · have htaken : Function.update s.taken worker (Function.update (s.taken worker) target
                (s.taken worker target ++ [mail])) w step = s.taken w step := by
              by_cases hw : w = worker
              · subst hw
                have hstep : step ≠ target := fun h => hother (by rw [h])
                simp [Function.update_of_ne hstep]
              · simp [Function.update_of_ne hw]
            have hinbox' := @setInbox_other s w worker step target (.queue rest) hother
            simp only [underWay, htaken, setInbox] at hinbox' ⊢
            rw [hinbox']
          · obtain ⟨rfl, rfl⟩ := Prod.mk.inj (not_not.mp hother)
            simp [underWay, setInbox, hinbox, Inbox.mails]

theorem forwards_responds {id : MessageId} {response : String} :
    Forwards env sendMessages s (.responds worker target id response) w step := by
  apply forwards_of_eq
  simp only [after, posted, List.append_nil]
  split <;> rfl

theorem forwards_asks {id : MessageId} : Forwards env sendMessages s (.asks target id) w step := by
  apply forwards_of_eq
  simp only [after, posted, List.append_nil]
  split <;> rfl

/-- One act of any party. -/
theorem after_forwards (hbusy : s.ThreadsAreBusy) (hload : ¬act.loads) :
    Forwards env sendMessages s act w step := by
  cases act with
  | request event => exact forwards_request hload
  | sends moment worker mail => exact forwards_sends
  | setsProcesses moment worker n => exact forwards_setsProcesses
  | pings moment worker => exact forwards_pings
  | loses worker => exact forwards_loses
  | receives worker => exact forwards_receives hbusy
  | handles moment worker => exact forwards_handles
  | starts worker target acceptsMessages => exact forwards_starts
  | takes worker target => exact forwards_takes
  | responds worker target id response => exact forwards_responds
  | ends worker target => exact forwards_ends
  | asks target id => exact forwards_asks

/-- What an act does to the keep-alive threads. -/
theorem busy_of_same {s' : Exchange} (hbusy : s.ThreadsAreBusy)
    (hhandling : s'.handling = s.handling) (hpong : s'.pong = s.pong) : s'.ThreadsAreBusy := by
  intro w hw
  rw [hpong]
  exact hbusy w (by rwa [hhandling] at hw)

theorem after_busy (hbusy : s.ThreadsAreBusy) : (s.after env sendMessages act).ThreadsAreBusy := by
  cases act with
  | request event =>
      exact busy_of_same hbusy (served_handling env s event) (served_pong env s event)
  | sends moment worker mail =>
      simp only [after]
      split
      · exact hbusy
      · exact hbusy
  | setsProcesses moment worker n => exact hbusy
  | pings moment worker =>
      simp only [after]
      split
      · rename_i hidle
        intro w hw
        rw [show (served env s ⟨moment, .ping worker⟩).handling = s.handling from
          served_handling env s _] at hw
        by_cases hworker : w = worker
        · subst hworker
          rw [Bool.and_eq_true, List.isEmpty_iff] at hidle
          exact (hw hidle.2).elim
        · exact (Function.update_of_ne hworker ..).trans (hbusy w hw)
      · exact hbusy
  | loses worker =>
      intro w hw
      by_cases hworker : w = worker
      · subst hworker
        exact Function.update_self ..
      · exact (Function.update_of_ne hworker ..).trans (hbusy w hw)
  | receives worker =>
      cases hpong : s.pong worker with
      | none => simpa only [after, hpong] using hbusy
      | some messages =>
          simp only [after, hpong]
          intro w hw
          by_cases hworker : w = worker
          · subst hworker
            exact Function.update_self ..
          · simp only [Function.update_of_ne hworker] at hw
            exact (Function.update_of_ne hworker ..).trans (hbusy w hw)
  | handles moment worker =>
      cases hhandling : s.handling worker with
      | nil => simpa only [after, hhandling] using hbusy
      | cons message rest =>
          have hone : (s.handledOne worker rest).ThreadsAreBusy := by
            intro w hw
            by_cases hworker : w = worker
            · subst hworker
              exact hbusy w (by rw [hhandling]; exact List.cons_ne_nil _ _)
            · refine hbusy w ?_
              rwa [show (s.handledOne worker rest).handling w = s.handling w from
                Function.update_of_ne hworker ..] at hw
          cases message with
          | dispatchSchedulerMessage mail =>
              rw [after_dispatch hhandling]
              unfold dispatchSchedulerMessage
              split
              · exact hone
              · exact hone
              · exact hone
          | setWorkerProcesses n =>
              rw [after_setWorkerProcesses hhandling]
              exact busy_of_same hone (served_handling env (s.handledOne worker rest) _)
                (served_pong env (s.handledOne worker rest) _)
  | starts worker target acceptsMessages => exact hbusy
  | takes worker target =>
      simp only [after]
      split <;> exact hbusy
  | responds worker target id response =>
      simp only [after]
      split <;> exact hbusy
  | ends worker target => exact hbusy
  | asks target id =>
      simp only [after]
      split <;> exact hbusy

/-- Only `send_scheduler_message` adds to what was sent. -/
theorem sentFor_after : (s.after env sendMessages act).sentFor w step =
    s.sentFor w step ++ posted sendMessages w step act := by
  have hsame : ∀ {s' : Exchange}, s'.sent = s.sent → s'.sentFor w step = s.sentFor w step :=
    fun h => by rw [sentFor, sentFor, h]
  cases act with
  | sends moment worker mail =>
      cases sendMessages with
      | false => simp [after, posted]
      | true =>
          by_cases hw : w = worker
          · subst hw
            by_cases hstep : mail.step = step <;> simp [after, posted, sentFor, hstep]
          · simp [after, posted, sentFor, Function.update_of_ne hw, Ne.symm hw]
  | handles moment worker =>
      rw [posted, List.append_nil]
      · cases hhandling : s.handling worker with
        | nil => exact hsame (by simp only [after, hhandling])
        | cons message rest =>
            cases message with
            | dispatchSchedulerMessage mail =>
                rw [after_dispatch hhandling]
                apply hsame
                unfold dispatchSchedulerMessage
                split <;> rfl
            | setWorkerProcesses n =>
                rw [after_setWorkerProcesses hhandling]
                exact hsame (served_sent env (s.handledOne worker rest) _)
      · rintro _ _ _ ⟨⟩
  | _ =>
      simp only [posted, List.append_nil]
      apply hsame
      simp only [after]
      try split
      all_goals first | rfl | exact served_sent env s _

/-- What the threads do, and the order of what is under way. -/
structure InOrder (s : Exchange) : Prop where
  busy : s.ThreadsAreBusy
  order : ∀ w step, (s.underWay w step).Sublist (s.sentFor w step)

theorem InOrder.after (h : s.InOrder) (hload : ¬act.loads) :
    (s.after env sendMessages act).InOrder := by
  refine ⟨after_busy h.busy, fun w step => ?_⟩
  rw [sentFor_after]
  exact (after_forwards h.busy hload).order.trans ((h.order w step).append (List.Sublist.refl _))

/-- Nothing has been sent. -/
def start (server : Scheduler) : Exchange := { server := server }

theorem inOrder_start (server : Scheduler) : (start server).InOrder :=
  ⟨fun _ h => (h rfl).elim, fun _ _ => List.Sublist.refl _⟩

theorem inOrder_run (env : Env) (sendMessages : Bool) (server : Scheduler) {acts : List Act}
    (hload : ∀ act ∈ acts, ¬act.loads) :
    (runAll (after env sendMessages) (start server) acts).InOrder :=
  runAll_invariant _ (fun _ act => ¬act.loads) InOrder (fun _ _ h hact => h.after hact)
    (inOrder_start server) (along_of_forall_mem hload)

/-- Whatever the parties do, a step takes messages that were sent to it through the worker that
runs it, in the order in which they were sent, and none of them twice. -/
theorem taken_in_order (env : Env) (sendMessages : Bool) (server : Scheduler) {acts : List Act}
    (hload : ∀ act ∈ acts, ¬act.loads) (w : WorkerId) (step : StepId) :
    ((runAll (after env sendMessages) (start server) acts).taken w step).Sublist
      (((runAll (after env sendMessages) (start server) acts).sent w).filter (·.step = step)) :=
  (List.sublist_append_left _ _).trans ((inOrder_run env sendMessages server hload).order w step)

/-- A step is scheduled and started. -/
def beginning : List Act :=
  [.request (requestAt 1 (schedules firstWorker "a")), .starts firstWorker "a" true]

/-- A message is sent to it and fetched. -/
def posting : List Act :=
  [.sends { now := 2 } firstWorker ⟨7, "a", "hello"⟩, .pings { now := 3 } firstWorker]

/-- The message reaches the step, and the step responds. -/
def answering : List Act :=
  [.receives firstWorker, .handles { now := 3 } firstWorker, .takes firstWorker "a",
    .responds firstWorker "a" 7 "hi"]

theorem taken_in_order_posting :
    ((runAll (after defaultEnv true) (start (.initial ∅)) (beginning ++ posting ++ answering)).taken
      firstWorker "a").Sublist
      (((runAll (after defaultEnv true) (start (.initial ∅))
        (beginning ++ posting ++ answering)).sent firstWorker).filter (·.step = "a")) :=
  taken_in_order defaultEnv true (.initial ∅)
    (by simp [beginning, posting, answering, Act.loads, requestAt, schedules]) firstWorker "a"

/-- While the scheduler keeps a worker, a step of it runs with a queue, and no reply to its pings
is lost, every message that is sent to the step is on its way to it or was taken. -/
theorem nothing_lost (env : Env) (sendMessages : Bool) (server : Scheduler) {front acts : List Act}
    (hload : ∀ act ∈ front ++ acts, ¬act.loads) {w : WorkerId} {step : StepId}
    (hspares : Along (after env sendMessages) (Spares env sendMessages w step)
      (runAll (after env sendMessages) (start server) front) acts) :
    (runAll (after env sendMessages) (start server) (front ++ acts)).underWay w step =
      (runAll (after env sendMessages) (start server) front).underWay w step ++
        acts.flatMap (posted sendMessages w step) := by
  have hfront : ∀ act ∈ front, ¬act.loads := fun act h => hload act (List.mem_append_left _ h)
  have hacts : ∀ act ∈ acts, ¬act.loads := fun act h => hload act (List.mem_append_right _ h)
  have hbusy := (inOrder_run env sendMessages server hfront).busy
  rw [runAll_append]
  generalize runAll (after env sendMessages) (start server) front = s at hspares hbusy ⊢
  clear hload hfront
  induction acts generalizing s with
  | nil => simp
  | cons act rest ih =>
      obtain ⟨hact, hrest⟩ := List.forall_mem_cons.mp hacts
      rw [runAll_cons, ih hrest _ hspares.2 (after_busy hbusy),
        (after_forwards hbusy hact).all hspares.1, List.flatMap_cons, List.append_assoc]

theorem nothing_lost_posting :
    (runAll (after defaultEnv true) (start (.initial ∅)) (beginning ++ posting)).underWay
        firstWorker "a" =
      (runAll (after defaultEnv true) (start (.initial ∅)) beginning).underWay firstWorker "a" ++
        [⟨7, "a", "hello"⟩] :=
  nothing_lost defaultEnv true (.initial ∅)
    (by simp [beginning, posting, Act.loads, requestAt, schedules])
    ⟨⟨by decide +kernel, by decide +kernel, by decide +kernel, trivial⟩,
      ⟨by decide +kernel, by decide +kernel, by decide +kernel, trivial⟩, trivial⟩

/-- What can be said of the responses that the scheduler holds. -/
structure Given (env : Env) (sendMessages : Bool) (first : Exchange) (past : List Act)
    (s : Exchange) : Prop where
  run : s = runAll (after env sendMessages) first past
  held : ∀ w step mail, mail ∈ s.inHand w step → mail ∈ s.taken w step
  given : ∀ step id response, (s.post.responses step).get? id = some response →
    s.server.steps.contains step ∧
    ∃ w front back mail, past = front ++ .responds w step id response :: back ∧
      .asks step id ∉ back ∧ mail.id = id ∧
      mail ∈ (runAll (after env sendMessages) first front).taken w step

variable {past : List Act} {first : Exchange} {id : MessageId} {response : String}

/-- A response that was there is still there, and was not asked for. -/
theorem Given.keep (h : Given env sendMessages first past s)
    (hbefore : (s.post.responses step).get? id = some response)
    (hcontains : (s.after env sendMessages act).server.steps.contains step)
    (hasks : act ≠ .asks step id) :
    (s.after env sendMessages act).server.steps.contains step ∧
    ∃ w front back mail, past ++ [act] = front ++ .responds w step id response :: back ∧
      .asks step id ∉ back ∧ mail.id = id ∧
      mail ∈ (runAll (after env sendMessages) first front).taken w step := by
  obtain ⟨-, w, front, back, mail, rfl, hback, hid, htaken⟩ := h.given step id response hbefore
  refine ⟨hcontains, w, front, back ++ [act], mail, by simp, ?_, hid, htaken⟩
  rw [List.mem_append, List.mem_singleton]
  rintro (hmem | hact)
  · exact hback hmem
  · exact hasks hact.symm

/-- A response that is there after a request was there before it. -/
theorem served_responses {event : Event} (hload : event.request ≠ .load)
    (hget : ((s.served env event).post.responses step).get? id = some response) :
    (s.post.responses step).get? id = some response ∧
      (s.served env event).server.steps.contains step = s.server.steps.contains step := by
  have hsurvivors : ((s.post.survivors env s.server event).responses step).get? id =
      some response → (s.post.responses step).get? id = some response ∧
      (env.after s.server event).steps.contains step = s.server.steps.contains step := by
    unfold Post.survivors
    dsimp only
    split
    · rename_i hsame
      exact fun h => ⟨h, by rw [Dict.contains, Dict.contains, hsame]⟩
    · intro h
      cases h
  rw [served_server]
  apply hsurvivors
  unfold served at hget
  split at hget
  · exact hget
  · exact hget
  · rename_i h
    exact (hload h).elim
  · exact hget

theorem held_after (hheld : ∀ w step mail, mail ∈ s.inHand w step → mail ∈ s.taken w step) :
    ∀ w step mail, mail ∈ (s.after env sendMessages act).inHand w step →
      mail ∈ (s.after env sendMessages act).taken w step := by
  have hsame : ∀ {s' : Exchange}, s'.inHand = s.inHand → s'.taken = s.taken →
      ∀ w step mail, mail ∈ s'.inHand w step → mail ∈ s'.taken w step := by
    intro s' hhand htaken
    rw [hhand, htaken]
    exact hheld
  have hserved : ∀ (t : Exchange) (event : Event), (t.served env event).inHand = t.inHand := by
    intro t event
    unfold served
    split <;> rfl
  have hemptied : ∀ (worker : WorkerId) (target : StepId), ∀ w step mail,
      mail ∈ Function.update s.inHand worker (Function.update (s.inHand worker) target []) w step →
      mail ∈ s.taken w step := by
    intro worker target w step mail hmem
    by_cases hw : w = worker
    · subst hw
      by_cases hstep : step = target
      · subst hstep
        simp at hmem
      · rw [Function.update_self, Function.update_of_ne hstep] at hmem
        exact hheld w step mail hmem
    · rw [Function.update_of_ne hw] at hmem
      exact hheld w step mail hmem
  cases act with
  | takes worker target =>
      cases hinbox : s.inbox worker target with
      | notRunning => simpa only [after, hinbox] using hheld
      | withoutQueue => simpa only [after, hinbox] using hheld
      | queue mails =>
          cases mails with
          | nil => simpa only [after, hinbox] using hheld
          | cons mail rest =>
              intro w step other hmem
              simp only [after, hinbox] at hmem ⊢
              by_cases hw : w = worker
              · subst hw
                by_cases hstep : step = target
                · subst hstep
                  simp only [Function.update_self, List.mem_append] at hmem ⊢
                  exact hmem.imp_left (hheld w step other)
                · simp only [Function.update_self, Function.update_of_ne hstep] at hmem ⊢
                  exact hheld w step other hmem
              · simp only [Function.update_of_ne hw] at hmem ⊢
                exact hheld w step other hmem
  | starts worker target acceptsMessages => exact hemptied worker target
  | ends worker target => exact hemptied worker target
  | handles moment worker =>
      cases hhandling : s.handling worker with
      | nil => simpa only [after, hhandling] using hheld
      | cons message rest =>
          cases message with
          | dispatchSchedulerMessage mail =>
              rw [after_dispatch hhandling]
              unfold dispatchSchedulerMessage
              split <;> exact hheld
          | setWorkerProcesses n =>
              rw [after_setWorkerProcesses hhandling]
              exact hsame (hserved (s.handledOne worker rest) _)
                (served_taken env (s.handledOne worker rest) _)
  | _ =>
      simp only [after]
      try split
      all_goals first | exact hheld | exact hsame (hserved s _) (served_taken env s _)

theorem ensureWorker_steps (server : Scheduler) (now : Time) (worker : WorkerId) :
    (server.ensureWorker now worker).steps = server.steps := by
  unfold Scheduler.ensureWorker
  split <;> rfl

/-- The acts that put a response into a step object or take it out. -/
def isResponse : Act → Bool
  | .responds _ _ _ _ | .asks _ _ => true
  | _ => false

/-- No other act brings a response. -/
theorem responses_after (hload : ¬act.loads) (hother : isResponse act = false)
    (hget : ((s.after env sendMessages act).post.responses step).get? id = some response) :
    (s.post.responses step).get? id = some response ∧
      (s.after env sendMessages act).server.steps.contains step =
        s.server.steps.contains step := by
  cases act with
  | request event => exact served_responses hload hget
  | sends moment worker mail =>
      cases sendMessages with
      | false => exact ⟨hget, rfl⟩
      | true => exact ⟨hget, congrArg (·.contains step) (ensureWorker_steps _ _ _)⟩
  | setsProcesses moment worker n =>
      exact ⟨hget, congrArg (·.contains step) (ensureWorker_steps _ _ _)⟩
  | pings moment worker =>
      by_cases hidle : (s.pong worker).isNone && (s.handling worker).isEmpty
      · simp only [after] at hget ⊢
        rw [if_pos hidle] at hget ⊢
        exact @served_responses env s step id response ⟨moment, .ping worker⟩ (by rintro ⟨⟩) hget
      · have hsame : s.after env sendMessages (.pings moment worker) = s := by
          simp only [after]
          rw [if_neg hidle]
        rw [hsame] at hget ⊢
        exact ⟨hget, rfl⟩
  | handles moment worker =>
      cases hhandling : s.handling worker with
      | nil =>
          simp only [after, hhandling] at hget ⊢
          exact ⟨hget, trivial⟩
      | cons message rest =>
          cases message with
          | dispatchSchedulerMessage mail =>
              rw [after_dispatch hhandling] at hget ⊢
              unfold dispatchSchedulerMessage at hget ⊢
              split at hget <;> exact ⟨hget, rfl⟩
          | setWorkerProcesses n =>
              rw [after_setWorkerProcesses hhandling] at hget ⊢
              exact @served_responses env (s.handledOne worker rest) step id response
                ⟨moment, .addWorker worker { workers := some (max 1 n) }⟩ (by rintro ⟨⟩) hget
  | loses worker => exact ⟨hget, rfl⟩
  | receives worker =>
      simp only [after] at hget ⊢
      split at hget <;> exact ⟨hget, rfl⟩
  | starts worker target acceptsMessages => exact ⟨hget, rfl⟩
  | takes worker target =>
      simp only [after] at hget ⊢
      split at hget <;> exact ⟨hget, rfl⟩
  | ends worker target => exact ⟨hget, rfl⟩
  | responds worker target id response => cases hother
  | asks target id => cases hother

theorem Given.after (h : Given env sendMessages first past s) (hload : ¬act.loads) :
    Given env sendMessages first (past ++ [act]) (s.after env sendMessages act) := by
  refine ⟨by rw [runAll_append, ← h.run]; rfl, held_after h.held, ?_⟩
  intro step id response hget
  cases act with
  | responds worker target id' response' =>
      by_cases hready : (s.inHand worker target).any (·.id = id') && s.server.steps.contains target
      swap
      · have hsame : s.after env sendMessages (.responds worker target id' response') = s := by
          simp only [Exchange.after]
          rw [if_neg hready]
        rw [hsame] at hget
        refine h.keep hget ?_ (by rintro ⟨⟩)
        rw [hsame]
        exact (h.given step id response hget).1
      have hafter : s.after env sendMessages (.responds worker target id' response') =
          { s with
            post := s.post.setResponses target ((s.post.responses target).set id' response') } := by
        simp only [Exchange.after]
        rw [if_pos hready]
      rw [Bool.and_eq_true, List.any_eq_true] at hready
      obtain ⟨⟨mail, hmem, hmail⟩, hcontains⟩ := hready
      rw [hafter] at hget
      by_cases hnew : step = target ∧ id = id'
      · obtain ⟨rfl, rfl⟩ := hnew
        simp only [Post.setResponses, Function.update_self, Dict.get?_set, if_true,
          Option.some.injEq] at hget
        subst hget
        rw [hafter]
        exact ⟨hcontains, worker, past, [], mail, rfl, List.not_mem_nil, of_decide_eq_true hmail,
          h.run ▸ h.held worker step mail hmem⟩
      · have hold : (s.post.responses step).get? id = some response := by
          by_cases hstep : step = target
          · subst hstep
            have hid : id ≠ id' := fun hid => hnew ⟨rfl, hid⟩
            simpa only [Post.setResponses, Function.update_self, Dict.get?_set,
              if_neg hid] using hget
          · simpa only [Post.setResponses, Function.update_of_ne hstep] using hget
        exact h.keep hold (hafter ▸ (h.given step id response hold).1) (by rintro ⟨⟩)
  | asks target id' =>
      by_cases hcontains : s.server.steps.contains target
      swap
      · have hsame : s.after env sendMessages (.asks target id') = s := by
          simp only [Exchange.after]
          rw [if_neg hcontains]
        rw [hsame] at hget
        refine h.keep hget ?_ ?_
        · rw [hsame]
          exact (h.given step id response hget).1
        · rintro ⟨⟩
          exact hcontains (h.given step id response hget).1
      have hafter : s.after env sendMessages (.asks target id') =
          { s with post := s.post.setResponses target ((s.post.responses target).erase id') } := by
        simp only [Exchange.after]
        rw [if_pos hcontains]
      rw [hafter] at hget
      by_cases hstep : step = target
      · subst hstep
        simp only [Post.setResponses, Function.update_self, Dict.get?_erase] at hget
        by_cases hid : id = id'
        · rw [if_pos hid] at hget
          cases hget
        · rw [if_neg hid] at hget
          refine h.keep hget (hafter ▸ (h.given step id response hget).1) ?_
          rintro ⟨⟩
          exact hid rfl
      · simp only [Post.setResponses, Function.update_of_ne hstep] at hget
        refine h.keep hget (hafter ▸ (h.given step id response hget).1) ?_
        rintro ⟨⟩
        exact hstep rfl
  | _ =>
      obtain ⟨hbefore, hcontains⟩ := responses_after hload rfl hget
      exact h.keep hbefore (hcontains.trans (h.given step id response hbefore).1) (by rintro ⟨⟩)

/-- A response that a client gets was given by the step to a message with that id, which it had
taken from its queue, and no client has asked for it since it was given. -/
theorem answer_was_given (env : Env) (sendMessages : Bool) (server : Scheduler) {acts : List Act}
    (hload : ∀ act ∈ acts, ¬act.loads) {step : StepId} {id : MessageId} {response : String}
    (hanswer : (runAll (Exchange.after env sendMessages) (start server) acts).answer step id =
      some response) :
    ∃ w front back mail, acts = front ++ .responds w step id response :: back ∧
      .asks step id ∉ back ∧ mail.id = id ∧
      mail ∈ (runAll (Exchange.after env sendMessages) (start server) front).taken w step := by
  have hgiven : (∀ act ∈ acts, ¬act.loads) → Given env sendMessages (start server) acts
      (runAll (Exchange.after env sendMessages) (start server) acts) := by
    have hstart : (∀ act ∈ ([] : List Act), ¬act.loads) →
        Given env sendMessages (start server) [] (start server) := fun _ =>
      ⟨rfl, fun _ _ _ h => absurd h List.not_mem_nil, fun _ _ _ h => by cases h⟩
    refine runAll_history (Exchange.after env sendMessages)
      (fun past s => (∀ act ∈ past, ¬act.loads) → Given env sendMessages (start server) past s)
      (fun past s act h hpast => ?_) hstart acts
    obtain ⟨hbefore, hact⟩ := List.forall_mem_append.mp hpast
    exact (h hbefore).after (hact act (List.mem_singleton_self act))
  unfold answer at hanswer
  split at hanswer
  · exact ((hgiven hload).given step id response hanswer).2
  · cases hanswer

theorem answer_was_given_answering : ∃ w front back mail,
    beginning ++ posting ++ answering = front ++ .responds w "a" 7 "hi" :: back ∧
      .asks "a" 7 ∉ back ∧ mail.id = 7 ∧
      mail ∈ (runAll (Exchange.after defaultEnv true) (start (.initial ∅)) front).taken w "a" :=
  answer_was_given defaultEnv true (.initial ∅)
    (by simp [beginning, posting, answering, Act.loads, requestAt, schedules]) (by decide +kernel)

end Exchange

end Trun.Messages
