import ContextCompaction.Agent.Loop

/-!
# Tools at the requests of a run

* `safe_turn`: what one turn asks is safe, and the next turn can start from what it leaves.
* `safe_runAgentLoop`, `safe_runAgentLoopContinue`: so is everything that a run asks.
* `declares_tools`: at every request the transcript declares the executable tools.
-/

namespace Agent

open Js Program

/-- The executable tools have names of their own. -/
def AgentContext.Distinct (context : AgentContext) : Prop :=
  (context.tools.map fun tool => tool.name).Nodup

/-- The executable tools of a context, and the tools that its messages declare, are those of another. -/
def KeepsTools (context changed : AgentContext) : Prop :=
  changed.tools = context.tools ∧ currentTools changed.messages = currentTools context.messages

/-- What the hooks have to observe: a context of `prepareNextTurn` has tools with names of their own,
and one of `prepareRequest` has the executable and the declared tools of the context it gets. -/
def Fair : Event → Prop
  | .prepareNextTurn (.ok (some update)) => ∀ changed ∈ update.context, changed.Distinct
  | .prepareRequest context (.ok (some update)) => ∀ changed ∈ update.context, KeepsTools context changed
  | _ => True

/-- A request is made where the transcript declares the executable tools. -/
def Declared : Event → Prop
  | .stream context _ => Declares context.messages context.tools
  | _ => True

variable {α β : Type} {p : Prop} {m : Loop α} {post : β → Prop} {host : Host} {context : AgentContext}

/-- A program whose events are safe in any context, for it makes no request. -/
abbrev Quiet (m : Loop α) : Prop := Safe Fair Declared True m fun _ => True

/-- A program that keeps the tools declared, from `p` to `post`. -/
abbrev Asks (p : Prop) (m : Loop α) (post : α → Prop) : Prop := Safe Fair Declared p m post

/-- What quiet programs answer is of no account. -/
theorem Quiet.bind {f : α → Loop β} (h : Quiet m) (hf : ∀ a, Asks p (f a) post) :
    Asks p (m >>= f) post :=
  Safe.bind (h.mono (fun _ => trivial) fun _ _ _ => trivial) fun a =>
    (hf a).mono And.left fun _ _ => id

theorem asks_await {answer : List Event → Except Thrown β} {event : Except Thrown β → Event}
    (h : p → ∀ a, Fair (event a) → Declared (event a) ∧ ∀ b, a = .ok b → post b) :
    Asks p (await answer event) post := by
  refine Safe.bind (safe_query h) fun a => ?_
  cases a with
  | ok b => exact safe_pure fun hb => hb.2 b rfl
  | error e => exact safe_throw

theorem quiet_await {answer : List Event → Except Thrown β} {event : Except Thrown β → Event}
    (h : ∀ a, Declared (event a)) : Quiet (await answer event) :=
  asks_await fun _ a _ => ⟨h a, fun _ _ => trivial⟩

theorem quiet_settle (r : Except Thrown β) : Quiet (settle r) := by
  cases r with
  | ok b => exact safe_pure id
  | error e => exact safe_throw

theorem quiet_emit (event : AgentEvent) : Quiet (emit host event) := quiet_await fun _ => trivial

theorem quiet_poll (queue : Queue) : Quiet (poll host queue) := quiet_await fun _ => trivial

theorem quiet_now : Quiet (query host.now .clock) := safe_query fun _ _ _ => ⟨trivial, trivial⟩

theorem quiet_finishTurn : Quiet (await host.finishTurn .finishTurn) := quiet_await fun _ => trivial

theorem quiet_announce (message : Message) : Quiet (announce host message) :=
  (quiet_emit _).bind fun _ => quiet_emit _

theorem quiet_announceAll (messages : List Message) : Quiet (announceAll host messages) := by
  induction messages with
  | nil => exact safe_pure id
  | cons message rest ih => exact (quiet_announce message).bind fun _ => ih

/-! ## One turn -/

theorem asks_finishStream (response : Response) (added : Bool) (tools : List AgentTool) :
    Asks (context.tools = tools) (finishStream host response context added)
      fun r => r.2.tools = tools := by
  refine (quiet_settle _).bind fun message => ?_
  cases added with
  | true => exact (quiet_emit _).bind fun _ => safe_pure id
  | false => exact (quiet_announce _).bind fun _ => safe_pure id

/-- The events of a stream change messages only. -/
theorem asks_streamEvents (response : Response) (events : List StreamEvent) (added : Bool)
    (tools : List AgentTool) :
    Asks (context.tools = tools) (streamEvents host response events context added)
      fun r => r.2.tools = tools := by
  induction events generalizing context added with
  | nil => exact (quiet_settle _).bind fun _ => asks_finishStream response added tools
  | cons event events ih =>
    cases event with
    | start message => exact (quiet_emit _).bind fun _ => ih true
    | update message =>
      cases added with
      | true => exact (quiet_emit _).bind fun _ => ih true
      | false => exact ih false
    | final => exact asks_finishStream response added tools

/-- A request is made from a context that declares its tools. -/
theorem asks_streamAssistantResponse (tools : List AgentTool) :
    Asks (context.tools = tools ∧ Declares context.messages context.tools)
      (streamAssistantResponse host context) fun r => r.2.tools = tools := by
  have hresponse : Asks (context.tools = tools ∧ Declares context.messages context.tools)
      (await (host.stream · context) (.stream context)) fun _ => True :=
    asks_await fun h _ _ => ⟨h.2, fun _ _ => trivial⟩
  refine Safe.bind hresponse fun response => ?_
  exact (asks_streamEvents response _ false tools).mono (fun h => h.1.1) fun _ _ => id

theorem quiet_failToolCalls (toolCalls : List ToolCall) :
    Quiet (failToolCallsFromTruncatedMessage host toolCalls) := by
  induction toolCalls with
  | nil => exact safe_pure id
  | cons toolCall rest ih =>
    refine (quiet_emit _).bind fun _ => quiet_now.bind fun now => (quiet_emit _).bind fun _ => ?_
    exact (quiet_announce _).bind fun _ => ih.bind fun _ => safe_pure id

theorem quiet_runToolCalls (message : AssistantMessage) : Quiet (runToolCalls host message) := by
  unfold runToolCalls
  split_ifs
  · exact safe_pure id
  · exact (quiet_failToolCalls _).bind fun _ => safe_pure id
  · exact Quiet.bind (quiet_await fun _ => trivial) fun _ => safe_pure id

theorem asks_prepareNextTurn (context : AgentContext) :
    Asks context.Distinct (await host.prepareNextTurn .prepareNextTurn)
      fun update => ((update.bind (·.context)).getD context).Distinct := by
  refine asks_await fun hdistinct a hfair => ⟨trivial, fun update ha => ?_⟩
  subst ha
  cases update with
  | none => exact hdistinct
  | some update =>
    cases hcontext : update.context with
    | none => simpa [hcontext] using hdistinct
    | some changed => simpa [hcontext] using hfair changed hcontext

/-- The context of a turn has tools with names of their own. -/
theorem asks_beginTurn (s : LoopState) :
    Asks s.context.Distinct (beginTurn host s) fun r => r.1.Distinct := by
  unfold beginTurn
  split_ifs with hturned hempty
  · refine Safe.bind (asks_prepareNextTurn s.context) fun update => ?_
    exact (quiet_poll _).bind fun _ => (quiet_emit _).bind fun _ => safe_pure And.right
  · refine Safe.bind (asks_prepareNextTurn s.context) fun update => ?_
    exact Quiet.bind (safe_pure id) fun _ => (quiet_emit _).bind fun _ => safe_pure And.right
  · exact safe_pure id

/-- The context of a request declares the tools that it has. -/
theorem asks_prepareRequest (context : AgentContext) :
    Asks (Declares context.messages context.tools)
      (await (host.prepareRequest · context) (.prepareRequest context)) fun update =>
        let changed := (update.bind (·.context)).getD context
        changed.tools = context.tools ∧ Declares changed.messages changed.tools := by
  refine asks_await fun hdeclares a hfair => ⟨trivial, fun update ha => ?_⟩
  subst ha
  cases update with
  | none => exact ⟨rfl, hdeclares⟩
  | some update =>
    cases hcontext : update.context with
    | none => simpa [hcontext] using hdeclares
    | some changed =>
      obtain ⟨htools, hmessages⟩ : KeepsTools context changed := hfair changed hcontext
      simp only [hcontext, Option.bind_some, Option.getD_some]
      exact ⟨htools, htools ▸ hdeclares.of_currentTools hmessages⟩

/-- Every request of a turn is asked with tools of distinct names, if the turn began with such. -/
theorem asks_turn (s : LoopState) :
    Asks s.context.Distinct (turn host s) fun r => r.1.context.Distinct := by
  refine Safe.bind (asks_beginTurn s) fun (started, pending) => ?_
  refine Safe.mono (q := started.Distinct) ?_ And.right fun _ _ => id
  refine quiet_now.bind fun now => (quiet_announceAll _).bind fun _ => ?_
  generalize hcontext : started.push (declareToolChanges now started pending) = context
  have htools : context.tools = started.tools := by
    rw [← hcontext]
    rfl
  have hdeclares : started.Distinct → Declares context.messages context.tools := by
    rw [← hcontext]
    exact declares_declareToolChanges now started pending
  refine Safe.bind ((asks_prepareRequest context).mono hdeclares fun _ _ => id) fun update => ?_
  generalize (update.bind (·.context)).getD context = changed
  refine Safe.bind ((asks_streamAssistantResponse started.tools).mono
    (fun h => ⟨h.2.1.trans htools, h.2.2⟩) fun _ _ => id) fun (message, streamed) => ?_
  -- What follows the request leaves the tools.
  refine Safe.mono (q := streamed.Distinct) ?_ (fun h => ?_) fun _ _ => id
  · dsimp only
    split_ifs with hfailed
    · exact quiet_finishTurn.bind fun _ => (quiet_emit _).bind fun _ => (quiet_emit _).bind fun _ =>
        safe_pure id
    · refine (quiet_runToolCalls message).bind fun (results, more) => quiet_finishTurn.bind fun _ =>
        (quiet_emit _).bind fun _ => ?_
      dsimp only
      split_ifs with hend
      · exact (quiet_emit _).bind fun _ => safe_pure id
      · exact (quiet_poll _).bind fun _ => safe_pure id
  · rw [AgentContext.Distinct, h.2]
    exact h.1.1

/-! ## Runs -/

/-- Every request of any number of turns is asked with tools of distinct names, if the first began
with such. -/
theorem asks_turns (n : Nat) (s : LoopState) :
    Asks s.context.Distinct (turns host n s) fun s => s.context.Distinct := by
  induction n generalizing s with
  | zero => exact safe_throw
  | succ n ih =>
    unfold turns
    split
    · refine Safe.bind (asks_turn s) fun (s', more) => ?_
      cases more with
      | true => exact (ih s').mono And.right fun _ _ => id
      | false => exact safe_pure And.right
    · refine (quiet_poll _).bind fun followUp => ?_
      split_ifs
      · exact ih _
      · exact ih _
      · exact (quiet_emit _).bind fun _ => safe_pure id

theorem asks_runLoop (n : Nat) (context : AgentContext) (newMessages : List Message) :
    Asks context.Distinct (runLoop host n context newMessages) fun s => s.context.Distinct :=
  (quiet_poll _).bind fun _ => asks_turns n _

theorem asks_runAgentLoop (n : Nat) (prompts : List Message) (context : AgentContext) :
    Asks context.Distinct (runAgentLoop host n prompts context) fun _ => True :=
  quiet_now.bind fun _ => (quiet_emit _).bind fun _ => (quiet_emit _).bind fun _ =>
    (quiet_announceAll _).bind fun _ => Safe.bind (asks_runLoop n _ _) fun _ =>
      safe_pure fun _ => trivial

theorem asks_runAgentLoopContinue (n : Nat) (context : AgentContext) :
    Asks context.Distinct (runAgentLoopContinue host n context) fun _ => True := by
  unfold runAgentLoopContinue
  dsimp only
  split_ifs
  · exact safe_throw_bind
  · exact safe_throw_bind
  · exact safe_throw_bind
  · refine (quiet_emit _).bind fun _ => (quiet_emit _).bind fun _ => ?_
    exact Safe.bind (asks_runLoop n _ _) fun _ => safe_pure fun _ => trivial

/-- The transcript declares the executable tools, whatever is pending, and so it is at every request
of a run. -/
theorem declares_tools (context : AgentContext) (h : context.Distinct) :
    (∀ (now : Nat) (pending : List Message),
      let delivered := declareToolChanges now context pending
      Declares (context.messages ++ delivered) context.tools ∧ Delivers pending delivered ∧
        ∀ later, declareToolChanges later (context.push delivered) [] = []) ∧
    ∀ (host : Host) (n : Nat),
      (∀ prompts : List Message,
        let events := (exec (runAgentLoop host n prompts context) []).2
        (∀ e ∈ events, Fair e) → ∀ e ∈ events, Declared e) ∧
      let events := (exec (runAgentLoopContinue host n context) []).2
      (∀ e ∈ events, Fair e) → ∀ e ∈ events, Declared e := by
  refine ⟨fun now pending => ?_, fun host n => ⟨fun prompts => ?_, ?_⟩⟩
  · have hdeclares := declares_declareToolChanges now context pending h
    refine ⟨hdeclares, delivers_declareToolChanges now context pending, fun later => ?_⟩
    exact declareToolChanges_nil later hdeclares h
  · exact (asks_runAgentLoop n prompts context).exec h
  · exact (asks_runAgentLoopContinue n context).exec h

/-- A host with no hooks, whose model answers with a text. -/
def plainHost : Host where
  emit := fun _ _ => .ok ()
  poll := fun _ _ => .ok []
  prepareNextTurn := fun _ => .ok none
  prepareRequest := fun _ _ => .ok none
  stream := fun _ _ =>
    let message : AssistantMessage := ⟨[.other (.str (lit "hi"))], .stop, .obj []⟩
    .ok ⟨[.start message, .final], .ok (), .ok message⟩
  executeToolCalls := fun _ _ => .ok ⟨[], true⟩
  finishTurn := fun _ => .ok none
  now := fun _ => 0

/-- A tool that can be executed. -/
def readTool : AgentTool where
  name := lit "read"
  description := lit "Read a file"
  parameters := .obj [(lit "type", .str (lit "object"))]
  constrainedSampling := none
  executionMode := none

/-- A hook that replaces nothing. -/
def Event.replacesNothing : Event → Bool
  | .prepareNextTurn (.ok (some _)) => false
  | .prepareRequest _ (.ok (some _)) => false
  | _ => true

theorem fair_of_replacesNothing {e : Event} (h : e.replacesNothing = true) : Fair e := by
  unfold Fair
  split
  · cases h
  · cases h
  · trivial

/-- A tool that is declared although it cannot be executed is no longer declared at the request. -/
theorem declares_tools_stale :
    let stale : Message := .system ⟨.str [], none, some [{ readTool.toTool with name := lit "old" }], none, 0⟩
    let events := (exec (runAgentLoop plainHost 3 [.user (.str (lit "go"))] ⟨[stale], [readTool]⟩) []).2
    (events.map fun e => e matches .stream ..).count true = 1 ∧ ∀ e ∈ events, Declared e := by
  intro stale events
  have hdistinct : (⟨[stale], [readTool]⟩ : AgentContext).Distinct := List.nodup_singleton _
  have hquiet : events.all Event.replacesNothing = true := by decide +kernel
  refine ⟨by decide +kernel, ?_⟩
  refine ((declares_tools _ hdistinct).2 plainHost 3).1 _ fun e he => ?_
  exact fair_of_replacesNothing (List.all_eq_true.mp hquiet e he)

/-- A hook that changes no executable tool: a new context has those of the one it gets, and one for a
later turn has names of their own. -/
def Event.KeepsExecutable : Event → Prop
  | .prepareNextTurn (.ok (some update)) => ∀ changed ∈ update.context, changed.Distinct
  | .prepareRequest context (.ok (some update)) => ∀ changed ∈ update.context, changed.tools = context.tools
  | _ => True

/-- A hook as the documentation has it: it keeps the tools and installs the persisted messages, which
declare a tool. -/
def reloadingHost : Host where
  __ := plainHost
  prepareRequest := fun _ context =>
    let persisted : Message := .system ⟨.str [], none, some [readTool.toTool], none, 0⟩
    .ok (some ⟨some { context with messages := [persisted, .user (.str (lit "go"))] }⟩)

/-- No event of the run gives tools to a context without. -/
def Event.givesNoTools : Event → Bool
  | .prepareNextTurn (.ok (some _)) => false
  | .prepareRequest context (.ok (some ⟨some changed⟩)) => changed.tools.isEmpty && context.tools.isEmpty
  | _ => true

theorem Event.keepsExecutable_of_givesNoTools {e : Event} (h : e.givesNoTools = true) :
    e.KeepsExecutable := by
  unfold KeepsExecutable
  split
  · cases h
  · rename_i context update
    intro changed hchanged
    obtain ⟨_⟩ := update
    obtain rfl := Option.mem_def.mp hchanged
    obtain ⟨htools, htools'⟩ := Bool.and_eq_true_iff.mp h
    rw [List.isEmpty_iff.mp htools, List.isEmpty_iff.mp htools']
  · trivial

/-- The request is made with a declared tool and none to execute. -/
def Event.asksInVain : Event → Bool
  | .stream context _ => context.tools.isEmpty && !(currentTools context.messages).isEmpty
  | _ => false

theorem Event.not_declared_of_asksInVain {e : Event} (h : e.asksInVain = true) : ¬ Declared e := by
  intro hdeclared
  cases e with
  | stream context answer =>
    obtain ⟨htools, hmessages⟩ := Bool.and_eq_true_iff.mp h
    cases hcurrent : currentTools context.messages with
    | nil => simp [hcurrent] at hmessages
    | cons tool rest =>
      obtain ⟨other, hother, -⟩ := Declares.executable hdeclared tool (by simp [hcurrent])
      simp [List.isEmpty_iff.mp htools] at hother
  | _ => cases h

/-- The hook changes no tool, but after it the transcript declares one that cannot be executed. -/
theorem not_declared_reloading :
    let events := (exec (runAgentLoop reloadingHost 3 [.user (.str (lit "go"))] ⟨[], []⟩) []).2
    (⟨[], []⟩ : AgentContext).Distinct ∧ (∀ e ∈ events, e.KeepsExecutable) ∧ ∃ e ∈ events, ¬ Declared e := by
  intro events
  have hkeeps : events.all Event.givesNoTools = true := by decide +kernel
  have hasks : events.any Event.asksInVain = true := by decide +kernel
  obtain ⟨e, he, hvain⟩ := List.any_eq_true.mp hasks
  exact ⟨List.nodup_nil, fun e he => Event.keepsExecutable_of_givesNoTools (List.all_eq_true.mp hkeeps e he),
    e, he, Event.not_declared_of_asksInVain hvain⟩

end Agent
