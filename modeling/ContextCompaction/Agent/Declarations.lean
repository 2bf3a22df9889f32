import ContextCompaction.Agent.Transcript
import ContextCompaction.Js.Reread

/-!
# Declared and executable tools

* `Declares`: the declared tools are the executable ones.
* `Delivers`: what becomes of the pending messages.
* `declares_declareToolChanges`: with the pending messages, a transcript declares the executable tools.
* `declareToolChanges_nil`: where they are declared, nothing is delivered.
-/

namespace Agent

open Js

variable {messages pending before after : List Message} {tools : List AgentTool}

/-! ## Equal declarations -/

theorem declaration_parameters (tool : Tool) :
    tool.declaration.parameters = tool.parameters.normal := by
  rw [Tool.declaration, parse_stringify]
  rfl

/-- The declaration of a declaration is written the same. -/
theorem text_declaration (tool : Tool) :
    tool.declaration.declaration.text = tool.declaration.text := by
  have hparameters : SameText tool.declaration.declaration.parameters tool.declaration.parameters := by
    rw [declaration_parameters, declaration_parameters]
    exact (stringify_normal_normal tool.parameters).symm
  unfold Tool.text
  apply SameText.obj
  apply List.rel_append
  · exact .cons ⟨rfl, rfl⟩ (.cons ⟨rfl, rfl⟩ (.cons ⟨rfl, hparameters⟩ .nil))
  · rw [show tool.declaration.declaration.constrainedSampling = tool.declaration.constrainedSampling
      from rfl]
    exact List.forall₂_same.mpr fun _ _ => ⟨rfl, rfl⟩

theorem declarationsEqual_iff {a b : Tool} :
    declarationsEqual a b = true ↔ a.declaration.text = b.declaration.text := beq_iff_eq

theorem declarationsEqual_comm (a b : Tool) : declarationsEqual a b = declarationsEqual b a :=
  Bool.beq_comm

/-! ## What a transcript declares -/

/-- By name, the declared tools are the executable ones, each is declared once, and it is written as
the declaration of the executable tool. -/
structure Declares (messages : List Message) (tools : List AgentTool) : Prop where
  nodup : ((currentTools messages).map Tool.name).Nodup
  executable : ∀ tool ∈ currentTools messages, ∃ other ∈ tools,
    other.name = tool.name ∧ tool.declaration.text = other.toTool.declaration.text
  declared : ∀ tool ∈ tools, ∃ other ∈ currentTools messages,
    other.name = tool.name ∧ other.declaration.text = tool.toTool.declaration.text

/-- The tools under their own names, each once. -/
structure Keyed (tools : List (Str × Tool)) : Prop where
  nodup : (tools.map Prod.fst).Nodup
  named : ∀ e ∈ tools, e.2.name = e.1

/-- Tools under their names. -/
def byName (tools : List Tool) : List (Str × Tool) := tools.map fun tool => (tool.name, tool)

/-- What one message's changes do. -/
def applyChanges (tools : List (Str × Tool)) (added : List Tool) (removed : List Str) :
    List (Str × Tool) :=
  added.foldl (fun tools tool => mapSet tools tool.name tool) (removed.foldl mapDelete tools)

variable {declared : List (Str × Tool)} {added : List Tool} {removed : List Str}

/-- Applying changes keeps every tool under its own name, once. -/
theorem Keyed.applyChanges (h : Keyed declared) : Keyed (applyChanges declared added removed) := by
  unfold Agent.applyChanges
  have hremoved : Keyed (removed.foldl mapDelete declared) := by
    induction removed generalizing declared with
    | nil => exact h
    | cons k removed ih =>
      exact ih ⟨nodup_mapDelete h.nodup k, fun e he => h.named e (List.mem_of_mem_filter he)⟩
  generalize removed.foldl mapDelete declared = kept at hremoved
  induction added generalizing kept with
  | nil => exact hremoved
  | cons tool added ih =>
    refine ih _ ⟨nodup_mapSet hremoved.nodup _ _, fun e he => ?_⟩
    rcases mem_mapSet he with he | rfl
    · exact hremoved.named e he
    · rfl

/-- After changes a name holds the tool added last under it; a removed name holds nothing else. -/
theorem mapGet_applyChanges (k : Str) : mapGet (applyChanges declared added removed) k =
    (mapGet (mapOf (byName added)) k).or (if k ∈ removed then none else mapGet declared k) := by
  have hremoved : mapGet (removed.foldl mapDelete declared) k =
      if k ∈ removed then none else mapGet declared k := by
    induction removed generalizing declared with
    | nil => rfl
    | cons j removed ih =>
      rw [List.foldl_cons, ih, mapGet_mapDelete]
      by_cases hj : k = j
      · simp [hj]
      · simp [hj, Ne.symm hj]
  rw [← hremoved, applyChanges]
  induction added using List.reverseRecOn with
  | nil => rfl
  | append_singleton added tool ih =>
    rw [byName, List.map_append, List.foldl_append, List.map_singleton, mapOf_append_singleton]
    simp only [List.foldl_cons, List.foldl_nil, mapGet_mapSet]
    split_ifs
    · rfl
    · exact ih

theorem keyed_foldl (messages : List Message) (h : Keyed declared) :
    Keyed (messages.foldl declareTools declared) := by
  induction messages generalizing declared with
  | nil => exact h
  | cons message messages ih =>
    cases message with
    | system message => exact ih h.applyChanges
    | _ => exact ih h

theorem Keyed.mem (h : Keyed declared) {tool : Tool} :
    tool ∈ declared.map Prod.snd ↔ mapGet declared tool.name = some tool := by
  constructor
  · intro htool
    obtain ⟨e, he, rfl⟩ := List.mem_map.mp htool
    rw [h.named e he]
    exact (mem_iff_mapGet h.nodup).mp he
  · intro hget
    exact List.mem_map.mpr ⟨_, mem_of_mapGet hget, rfl⟩

theorem Keyed.names (h : Keyed declared) :
    (declared.map Prod.snd).map Tool.name = declared.map Prod.fst := by
  rw [List.map_map]
  exact List.map_congr_left fun e he => h.named e he

/-! ## The changes to be declared -/

theorem mapGet_byName {tools : List Tool} (h : (tools.map Tool.name).Nodup) {k : Str} {tool : Tool} :
    mapGet (mapOf (byName tools)) k = some tool ↔ tool ∈ tools ∧ tool.name = k := by
  have hkeys : (byName tools).map Prod.fst = tools.map Tool.name := by
    rw [byName, List.map_map]
    rfl
  rw [mapOf_eq_self (by rwa [hkeys]), ← mem_iff_mapGet (by rwa [hkeys]), byName, List.mem_map]
  constructor
  · rintro ⟨t, ht, heq⟩
    obtain ⟨rfl, rfl⟩ := Prod.mk.inj heq
    exact ⟨ht, rfl⟩
  · rintro ⟨ht, rfl⟩
    exact ⟨tool, ht, rfl⟩

/-- A tool counts as declared only when one of its name has the same declaration. -/
theorem undeclared_eq_false {tools : List Tool} (h : (tools.map Tool.name).Nodup) {tool : Tool} :
    undeclared tools tool = false ↔
      ∃ other ∈ tools, other.name = tool.name ∧ declarationsEqual other tool = true := by
  unfold undeclared
  rw [show tools.map (fun t => (t.name, t)) = byName tools from rfl]
  cases hget : mapGet (mapOf (byName tools)) tool.name with
  | none =>
    constructor
    · intro hf
      cases hf
    · rintro ⟨other, hother, hname, -⟩
      rw [(mapGet_byName h).mpr ⟨hother, hname⟩] at hget
      cases hget
  | some other =>
    obtain ⟨hother, hname⟩ := (mapGet_byName h).mp hget
    rw [Bool.not_eq_false']
    constructor
    · exact fun heq => ⟨other, hother, hname, heq⟩
    · rintro ⟨other', hother', hname', heq⟩
      rw [(mapGet_byName h).mpr ⟨hother', hname'⟩] at hget
      obtain rfl := Option.some.inj hget
      exact heq

/-- The declarations of the executable tools. -/
def declarationsOf (tools : List AgentTool) : List Tool := tools.map fun tool => tool.toTool.declaration

theorem nodup_declarationsOf (h : (tools.map fun tool => tool.name).Nodup) :
    ((declarationsOf tools).map Tool.name).Nodup := by
  rw [declarationsOf, List.map_map]
  exact h

theorem mem_declarationsOf {tool : Tool} :
    tool ∈ declarationsOf tools ↔ ∃ t ∈ tools, t.toTool.declaration = tool := List.mem_map

theorem declarationsEqual_declaration {tool : Tool} (other : Tool)
    (h : declarationsEqual tool other.declaration = true) : declarationsEqual tool other = true := by
  rw [declarationsEqual_iff] at h ⊢
  rw [h, text_declaration]

variable (hnodup : (tools.map fun tool => tool.name).Nodup) (hkeyed : Keyed declared)

include hnodup hkeyed

/-- After the changes, the tools under their names are the executable ones. -/
theorem declared_of_changes :
    let changes := toolStateChanges (declared.map Prod.snd) (declarationsOf tools)
    let result := applyChanges declared changes.toolsAdded changes.toolsRemoved
    (∀ tool ∈ result.map Prod.snd, ∃ other ∈ tools,
        other.name = tool.name ∧ declarationsEqual tool other.toTool = true) ∧
      ∀ tool ∈ tools, ∃ other ∈ result.map Prod.snd,
        other.name = tool.name ∧ declarationsEqual other tool.toTool = true := by
  intro changes result
  have hprevious : ((declared.map Prod.snd).map Tool.name).Nodup := by
    rw [hkeyed.names]
    exact hkeyed.nodup
  have hexecutable := nodup_declarationsOf hnodup
  have hresult : Keyed result := hkeyed.applyChanges
  have hnames : (changes.toolsAdded.map Tool.name).Nodup := by
    have hsame : changes.toolsAdded.map Tool.name =
        ((declarationsOf tools).filter (undeclared (declared.map Prod.snd))).map Tool.name := by
      simp only [changes, toolStateChanges, List.map_map]
      rfl
    rw [hsame]
    exact hexecutable.sublist (List.filter_sublist.map Tool.name)
  -- What is added is the declaration of a tool that was not declared.
  have hadded : ∀ {k tool}, mapGet (mapOf (byName changes.toolsAdded)) k = some tool ↔
      (∃ t ∈ declarationsOf tools, undeclared (declared.map Prod.snd) t = true ∧ t.declaration = tool) ∧
        tool.name = k := by
    intro k tool
    rw [mapGet_byName hnames]
    simp only [changes, toolStateChanges, List.mem_map, List.mem_filter, and_assoc]
  -- What is removed was declared, and is no more.
  have hremoved : ∀ {k}, k ∈ changes.toolsRemoved ↔ ∃ t ∈ declared.map Prod.snd,
      undeclared (declarationsOf tools) t = true ∧ t.name = k := by
    intro k
    simp only [changes, toolStateChanges]
    rw [List.mem_map]
    simp only [List.mem_filter, and_assoc]
  have hget : ∀ k, mapGet result k = (mapGet (mapOf (byName changes.toolsAdded)) k).or
      (if k ∈ changes.toolsRemoved then none else mapGet declared k) := mapGet_applyChanges
  refine ⟨fun tool htool => ?_, fun tool htool => ?_⟩
  · have hfound := hresult.mem.mp htool
    rw [hget] at hfound
    cases hnew : mapGet (mapOf (byName changes.toolsAdded)) tool.name with
    | some t =>
      rw [hnew] at hfound
      obtain rfl := Option.some.inj hfound
      obtain ⟨⟨e, he, -, hdeclaration⟩, -⟩ := hadded.mp hnew
      obtain ⟨other, hother, rfl⟩ := mem_declarationsOf.mp he
      have hname : other.toTool.declaration.declaration.name = t.name :=
        congrArg Tool.name hdeclaration
      refine ⟨other, hother, hname, ?_⟩
      rw [declarationsEqual_iff, ← hdeclaration, text_declaration, text_declaration]
    | none =>
      rw [hnew, Option.none_or] at hfound
      split_ifs at hfound with hgone
      have hold := hkeyed.mem.mpr hfound
      have hknown : undeclared (declarationsOf tools) tool = false := by
        rw [← Bool.not_eq_true]
        exact fun h => hgone (hremoved.mpr ⟨tool, hold, h, rfl⟩)
      obtain ⟨e, he, hname, heq⟩ := (undeclared_eq_false hexecutable).mp hknown
      obtain ⟨other, hother, rfl⟩ := mem_declarationsOf.mp he
      rw [declarationsEqual_comm] at heq
      exact ⟨other, hother, hname, declarationsEqual_declaration _ heq⟩
  · have hmem : tool.toTool.declaration ∈ declarationsOf tools := mem_declarationsOf.mpr ⟨tool, htool, rfl⟩
    cases hnew : undeclared (declared.map Prod.snd) tool.toTool.declaration with
    | true =>
      have hfound : mapGet result tool.name = some tool.toTool.declaration.declaration := by
        have hnow := hadded.mpr ⟨⟨_, hmem, hnew, rfl⟩, show _ = tool.name from rfl⟩
        rw [hget, hnow, Option.some_or]
      refine ⟨tool.toTool.declaration.declaration, hresult.mem.mpr hfound, rfl, ?_⟩
      rw [declarationsEqual_iff, text_declaration, text_declaration]
    | false =>
      obtain ⟨other, hother, hname, heq⟩ := (undeclared_eq_false hprevious).mp hnew
      have hnotAdded : mapGet (mapOf (byName changes.toolsAdded)) other.name = none := by
        rw [Option.eq_none_iff_forall_ne_some]
        intro t ht
        obtain ⟨⟨e, he, hundeclared, rfl⟩, hsame⟩ := hadded.mp ht
        have hone := List.inj_on_of_nodup_map hexecutable he hmem (hsame.trans hname)
        rw [hone, hnew] at hundeclared
        cases hundeclared
      have hnotRemoved : other.name ∉ changes.toolsRemoved := by
        intro hgone
        obtain ⟨t, ht, hundeclared, hsame⟩ := hremoved.mp hgone
        obtain rfl := List.inj_on_of_nodup_map hprevious ht hother hsame
        rw [(undeclared_eq_false hexecutable).mpr
          ⟨_, hmem, hname.symm, by rw [declarationsEqual_comm]; exact heq⟩] at hundeclared
        cases hundeclared
      have hfound : mapGet result other.name = some other := by
        rw [hget, hnotAdded, Option.none_or, if_neg hnotRemoved]
        exact hkeyed.mem.mp hother
      exact ⟨other, hresult.mem.mpr hfound, hname, declarationsEqual_declaration _ heq⟩

omit hnodup hkeyed

/-! ## Pending messages -/

variable {last : SystemMessage} {changes : ToolStateChanges}

/-- No system message is among them. -/
def NoSystem (messages : List Message) : Prop := ∀ message ∈ messages, message.isSystem = false

theorem splitLastSystem_eq_none : splitLastSystem pending = none ↔ NoSystem pending := by
  induction pending with
  | nil => exact ⟨fun _ _ h => (List.not_mem_nil h).elim, fun _ => rfl⟩
  | cons message rest ih =>
    rw [NoSystem, List.forall_mem_cons, show (∀ m ∈ rest, m.isSystem = false) ↔ NoSystem rest
      from Iff.rfl, ← ih]
    cases h : splitLastSystem rest with
    | some found => simp [splitLastSystem, h]
    | none => cases message <;> simp [splitLastSystem, h, Message.isSystem]

/-- The split is at the last system message. -/
theorem splitLastSystem_eq_some (h : splitLastSystem pending = some (before, last, after)) :
    pending = before ++ .system last :: after ∧ NoSystem after := by
  induction pending generalizing before with
  | nil => cases h
  | cons message rest ih =>
    unfold splitLastSystem at h
    cases hrest : splitLastSystem rest with
    | some found =>
      obtain ⟨before', last', after'⟩ := found
      rw [hrest] at h
      cases h
      obtain ⟨rfl, hnone⟩ := ih hrest
      exact ⟨rfl, hnone⟩
    | none =>
      rw [hrest] at h
      cases message with
      | system message =>
        cases h
        exact ⟨rfl, splitLastSystem_eq_none.mp hrest⟩
      | _ => cases h

theorem foldl_noSystem (h : NoSystem messages) (declared : List (Str × Tool)) :
    messages.foldl declareTools declared = declared := by
  induction messages with
  | nil => rfl
  | cons message rest ih =>
    obtain ⟨hmessage, hrest⟩ := List.forall_mem_cons.mp h
    cases message with
    | system message => cases hmessage
    | _ => exact ih hrest

private theorem getD_unlessEmpty {α : Type} (xs : List α) : (unlessEmpty xs).getD [] = xs := by
  cases xs <;> rfl

theorem declareTools_withToolChanges (declared : List (Str × Tool)) :
    declareTools declared (.system (last.withToolChanges changes)) =
      applyChanges declared changes.toolsAdded changes.toolsRemoved := by
  rw [applyChanges, declareTools, SystemMessage.withToolChanges, getD_unlessEmpty, getD_unlessEmpty]

/-- A message that declares nothing. -/
theorem declareTools_of_declaresNothing (h : last.declaresNothing = true)
    (declared : List (Str × Tool)) : declareTools declared (.system last) = declared := by
  rw [SystemMessage.declaresNothing, Bool.and_eq_true, List.isEmpty_iff, List.isEmpty_iff] at h
  simp only [declareTools, h.1, h.2, List.foldl_nil]

/-- What the declared tools are after messages around one that changes them. -/
theorem foldl_around (hafter : NoSystem after) (message : SystemMessage) :
    (messages ++ (before ++ .system message :: after)).foldl declareTools [] =
      declareTools ((messages ++ before).foldl declareTools []) (.system message) := by
  simp only [List.foldl_append, List.foldl_cons, foldl_noSystem hafter]

/-- What becomes of pending messages: the last system message has other tool fields, or a system
message is added before messages none of which is one. -/
inductive Delivers : List Message → List Message → Prop
  | same (pending : List Message) : Delivers pending pending
  | replaced (before after : List Message) (last : SystemMessage) (changes : ToolStateChanges)
      (h : NoSystem after) :
      Delivers (before ++ .system last :: after)
        (before ++ .system (last.withToolChanges changes) :: after)
  | added (pending : List Message) (update : SystemMessage) (h : NoSystem pending) :
      Delivers pending (.system update :: pending)

variable {context : AgentContext} {now : Nat}

theorem ToolStateChanges.isEmpty_iff : changes.isEmpty = true ↔ changes.toolsAdded = [] ∧ changes.toolsRemoved = [] := by
  rw [ToolStateChanges.isEmpty, Bool.and_eq_true, List.isEmpty_iff, List.isEmpty_iff]

private theorem applyChanges_of_isEmpty (h : changes.isEmpty = true) (declared : List (Str × Tool)) :
    applyChanges declared changes.toolsAdded changes.toolsRemoved = declared := by
  rw [(changes.isEmpty_iff.mp h).1, (changes.isEmpty_iff.mp h).2]
  rfl

/-- The messages that are delivered leave declared what was, with what had to be declared. -/
theorem declareToolChanges_spec (now : Nat) (context : AgentContext) (pending : List Message) :
    Delivers pending (declareToolChanges now context pending) ∧
      ∃ declared, Keyed declared ∧
        (context.messages ++ declareToolChanges now context pending).foldl declareTools [] =
          applyChanges declared
            (toolStateChanges (declared.map Prod.snd) (declarationsOf context.tools)).toolsAdded
            (toolStateChanges (declared.map Prod.snd) (declarationsOf context.tools)).toolsRemoved := by
  have hkeyed : ∀ messages : List Message, Keyed (messages.foldl declareTools []) := fun messages =>
    keyed_foldl messages ⟨List.nodup_nil, fun e he => nomatch he⟩
  unfold declareToolChanges
  dsimp only
  rw [← declarationsOf]
  cases hsplit : splitLastSystem pending with
  | some found =>
    obtain ⟨before, last, after⟩ := found
    obtain ⟨rfl, hafter⟩ := splitLastSystem_eq_some hsplit
    -- Without its tool fields the last message declares nothing.
    have hbaseline : currentTools
        (context.messages ++ (before ++ .system (last.withToolChanges .none) :: after)) =
          ((context.messages ++ before).foldl declareTools []).map Prod.snd := by
      rw [currentTools, foldl_around hafter, declareTools_withToolChanges]
      rfl
    dsimp only
    rw [hbaseline]
    split_ifs with hsame
    · rw [Bool.and_eq_true] at hsame
      refine ⟨.same _, _, hkeyed (context.messages ++ before), ?_⟩
      rw [foldl_around hafter, declareTools_of_declaresNothing hsame.2, applyChanges_of_isEmpty hsame.1]
    · refine ⟨.replaced before after last _ hafter, _, hkeyed (context.messages ++ before), ?_⟩
      rw [foldl_around hafter, declareTools_withToolChanges]
  | none =>
    have hnone := splitLastSystem_eq_none.mp hsplit
    have hpending : (context.messages ++ pending).foldl declareTools [] =
        context.messages.foldl declareTools [] := by
      rw [List.foldl_append, foldl_noSystem hnone]
    have hindex : pending.findIdx (fun message => !message.isSystem) = 0 := by
      cases pending with
      | nil => rfl
      | cons message rest => rw [List.findIdx_cons, hnone message List.mem_cons_self]; rfl
    dsimp only
    rw [currentTools, hpending, hindex, List.take_zero, List.drop_zero, List.nil_append]
    split_ifs with hsame
    · refine ⟨.same _, _, hkeyed context.messages, ?_⟩
      rw [hpending, applyChanges_of_isEmpty hsame]
    · refine ⟨.added pending _ hnone, _, hkeyed context.messages, ?_⟩
      rw [List.foldl_append, List.foldl_cons, foldl_noSystem hnone, declareTools_withToolChanges]

/-- What a transcript declares says what it declares of the executable tools. -/
theorem Declares.of_changes (hnodup : (tools.map fun tool => tool.name).Nodup)
    (hkeyed : Keyed declared)
    (h : messages.foldl declareTools [] = applyChanges declared
      (toolStateChanges (declared.map Prod.snd) (declarationsOf tools)).toolsAdded
      (toolStateChanges (declared.map Prod.snd) (declarationsOf tools)).toolsRemoved) :
    Declares messages tools := by
  obtain ⟨hexecutable, hdeclared⟩ := declared_of_changes hnodup hkeyed
  have hresult : Keyed (messages.foldl declareTools []) := by
    rw [h]
    exact hkeyed.applyChanges
  refine ⟨?_, ?_, ?_⟩
  · rw [currentTools, hresult.names]
    exact hresult.nodup
  · rw [currentTools, h]
    simpa only [declarationsEqual_iff] using hexecutable
  · rw [currentTools, h]
    simpa only [declarationsEqual_iff] using hdeclared

/-- Where the executable tools are declared, nothing has to be. -/
theorem Declares.unchanged (h : Declares messages tools)
    (hnodup : (tools.map fun tool => tool.name).Nodup) :
    (toolStateChanges (currentTools messages) (declarationsOf tools)).isEmpty = true := by
  rw [ToolStateChanges.isEmpty_iff]
  simp only [toolStateChanges, List.map_eq_nil_iff, List.filter_eq_nil_iff, Bool.not_eq_true]
  refine ⟨fun e he => ?_, fun tool htool => ?_⟩
  · obtain ⟨tool, htool, rfl⟩ := mem_declarationsOf.mp he
    obtain ⟨other, hother, hname, heq⟩ := h.declared tool htool
    refine (undeclared_eq_false h.nodup).mpr ⟨other, hother, hname, ?_⟩
    rw [declarationsEqual_iff, heq]
    exact (text_declaration _).symm
  · obtain ⟨other, hother, hname, heq⟩ := h.executable tool htool
    refine (undeclared_eq_false (nodup_declarationsOf hnodup)).mpr
      ⟨other.toTool.declaration, mem_declarationsOf.mpr ⟨other, hother, rfl⟩, hname, ?_⟩
    rw [declarationsEqual_iff, heq, text_declaration]

theorem delivers_declareToolChanges (now : Nat) (context : AgentContext) (pending : List Message) :
    Delivers pending (declareToolChanges now context pending) :=
  (declareToolChanges_spec now context pending).1

theorem declares_declareToolChanges (now : Nat) (context : AgentContext) (pending : List Message)
    (hnodup : (context.tools.map fun tool => tool.name).Nodup) :
    Declares (context.messages ++ declareToolChanges now context pending) context.tools := by
  obtain ⟨-, declared, hkeyed, h⟩ := declareToolChanges_spec now context pending
  exact .of_changes hnodup hkeyed h

theorem declareToolChanges_nil (now : Nat) (h : Declares context.messages context.tools)
    (hnodup : (context.tools.map fun tool => tool.name).Nodup) :
    declareToolChanges now context [] = [] := by
  have hunchanged := h.unchanged hnodup
  rw [declarationsOf] at hunchanged
  simp only [declareToolChanges, splitLastSystem, List.append_nil, hunchanged, if_true]

/-- What a transcript declares depends on its declared tools alone. -/
theorem Declares.of_currentTools {others : List Message} (h : Declares messages tools)
    (heq : currentTools others = currentTools messages) : Declares others tools := by
  refine ⟨?_, ?_, ?_⟩
  · rw [heq]
    exact h.nodup
  · rw [heq]
    exact h.executable
  · rw [heq]
    exact h.declared

end Agent
