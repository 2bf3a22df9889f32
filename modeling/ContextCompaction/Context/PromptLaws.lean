import ContextCompaction.Agent.Declarations
import ContextCompaction.Context.CompactionLaws
import ContextCompaction.Context.Prompt

/-!
# What planned entries show

Replayed behind what is shown, the planned changes give the wanted sections and tools, in values and in
order, and where they are shown nothing is planned.

* `systems_orderToolResults`, `systems_leadWithSystem`: system messages keep their order.
* `patch_planSections`, `applyChanges_planTools`: what a plan does to what is shown.
* `shows_planSystemEntries`: the planned messages behind those of the view.
-/

namespace Context

open Js

/-! ## System messages -/

/-- The system messages, in order. -/
def systems (messages : List Message) : List Message := messages.filter Message.isSystem

theorem systems_append (a b : List Message) : systems (a ++ b) = systems a ++ systems b := List.filter_append ..

private theorem resultOf_not_system (rest : List Message) (timestamp : Number) (call : ToolCall) :
    (resultOf rest timestamp call).isSystem = false := by
  unfold resultOf
  cases hfind : (rest.takeWhile (!·.isAssistant)).find? (·.answers call) with
  | none => rfl
  | some result =>
    have hanswers := List.find?_some hfind
    cases result with
    | system m => cases hanswers
    | _ => rfl

/-- Moving tool results behind their calls leaves the system messages in their order. -/
theorem systems_orderToolResults (messages : List Message) :
    systems (orderToolResults messages) = systems messages := by
  induction messages with
  | nil => rfl
  | cons message rest ih =>
    cases message with
    | toolResult result => exact ih
    | system m => exact congrArg (Message.system m :: ·) ih
    | user m => exact ih
    | assistant m =>
      have hresults : systems ((m.content.filterMap Block.toolCall?).map (resultOf rest m.timestamp)) = [] := by
        refine List.filter_eq_nil_iff.mpr fun result hresult => ?_
        obtain ⟨call, -, rfl⟩ := List.mem_map.mp hresult
        simp [resultOf_not_system]
      change systems (.assistant m :: (_ ++ _)) = systems rest
      rw [systems, List.filter_cons_of_neg (by simp [Message.isSystem]), ← systems, systems_append, ih, hresults,
        List.nil_append]

/-- Moving the leading system message to the front leaves the system messages in their order. -/
theorem systems_leadWithSystem (messages : List Message) :
    systems (leadWithSystem messages) = systems messages := by
  unfold leadWithSystem
  split
  · rename_i i hindex
    split
    · rename_i message hmessage
      obtain ⟨hlt, -, hbefore⟩ := List.findIdx?_eq_some_iff_getElem.mp hindex
      have husers : systems (messages.take (i + 1)) = [] := by
        refine List.filter_eq_nil_iff.mpr fun m hm => ?_
        obtain ⟨j, hj, rfl⟩ := List.mem_take_iff_getElem.mp hm
        have huser := hbefore j (by omega)
        cases hm : messages[j] <;> simp_all [Message.isUser, Message.isSystem]
      have hsplit : messages = messages.take (i + 1) ++ Message.system message :: messages.drop (i + 2) := by
        rw [List.getElem?_eq_some_iff] at hmessage
        obtain ⟨hlt', hmessage⟩ := hmessage
        rw [← hmessage, ← List.drop_eq_getElem_cons hlt', List.take_append_drop]
      conv_rhs => rw [hsplit, systems_append, husers, List.nil_append]
      rw [systems, List.filter_cons_of_pos rfl, ← systems, systems_append, husers]
      rfl
    · rfl
  · rfl

theorem replaySections_systems (messages : List Message) :
    replaySections (systems messages) = replaySections messages := by
  unfold replaySections systems
  rw [List.foldl_filter]
  congr 1
  funext shown message
  cases message <;> rfl

theorem getCurrentTools_systems (messages : List Message) :
    getCurrentTools (systems messages) = getCurrentTools messages := by
  unfold getCurrentTools systems
  rw [List.foldl_filter]
  congr 2
  funext tools message
  cases message <;> rfl

/-! ## Planned messages -/

theorem toolOf_toolJson (tool : Agent.Tool) : toolOf (toolJson tool) = tool := by
  obtain ⟨name, description, parameters, sampling⟩ := tool
  cases sampling <;> rfl

private theorem get?_entry (a b c : Option Json) (timestamp : Number) :
    let message := Json.obj ([(lit "role", .str (lit "system")), (lit "content", .str [])] ++
      property "sections" a ++ property "toolsRemoved" b ++ property "toolsAdded" c ++
      [(lit "timestamp", .num timestamp)])
    message.get? (lit "sections") = a ∧ message.get? (lit "toolsRemoved") = b ∧
      message.get? (lit "toolsAdded") = c := by
  cases a <;> cases b <;> cases c <;> exact ⟨rfl, rfl, rfl⟩

private theorem listField_unlessEmpty {α : Type} {message : Json} {key : String} {xs : List α} {f : α → Json}
    (h : message.get? (lit key) = (Agent.unlessEmpty xs).map fun xs => .arr (xs.map f)) :
    listField message key = xs.map f := by
  rw [listField, h]
  cases xs <;> rfl

/-- What a planned message says. -/
theorem systemEntry_model (sections : Option (List (Str × Option Str))) (tools : Option Agent.ToolStateChanges)
    (timestamp : Number) : ∃ message, (systemEntry sections tools timestamp).model = [.system message] ∧
      sectionEntries message = sections.getD [] ∧
      (listField message "toolsRemoved").map (fun tool => textField tool "name") = (tools.getD .none).toolsRemoved ∧
      (listField message "toolsAdded").map toolOf = (tools.getD .none).toolsAdded := by
  obtain ⟨hsections, hremoved, hadded⟩ := get?_entry (sections.map sectionsJson)
    ((Agent.unlessEmpty (tools.getD .none).toolsRemoved).map fun names => .arr (names.map toolReference))
    ((Agent.unlessEmpty (tools.getD .none).toolsAdded).map fun tools => .arr (tools.map toolJson)) timestamp
  refine ⟨_, rfl, ?_, ?_, ?_⟩
  · rw [sectionEntries, hsections]
    cases sections with
    | none => rfl
    | some entries =>
      change ((entries.map _).filterMap _ : List (Str × Option Str)) = entries
      rw [List.filterMap_map]
      refine (List.filterMap_congr fun entry _ => ?_).trans List.filterMap_some
      obtain ⟨key, _ | text⟩ := entry <;> rfl
  · rw [listField_unlessEmpty hremoved, List.map_map]
    exact List.map_id'' (fun name => rfl) _
  · rw [listField_unlessEmpty hadded, List.map_map]
    exact List.map_id'' toolOf_toolJson _

/-! ## Sections -/

/-- Keys that an object keeps in order and that can be assigned. -/
def Plain (m : List (Str × Str)) : Prop :=
  ∀ key ∈ m.map Prod.fst, indexKey key = none ∧ key ≠ lit "__proto__"

variable {shown desired : List (Str × Str)}

/-- An order that is nowhere other than wanted is a part of it. -/
private theorem prefix_of_zipIdx {α : Type} [DecidableEq α] {xs ys : List α}
    (h : xs.zipIdx.any (fun (x, index) => ys[index]? ≠ some x) = false) : xs <+: ys := by
  rw [List.prefix_iff_getElem?]
  intro i hi
  have hat := List.any_eq_false.mp h (xs[i], i) (List.mem_zipIdx_iff_getElem?.mpr (List.getElem?_eq_getElem hi))
  simpa using hat

private theorem zipIdx_self {α : Type} [DecidableEq α] (xs : List α) :
    xs.zipIdx.any (fun (x, index) => xs[index]? ≠ some x) = false := by
  refine List.any_eq_false.mpr fun e he => ?_
  simpa using List.mem_zipIdx_iff_getElem?.mp he

private theorem foldl_assign {γ : Type} (f : γ → Option (Str × Option Str)) (l : List γ)
    (start : List (Str × Option Str)) (hnodup : ((start ++ l.filterMap f).map Prod.fst).Nodup)
    (hproto : ∀ e ∈ l.filterMap f, e.1 ≠ lit "__proto__") :
    l.foldl (fun patch e => (f e).elim patch fun c => assign patch c.1 c.2) start = start ++ l.filterMap f := by
  induction l generalizing start with
  | nil => rw [List.filterMap_nil, List.append_nil, List.foldl_nil]
  | cons e l ih =>
    rw [List.foldl_cons]
    cases hf : f e with
    | none =>
      rw [List.filterMap_cons_none hf] at hnodup hproto ⊢
      exact ih start hnodup hproto
    | some c =>
      rw [List.filterMap_cons_some hf] at hnodup hproto ⊢
      have hfresh : c.1 ∉ start.map Prod.fst := by
        rw [List.map_append, List.nodup_append] at hnodup
        exact fun hmem => hnodup.2.2 _ hmem c.1 (by simp) rfl
      have hassign : assign start c.1 c.2 = start ++ [c] := by
        rw [assign, if_neg (hproto c List.mem_cons_self), mapSet_of_notMem _ hfresh]
      rw [Option.elim_some, hassign, ih _ (by rwa [List.append_assoc]) fun e he => hproto e (List.mem_cons_of_mem _ he),
        List.append_assoc]
      rfl

/-- The changed and removed sections of a minimal patch, and the new ones. -/
private def changedOf (shown desired : List (Str × Str)) : List (Str × Option Str) :=
  shown.filterMap fun e => if mapGet desired e.1 ≠ some e.2 then some (e.1, mapGet desired e.1) else none

private def newOf (shown desired : List (Str × Str)) : List (Str × Option Str) :=
  desired.filterMap fun e => if (mapGet shown e.1).isSome then none else some (e.1, some e.2)

private theorem mem_keys {m : List (Str × Str)} {key : Str} : (mapGet m key).isSome ↔ key ∈ m.map Prod.fst := by
  rw [Option.isSome_iff_ne_none, ne_eq, mapGet_eq_none, not_not]

private theorem keys_changedOf : (changedOf shown desired).map Prod.fst =
    (shown.filter fun e => mapGet desired e.1 ≠ some e.2).map Prod.fst := by
  rw [changedOf, List.map_filterMap, ← List.filterMap_eq_map, List.filterMap_filter]
  refine List.filterMap_congr fun e _ => ?_
  by_cases h : mapGet desired e.1 = some e.2 <;> simp [h]

private theorem keys_newOf : (newOf shown desired).map Prod.fst =
    (desired.filter fun e => (mapGet shown e.1).isNone).map Prod.fst := by
  rw [newOf, List.map_filterMap, ← List.filterMap_eq_map, List.filterMap_filter]
  refine List.filterMap_congr fun e _ => ?_
  cases h : mapGet shown e.1 <;> simp

theorem nodup_minimal (hshown : (shown.map Prod.fst).Nodup) (hdesired : (desired.map Prod.fst).Nodup) :
    ((changedOf shown desired ++ newOf shown desired).map Prod.fst).Nodup := by
  rw [List.map_append, keys_changedOf, keys_newOf, List.nodup_append]
  refine ⟨hshown.sublist (List.filter_sublist.map _), hdesired.sublist (List.filter_sublist.map _), ?_⟩
  rintro key hkey _ hnew rfl
  obtain ⟨e, he, rfl⟩ := List.mem_map.mp hkey
  obtain ⟨e', he', heq⟩ := List.mem_map.mp hnew
  have hget := (mem_iff_mapGet hshown).mp (List.mem_of_mem_filter he)
  have hnone := (List.mem_filter.mp he').2
  rw [heq, hget] at hnone
  cases hnone

/-- The minimal patch keeps what is shown and wanted in its place, and adds what is not shown. -/
theorem patch_minimal (hshown : (shown.map Prod.fst).Nodup) (hdesired : (desired.map Prod.fst).Nodup) :
    patch shown (changedOf shown desired ++ newOf shown desired) =
      (shown.filterMap fun e => (mapGet desired e.1).map (e.1, ·)) ++
        desired.filter fun e => (mapGet shown e.1).isNone := by
  have hnodup := nodup_minimal hshown hdesired
  rw [patch_eq hshown hnodup, List.filterMap_append]
  have hkept : shown.filterMap (patched (changedOf shown desired ++ newOf shown desired)) =
      shown.filterMap fun e => (mapGet desired e.1).map (e.1, ·) := by
    refine List.filterMap_congr fun e he => ?_
    have hget := (mem_iff_mapGet hshown).mp he
    by_cases h : mapGet desired e.1 = some e.2
    · have hnone : mapGet (changedOf shown desired ++ newOf shown desired) e.1 = none := by
        rw [mapGet_eq_none, List.map_append, keys_changedOf, keys_newOf, List.mem_append, not_or]
        constructor
        · intro hmem
          obtain ⟨e', he', heq⟩ := List.mem_map.mp hmem
          have hget' := (mem_iff_mapGet hshown).mp (List.mem_of_mem_filter he')
          have hne := (List.mem_filter.mp he').2
          rw [heq, hget, Option.some.injEq] at hget'
          rw [heq, h, hget'] at hne
          simp at hne
        · intro hmem
          obtain ⟨e', he', heq⟩ := List.mem_map.mp hmem
          have hisNone := (List.mem_filter.mp he').2
          rw [heq, hget] at hisNone
          cases hisNone
      rw [patched, hnone, h]
      rfl
    · have hmem : (e.1, mapGet desired e.1) ∈ changedOf shown desired ++ newOf shown desired :=
        List.mem_append_left _ (List.mem_filterMap.mpr ⟨e, he, if_pos h⟩)
      rw [patched, (mem_iff_mapGet hnodup).mp hmem]
  have hchanged : (changedOf shown desired).filterMap (added shown) = [] := by
    refine List.filterMap_eq_nil_iff.mpr fun change hchange => if_pos ?_
    have hkey : change.1 ∈ (changedOf shown desired).map Prod.fst := List.mem_map_of_mem hchange
    rw [keys_changedOf] at hkey
    exact (List.filter_sublist.map Prod.fst).subset hkey
  have hnew : (newOf shown desired).filterMap (added shown) = desired.filter fun e => (mapGet shown e.1).isNone := by
    rw [newOf, List.filterMap_filterMap, ← List.filterMap_eq_filter]
    refine List.filterMap_congr fun e _ => ?_
    cases h : mapGet shown e.1 with
    | none => simp [added, mapGet_eq_none.mp h, Option.guard, h]
    | some text => simp [Option.guard, h]
  rw [hkept, hchanged, hnew, List.nil_append]

private theorem keys_minimal {key : Str}
    (h : key ∈ (changedOf shown desired ++ newOf shown desired).map Prod.fst) :
    key ∈ shown.map Prod.fst ∨ key ∈ desired.map Prod.fst := by
  rw [List.map_append, keys_changedOf, keys_newOf, List.mem_append] at h
  exact h.imp (fun h => (List.filter_sublist.map _).subset h) fun h => (List.filter_sublist.map _).subset h

/-- The patch as it is assembled. -/
private theorem minimal_eq (hshown : (shown.map Prod.fst).Nodup) (hdesired : (desired.map Prod.fst).Nodup)
    (hplain : Plain shown) (hplain' : Plain desired) :
    desired.foldl (fun patch e => if (mapGet shown e.1).isSome = true then patch else assign patch e.1 (some e.2))
      (shown.foldl (fun patch e => if mapGet desired e.1 ≠ some e.2 then assign patch e.1 (mapGet desired e.1) else patch) []) =
    changedOf shown desired ++ newOf shown desired := by
  have hnodup := nodup_minimal hshown hdesired
  have hproto : ∀ e ∈ changedOf shown desired ++ newOf shown desired, e.1 ≠ lit "__proto__" := fun e he =>
    (keys_minimal (List.mem_map_of_mem he)).elim (fun h => (hplain _ h).2) fun h => (hplain' _ h).2
  have hchanged : shown.foldl (fun patch e =>
      if mapGet desired e.1 ≠ some e.2 then assign patch e.1 (mapGet desired e.1) else patch) [] =
        changedOf shown desired := by
    have hfold := foldl_assign (fun e : Str × Str =>
      if mapGet desired e.1 ≠ some e.2 then some (e.1, mapGet desired e.1) else none) shown []
      (hnodup.sublist ((List.sublist_append_left _ _).map _)) fun e he => hproto e (List.mem_append_left _ he)
    rw [List.nil_append] at hfold
    rw [changedOf, ← hfold]
    congr 1
    funext patch e
    split_ifs <;> rfl
  have hnew := foldl_assign (fun e : Str × Str => if (mapGet shown e.1).isSome then none else some (e.1, some e.2))
    desired (changedOf shown desired) hnodup fun e he => hproto e (List.mem_append_right _ he)
  rw [hchanged, newOf, ← hnew]
  congr 1
  funext patch e
  split_ifs <;> rfl

private theorem ownOrder_minimal (hshown : (shown.map Prod.fst).Nodup) (hdesired : (desired.map Prod.fst).Nodup)
    (hplain : Plain shown) (hplain' : Plain desired) :
    ownOrder (changedOf shown desired ++ newOf shown desired) = changedOf shown desired ++ newOf shown desired := by
  have hnodup := nodup_minimal hshown hdesired
  have hfields := mkFields_eq_self hnodup fun key hkey =>
    (keys_minimal hkey).elim (fun h => (hplain _ h).1) fun h => (hplain' _ h).1
  rwa [mkFields, mapOf_eq_self hnodup] at hfields

/-- In the wanted order, the minimal patch gives what is wanted. -/
private theorem patch_minimal_eq (hshown : (shown.map Prod.fst).Nodup) (hdesired : (desired.map Prod.fst).Nodup)
    (horder : (((shown.map Prod.fst).filter fun key => (mapGet desired key).isSome) ++
      (desired.map Prod.fst).filter fun key => !(mapGet shown key).isSome).zipIdx.any
        (fun (key, index) => (desired.map Prod.fst)[index]? ≠ some key) = false) :
    patch shown (changedOf shown desired ++ newOf shown desired) = desired := by
  have hprefix := prefix_of_zipIdx horder
  have hperm : ((shown.map Prod.fst).filter fun key => (mapGet desired key).isSome).Perm
      ((desired.map Prod.fst).filter fun key => (mapGet shown key).isSome) := by
    refine (List.perm_ext_iff_of_nodup (hshown.filter _) (hdesired.filter _)).mpr fun key => ?_
    simp only [List.mem_filter, mem_keys]
    exact and_comm
  have hlength := hprefix.eq_of_length (by
    rw [List.length_append, hperm.length_eq]
    have := (List.filter_append_perm (fun key => (mapGet shown key).isSome) (desired.map Prod.fst)).length_eq
    rwa [List.length_append] at this)
  rw [patch_minimal hshown hdesired]
  refine ext_keys hdesired ?_ fun e he => ?_
  · rw [← hlength, List.map_append]
    congr 1
    · rw [List.map_filterMap, List.filter_map, ← List.filterMap_eq_map, List.filterMap_filter]
      refine List.filterMap_congr fun e _ => ?_
      cases h : mapGet desired e.1 <;> simp [h]
    · rw [List.filter_map]
      refine congrArg _ (List.filter_congr fun e _ => ?_)
      cases h : mapGet shown e.1 <;> simp [h]
  · rcases List.mem_append.mp he with he | he
    · obtain ⟨e', -, hget⟩ := List.mem_filterMap.mp he
      obtain ⟨text, htext, rfl⟩ := Option.map_eq_some_iff.mp hget
      exact htext
    · exact (mem_iff_mapGet hdesired).mp (List.mem_of_mem_filter he)

/-- The planned patches turn the shown sections into the desired ones, in their order. -/
theorem patch_planSections (hshown : (shown.map Prod.fst).Nodup) (hdesired : (desired.map Prod.fst).Nodup)
    (hplain : Plain shown) (hplain' : Plain desired) :
    (planSections shown desired).foldl patch shown = desired := by
  unfold planSections
  dsimp only
  split_ifs with horder hempty
  · have hnone := keys_map (m := shown) fun _ => none
    have hsome := keys_map (m := desired) fun e => some e.2
    rw [mkFields_eq_self (hnone ▸ hshown) (hnone ▸ fun k hk => (hplain k hk).1),
      mkFields_eq_self (hsome ▸ hdesired) (hsome ▸ fun k hk => (hplain' k hk).1), List.foldl_cons, List.foldl_cons,
      List.foldl_nil, patch_clear hshown, patch_fill hdesired]
  all_goals
    have hresult := patch_minimal_eq hshown hdesired (by simpa using horder)
  · rw [minimal_eq hshown hdesired hplain hplain'] at hempty
    rw [List.isEmpty_iff.mp hempty] at hresult
    exact hresult
  · rw [minimal_eq hshown hdesired hplain hplain', ownOrder_minimal hshown hdesired hplain hplain']
    exact hresult

/-- Nothing is left to plan. -/
theorem planSections_self (hdesired : (desired.map Prod.fst).Nodup) : planSections desired desired = [] := by
  have hhas : ∀ key ∈ desired.map Prod.fst, (mapGet desired key).isSome = true := fun key hkey => mem_keys.mpr hkey
  have hkept : (desired.map Prod.fst).filter (fun key => (mapGet desired key).isSome) = desired.map Prod.fst :=
    List.filter_eq_self.mpr hhas
  have hadded : (desired.map Prod.fst).filter (fun key => !(mapGet desired key).isSome) = [] :=
    List.filter_eq_nil_iff.mpr fun key hkey => by simp [hhas key hkey]
  have hchanged : desired.foldl (fun patch e =>
      if mapGet desired e.1 ≠ some e.2 then assign patch e.1 (mapGet desired e.1) else patch) [] = [] :=
    List.foldlRecOn (motive := (· = [])) desired _ rfl fun patch hpatch e he => by
      rw [if_neg (not_not.mpr ((mem_iff_mapGet hdesired).mp he)), hpatch]
  have hnew : desired.foldl (fun patch e =>
      if (mapGet desired e.1).isSome = true then patch else assign patch e.1 (some e.2)) [] = [] :=
    List.foldlRecOn (motive := (· = [])) desired _ rfl fun patch hpatch e he => by
      rw [if_pos (hhas e.1 (List.mem_map_of_mem he)), hpatch]
  unfold planSections
  dsimp only
  rw [hkept, hadded, List.append_nil, zipIdx_self, hchanged, hnew]
  rfl

/-! ## Tools -/

/-- The offered tools are the wanted ones, in their order and as they are declared. -/
def Offers (offered desired : List Agent.Tool) : Prop :=
  List.Forall₂ (fun tool other => tool.name = other.name ∧ Agent.declarationsEqual tool other = true) offered desired

variable {declared : List (Str × Agent.Tool)} {tools offered : List Agent.Tool} {removed : List Str}

private theorem foldl_mapDelete : removed.foldl mapDelete declared = declared.filter fun e => e.1 ∉ removed := by
  induction removed generalizing declared with
  | nil => simp
  | cons name removed ih =>
    rw [List.foldl_cons, ih, mapDelete, List.filter_filter]
    refine List.filter_congr fun e _ => ?_
    simp [Bool.and_comm]

private theorem foldl_mapSet (h : ((declared ++ Agent.byName tools).map Prod.fst).Nodup) :
    tools.foldl (fun declared tool => mapSet declared tool.name tool) declared = declared ++ Agent.byName tools := by
  induction tools generalizing declared with
  | nil => exact (List.append_nil declared).symm
  | cons tool tools ih =>
    have hfresh : tool.name ∉ declared.map Prod.fst := by
      rw [List.map_append, List.nodup_append] at h
      exact fun hmem => h.2.2 _ hmem tool.name (List.mem_map_of_mem List.mem_cons_self) rfl
    rw [List.foldl_cons, mapSet_of_notMem _ hfresh, ih (by rwa [List.append_assoc]), List.append_assoc]
    rfl

theorem offers_of_names (hnames : offered.map Agent.Tool.name = tools.map Agent.Tool.name)
    (hequal : ∀ tool ∈ offered, ∀ other ∈ tools, tool.name = other.name → Agent.declarationsEqual tool other = true) :
    Offers offered tools := by
  have hlength : offered.length = tools.length := by simpa using congrArg List.length hnames
  refine List.forall₂_iff_get.mpr ⟨hlength, fun i h h' => ?_⟩
  have hname : offered[i].name = tools[i].name := by
    have hat := congrArg (fun names => names[i]?) hnames
    simpa [h, h'] using hat
  exact ⟨hname, hequal _ (List.getElem_mem h) _ (List.getElem_mem h') hname⟩

theorem Offers.names (h : Offers offered tools) : offered.map Agent.Tool.name = tools.map Agent.Tool.name := by
  induction h with
  | nil => rfl
  | cons hhead _ ih => rw [List.map_cons, List.map_cons, hhead.1, ih]

/-- A tool that stays: its declaration is the wanted one. -/
private def staying (desired : List Agent.Tool) (tool : Agent.Tool) : Bool :=
  (mapGet (mapOf (desired.map fun tool => (tool.name, tool))) tool.name).any (Agent.declarationsEqual tool)

private theorem staying_iff (htools : (tools.map Agent.Tool.name).Nodup) {tool : Agent.Tool} :
    staying tools tool = true ↔ ∃ other ∈ tools, other.name = tool.name ∧ Agent.declarationsEqual tool other = true := by
  unfold staying
  rw [Option.any_eq_true]
  constructor
  · rintro ⟨other, hget, hequal⟩
    obtain ⟨hmem, hname⟩ := (Agent.mapGet_byName htools).mp hget
    exact ⟨other, hmem, hname, hequal⟩
  · rintro ⟨other, hmem, hname, hequal⟩
    exact ⟨other, (Agent.mapGet_byName htools).mpr ⟨hmem, hname⟩, hequal⟩

private theorem replayed_names {replayed : List Agent.Tool}
    (h : ¬ (replayed.zipIdx.any fun (tool, index) => tools[index]?.map Agent.Tool.name ≠ some tool.name) = true) :
    replayed.map Agent.Tool.name <+: tools.map Agent.Tool.name := by
  rw [List.prefix_iff_getElem?]
  intro i hi
  have hi' : i < replayed.length := by simpa using hi
  have hat := List.any_eq_false.mp (Bool.not_eq_true _ ▸ h) (replayed[i], i)
    (List.mem_zipIdx_iff_getElem?.mpr (List.getElem?_eq_getElem hi'))
  simpa using hat

private theorem names_declaration : (tools.map Agent.Tool.declaration).map Agent.Tool.name = tools.map Agent.Tool.name := by
  rw [List.map_map]
  rfl

private theorem keys_byName : (Agent.byName tools).map Prod.fst = tools.map Agent.Tool.name := by
  rw [Agent.byName, List.map_map]
  rfl

private theorem values_byName : (Agent.byName tools).map Prod.snd = tools := by
  rw [Agent.byName, List.map_map]
  exact List.map_id _

private theorem declarationsEqual_self (tool : Agent.Tool) : Agent.declarationsEqual tool.declaration tool = true :=
  Agent.declarationsEqual_iff.mpr (Agent.text_declaration tool)

/-- All tools declared at once. -/
theorem offers_declarations (htools : (tools.map Agent.Tool.name).Nodup) :
    Offers ((Agent.applyChanges [] (tools.map Agent.Tool.declaration) []).map Prod.snd) tools := by
  have hnodup : (([] ++ Agent.byName (tools.map Agent.Tool.declaration)).map Prod.fst).Nodup := by
    rw [List.nil_append, keys_byName, names_declaration]
    exact htools
  rw [Agent.applyChanges, List.foldl_nil, foldl_mapSet hnodup, List.nil_append, values_byName]
  refine offers_of_names names_declaration fun tool htool other hother hname => ?_
  obtain ⟨wanted, hwanted, rfl⟩ := List.mem_map.mp htool
  rw [List.inj_on_of_nodup_map htools hwanted hother hname]
  exact declarationsEqual_self other

/-- The tools that stay are among those that were declared. -/
private theorem filter_staying (hkeyed : Agent.Keyed declared) :
    declared.filter (fun e => e.1 ∉ ((declared.map Prod.snd).filter fun tool =>
        tool.name ∉ ((declared.map Prod.snd).filter (staying tools)).map Agent.Tool.name).map Agent.Tool.name) =
      declared.filter fun e => staying tools e.2 := by
  refine List.filter_congr fun e he => ?_
  have hname := hkeyed.named e he
  have hmem : e.2 ∈ declared.map Prod.snd := List.mem_map_of_mem he
  have hinj := List.inj_on_of_nodup_map (hkeyed.names ▸ hkeyed.nodup)
  have hkept : e.1 ∈ ((declared.map Prod.snd).filter (staying tools)).map Agent.Tool.name ↔ staying tools e.2 = true := by
    constructor
    · intro h
      obtain ⟨tool, htool, heq⟩ := List.mem_map.mp h
      obtain ⟨htool, hstay⟩ := List.mem_filter.mp htool
      rwa [hinj htool hmem (heq.trans hname.symm)] at hstay
    · exact fun h => List.mem_map.mpr ⟨e.2, List.mem_filter.mpr ⟨hmem, h⟩, hname⟩
  rw [Bool.eq_iff_iff, decide_eq_true_iff, ← hkept, List.mem_map, not_exists]
  constructor
  · intro h
    by_contra hnot
    exact h e.2 ⟨List.mem_filter.mpr ⟨hmem, by rw [hname]; exact decide_eq_true hnot⟩, hname⟩
  · rintro h tool ⟨htool, heq⟩
    have hnot := of_decide_eq_true (List.mem_filter.mp htool).2
    exact hnot (heq ▸ h)

/-- The planned changes turn the declared tools into the offered ones. -/
theorem applyChanges_planTools (hkeyed : Agent.Keyed declared) (htools : (tools.map Agent.Tool.name).Nodup) :
    let changes := planTools (declared.map Prod.snd) tools
    Offers ((Agent.applyChanges declared changes.toolsAdded changes.toolsRemoved).map Prod.snd) tools := by
  have hinj := List.inj_on_of_nodup_map htools
  unfold planTools
  dsimp only
  split_ifs with horder
  · -- Everything is removed and added again.
    have hnone : declared.filter (fun e => e.1 ∉ (declared.map Prod.snd).map Agent.Tool.name) = [] := by
      rw [hkeyed.names]
      exact List.filter_eq_nil_iff.mpr fun e he => by simpa using ⟨_, he⟩
    rw [Agent.applyChanges, foldl_mapDelete, hnone]
    exact offers_declarations htools
  · change ¬ (((declared.map Prod.snd).filter (staying tools) ++ tools.filter fun tool =>
      tool.name ∉ ((declared.map Prod.snd).filter (staying tools)).map Agent.Tool.name).zipIdx.any _) = true at horder
    have hprefix := replayed_names horder
    have hfilter := @filter_staying declared tools hkeyed
    have hvalues : (declared.filter fun e => staying tools e.2).map Prod.snd = (declared.map Prod.snd).filter (staying tools) := by
      rw [List.filter_map]
      rfl
    change Offers ((Agent.applyChanges declared ((tools.filter fun tool =>
      tool.name ∉ ((declared.map Prod.snd).filter (staying tools)).map Agent.Tool.name).map Agent.Tool.declaration)
      (((declared.map Prod.snd).filter fun tool =>
        tool.name ∉ ((declared.map Prod.snd).filter (staying tools)).map Agent.Tool.name).map Agent.Tool.name)).map Prod.snd) tools
    have hsub : Agent.Keyed (declared.filter fun e => staying tools e.2) :=
      ⟨hkeyed.nodup.sublist (List.filter_sublist.map _), fun e he => hkeyed.named e (List.mem_of_mem_filter he)⟩
    have hkeys := hsub.names
    rw [hvalues] at hkeys
    have hstays : ∀ tool ∈ (declared.map Prod.snd).filter (staying tools), staying tools tool = true :=
      fun tool htool => (List.mem_filter.mp htool).2
    have hnodup : (((declared.map Prod.snd).filter (staying tools)).map Agent.Tool.name).Nodup := hkeys ▸ hsub.nodup
    rw [Agent.applyChanges, foldl_mapDelete, hfilter, foldl_mapSet, List.map_append, hvalues, values_byName]
    · generalize (declared.map Prod.snd).filter (staying tools) = kept at *
      refine offers_of_names ?_ fun tool htool other hother hname => ?_
      · rw [List.map_append, names_declaration, ← List.map_append]
        refine hprefix.eq_of_length ?_
        have hperm : (kept.map Agent.Tool.name).Perm ((tools.map Agent.Tool.name).filter (· ∈ kept.map Agent.Tool.name)) := by
          refine (List.perm_ext_iff_of_nodup hnodup (htools.filter _)).mpr fun name => ?_
          rw [List.mem_filter, decide_eq_true_iff, iff_and_self]
          intro hname
          obtain ⟨tool, htool, rfl⟩ := List.mem_map.mp hname
          obtain ⟨wanted, hwanted, hname', -⟩ := (staying_iff htools).mp (hstays tool htool)
          exact List.mem_map.mpr ⟨wanted, hwanted, hname'⟩
        have hparts := (List.filter_append_perm (· ∈ kept.map Agent.Tool.name) (tools.map Agent.Tool.name)).length_eq
        rw [List.length_append, ← hperm.length_eq, List.filter_map, List.length_map, List.length_map] at hparts
        rw [List.length_map, List.length_append, ← hparts]
        exact congrArg _ (congrArg _ (List.filter_congr fun tool _ => decide_not))
      · rcases List.mem_append.mp htool with htool | htool
        · obtain ⟨wanted, hwanted, hname', hequal⟩ := (staying_iff htools).mp (hstays tool htool)
          rwa [hinj hwanted hother (hname'.trans hname)] at hequal
        · obtain ⟨wanted, hwanted, rfl⟩ := List.mem_map.mp htool
          rw [hinj (List.mem_of_mem_filter hwanted) hother hname]
          exact declarationsEqual_self other
    · rw [List.map_append, keys_byName, names_declaration, ← hkeys, List.nodup_append]
      refine ⟨hnodup, htools.sublist (List.filter_sublist.map _), ?_⟩
      rintro name hname _ hname' rfl
      obtain ⟨tool, htool, rfl⟩ := List.mem_map.mp hname'
      exact of_decide_eq_true (List.mem_filter.mp htool).2 hname

theorem Offers.exists_mem (h : Offers offered tools) {tool : Agent.Tool} (htool : tool ∈ offered) :
    ∃ other ∈ tools, other.name = tool.name ∧ Agent.declarationsEqual tool other = true := by
  induction h with
  | nil => cases htool
  | cons hhead _ ih =>
    rcases List.mem_cons.mp htool with rfl | htool
    · exact ⟨_, List.mem_cons_self, hhead.1.symm, hhead.2⟩
    · obtain ⟨other, hother, hequal⟩ := ih htool
      exact ⟨other, List.mem_cons_of_mem _ hother, hequal⟩

/-- Nothing changes when the tools are offered already. -/
theorem planTools_self (htools : (tools.map Agent.Tool.name).Nodup) (h : Offers offered tools) :
    planTools offered tools = .none := by
  have hnames := h.names
  have hstays : offered.filter (staying tools) = offered :=
    List.filter_eq_self.mpr fun tool htool => (staying_iff htools).mpr (h.exists_mem htool)
  have hadded : tools.filter (fun tool => tool.name ∉ offered.map Agent.Tool.name) = [] :=
    List.filter_eq_nil_iff.mpr fun tool htool => by
      rw [decide_eq_true_iff, not_not, hnames]
      exact List.mem_map_of_mem htool
  have hremoved : offered.filter (fun tool => tool.name ∉ offered.map Agent.Tool.name) = [] :=
    List.filter_eq_nil_iff.mpr fun tool htool => by
      rw [decide_eq_true_iff, not_not]
      exact List.mem_map_of_mem htool
  have horder : (offered.zipIdx.any fun (tool, index) => tools[index]?.map Agent.Tool.name ≠ some tool.name) = false := by
    refine List.any_eq_false.mpr fun e he => ?_
    have hat := congrArg (fun names => names[e.2]?) hnames
    rw [List.getElem?_map, List.getElem?_map, List.mem_zipIdx_iff_getElem?.mp he] at hat
    simpa using hat.symm
  change (if ((offered.filter (staying tools) ++ tools.filter fun tool =>
    tool.name ∉ (offered.filter (staying tools)).map Agent.Tool.name).zipIdx.any _) = true then _ else
      Agent.ToolStateChanges.mk ((tools.filter fun tool =>
        tool.name ∉ (offered.filter (staying tools)).map Agent.Tool.name).map Agent.Tool.declaration)
      ((offered.filter fun tool => tool.name ∉ (offered.filter (staying tools)).map Agent.Tool.name).map Agent.Tool.name)) = _
  rw [hstays, hadded, hremoved, List.append_nil, horder]
  rfl

/-! ## Planning and replaying -/

variable {view : ContextView}

/-- What the messages of a draft do to what is shown. -/
theorem replay_entry (timestamp : Number) (sections : Option (List (Str × Option Str))) (changes : Option Agent.ToolStateChanges)
    (shown : List (Str × Str)) (declared : List (Str × Agent.Tool)) :
    (systemEntry sections changes timestamp).model.foldl replaySection shown = patch shown (sections.getD []) ∧
      (systemEntry sections changes timestamp).model.foldl declareTools declared =
        Agent.applyChanges declared (changes.getD .none).toolsAdded (changes.getD .none).toolsRemoved := by
  obtain ⟨message, hmodel, hsections, hremoved, hadded⟩ := systemEntry_model sections changes timestamp
  rw [hmodel, List.foldl_cons, List.foldl_nil, List.foldl_cons, List.foldl_nil, replaySection, declareTools, hsections,
    hremoved, hadded]
  exact ⟨rfl, rfl⟩

theorem keyed_declareTools (messages : List Message) : Agent.Keyed (messages.foldl declareTools []) :=
  List.foldlRecOn (motive := Agent.Keyed) messages declareTools ⟨by simp, by simp⟩ fun declared hkeyed message _ => by
    cases message with
    | system message => exact hkeyed.applyChanges
    | _ => exact hkeyed

theorem nodup_patch {m : List (Str × Str)} (hm : (m.map Prod.fst).Nodup) (changes : List (Str × Option Str)) :
    ((patch m changes).map Prod.fst).Nodup :=
  List.foldlRecOn (motive := fun m => (m.map Prod.fst).Nodup) changes applyChange hm fun m hm change _ => by
    rw [applyChange]
    cases change.2 with
    | none => exact nodup_mapDelete hm _
    | some v => exact nodup_mapSet hm _ v

theorem nodup_replaySections (messages : List Message) : ((replaySections messages).map Prod.fst).Nodup :=
  List.foldlRecOn (motive := fun m => (m.map Prod.fst).Nodup) messages replaySection (by simp) fun m hm message _ => by
    cases message with
    | system message => exact nodup_patch hm _
    | _ => exact hm

/-- The messages of drafts, in order. -/
def draftMessages (drafts : List SystemDraft) : List Message := (drafts.map SystemDraft.model).flatten

/-- What is shown after the messages is what is wanted. -/
structure Shows (desired : List (Str × Str)) (tools : List Agent.Tool) (messages : List Message) : Prop where
  sections : replaySections messages = desired
  tools : Offers (getCurrentTools messages) tools

private theorem replay_drafts (timestamp : Number) (sections : List (List (Str × Option Str))) (shown : List (Str × Str))
    (declared : List (Str × Agent.Tool)) :
    (draftMessages (sections.map fun patch => systemEntry (some patch) none timestamp)).foldl replaySection shown =
        sections.foldl patch shown ∧
      (draftMessages (sections.map fun patch => systemEntry (some patch) none timestamp)).foldl declareTools declared =
        declared := by
  induction sections generalizing shown with
  | nil => exact ⟨rfl, rfl⟩
  | cons first sections ih =>
    obtain ⟨hsections, htools⟩ := replay_entry timestamp (some first) none shown declared
    have hcons : draftMessages ((first :: sections).map fun patch => systemEntry (some patch) none timestamp) =
        (systemEntry (some first) none timestamp).model ++
          draftMessages (sections.map fun patch => systemEntry (some patch) none timestamp) := rfl
    rw [hcons, List.foldl_append, List.foldl_append, hsections, htools, List.foldl_cons]
    exact ih (patch shown first)

private theorem draftMessages_append (a b : List SystemDraft) :
    draftMessages (a ++ b) = draftMessages a ++ draftMessages b := by
  rw [draftMessages, List.map_append, List.flatten_append]
  rfl

private theorem draftMessages_singleton (draft : SystemDraft) : draftMessages [draft] = draft.model :=
  List.append_nil draft.model

/-- The changes are on the last entry. -/
private theorem zipIdx_changes (timestamp : Number) (init : List (List (Str × Option Str))) (last : List (Str × Option Str))
    (changes : Agent.ToolStateChanges) :
    ((init ++ [last]).zipIdx.map fun (patch, index) =>
        systemEntry (some patch) (if index = (init ++ [last]).length - 1 then some changes else none) timestamp) =
      (init.map fun patch => systemEntry (some patch) none timestamp) ++
        [systemEntry (some last) (some changes) timestamp] := by
  have hlength : (init ++ [last]).length - 1 = init.length := by simp
  rw [hlength, List.zipIdx_append, List.map_append]
  congr 1
  · conv_rhs => rw [← List.zipIdx_map_fst 0 init, List.map_map]
    refine List.map_congr_left fun e he => ?_
    have hindex : e.2 ≠ init.length := by
      have hat := List.mem_zipIdx_iff_getElem?.mp he
      rintro heq
      rw [heq, List.getElem?_eq_none (Nat.le_refl _)] at hat
      cases hat
    simp [hindex]
  · simp

/-- Without a baseline, the planned entries behind the view show the desired prompt, and edit nothing. -/
theorem shows_planSystemEntries (timestamp : Number) (hdesired : (desired.map Prod.fst).Nodup) (hplain : Plain desired)
    (hplain' : Plain (replaySections view.messages)) (htools : (tools.map Agent.Tool.name).Nodup)
    (hbaseline : ¬ view.head.any (fun head =>
      !view.entries.any fun entry => isSystemEntry entry && decide (head.id < entry.id)) = true) :
    Shows desired tools (view.messages ++ draftMessages (planSystemEntries view desired tools timestamp)) ∧
      ∀ draft ∈ planSystemEntries view desired tools timestamp, draft.edits = none := by
  have hsections := patch_planSections (nodup_replaySections view.messages) hdesired hplain' hplain
  have hchanges := applyChanges_planTools (keyed_declareTools view.messages) htools
  unfold planSystemEntries
  rw [if_neg hbaseline]
  dsimp only at hchanges ⊢
  rw [← getCurrentTools] at hchanges
  generalize planSections (replaySections view.messages) desired = sections at hsections
  generalize planTools (getCurrentTools view.messages) tools = changes at hchanges
  split_ifs with hnone hempty
  · obtain ⟨hadded, hremoved⟩ : changes.toolsAdded = [] ∧ changes.toolsRemoved = [] := by
      simpa [and_comm] using hnone
    rw [hadded, hremoved] at hchanges
    obtain ⟨hreplayed, hdeclared⟩ := replay_drafts timestamp sections (replaySections view.messages)
      (view.messages.foldl declareTools [])
    refine ⟨⟨?_, ?_⟩, fun draft hdraft => ?_⟩
    · rw [replaySections, List.foldl_append, ← replaySections, hreplayed, hsections]
    · rw [getCurrentTools, List.foldl_append, hdeclared]
      exact hchanges
    · obtain ⟨patch, -, rfl⟩ := List.mem_map.mp hdraft
      rfl
  · obtain rfl := List.isEmpty_iff.mp hempty
    obtain ⟨hreplayed, hdeclared⟩ := replay_entry timestamp none (some changes)
      (replaySections view.messages) (view.messages.foldl declareTools [])
    rw [draftMessages_singleton]
    refine ⟨⟨?_, ?_⟩, fun draft hdraft => ?_⟩
    · rw [replaySections, List.foldl_append, ← replaySections, hreplayed]
      exact hsections
    · rw [getCurrentTools, List.foldl_append, hdeclared]
      exact hchanges
    · rw [List.mem_singleton.mp hdraft]
      rfl
  · obtain ⟨init, last, rfl⟩ := (List.eq_nil_or_concat' sections).resolve_left (by simpa using hempty)
    rw [zipIdx_changes]
    obtain ⟨hreplayed, hdeclared⟩ := replay_drafts timestamp init (replaySections view.messages)
      (view.messages.foldl declareTools [])
    obtain ⟨hreplayed', hdeclared'⟩ := replay_entry timestamp (some last) (some changes)
      (init.foldl patch (replaySections view.messages)) (view.messages.foldl declareTools [])
    rw [List.foldl_append] at hsections
    rw [draftMessages_append, draftMessages_singleton]
    refine ⟨⟨?_, ?_⟩, fun draft hdraft => ?_⟩
    · rw [replaySections, List.foldl_append, ← replaySections, List.foldl_append, hreplayed, hreplayed']
      exact hsections
    · rw [getCurrentTools, List.foldl_append, List.foldl_append, hdeclared, hdeclared']
      exact hchanges
    · rcases List.mem_append.mp hdraft with hdraft | hdraft
      · obtain ⟨patch, -, rfl⟩ := List.mem_map.mp hdraft
        rfl
      · rw [List.mem_singleton.mp hdraft]
        rfl

end Context
