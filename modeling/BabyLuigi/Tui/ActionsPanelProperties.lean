import BabyLuigi.Support.Except
import BabyLuigi.Tui.ActionsPanel
import BabyLuigi.Tui.ScheduleFormProperties

/-! What the actions panel can put into the input queue, over all runs of the
panel. -/

set_option autoImplicit false

namespace BabyLuigi.Tui

open Cron

/-! ### Blanks and commas -/

theorem trim_trim (input : Str) : trim (trim input) = trim input := by
  have noBlank : (trim input).dropWhile isSpace = trim input := by
    cases trimmed : trim input with
    | nil => rfl
    | cons char rest =>
        have shorter : trim input <+: input.dropWhile isSpace := List.rdropWhile_prefix _ _
        rw [trimmed] at shorter
        obtain ⟨_, whole⟩ := shorter
        have front : (input.dropWhile isSpace).head? = some char := by rw [← whole]; rfl
        have visible := List.head?_dropWhile_not isSpace input
        rw [front] at visible
        exact List.dropWhile_cons_of_neg (by simpa using visible)
  conv_lhs => rw [trim, noBlank]
  exact List.rdropWhile_idempotent _ _

theorem mem_of_mem_trim {input : Str} {byte : UInt8} (member : byte ∈ trim input) :
    byte ∈ input :=
  (List.dropWhile_sublist isSpace).mem ((List.rdropWhile_prefix isSpace _).mem member)

theorem splitCsvFrom_eq (input current : Str) (out : List Str) :
    splitCsvFrom input current out = out ++
      ((input.splitOnPPrepend (· == 44) current.reverse).map trim).filter (!·.isEmpty) := by
  have pushed : ∀ (current : Str) (out : List Str),
      pushToken current out = out ++ ([trim current].filter (!·.isEmpty)) := by
    intro current out
    unfold pushToken
    dsimp only
    split <;> simp [*]
  induction input generalizing current out with
  | nil => simp [splitCsvFrom, pushed]
  | cons ch rest ih =>
      rw [splitCsvFrom, List.splitOnPPrepend_cons_eq_if]
      by_cases comma : ch = 44
      · rw [if_pos comma, if_pos (by simp [comma]), ih, pushed, List.map_cons, List.append_assoc,
          ← List.filter_append]
        simp
      · rw [if_neg comma, if_neg (by simp [comma]), ih]
        simp

/-- Splitting at commas, trimming and dropping what is blank. -/
theorem splitCsv_eq (input : Str) :
    splitCsv input = ((input.splitOn 44).map trim).filter (!·.isEmpty) := by
  rw [splitCsv, splitCsvFrom_eq]
  rfl

theorem of_mem_splitOn {input part : Str} (member : part ∈ input.splitOn 44) :
    ∀ byte ∈ part, byte ∈ input ∧ byte ≠ 44 := by
  induction input generalizing part with
  | nil =>
      rw [List.splitOn_nil, List.mem_singleton] at member
      simp [member]
  | cons ch rest ih =>
      have later : ∀ {part : Str}, part ∈ rest.splitOn 44 → ∀ byte ∈ part,
          byte ∈ ch :: rest ∧ byte ≠ 44 := fun listed byte held =>
        ⟨List.mem_cons_of_mem ch (ih listed byte held).1, (ih listed byte held).2⟩
      rw [List.splitOn_cons_eq_if_modifyHead] at member
      by_cases comma : ch = 44
      · rw [if_pos (by simp [comma]), List.mem_cons] at member
        rcases member with rfl | listed
        · simp
        · exact later listed
      · rw [if_neg (by simp [comma])] at member
        obtain ⟨first, others, split⟩ := List.exists_cons_of_ne_nil (List.splitOn_ne_nil 44 rest)
        rw [split] at later
        rw [split, List.modifyHead_cons, List.mem_cons] at member
        rcases member with rfl | listed
        · exact List.forall_mem_cons.mpr ⟨⟨List.mem_cons_self, comma⟩, later List.mem_cons_self⟩
        · exact later (List.mem_cons_of_mem first listed)

/-- What a dependency list holds: names that are not blank, without blanks at
either end and without commas. -/
structure Token (token : Str) : Prop where
  nonempty : token ≠ []
  trimmed : trim token = token
  noComma : 44 ∉ token

theorem mem_splitCsv {input token : Str} (member : token ∈ splitCsv input) :
    Token token ∧ ∀ byte ∈ token, byte ∈ input := by
  rw [splitCsv_eq, List.mem_filter, List.mem_map] at member
  obtain ⟨⟨part, listed, rfl⟩, nonempty⟩ := member
  have bytes : ∀ byte ∈ trim part, byte ∈ input ∧ byte ≠ 44 :=
    fun byte held => of_mem_splitOn listed byte (mem_of_mem_trim held)
  refine ⟨⟨by simpa using nonempty, trim_trim part, ?_⟩, fun byte held => (bytes byte held).1⟩
  intro comma
  exact (bytes 44 comma).2 rfl

/-- Every list of tokens comes back from its text, and every text yields one. -/
theorem splitCsv_round_trip :
    (∀ tokens : List Str, (∀ token ∈ tokens, Token token) →
      splitCsv ([44].intercalate tokens) = tokens) ∧
    ∀ input : Str, (∀ token ∈ splitCsv input, Token token) ∧
      splitCsv ([44].intercalate (splitCsv input)) = splitCsv input := by
  have back : ∀ tokens : List Str, (∀ token ∈ tokens, Token token) →
      splitCsv ([44].intercalate tokens) = tokens := by
    intro tokens each
    rcases List.eq_nil_or_concat tokens with rfl | ⟨_, _, rfl⟩
    · rfl
    · rw [splitCsv_eq, List.splitOn_intercalate 44 (fun token member => (each token member).noComma)
        (by simp)]
      have same : ∀ token ∈ _, trim token = token := fun token member => (each token member).trimmed
      rw [List.map_congr_left same, List.map_id', List.filter_eq_self]
      intro token member
      simpa using (each token member).nonempty
  refine ⟨back, fun input => ⟨fun token member => (mem_splitCsv member).1, ?_⟩⟩
  exact back _ fun token member => (mem_splitCsv member).1

/-! ### Selections -/

theorem vectorAt_clampIndex {Element : Type} {elements : List Element} (nonempty : elements ≠ [])
    (value : Int) : ∃ element ∈ elements,
      vectorAt elements (clampIndex value elements.length) = .ok element := by
  have positive := List.length_pos_iff.mpr nonempty
  have low : ¬ clampIndex value elements.length < 0 := by
    unfold clampIndex
    rw [if_neg (by omega)]
    omega
  have within : (clampIndex value elements.length).toNat < elements.length := by
    unfold clampIndex
    rw [if_neg (by omega)]
    omega
  refine ⟨elements[(clampIndex value elements.length).toNat], List.getElem_mem within, ?_⟩
  unfold vectorAt
  rw [List.getElem?_eq_getElem within]
  exact if_neg low

/-! ### Requests -/

/-- The commands of the actions on an item that exists. -/
def OnSelected (command : CommandEnum) : Prop :=
  command = .remove ∨ command = .execute ∨ command = .snapshot

namespace ActionsPanel

/-- What the panel asks for with the text and the selections it has. -/
inductive Submitted (readFile : Str → Option Str) (panel : ActionsPanel) : ShyguyRequest → Prop where
  | createdDag :
      trim (panel.inputs .dagNameInput) ≠ [] →
      (panel.dagScheduleKind ≠ 0 → panel.cronFromForm ≠ none) →
      Submitted readFile panel {
        data := .dag { name := trim (panel.inputs .dagNameInput), schedule := panel.cronFromForm }
        command := .create }
  | selectedDag {name : Str} {command : CommandEnum} :
      name ∈ panel.dagNames → name ≠ [] → OnSelected command →
      Submitted readFile panel {
        data := .dag { name := name, schedule := none }
        command := command }
  | createdTask {type contents : Str} {dependencies : Option (List Str)} :
      trim (panel.inputs .taskNameInput) ≠ [] → trim (panel.inputs .taskDagInput) ≠ [] →
      trim (panel.inputs .taskFilePathInput) ≠ [] →
      readFile (trim (panel.inputs .taskFilePathInput)) = some contents → type ∈ taskTypeNames →
      (∀ names ∈ dependencies,
        names ≠ [] ∧ names = splitCsv (panel.inputs .taskDependenciesInput)) →
      Submitted readFile panel {
        data := .task {
          name := trim (panel.inputs .taskNameInput)
          associatedDag := trim (panel.inputs .taskDagInput)
          type := some type
          filename := some (trim (panel.inputs .taskFilePathInput))
          fileContent := some contents
          dependencyNames := dependencies }
        command := .create }
  | selectedTask {dag name : Str} {command : CommandEnum} :
      (dag, name) ∈ panel.taskRefs → OnSelected command →
      Submitted readFile panel {
        data := .task {
          name := name
          associatedDag := dag
          type := none
          filename := none
          fileContent := none
          dependencyNames := none }
        command := command }

/-- The submission changes the status line at most, and what it queues is asked
for by the panel. -/
structure Submits (readFile : Str → Option Str) (panel : ActionsPanel) (submission : Submission) :
    Prop where
  changes : ∃ statusLine, submission.1 = { panel with statusLine := statusLine }
  request : ∀ request ∈ submission.2, Submitted readFile panel request

variable {readFile : Str → Option Str} {panel : ActionsPanel} {command : CommandEnum} {action : Str}

theorem submits_refuse (statusLine : Str) : Submits readFile panel (panel.refuse statusLine) :=
  ⟨⟨statusLine, rfl⟩, by simp [refuse]⟩

theorem submits_queued {request : ShyguyRequest} {target : Str}
    (submitted : Submitted readFile panel request) :
    Submits readFile panel (panel.queued request action target) :=
  ⟨⟨_, rfl⟩, by simpa [queued] using submitted⟩

theorem submits_createdDag :
    Submits readFile panel (panel.submitCreatedDag .create action) := by
  unfold submitCreatedDag
  dsimp only
  split
  · exact submits_refuse _
  · rename_i valid
    unfold submitDag
    split
    · exact submits_refuse _
    · rename_i nonempty
      refine submits_queued (.createdDag (by simpa using nonempty) ?_)
      exact fun scheduled none => valid ⟨scheduled, none⟩

theorem submits_selectedDag (selecting : OnSelected command) :
    ∃ submission, panel.submitSelectedDag command action = .ok submission ∧
      Submits readFile panel submission := by
  unfold submitSelectedDag
  split
  · exact ⟨_, rfl, submits_refuse _⟩
  · rename_i some
    obtain ⟨name, listed, selected⟩ :=
      vectorAt_clampIndex (by simpa using some) panel.selectedDag
    refine ⟨_, by rw [selected]; rfl, ?_⟩
    unfold submitDag
    split
    · exact submits_refuse _
    · rename_i nonempty
      exact submits_queued (.selectedDag listed (by simpa using nonempty) selecting)

theorem submits_createdTask :
    ∃ submission, panel.submitCreatedTask readFile .create action = .ok submission ∧
      Submits readFile panel submission := by
  unfold submitCreatedTask
  dsimp only
  split
  · exact ⟨_, rfl, submits_refuse _⟩
  · rename_i named
    split
    · exact ⟨_, rfl, submits_refuse _⟩
    · rename_i associated
      split
      · exact ⟨_, rfl, submits_refuse _⟩
      · rename_i located
        split
        · exact ⟨_, rfl, submits_refuse _⟩
        · rename_i contents read
          have typed : taskTypeNames ≠ [] := by decide
          obtain ⟨type, listed, selected⟩ := vectorAt_clampIndex typed panel.taskTypeIndex
          refine ⟨_, by rw [selected]; rfl, submits_queued (.createdTask (by simpa using named)
            (by simpa using associated) (by simpa using located) read listed ?_)⟩
          intro names given
          split at given
          · cases given
          · rename_i nonempty
            obtain rfl := Option.some.inj given
            exact ⟨by simpa using nonempty, rfl⟩

theorem submits_selectedTask (selecting : OnSelected command) :
    ∃ submission, panel.submitSelectedTask command action = .ok submission ∧
      Submits readFile panel submission := by
  unfold submitSelectedTask
  split
  · exact ⟨_, rfl, submits_refuse _⟩
  · rename_i some
    obtain ⟨⟨dag, name⟩, listed, selected⟩ :=
      vectorAt_clampIndex (by simpa using some) panel.selectedTask
    exact ⟨_, by rw [selected]; rfl, submits_queued (.selectedTask listed selecting)⟩

/-- Every action of the menu has a command. -/
theorem commandForAction_of_mem (listed : action ∈ actionNames) :
    (action = ascii "create" ∨ action = ascii "update") ∧
      commandForAction action = some .create ∨
    ¬ (action = ascii "create" ∨ action = ascii "update") ∧
      ∃ command, commandForAction action = some command ∧ OnSelected command := by
  simp only [actionNames, List.mem_cons, List.not_mem_nil, or_false] at listed
  rcases listed with rfl | rfl | rfl | rfl | rfl | rfl
  · exact .inl ⟨by decide, by decide⟩
  · exact .inr ⟨by decide, .remove, by decide, .inl rfl⟩
  · exact .inl ⟨by decide, by decide⟩
  · exact .inr ⟨by decide, .execute, by decide, .inr (.inl rfl)⟩
  · exact .inr ⟨by decide, .execute, by decide, .inr (.inl rfl)⟩
  · exact .inr ⟨by decide, .snapshot, by decide, .inr (.inr rfl)⟩

theorem submitRequest_submits (readFile : Str → Option Str) (panel : ActionsPanel) :
    ∃ submission, panel.submitRequest readFile = .ok submission ∧
      Submits readFile panel submission := by
  unfold submitRequest
  split
  · exact ⟨_, rfl, submits_refuse _⟩
  · have actions : actionNames ≠ [] := by decide
    obtain ⟨action, listed, selected⟩ := vectorAt_clampIndex actions panel.selectedAction
    rw [selected]
    rcases commandForAction_of_mem listed with ⟨creates, known⟩ | ⟨onSelected, command, known, selecting⟩
    · simp only [known, creates, if_true, bind, Except.bind]
      split
      · exact ⟨_, rfl, submits_createdDag⟩
      · exact submits_createdTask
    · simp only [known, onSelected, if_false, bind, Except.bind]
      split
      · exact submits_selectedDag selecting
      · exact submits_selectedTask selecting

end ActionsPanel

/-! ### Schedules -/

/-- The bytes of a schedule that is built from numbers. -/
def IsCronByte (byte : UInt8) : Prop := isDigit byte = true ∨ byte = 42 ∨ byte = 32

theorem isCronByte_cell {field : CronFieldPos} {text : Str} {number : Option Int}
    (cell : Cell field text number) : ∀ byte ∈ text, IsCronByte byte := by
  intro byte member
  cases cell with
  | every =>
      obtain rfl := List.mem_singleton.mp member
      exact .inr (.inl rfl)
  | only isNumber _ _ => exact .inl (isNumber.digits byte member)

theorem isCronByte_print {expression : CronExpression} {content : CronFieldPos → Option Int}
    (simple : expression.Simple content) : ∀ byte ∈ expression.print, IsCronByte byte := by
  intro byte member
  have space : byte = 32 → IsCronByte byte := fun same => .inr (.inr same)
  simp only [CronExpression.print, List.mem_append, List.mem_cons] at member
  rcases member with held | same | held | same | held | same | held | same | held
  · exact isCronByte_cell (simple .minute) byte held
  · exact space same
  · exact isCronByte_cell (simple .hour) byte held
  · exact space same
  · exact isCronByte_cell (simple .dayOfMonth) byte held
  · exact space same
  · exact isCronByte_cell (simple .month) byte held
  · exact space same
  · exact isCronByte_cell (simple .dayOfWeek) byte held

theorem buildCronFromForm_bytes {kind : Int}
    {cronCustom minute hour dayOfMonth month dayOfWeek cron : Str}
    (built : buildCronFromForm kind cronCustom minute hour dayOfMonth month dayOfWeek = some cron) :
    cron ≠ [] ∧ ∀ byte ∈ cron, byte ∈ cronCustom ∨ IsCronByte byte := by
  by_cases kinds : 1 ≤ kind ∧ kind ≤ 5
  · obtain ⟨content, given, rfl⟩ := exists_content kinds built
    refine ⟨by simp [CronExpression.print], ?_⟩
    exact fun byte member => .inr (isCronByte_print given.simple byte member)
  · by_cases custom : kind = 6
    · subst custom
      simp only [buildCronFromForm] at built
      split at built
      · cases built
      · rename_i nonempty
        obtain rfl := Option.some.inj built
        exact ⟨by simpa using nonempty, fun byte member => .inl (mem_of_mem_trim member)⟩
    · exfalso
      unfold buildCronFromForm at built
      split at built <;> first | omega | cases built

/-! ### Runs -/

/-- A request that a panel can queue, whatever has been typed and selected. -/
inductive PanelRequest : ShyguyRequest → Prop where
  | createdDag {name : Str} {schedule : Option Str} :
      name ≠ [] → trim name = name → (∀ cron ∈ schedule, cron ≠ []) →
      PanelRequest { data := .dag { name := name, schedule := schedule }, command := .create }
  | selectedDag {name : Str} {command : CommandEnum} :
      name ≠ [] → OnSelected command →
      PanelRequest { data := .dag { name := name, schedule := none }, command := command }
  | createdTask {name dag type path contents : Str} {dependencies : Option (List Str)} :
      name ≠ [] → trim name = name → dag ≠ [] → trim dag = dag → path ≠ [] → trim path = path →
      type ∈ taskTypeNames →
      (∀ names ∈ dependencies, names ≠ [] ∧ ∀ token ∈ names, Token token) →
      PanelRequest {
        data := .task {
          name := name
          associatedDag := dag
          type := some type
          filename := some path
          fileContent := some contents
          dependencyNames := dependencies }
        command := .create }
  | selectedTask {dag name : Str} {command : CommandEnum} :
      OnSelected command →
      PanelRequest {
        data := .task {
          name := name
          associatedDag := dag
          type := none
          filename := none
          fileContent := none
          dependencyNames := none }
        command := command }

theorem ActionsPanel.Submitted.panelRequest {readFile : Str → Option Str} {panel : ActionsPanel}
    {request : ShyguyRequest} (submitted : Submitted readFile panel request) :
    PanelRequest request := by
  cases submitted with
  | createdDag nonempty _ =>
      exact .createdDag nonempty (trim_trim _) fun cron built => (buildCronFromForm_bytes built).1
  | selectedDag _ nonempty selecting => exact .selectedDag nonempty selecting
  | createdTask named associated located _ listed dependencies =>
      refine .createdTask named (trim_trim _) associated (trim_trim _) located (trim_trim _) listed
        ?_
      intro names given
      obtain ⟨nonempty, rfl⟩ := dependencies names given
      exact ⟨nonempty, fun token member => (mem_splitCsv member).1⟩
  | selectedTask _ selecting => exact .selectedTask selecting

/-- A character event carries one character, as ASCII or as a longer sequence. -/
def OneGlyph (event : PanelEvent) : Prop :=
  ∀ text, event = .character text → (∃ byte, text = [byte]) ∨ ∀ byte ∈ text, 128 ≤ byte

section Runs

open ActionsPanel

variable {Store : Type} {admits : PanelEvent → Prop} {panel after : ActionsPanel}
  {requests : List ShyguyRequest} {backend : PanelBackend Store} {readFile : Str → Option Str}
  {event : PanelEvent} {request : Option ShyguyRequest}

theorem refreshLists_inputs (result : panel.refreshLists backend = .ok after) :
    after.inputs = panel.inputs := by
  unfold refreshLists at result
  dsimp only at result
  split at result
  · cases result
    rfl
  · cases result
    rfl
  · split at result
    · cases result
    · cases result
      rfl
    · obtain ⟨refs, _, rest⟩ := bind_eq_ok.mp result
      cases rest
      rfl

theorem useSelected_ok (panel : ActionsPanel) : ∃ used, panel.useSelected = .ok used ∧
    ∀ field, field ≠ .dagNameInput → field ≠ .taskDagInput → field ≠ .taskNameInput →
      used.inputs field = panel.inputs field := by
  unfold useSelected
  split
  · rename_i onDag
    obtain ⟨name, _, selected⟩ := vectorAt_clampIndex
      (List.isEmpty_eq_false_iff.mp onDag.2) panel.selectedDag
    refine ⟨_, by rw [selected]; rfl, ?_⟩
    intro field notName _ _
    simp [setInput, notName]
  · split
    · rename_i onTask
      obtain ⟨⟨dag, task⟩, _, selected⟩ := vectorAt_clampIndex
        (List.isEmpty_eq_false_iff.mp onTask.2) panel.selectedTask
      refine ⟨_, by rw [selected]; rfl, ?_⟩
      intro field _ notDag notName
      simp [setInput, notDag, notName]
    · exact ⟨panel, rfl, fun _ _ _ _ => rfl⟩

/-- What the handler does with an event that it takes. -/
theorem handleEvent_cases
    (result : panel.handleEvent backend readFile event = .ok (some (after, request))) :
    (panel.refreshLists backend = .ok after ∧ request = none) ∨
    (panel.useSelected = .ok after ∧ request = none) ∨
    panel.submitRequest readFile = .ok (after, request) := by
  unfold handleEvent at result
  split at result
  · obtain ⟨refreshed, listed, rest⟩ := bind_eq_ok.mp result
    cases rest
    exact .inl ⟨listed, rfl⟩
  · split at result
    · obtain ⟨used, found, rest⟩ := bind_eq_ok.mp result
      cases rest
      exact .inr (.inl ⟨found, rfl⟩)
    · split at result
      · cases result
      · obtain ⟨submission, submitted, rest⟩ := bind_eq_ok.mp result
        cases rest
        exact .inr (.inr submitted)

theorem handleEvent_not_taken (result : panel.handleEvent backend readFile event = .ok none) :
    isRefreshKey event = false ∧ isUseKey event = false := by
  unfold handleEvent at result
  split at result
  · obtain ⟨_, _, rest⟩ := bind_eq_ok.mp result
    cases rest
  · rename_i notRefresh
    split at result
    · obtain ⟨_, _, rest⟩ := bind_eq_ok.mp result
      cases rest
    · rename_i notUse
      exact ⟨by simpa using notRefresh, by simpa using notUse⟩

/-- Only the lists of the storage can make the handler throw. -/
theorem handleEvent_throws {fault : Fault}
    (result : panel.handleEvent backend readFile event = .error fault) :
    panel.refreshLists backend = .error fault := by
  unfold handleEvent at result
  split at result
  · cases refreshed : panel.refreshLists backend with
    | error thrown => simpa [refreshed, bind, Except.bind] using result
    | ok _ => simp [refreshed, bind, Except.bind, pure, Except.pure] at result
  · split at result
    · obtain ⟨used, found, _⟩ := useSelected_ok panel
      simp [found, bind, Except.bind, pure, Except.pure] at result
    · split at result
      · cases result
      · obtain ⟨submission, submitted, _⟩ := submitRequest_submits readFile panel
        simp [submitted, bind, Except.bind, pure, Except.pure] at result

theorem panelRequest_of_submitRequest (result : panel.submitRequest readFile = .ok (after, request))
    {made : ShyguyRequest} (member : made ∈ request) : PanelRequest made := by
  obtain ⟨submission, submitted, submits⟩ := submitRequest_submits readFile panel
  obtain rfl := Except.ok.inj (submitted.symm.trans result)
  exact (submits.request made member).panelRequest

theorem PanelRun.panelRequest (run : PanelRun Store admits panel requests) :
    ∀ made ∈ requests, PanelRequest made := by
  induction run with
  | construct _ _ _ => simp
  | handle backend readFile event _ _ result ih =>
      intro made member
      rcases List.mem_append.mp member with new | old
      · rcases handleEvent_cases result with ⟨_, rfl⟩ | ⟨_, rfl⟩ | submitted
        · cases new
        · cases new
        · exact panelRequest_of_submitRequest submitted (by simpa using new)
      · exact ih made old
  | edit _ _ _ _ _ _ _ ih => exact ih
  | press readFile _ result ih =>
      intro made member
      rcases List.mem_append.mp member with new | old
      · exact panelRequest_of_submitRequest result (by simpa using new)
      · exact ih made old

/-- A panel of a server without a handle, after the name of a DAG and a custom
schedule have been typed. -/
def typedPanel : ActionsPanel :=
  let opened := { ActionsPanel.initial true with statusLine := ascii "Shyguy unavailable" }
  { (opened.setInput .dagNameInput (ascii "e")).setInput .cronCustomInput (ascii "*") with
    dagScheduleKind := 6 }

def typedRequest : ShyguyRequest where
  data := .dag { name := ascii "e", schedule := some (ascii "*") }
  command := .create

theorem panelRun_typed : ∃ panel, PanelRun Unit OneGlyph panel [typedRequest] := by
  let opened := { ActionsPanel.initial true with statusLine := ascii "Shyguy unavailable" }
  let named := opened.setInput .dagNameInput (ascii "e")
  have glyph : ∀ byte, OneGlyph (.character [byte]) := by
    intro byte text same
    cases same
    exact .inl ⟨byte, rfl⟩
  have construct : PanelRun Unit OneGlyph opened [] := .construct .noShyguy true rfl
  have name : PanelRun Unit OneGlyph named [] := by
    refine construct.edit .noShyguy (fun _ => none) (.character (ascii "e")) (glyph _) rfl
      ⟨?_, rfl, rfl, rfl, rfl⟩
    intro field
    by_cases isName : field = .dagNameInput
    · subst isName
      exact .inserted [] [] rfl
    · simp only [named, ActionsPanel.setInput, isName, if_false]
      exact .kept _
  have schedule : PanelRun Unit OneGlyph typedPanel [] := by
    refine name.edit .noShyguy (fun _ => none) (.character (ascii "*")) (glyph _) rfl
      ⟨?_, rfl, rfl, rfl, rfl⟩
    intro field
    by_cases isCustom : field = .cronCustomInput
    · subst isCustom
      exact .inserted [] [] rfl
    · simp only [typedPanel, ActionsPanel.setInput, isCustom, if_false]
      exact .kept _
  exact ⟨_, schedule.press (fun _ => none) rfl⟩

/-- In every run of the panel, whatever is typed, selected and listed: each
request it queues is complete for its action, with names, path and
dependencies that are not blank; no index leaves its list, and only a storage
that throws while it lists makes the panel throw. -/
theorem panelRun_requests (run : PanelRun Store admits panel requests) :
    (∀ made ∈ requests, PanelRequest made) ∧
    (∀ readFile, ∃ submission, panel.submitRequest readFile = .ok submission ∧
      Submits readFile panel submission) ∧
    ∀ (backend : PanelBackend Store) readFile event fault,
      panel.handleEvent backend readFile event = .error fault →
      panel.refreshLists backend = .error fault :=
  ⟨run.panelRequest, fun readFile => submitRequest_submits readFile panel,
    fun _ _ _ _ result => handleEvent_throws result⟩

theorem panelRun_requests_typed : ∃ panel, PanelRun Unit OneGlyph panel [typedRequest] ∧
    ∀ made ∈ [typedRequest], PanelRequest made := by
  obtain ⟨panel, run⟩ := panelRun_typed
  exact ⟨panel, run, (panelRun_requests run).1⟩

/-! ### Letters that cannot be typed -/

/-- The letters that the panel takes for its keys. -/
def KeyByte (byte : UInt8) : Prop := byte = 114 ∨ byte = 82 ∨ byte = 117 ∨ byte = 85

/-- The text fields that no key of the panel fills. -/
def PanelField.typedOnly (field : PanelField) : Prop :=
  field ≠ .dagNameInput ∧ field ≠ .taskDagInput ∧ field ≠ .taskNameInput

theorem not_keyByte_of_text {text : Str} (glyph : OneGlyph (.character text))
    (notRefresh : isRefreshKey (.character text) = false)
    (notUse : isUseKey (.character text) = false) : ∀ byte ∈ text, ¬ KeyByte byte := by
  intro byte member isKey
  rcases glyph text rfl with ⟨only, rfl⟩ | high
  · obtain rfl := List.mem_singleton.mp member
    rcases isKey with rfl | rfl | rfl | rfl
    · exact absurd notRefresh (by decide)
    · exact absurd notRefresh (by decide)
    · exact absurd notUse (by decide)
    · exact absurd notUse (by decide)
  · have above := high byte member
    rcases isKey with rfl | rfl | rfl | rfl <;> exact absurd above (by decide)

theorem Edited.keeps {before after : Str} (edited : Edited event before after)
    (glyph : OneGlyph event) (notRefresh : isRefreshKey event = false)
    (notUse : isUseKey event = false) (plain : ∀ byte ∈ before, ¬ KeyByte byte) :
    ∀ byte ∈ after, ¬ KeyByte byte := by
  intro byte member
  cases edited with
  | kept _ => exact plain byte member
  | @inserted text front back typed =>
      subst typed
      rcases List.mem_append.mp member with early | late
      · rcases List.mem_append.mp early with first | new
        · exact plain byte (List.mem_append_left _ first)
        · exact not_keyByte_of_text glyph notRefresh notUse byte new
      · exact plain byte (List.mem_append_right _ late)
  | deleted front removed back =>
      refine plain byte ?_
      rcases List.mem_append.mp member with first | late
      · exact List.mem_append_left _ (List.mem_append_left _ first)
      · exact List.mem_append_right _ late

def TypedPlain (panel : ActionsPanel) : Prop :=
  ∀ field : PanelField, field.typedOnly → ∀ byte ∈ panel.inputs field, ¬ KeyByte byte

theorem TypedPlain.of_inputs (plain : TypedPlain panel)
    (same : ∀ field : PanelField, field.typedOnly → after.inputs field = panel.inputs field) :
    TypedPlain after := by
  intro field typed
  rw [same field typed]
  exact plain field typed

theorem inputs_of_submitRequest (result : panel.submitRequest readFile = .ok (after, request)) :
    after.inputs = panel.inputs := by
  obtain ⟨submission, submitted, submits⟩ := submitRequest_submits readFile panel
  obtain rfl := Except.ok.inj (submitted.symm.trans result)
  obtain ⟨_, same⟩ := submits.changes
  have inputs := congrArg ActionsPanel.inputs same
  exact inputs

/-- The typed parts of a request: its schedule, path and dependencies. -/
def TypedPart (request : ShyguyRequest) (text : Str) : Prop :=
  (∃ dag, request.data = .dag dag ∧ dag.schedule = some text) ∨
  ∃ task, request.data = .task task ∧
    (task.filename = some text ∨ ∃ names, task.dependencyNames = some names ∧ text ∈ names)

theorem not_isCronByte_of_keyByte {byte : UInt8} (isKey : KeyByte byte) : ¬ IsCronByte byte := by
  rintro (digit | star | space)
  · rcases isKey with rfl | rfl | rfl | rfl
    · exact absurd digit (by decide)
    · exact absurd digit (by decide)
    · exact absurd digit (by decide)
    · exact absurd digit (by decide)
  · subst star
    exact absurd isKey (by unfold KeyByte; decide)
  · subst space
    exact absurd isKey (by unfold KeyByte; decide)

theorem typedPlain_initial (hasIoQueue : Bool) : TypedPlain (ActionsPanel.initial hasIoQueue) := by
  intro field _ byte member isKey
  have shown : byte = 48 ∨ byte = 49 := by
    cases field <;> simp [ActionsPanel.initial, ascii] at member <;> simp [member]
  rcases shown with rfl | rfl
  · exact absurd isKey (by unfold KeyByte; decide)
  · exact absurd isKey (by unfold KeyByte; decide)

theorem TypedPlain.handleEvent (plain : TypedPlain panel)
    (result : panel.handleEvent backend readFile event = .ok (some (after, request))) :
    TypedPlain after := by
  rcases handleEvent_cases result with ⟨refreshed, _⟩ | ⟨found, _⟩ | submitted
  · exact plain.of_inputs fun field _ => congrFun (refreshLists_inputs refreshed) field
  · obtain ⟨used, selected, same⟩ := useSelected_ok panel
    obtain rfl := Except.ok.inj (selected.symm.trans found)
    exact plain.of_inputs fun field typed => same field typed.1 typed.2.1 typed.2.2
  · exact plain.of_inputs fun field _ => congrFun (inputs_of_submitRequest submitted) field

theorem PanelRun.typedPlain (run : PanelRun Store OneGlyph panel requests) : TypedPlain panel := by
  induction run with
  | construct backend hasIoQueue listed =>
      exact (typedPlain_initial hasIoQueue).of_inputs fun field _ =>
        congrFun (refreshLists_inputs listed) field
  | handle _ _ _ _ _ result ih => exact ih.handleEvent result
  | edit _ _ _ _ glyph result edited ih =>
      obtain ⟨notRefresh, notUse⟩ := handleEvent_not_taken result
      intro field typed
      exact (edited.inputs field).keeps glyph notRefresh notUse (ih field typed)
  | press _ _ result ih =>
      exact ih.of_inputs fun field _ => congrFun (inputs_of_submitRequest result) field

theorem TypedPlain.of_typedPart (plain : TypedPlain panel) {made : ShyguyRequest} {text : Str}
    (submitted : Submitted readFile panel made) (part : TypedPart made text) :
    ∀ byte ∈ text, ¬ KeyByte byte := by
  intro byte member
  cases submitted with
  | createdDag _ _ =>
      rcases part with ⟨dag, data, scheduled⟩ | ⟨task, data, _⟩
      · cases data
        rcases (buildCronFromForm_bytes scheduled).2 byte member with custom | built
        · exact plain .cronCustomInput ⟨by decide, by decide, by decide⟩ byte custom
        · exact fun isKey => not_isCronByte_of_keyByte isKey built
      · cases data
  | selectedDag _ _ _ =>
      rcases part with ⟨dag, data, scheduled⟩ | ⟨task, data, _⟩
      · cases data
        cases scheduled
      · cases data
  | createdTask _ _ _ _ _ dependencies =>
      rcases part with ⟨dag, data, _⟩ | ⟨task, data, filename | ⟨names, given, listed⟩⟩
      · cases data
      · cases data
        cases filename
        exact plain .taskFilePathInput ⟨by decide, by decide, by decide⟩ byte
          (mem_of_mem_trim member)
      · cases data
        obtain ⟨_, rfl⟩ := dependencies names given
        exact plain .taskDependenciesInput ⟨by decide, by decide, by decide⟩ byte
          ((mem_splitCsv listed).2 byte member)
  | selectedTask _ _ =>
      rcases part with ⟨dag, data, _⟩ | ⟨task, data, filename | ⟨names, given, _⟩⟩
      · cases data
      · cases data
        cases filename
      · cases data
        cases given

theorem TypedPlain.of_submitRequest (plain : TypedPlain panel)
    (result : panel.submitRequest readFile = .ok (after, request)) {made : ShyguyRequest}
    (member : made ∈ request) {text : Str} (part : TypedPart made text) :
    ∀ byte ∈ text, ¬ KeyByte byte := by
  obtain ⟨submission, submitted, submits⟩ := submitRequest_submits readFile panel
  obtain rfl := Except.ok.inj (submitted.symm.trans result)
  exact plain.of_typedPart (submits.request made member) part

/-- The letters of the panel's keys never arrive in a text field: in no run does
a schedule, a path or a dependency that the panel queues contain one of them. -/
theorem panelRun_never_types (run : PanelRun Store OneGlyph panel requests) :
    ∀ made ∈ requests, ∀ text, TypedPart made text → ∀ byte ∈ text, ¬ KeyByte byte := by
  induction run with
  | construct _ _ _ => simp
  | handle _ _ _ run _ result ih =>
      intro made member text part
      rcases List.mem_append.mp member with new | old
      · rcases handleEvent_cases result with ⟨_, rfl⟩ | ⟨_, rfl⟩ | submitted
        · cases new
        · cases new
        · exact run.typedPlain.of_submitRequest submitted (by simpa using new) part
      · exact ih made old text part
  | edit _ _ _ _ _ _ _ ih => exact ih
  | press _ run result ih =>
      intro made member text part
      rcases List.mem_append.mp member with new | old
      · exact run.typedPlain.of_submitRequest result (by simpa using new) part
      · exact ih made old text part

theorem panelRun_never_types_typed :
    TypedPart typedRequest (ascii "*") ∧ ∀ byte ∈ ascii "*", ¬ KeyByte byte := by
  have part : TypedPart typedRequest (ascii "*") := .inl ⟨_, rfl, rfl⟩
  obtain ⟨_, run⟩ := panelRun_typed
  exact ⟨part, panelRun_never_types run typedRequest List.mem_cons_self _ part⟩

end Runs

end BabyLuigi.Tui
