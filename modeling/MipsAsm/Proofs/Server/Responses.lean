import MipsAsm.Proofs.Assembly.Capacity
import MipsAsm.Proofs.Server.Documents

/-!
# Responses

A request is to be answered once and under its identifier, and a notification is not to be answered.
The server keeps to this with one exception: a question is answered also if it is a notification, as
long as its parameters can be read.  Refusing looks at whether the request is a notification, and
answering does not.

What a request comes to is decided by its method, whether it is a notification, and whether its
parameters can be read, and by nothing else.  `Server.Performed` says how, once for all methods.

A step gives a list of messages, and responses are those that answer or refuse a request.  The rest,
published diagnostics and the request of the server, does not count here.

Whether a step exists at all is part of the statement.  Assembling a text needs room in the tables,
and a server that runs out of it has no next state.  A bound on the size of the texts that come in
is enough to rule that out, and it is an assumption on the requests and not on what the server does
with them; since diagnostics are made anew when they are asked for, it has to hold of the texts that
are kept as well, which is an invariant of its own.

* `Server.performed_perform` — what each method does about responses, the connection and the
  documents.
* `Server.received_receive` — what follows for a request, also with a method that is not known.
* `Server.exists_run` — all requests come to an end if there is room for the texts.
* `Server.responses_match_requests_iff` — the rule, and exactly when it is kept.
-/

set_option autoImplicit false

namespace MipsAsm
namespace Server

/-! ## Responses

Among the messages of a step, responses are told by their members, as an editor does. -/

/-- Whether a message is a response: it has a result or an error. -/
def isResponse (v : Json) : Bool := (v.member? "result").isSome || (v.member? "error").isSome

/-- The identifiers of the responses that are sent in a step, in order. -/
def Step.responses (step : Step) : List (Option Json) :=
  ((step.messages.map Outgoing.toJson).filter isResponse).map (Json.member? "id")

/-- The request that a message answers, if it answers one. -/
def Outgoing.answered? : Outgoing → Option Id
  | .reply id _ | .refuse id _ => some id
  | .publish .. | .register _ => none

theorem Step.responses_eq (step : Step) :
    step.responses =
      (step.messages.filterMap Outgoing.answered?).map fun id ↦ some id.toJson := by
  rw [responses]
  induction step.messages with
  | nil => rfl
  | cons message rest ih =>
    cases message <;>
      simp [Outgoing.toJson, Outgoing.answered?, isResponse, Json.member?, List.filterMap_cons, ih]

/-! ## What the methods do

Five methods ask for an answer.  Reading the parameters comes first for all but two, and the one
lemma about `withParams` takes care of the refusal. -/

/-- The methods that ask for an answer. -/
def Method.isQuestion : Method → Bool
  | .introduction | .diagnostic | .willSave | .hover | .shutdown => true
  | .didOpen | .didClose | .didChange | .exit => false

/-- Whether the parameters of a method can be read.  Two methods do without them. -/
def Method.accepts (params : Option Json) : Method → Bool
  | .introduction => (ClientParams.ofJson? params).isSome
  | .didOpen => (Params.ofJson? Params.openSlots params).isSome
  | .didClose | .diagnostic => (Params.ofJson? Params.nameSlots params).isSome
  | .didChange => (Params.ofJson? Params.changeSlots params).isSome
  | .willSave => (Params.ofJson? Params.saveSlots params).isSome
  | .hover => (Params.ofJson? Params.positionSlots params).isSome
  | .shutdown | .exit => true

/-- What a method does about responses, the connection and the documents. -/
structure Performed (s : State) (m : Method) (r : Request) (step : Step) : Prop where
  /-- A question is answered, and other methods only if they have to be refused. -/
  answered : step.messages.filterMap Outgoing.answered? =
    if m.accepts r.params then (if m.isQuestion then [r.id] else [])
    else if r.notification then [] else [r.id]
  /-- Only one method ends the connection. -/
  closed : step.state.closed = (s.closed || m == .exit)
  /-- Without parameters that can be read no document changes. -/
  documents : m.accepts r.params = false ∨ r.params = none → step.state.documents = s.documents

variable {o : Options} {s : State} {r : Request} {step : Step}

theorem answered_refuse (r : Request) (refusal : Refusal) :
    (r.refuse refusal).filterMap Outgoing.answered? = if r.notification then [] else [r.id] := by
  rw [Request.refuse]
  split <;> rfl

/-- The parameters are read first, whatever the method does with them. -/
theorem performed_withParams {α : Type} {m : Method} {read : Json → Option α}
    {next : α → Option Step} (hexit : m ≠ .exit)
    (haccepts : m.accepts r.params = (r.params.bind read).isSome)
    (hnext : ∀ p, next p = some step →
      step.messages.filterMap Outgoing.answered? = (if m.isQuestion then [r.id] else []) ∧
        step.state.closed = s.closed)
    (h : withParams s r (r.params.bind read) next = some step) : Performed s m r step := by
  have hstays : (s.closed || m == .exit) = s.closed := by simp [hexit]
  cases hfound : r.params.bind read with
  | none =>
    rw [hfound] at h haccepts
    obtain rfl := Option.some.inj h
    exact ⟨by rw [haccepts]; exact answered_refuse r _, hstays.symm, fun _ ↦ rfl⟩
  | some p =>
    rw [hfound] at h haccepts
    obtain ⟨hanswered, hclosed⟩ := hnext p h
    refine ⟨by rw [haccepts]; exact hanswered, hclosed.trans hstays.symm, ?_⟩
    rintro (hfalse | hmissing)
    · rw [haccepts] at hfalse
      cases hfalse
    · rw [hmissing] at hfound
      cases hfound

theorem performed_update {uri text : String} {version : Int}
    (h : update o s uri text version = some step) :
    step.messages.filterMap Outgoing.answered? = [] ∧ step.state.closed = s.closed := by
  rw [update, State.keep, Option.map_map] at h
  obtain ⟨assembly, -, rfl⟩ := Option.map_eq_some_iff.mp h
  exact ⟨rfl, rfl⟩

/-- **What each method does** about responses, the connection and the documents. -/
theorem performed_perform {m : Method} (h : perform o s m r = some step) :
    Performed s m r step := by
  cases m with
  | introduction =>
    refine performed_withParams (by decide) rfl (fun p hp ↦ ?_) h
    obtain rfl := Option.some.inj hp
    exact ⟨rfl, rfl⟩
  | didOpen =>
    exact performed_withParams (by decide) rfl (fun p hp ↦ performed_update hp) h
  | didClose =>
    refine performed_withParams (by decide) rfl (fun p hp ↦ ?_) h
    obtain rfl := Option.some.inj hp
    exact ⟨rfl, rfl⟩
  | didChange =>
    refine performed_withParams (by decide) rfl (fun p hp ↦ ?_) h
    rw [change] at hp
    split at hp
    · obtain rfl := Option.some.inj hp
      exact ⟨rfl, rfl⟩
    · exact performed_update hp
  | diagnostic =>
    refine performed_withParams (by decide) rfl (fun p hp ↦ ?_) h
    rw [diagnose, State.keep, Option.map_map] at hp
    obtain ⟨assembly, -, rfl⟩ := Option.map_eq_some_iff.mp hp
    exact ⟨rfl, rfl⟩
  | willSave =>
    refine performed_withParams (by decide) rfl (fun p hp ↦ ?_) h
    obtain ⟨assembly, -, rfl⟩ := Option.map_eq_some_iff.mp hp
    exact ⟨rfl, rfl⟩
  | hover =>
    refine performed_withParams (by decide) rfl (fun p hp ↦ ?_) h
    obtain rfl := Option.some.inj hp
    exact ⟨rfl, rfl⟩
  | shutdown =>
    obtain rfl := Option.some.inj h
    exact ⟨rfl, by simp, fun _ ↦ rfl⟩
  | exit =>
    obtain rfl := Option.some.inj h
    exact ⟨rfl, by simp, fun _ ↦ rfl⟩

/-! ## What a request does

The method of a request is a text, which need not be the name of a method.  A request with another
one is refused, as a question that cannot be read would be. -/

/-- A method that asks for an answer, or that the server does not know. -/
def Asks (method : String) : Prop := ∀ m, Method.ofName? method = some m → m.isQuestion = true

/-- The server knows the method of a request, and its parameters can be read. -/
def Request.IsReadable (r : Request) : Prop :=
  ∃ m, Method.ofName? r.method = some m ∧ m.accepts r.params = true

theorem Method.ofName?_eq_some_iff {name : String} {m : Method} :
    ofName? name = some m ↔ name = m.name := by
  constructor
  · intro h
    have hname := List.find?_some h
    exact (eq_of_beq hname).symm
  · rintro rfl
    exact ofName?_name m

/-- What a request does about responses, the connection and the documents. -/
structure Received (s : State) (r : Request) (step : Step) : Prop where
  /-- A question that can be read is answered, whether it is a notification or not. -/
  question : Asks r.method → r.IsReadable → step.responses = [some r.id.toJson]
  /-- Other notifications are not answered. -/
  notification : r.notification = true → ¬(Asks r.method ∧ r.IsReadable) → step.responses = []
  /-- A request that cannot be read is refused. -/
  refused : r.notification = false → ¬r.IsReadable → step.responses = [some r.id.toJson]
  /-- What ends the connection. -/
  closed : step.state.closed = true ↔ s.closed = true ∨ r.method = Method.exit.name
  /-- Without parameters that can be read no document changes. -/
  documents : r.params = none ∨ ¬r.IsReadable → step.state.documents = s.documents

/-- A request with a method that the server knows does what the method does. -/
theorem received_of_performed {m : Method} (hm : Method.ofName? r.method = some m)
    (h : Performed s m r step) : Received s r step := by
  have hasks : Asks r.method ↔ m.isQuestion = true := by simp [Asks, hm]
  have hreadable : r.IsReadable ↔ m.accepts r.params = true := by simp [Request.IsReadable, hm]
  have hresponses := step.responses_eq
  rw [h.answered] at hresponses
  refine
    { question := fun hquestion hparams ↦ ?_
      notification := fun hnote hother ↦ ?_
      refused := fun hnote hparams ↦ ?_
      closed := ?_
      documents := fun hparams ↦ h.documents ?_ }
  · rw [hresponses, if_pos (hreadable.mp hparams), if_pos (hasks.mp hquestion)]
    rfl
  · rw [hasks, hreadable, not_and_or] at hother
    rw [hresponses, hnote]
    rcases hother with hother | hother
    · rw [if_neg hother]
      split <;> rfl
    · rw [if_neg hother]
      rfl
  · rw [hresponses, if_neg (mt hreadable.mpr hparams), hnote]
    rfl
  · have hexit : m = .exit ↔ m.name = Method.exit.name := by cases m <;> decide
    rw [h.closed, Bool.or_eq_true, beq_iff_eq, Method.ofName?_eq_some_iff.mp hm, hexit]
  · rw [hreadable, Bool.not_eq_true] at hparams
    exact hparams.symm

/-- A request with a method that the server does not know is refused. -/
theorem received_unknown (hm : Method.ofName? r.method = none) (log : List Log.Entry) :
    Received s r { state := s, messages := r.refuse (.unknownMethod r.method), log } := by
  have hreadable : ¬r.IsReadable := by simp [Request.IsReadable, hm]
  have hresponses := Step.responses_eq
    { state := s, messages := r.refuse (.unknownMethod r.method), log }
  rw [answered_refuse] at hresponses
  refine
    { question := fun _ hparams ↦ absurd hparams hreadable
      notification := fun hnote _ ↦ ?_
      refused := fun hnote _ ↦ ?_
      closed := ?_
      documents := fun _ ↦ rfl }
  · rw [hresponses, hnote]
    rfl
  · rw [hresponses, hnote]
    rfl
  · refine (or_iff_left fun hexit ↦ ?_).symm
    rw [hexit, Method.ofName?_name] at hm
    cases hm

/-- **What a request does.** -/
theorem received_receive (h : receive o s r = some step) : Received s r step := by
  obtain ⟨inner, hinner, rfl⟩ := Option.map_eq_some_iff.mp h
  rw [handle] at hinner
  split at hinner
  · rename_i m hm
    -- what is logged makes no difference
    have hperformed := performed_perform hinner
    exact received_of_performed hm
      ⟨hperformed.answered, hperformed.closed, hperformed.documents⟩
  · rename_i hm
    obtain rfl := Option.some.inj hinner
    exact received_unknown hm _

/-- The connection ends with the first request for that. -/
theorem closed_run {history : List Request} {steps : List Step} (h : run o s history = some steps) :
    (stateAfter s steps).closed = true ↔
      s.closed = true ∨ ∃ q ∈ history, q.method = Method.exit.name := by
  induction history generalizing s steps with
  | nil =>
    obtain rfl := Option.some.inj h
    simp [stateAfter_nil]
  | cons q rest ih =>
    obtain ⟨step, hstep, hrest⟩ := Option.bind_eq_some_iff.mp h
    obtain ⟨others, hothers, hlast⟩ := Option.bind_eq_some_iff.mp hrest
    obtain rfl := Option.some.inj hlast
    rw [stateAfter_cons, ih hothers, (received_receive hstep).closed, or_assoc]
    simp only [List.mem_cons, or_and_right, exists_or, exists_eq_left]

/-! ## Room for the texts

A step has no result if a table of the assembler runs out of room.  It has one if there is room for
the texts that the requests give to documents, and for the text of a document that has none. -/

/-- There is room for the text that a request gives to a document, if it gives one. -/
def Request.HasRoomForNews (o : Options) (r : Request) : Prop :=
  ∀ uri text, r.news? = some (uri, some text) → o.HasRoomFor text

/-- There is room for the text of every document. -/
def State.HasRoom (o : Options) (s : State) : Prop := ∀ uri, o.HasRoomFor (s.textOf uri)

theorem exists_update {uri text : String} {version : Int} (h : o.HasRoomFor text) :
    ∃ step, update o s uri text version = some step := by
  obtain ⟨assembly, hassembly⟩ := exists_assemble_of_room h
  exact ⟨_, by rw [update, State.keep, hassembly]; rfl⟩

theorem exists_withParams {α : Type} {found : Option α} {next : α → Option Step}
    (h : ∀ p, found = some p → ∃ step, next p = some step) :
    ∃ step, withParams s r found next = some step := by
  cases found with
  | none => exact ⟨_, rfl⟩
  | some p => exact h p rfl

/-- A method comes to an end if there is room for the texts. -/
theorem exists_perform {m : Method} (hs : s.HasRoom o)
    (hnews : ∀ uri text, m.news? r.params = some (uri, some text) → o.HasRoomFor text) :
    ∃ step, perform o s m r = some step := by
  cases m with
  | introduction | didClose | hover => exact exists_withParams fun p _ ↦ ⟨_, rfl⟩
  | didOpen =>
    exact exists_withParams fun p hp ↦ exists_update (hnews _ _ (by rw [Method.news?, hp]; rfl))
  | didChange =>
    refine exists_withParams fun p hp ↦ ?_
    rw [change.eq_def]
    split
    · exact ⟨_, rfl⟩
    · rename_i text hlast
      exact exists_update (hnews p.textDocument.uri text (by simp [Method.news?, hp, hlast]))
  | diagnostic =>
    refine exists_withParams fun p _ ↦ ?_
    obtain ⟨assembly, hassembly⟩ := exists_assemble_of_room (hs p.textDocument.uri)
    exact ⟨_, by rw [diagnose, State.keep, hassembly]; rfl⟩
  | willSave =>
    refine exists_withParams fun p _ ↦ ?_
    obtain ⟨assembly, hassembly⟩ := exists_assemble_of_room (hs p.textDocument.uri)
    exact ⟨_, by rw [beforeSave, hassembly]; rfl⟩
  | shutdown | exit => exact ⟨_, rfl⟩

/-- **A request comes to an end** if there is room for the texts. -/
theorem exists_receive (hs : s.HasRoom o) (hr : r.HasRoomForNews o) :
    ∃ step, receive o s r = some step := by
  have hhandle : ∃ step, handle o s r = some step := by
    rw [handle.eq_def]
    cases hm : Method.ofName? r.method with
    | none => exact ⟨_, rfl⟩
    | some m =>
      exact exists_perform hs (by simpa [Request.HasRoomForNews, Request.news?, hm] using hr)
  obtain ⟨step, hstep⟩ := hhandle
  exact ⟨_, by rw [receive, hstep]; rfl⟩

/-- The room lasts. -/
theorem State.HasRoom.receive (hempty : o.HasRoomFor "") (hs : s.HasRoom o)
    (hr : r.HasRoomForNews o) (h : receive o s r = some step) : step.state.HasRoom o := by
  intro uri
  rw [(moves_receive h).textOf uri]
  cases hnews : r.news? with
  | none => exact hs uri
  | some news =>
    by_cases huri : news.1 = uri
    · cases htext : news.2 with
      | none => simpa [Option.filter, huri, htext] using hempty
      | some text =>
        have hroom := hr uri text (by rw [hnews, ← huri, ← htext])
        simpa [Option.filter, huri, htext] using hroom
    · simpa [Option.filter, huri] using hs uri

/-- **All requests come to an end** if there is room for the texts. -/
theorem exists_run {history : List Request} (hempty : o.HasRoomFor "") (hs : s.HasRoom o)
    (hroom : ∀ q ∈ history, q.HasRoomForNews o) :
    ∃ steps, run o s history = some steps ∧ (stateAfter s steps).HasRoom o := by
  induction history generalizing s with
  | nil => exact ⟨[], rfl, hs⟩
  | cons q rest ih =>
    have hq := hroom q List.mem_cons_self
    obtain ⟨step, hstep⟩ := exists_receive hs hq
    obtain ⟨steps, hsteps, hlast⟩ :=
      ih (hs.receive hempty hq hstep) fun q' hq' ↦ hroom q' (List.mem_cons_of_mem q hq')
    refine ⟨step :: steps, ?_, by rwa [stateAfter_cons]⟩
    rw [run, hstep, Option.bind_eq_bind, Option.bind_some, hsteps]
    rfl

theorem State.hasRoom_start (hempty : o.HasRoomFor "") : State.start.HasRoom o := by
  intro uri
  simpa [textOf, start] using hempty

/-! ## The rule

What an editor may count on, and the one case in which it cannot. -/

/-- Responses match a request: a notification has none, and a request that asks for one has exactly
one, under its identifier. -/
def ResponsesMatch (r : Request) (responses : List (Option Json)) : Prop :=
  (r.notification = true → responses = []) ∧
    (r.notification = false → Asks r.method → responses = [some r.id.toJson])

/-- **When the responses to a request match it.** -/
theorem Received.responsesMatch_iff (h : Received s r step) :
    ResponsesMatch r step.responses ↔
      ¬(r.notification = true ∧ Asks r.method ∧ r.IsReadable) := by
  constructor
  · rintro ⟨hnone, -⟩ ⟨hnote, hasks, hreadable⟩
    have hanswered := h.question hasks hreadable
    rw [hnone hnote] at hanswered
    cases hanswered
  · intro hother
    refine ⟨fun hnote ↦ h.notification hnote fun hasked ↦ hother ⟨hnote, hasked⟩,
      fun hnote hasks ↦ ?_⟩
    by_cases hreadable : r.IsReadable
    · exact h.question hasks hreadable
    · exact h.refused hnote hreadable

/-- **Responses match requests, except for notifications that ask.**  Some requests have come in,
with texts for which there is room, and then there is one more.  All of them come to an end.  The
responses to the last one match it unless it is a notification that asks for an answer and can be
read, and then it is answered like a request.  The connection ends with the first request for that
and with no other, and a request without parameters that can be read leaves the documents as they
are. -/
theorem responses_match_requests_iff (o : Options) (history : List Request) (r : Request)
    (hempty : o.HasRoomFor "") (hroom : ∀ q ∈ history ++ [r], q.HasRoomForNews o) :
    ∃ steps step, run o State.start history = some steps ∧
      receive o (stateAfter State.start steps) r = some step ∧
      (ResponsesMatch r step.responses ↔
        ¬(r.notification = true ∧ Asks r.method ∧ r.IsReadable)) ∧
      (r.notification = true → Asks r.method → r.IsReadable →
        step.responses = [some r.id.toJson]) ∧
      (step.state.closed = true ↔ ∃ q ∈ history ++ [r], q.method = Method.exit.name) ∧
      (r.params = none ∨ ¬r.IsReadable →
        step.state.documents = (stateAfter State.start steps).documents) := by
  obtain ⟨steps, hsteps, hs⟩ := exists_run hempty (State.hasRoom_start hempty)
    fun q hq ↦ hroom q (List.mem_append_left [r] hq)
  obtain ⟨step, hstep⟩ := exists_receive hs
    (hroom r (List.mem_append_right history List.mem_cons_self))
  have h := received_receive hstep
  refine ⟨steps, step, hsteps, hstep, h.responsesMatch_iff, fun _ ↦ h.question, ?_, h.documents⟩
  have hopen : State.start.closed ≠ true := by decide
  rw [h.closed, closed_run hsteps, or_iff_right hopen]
  simp only [List.mem_append, List.mem_singleton, or_and_right, exists_or, exists_eq_left]

/-- Responses do not always match: the first request asks whether the connection may end, and is
answered although it is a notification. -/
theorem notification_is_answered :
    ¬∀ (o : Options) (r : Request) (step : Step), receive o State.start r = some step →
      ResponsesMatch r step.responses := by
  intro hmatch
  let r : Request := { id := .number 0, notification := true, method := "shutdown", params := none }
  obtain ⟨step, hstep⟩ : ∃ step, receive {} State.start r = some step := ⟨_, rfl⟩
  have hasked := (received_receive hstep).responsesMatch_iff.mp (hmatch {} r step hstep)
  exact hasked ⟨rfl, fun m hm ↦ by cases hm; rfl, .shutdown, rfl, rfl⟩

/-- A document is opened. -/
def opening : Request := about none .didOpen "a.s" [("text", .string "x: jr $ra")] []

/-- A question about a position in it. -/
def question (id : Option Id) : Request :=
  about id .hover "a.s" [] [("position", .object [("line", .nat 0), ("character", .nat 3)])]

/-- A document is opened.  A question about it is answered also as a notification, while a request
without parameters is answered under its identifier and a notification without them is not. -/
theorem responses_match_requests_iff_of_opened :
    ∃ steps, run {} State.start [opening] = some steps ∧
      (∃ step, receive {} (stateAfter State.start steps) (question none) = some step ∧
        step.responses = [some (.nat 0)] ∧ step.state.closed = false) ∧
      ∀ notification : Bool,
        let r : Request :=
          { id := .text "q", notification, method := Method.hover.name, params := none }
        ∃ step, receive {} (stateAfter State.start steps) r = some step ∧
          ResponsesMatch r step.responses ∧
          step.state.documents = (stateAfter State.start steps).documents := by
  have hempty : Options.HasRoomFor {} "" := ⟨by decide, by decide⟩
  have hnews : opening.news? = some ("a.s", some "x: jr $ra") := by decide
  -- the questions give no text, so there is room if there is room for the text that was opened
  have hroom : ∀ r : Request, r.news? = none → ∀ q ∈ [opening] ++ [r], q.HasRoomForNews {} := by
    intro r hr q hq uri text htext
    obtain rfl | hq := List.mem_cons.mp hq
    · rw [hnews] at htext
      cases htext
      exact ⟨by decide, by decide⟩
    · rw [List.mem_singleton.mp hq, hr] at htext
      cases htext
  have hasks : Asks Method.hover.name := by simp [Asks, Method.isQuestion]
  obtain ⟨steps, step, hsteps, hstep, -, hquestion, hclosed, -⟩ :=
    responses_match_requests_iff {} [opening] (question none) hempty (hroom _ rfl)
  refine ⟨steps, hsteps,
    ⟨step, hstep, hquestion rfl hasks ⟨.hover, by decide, by decide⟩, ?_⟩, fun notification ↦ ?_⟩
  · rw [← Bool.not_eq_true, hclosed]
    rintro ⟨q, hq, hexit⟩
    obtain rfl | hq := List.mem_cons.mp hq
    · exact absurd hexit (by decide)
    · rw [List.mem_singleton.mp hq] at hexit
      exact absurd hexit (by decide)
  · obtain ⟨steps', step, hsteps', hstep, hmatch, -, -, hdocuments⟩ :=
      responses_match_requests_iff {} [opening]
        { id := .text "q", notification, method := Method.hover.name, params := none } hempty
        (hroom _ rfl)
    obtain rfl := Option.some.inj (hsteps.symm.trans hsteps')
    refine ⟨step, hstep, hmatch.mpr ?_, hdocuments (.inl rfl)⟩
    rintro ⟨-, -, m, hm, hreadable⟩
    obtain rfl : m = .hover := Option.some.inj (hm.symm.trans (Method.ofName?_name .hover))
    cases hreadable

end Server
end MipsAsm
