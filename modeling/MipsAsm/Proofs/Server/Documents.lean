import Std.Data.TreeMap.Lemmas
import MipsAsm.Proofs.Assembly.Basic
import MipsAsm.Proofs.Server.Messages
import MipsAsm.Server.Basic

/-!
# The documents of the server

The server keeps the text of each document together with what the assembler made of it when the text
came in, and answers from either.  Here is what it ought to answer from: `Server.textAfter` finds
the text of a document in the requests that have come in, with no regard to what the server keeps.
Only the last request that gives the document a text or closes it counts.

The argument is an invariant with two parts.  The texts that the server keeps are those of the
requests, and each is kept with its own assembly, so that an answer from what was assembled earlier
is as good as one from the text.  The second part is what makes it possible to answer about a
position without assembling again.

* `Server.Request.news?` — what a request says of the text of a document, if it says anything.
* `Server.moves_receive` — a request does to the documents what it says of their texts.
* `Server.State.Follows` — the server keeps the texts that the requests give, and what it keeps of
  their assemblies is not stale.
* `Server.State.Follows.receive`, `Server.follows_run` — one request keeps it so, and so do all.
* `Server.Connection.exists_run_of_receiveAll` — what is sent on a connection is what the server
  sends in a run.
* `Server.answers_follow_the_last_text` — what is answered and published.
-/

set_option autoImplicit false

namespace MipsAsm
namespace Server

/-! ## What requests say

Three methods say something of the text of a document.  A request with another method, or with
parameters that cannot be read, says nothing. -/

/-- What a request with the given method and parameters says of the text of a document, if it can be
read: which document it is about, and its new text or that it has none any more. -/
def Method.news? (params : Option Json) : Method → Option (String × Option String)
  | .didOpen =>
    (Params.ofJson? Params.openSlots params).map fun p ↦
      (p.textDocument.uri, some p.textDocument.text)
  | .didChange =>
    (Params.ofJson? Params.changeSlots params).bind fun p ↦
      p.contentChanges.items.getLast?.map fun text ↦ (p.textDocument.uri, some text)
  | .didClose =>
    (Params.ofJson? Params.nameSlots params).map fun p ↦ (p.textDocument.uri, none)
  | _ => none

/-- What a request says of the text of a document. -/
def Request.news? (r : Request) : Option (String × Option String) :=
  (Method.ofName? r.method).bind (Method.news? r.params)

/-- The text of a document after some requests: what the last of them that says anything of it says.
A document of which nothing was said, or that was closed last, has no text. -/
def textAfter (uri : String) (history : List Request) : String :=
  (((history.filterMap Request.news?).filter (·.1 = uri)).getLast?.bind Prod.snd).getD ""

theorem textAfter_concat (uri : String) (history : List Request) (r : Request) :
    textAfter uri (history ++ [r]) =
      (r.news?.filter (·.1 = uri)).elim (textAfter uri history) (·.2.getD "") := by
  rw [textAfter, List.filterMap_append, List.filter_append]
  cases hr : r.news? with
  | none => simp [hr, textAfter]
  | some news =>
    by_cases hu : news.1 = uri
    · simp [hr, hu, Option.filter]
    · simp [hr, hu, textAfter, Option.filter]

/-- A request that says nothing of the text of a document leaves it as it is. -/
theorem textAfter_concat_of_other {uri : String} {history : List Request} {r : Request}
    (h : ∀ news, r.news? ≠ some (uri, news)) :
    textAfter uri (history ++ [r]) = textAfter uri history := by
  rw [textAfter_concat]
  cases hr : r.news? with
  | none => rfl
  | some news =>
    have hother : news.1 ≠ uri := fun heq ↦ h news.2 (by rw [hr, ← heq])
    simp [Option.filter, hother]

@[simp]
theorem Method.ofName?_name (m : Method) : ofName? m.name = some m := by cases m <;> decide

/-! ## What a request does to the documents

Whatever the method, one of four things happens to the documents.  `Server.Moves` lists them, each
with what the request says; that the server assembles a text once more when it is asked for the
diagnostics is the one that no request says anything of. -/

variable {o : Options} {s : State} {r : Request} {step : Step}

/-- What a step does to the documents, given what the request says: a document has a new text, or
its text is assembled once more, or it is closed, or nothing happens. -/
inductive Moves (o : Options) (s t : State) : Option (String × Option String) → Prop
  /-- A document has a new text. -/
  | text {uri text : String} {assembly : Assembly} (assembled : assemble o text = some assembly)
      (documents : t.documents = s.documents.insert uri { text, assembly }) :
      Moves o s t (some (uri, some text))
  /-- A document is closed. -/
  | close {uri : String} (documents : t.documents = s.documents.erase uri) :
      Moves o s t (some (uri, none))
  /-- The text of a document is assembled once more, also if the document is not open. -/
  | again {uri : String} {assembly : Assembly}
      (assembled : assemble o (s.textOf uri) = some assembly)
      (documents : t.documents = s.documents.insert uri { text := s.textOf uri, assembly }) :
      Moves o s t none
  /-- Nothing happens. -/
  | stay (documents : t.documents = s.documents) : Moves o s t none

theorem moves_update {uri text : String} {version : Int}
    (h : update o s uri text version = some step) :
    Moves o s step.state (some (uri, some text)) := by
  rw [update, State.keep, Option.map_map] at h
  obtain ⟨assembly, hassembly, rfl⟩ := Option.map_eq_some_iff.mp h
  exact .text hassembly rfl

theorem moves_change {p : Params} (h : change o s p = some step) :
    Moves o s step.state
      (p.contentChanges.items.getLast?.map fun text ↦ (p.textDocument.uri, some text)) := by
  rw [change] at h
  split at h
  · rename_i hnone
    obtain rfl := Option.some.inj h
    rw [hnone]
    exact .stay rfl
  · rename_i text hlast
    rw [hlast]
    exact moves_update h

theorem moves_diagnose {uri : String} (h : diagnose o s r uri = some step) :
    Moves o s step.state none := by
  rw [diagnose, State.keep, Option.map_map] at h
  obtain ⟨assembly, hassembly, rfl⟩ := Option.map_eq_some_iff.mp h
  exact .again hassembly rfl

theorem moves_beforeSave {uri : String} (h : beforeSave o s r uri = some step) :
    Moves o s step.state none := by
  obtain ⟨assembly, -, rfl⟩ := Option.map_eq_some_iff.mp h
  exact .stay rfl

/-- A request whose parameters cannot be read does nothing. -/
theorem moves_withParams {α : Type} {params : Option α} {next : α → Option Step}
    {news : Option (String × Option String)} (hnone : params = none → news = none)
    (hnext : ∀ p, params = some p → next p = some step → Moves o s step.state news)
    (h : withParams s r params next = some step) : Moves o s step.state news := by
  cases params with
  | none =>
    obtain rfl := Option.some.inj h
    rw [hnone rfl]
    exact .stay rfl
  | some p => exact hnext p rfl h

/-- A method does to the documents what the request says of their texts. -/
theorem moves_perform {m : Method} (h : perform o s m r = some step) :
    Moves o s step.state (m.news? r.params) := by
  cases m with
  | introduction =>
    refine moves_withParams (fun _ ↦ rfl) (fun p _ hp ↦ ?_) h
    obtain rfl := Option.some.inj hp
    exact .stay rfl
  | didOpen =>
    refine moves_withParams (fun hnone ↦ by simp [Method.news?, hnone]) (fun p hp hnext ↦ ?_) h
    rw [Method.news?, hp]
    exact moves_update hnext
  | didClose =>
    refine moves_withParams (fun hnone ↦ by simp [Method.news?, hnone]) (fun p hp hnext ↦ ?_) h
    obtain rfl := Option.some.inj hnext
    rw [Method.news?, hp]
    exact .close rfl
  | didChange =>
    refine moves_withParams (fun hnone ↦ by simp [Method.news?, hnone]) (fun p hp hnext ↦ ?_) h
    rw [Method.news?, hp]
    exact moves_change hnext
  | diagnostic =>
    exact moves_withParams (fun _ ↦ rfl) (fun p _ hnext ↦ moves_diagnose hnext) h
  | willSave =>
    exact moves_withParams (fun _ ↦ rfl) (fun p _ hnext ↦ moves_beforeSave hnext) h
  | hover =>
    refine moves_withParams (fun _ ↦ rfl) (fun p _ hp ↦ ?_) h
    obtain rfl := Option.some.inj hp
    exact .stay rfl
  | shutdown =>
    obtain rfl := Option.some.inj h
    exact .stay rfl
  | exit =>
    obtain rfl := Option.some.inj h
    exact .stay rfl

/-- **What a request does to the documents.** -/
theorem moves_receive (h : receive o s r = some step) : Moves o s step.state r.news? := by
  obtain ⟨inner, hinner, rfl⟩ := Option.map_eq_some_iff.mp h
  -- what is logged makes no difference
  show Moves o s inner.state _
  rw [Request.news?]
  rw [handle] at hinner
  split at hinner
  · rename_i m hm
    rw [hm]
    exact moves_perform hinner
  · rename_i hm
    obtain rfl := Option.some.inj hinner
    rw [hm]
    exact .stay rfl

/-! ## What the server keeps

The invariant, and that a step keeps it.  Both parts follow from what the step can do to the
documents, so no method has to be looked at again. -/

/-- The assemblies that the server keeps are those of the texts that it keeps. -/
def State.Assembled (o : Options) (s : State) : Prop :=
  ∀ (uri : String) (d : Document), s.documents[uri]? = some d →
    assemble o d.text = some d.assembly

/-- The server keeps the texts that requests give to documents, and with each text what the
assembler makes of it. -/
structure State.Follows (o : Options) (history : List Request) (s : State) : Prop where
  /-- The texts are those of the last requests about them. -/
  text : ∀ uri, s.textOf uri = textAfter uri history
  /-- The assemblies are those of the texts. -/
  assembled : s.Assembled o

theorem State.textOf_of_insert {t : State} {uri : String} {d : Document}
    (h : t.documents = s.documents.insert uri d) (u : String) :
    t.textOf u = if uri = u then d.text else s.textOf u := by
  rw [textOf, textOf, h, Std.TreeMap.getElem?_insert]
  by_cases hu : uri = u
  · simp [hu]
  · simp [hu]

theorem State.textOf_of_erase {t : State} {uri : String}
    (h : t.documents = s.documents.erase uri) (u : String) :
    t.textOf u = if uri = u then "" else s.textOf u := by
  rw [textOf, textOf, h, Std.TreeMap.getElem?_erase]
  by_cases hu : uri = u
  · simp [hu]
  · simp [hu]

theorem State.textOf_of_eq {t : State} (h : t.documents = s.documents) (u : String) :
    t.textOf u = s.textOf u := by
  rw [textOf, textOf, h]

theorem State.follows_start (o : Options) : State.start.Follows o [] := by
  refine ⟨fun uri ↦ ?_, fun uri d hd ↦ ?_⟩
  · simp [textOf, start, textAfter]
  · simp [start] at hd

/-- The texts after a step are those of the requests. -/
theorem Moves.textOf {t : State} {news : Option (String × Option String)} (h : Moves o s t news)
    (uri : String) :
    t.textOf uri = (news.filter (·.1 = uri)).elim (s.textOf uri) (·.2.getD "") := by
  cases h with
  | @text u text assembly assembled documents =>
    rw [State.textOf_of_insert documents]
    by_cases hu : u = uri
    · simp [hu, Option.filter]
    · simp [hu, Option.filter]
  | @close u documents =>
    rw [State.textOf_of_erase documents]
    by_cases hu : u = uri
    · simp [hu, Option.filter]
    · simp [hu, Option.filter]
  | @again u assembly assembled documents =>
    rw [State.textOf_of_insert documents]
    by_cases hu : u = uri
    · simp [hu]
    · simp [hu]
  | stay documents => exact State.textOf_of_eq documents uri

/-- The assemblies after a step are those of the texts, if they were before. -/
theorem Moves.assembled {t : State} {news : Option (String × Option String)} (h : Moves o s t news)
    (hold : s.Assembled o) : t.Assembled o := by
  have hinsert : ∀ (u : String) (e : Document), assemble o e.text = some e.assembly →
      t.documents = s.documents.insert u e → t.Assembled o := by
    intro u e he hdocuments uri d hd
    rw [hdocuments, Std.TreeMap.getElem?_insert] at hd
    split at hd
    · obtain rfl := Option.some.inj hd
      exact he
    · exact hold uri d hd
  cases h with
  | @text u text assembly assembled documents =>
    exact hinsert u { text, assembly } assembled documents
  | @again u assembly assembled documents =>
    exact hinsert u { text := s.textOf u, assembly } assembled documents
  | close documents =>
    intro uri d hd
    rw [documents, Std.TreeMap.getElem?_erase] at hd
    split at hd
    · cases hd
    · exact hold uri d hd
  | stay documents =>
    intro uri d hd
    rw [documents] at hd
    exact hold uri d hd

/-- **A request keeps the texts and the assemblies right.** -/
theorem State.Follows.receive {history : List Request} (hs : s.Follows o history)
    (h : receive o s r = some step) : step.state.Follows o (history ++ [r]) := by
  have hmoves := moves_receive h
  refine ⟨fun uri ↦ ?_, hmoves.assembled hs.assembled⟩
  rw [hmoves.textOf, textAfter_concat, hs.text]

/-! ## All requests

The invariant along a run of the server, by induction on the requests from their end. -/

/-- What the server knows after some steps. -/
def stateAfter (s : State) (steps : List Step) : State := (steps.getLast?.map Step.state).getD s

theorem stateAfter_nil (s : State) : stateAfter s [] = s := rfl

theorem stateAfter_cons (s : State) (step : Step) (steps : List Step) :
    stateAfter s (step :: steps) = stateAfter step.state steps := by
  cases steps with
  | nil => rfl
  | cons next steps => simp [stateAfter, List.getLast?_cons]

theorem stateAfter_concat (s : State) (steps : List Step) (step : Step) :
    stateAfter s (steps ++ [step]) = step.state := by
  rw [stateAfter, List.getLast?_concat, Option.map_some, Option.getD_some]

theorem run_concat (o : Options) (s : State) (rs : List Request) (r : Request) :
    run o s (rs ++ [r]) =
      (run o s rs).bind fun steps ↦
        (receive o (stateAfter s steps) r).map fun step ↦ steps ++ [step] := by
  induction rs generalizing s with
  | nil =>
    simp only [List.nil_append, run, Option.bind_eq_bind, Option.bind_some, stateAfter_nil]
    cases receive o s r <;> rfl
  | cons first rs ih =>
    rw [List.cons_append, run, run]
    cases receive o s first with
    | none => rfl
    | some step =>
      simp only [Option.bind_eq_bind, Option.bind_some, ih]
      cases run o step.state rs with
      | none => rfl
      | some steps =>
        simp only [Option.bind_some, Option.pure_def, stateAfter_cons]
        cases receive o (stateAfter step.state steps) r <;> rfl

/-- The server follows the requests. -/
theorem follows_run {history : List Request} {steps : List Step}
    (hrun : run o State.start history = some steps) :
    (stateAfter State.start steps).Follows o history := by
  induction history using List.reverseRecOn generalizing steps with
  | nil =>
    obtain rfl := Option.some.inj hrun
    exact State.follows_start o
  | append_singleton history r ih =>
    rw [run_concat] at hrun
    obtain ⟨before, hbefore, hlast⟩ := Option.bind_eq_some_iff.mp hrun
    obtain ⟨step, hstep, rfl⟩ := Option.map_eq_some_iff.mp hlast
    rw [stateAfter_concat]
    exact (ih hbefore).receive hstep

/-! ## On a connection

The server is run by a connection, which reads values, drops some of them and may end.  None of that
shows in what is sent: it is what the server sends in a run over the requests that were handed to
it, however these were read. -/

namespace Connection

variable {c c' : Connection} {step : Step} {steps : List Step}

/-- What a connection can do with a value: hand a request to the server, or send nothing and leave
the documents alone.  In the second case the server knows what it knew, or the connection is at its
end. -/
theorem receive_cases {v : Json} (h : c.receive o v = some (c', step)) :
    step.state = c'.state ∧
      ((∃ r, Server.receive o c.state r = some step) ∨
        step.messages = [] ∧ c'.state.documents = c.state.documents ∧
          (c'.state = c.state ∨ c'.state.closed = true)) := by
  rw [receive] at h
  split at h
  · cases h
    exact ⟨rfl, .inr ⟨rfl, rfl, .inl rfl⟩⟩
  · split at h
    · rename_i r _
      obtain ⟨inner, hinner, hpair⟩ := Option.map_eq_some_iff.mp h
      cases hpair
      exact ⟨rfl, .inl ⟨r, hinner⟩⟩
    · rename_i id _
      rw [acceptResponse.eq_def] at h
      split at h
      · split at h <;> cases h <;> exact ⟨rfl, .inr ⟨rfl, rfl, .inl rfl⟩⟩
      · cases h
        exact ⟨rfl, .inr ⟨rfl, rfl, .inl rfl⟩⟩
    · cases h
      exact ⟨rfl, .inr ⟨rfl, rfl, .inr rfl⟩⟩

/-- After its end nothing happens on a connection. -/
theorem receiveAll_of_closed (hclosed : c.state.closed = true) {vs : List Json}
    (h : c.receiveAll o vs = some steps) :
    steps.flatMap Step.messages = [] ∧ stateAfter c.state steps = c.state := by
  induction vs generalizing steps with
  | nil =>
    obtain rfl := Option.some.inj h
    exact ⟨rfl, rfl⟩
  | cons v vs ih =>
    rw [receiveAll, receive, if_pos hclosed, Option.bind_eq_bind, Option.bind_some] at h
    obtain ⟨others, hothers, hlast⟩ := Option.bind_eq_some_iff.mp h
    obtain rfl := Option.some.inj hlast
    obtain ⟨hmessages, hstate⟩ := ih hothers
    exact ⟨hmessages, by rw [stateAfter_cons]; exact hstate⟩

/-- **A connection is a run of the server.**  Whatever comes in on a connection, what is sent is
what the server sends in some run, and the documents afterwards are those of that run. -/
theorem exists_run_of_receiveAll {vs : List Json} (h : c.receiveAll o vs = some steps) :
    ∃ requests handed, run o c.state requests = some handed ∧
      steps.flatMap Step.messages = handed.flatMap Step.messages ∧
      (stateAfter c.state steps).documents = (stateAfter c.state handed).documents := by
  induction vs generalizing c steps with
  | nil =>
    obtain rfl := Option.some.inj h
    exact ⟨[], [], rfl, rfl, rfl⟩
  | cons v vs ih =>
    obtain ⟨⟨next, step⟩, hstep, hrest⟩ := Option.bind_eq_some_iff.mp h
    obtain ⟨others, hothers, hlast⟩ := Option.bind_eq_some_iff.mp hrest
    obtain rfl := Option.some.inj hlast
    -- only a request that is handed to the server is a step of the run
    obtain ⟨hstate, ⟨r, hr⟩ | ⟨hsilent, hdocuments, hkept⟩⟩ := receive_cases hstep
    · obtain ⟨requests, handed, hrun, hmessages, hafter⟩ := ih hothers
      refine ⟨r :: requests, step :: handed, ?_, ?_, ?_⟩
      · rw [run, hr, Option.bind_eq_bind, Option.bind_some, hstate, hrun]
        rfl
      · rw [List.flatMap_cons, List.flatMap_cons, hmessages]
      · rw [stateAfter_cons, stateAfter_cons, hstate]
        exact hafter
    · rw [List.flatMap_cons, hsilent, List.nil_append, stateAfter_cons, hstate]
      rcases hkept with hsame | hclosed
      · rw [← hsame]
        exact ih hothers
      · obtain ⟨hmessages, hend⟩ := receiveAll_of_closed hclosed hothers
        exact ⟨[], [], rfl, hmessages, by rw [hend, hdocuments]; rfl⟩

end Connection

/-! ## What is answered

An answer is given from the assembly that is kept, from a new one, or from the text alone.  By the
invariant all three are those of the text that the requests give to the document. -/

/-- The parameters of a request for the given method, if it is one and they can be read. -/
def Request.paramsFor? (m : Method) (slots : List (Json.Slot Params)) (r : Request) :
    Option Params :=
  if r.method = m.name then Params.ofJson? slots r.params else none

/-- What an editor gets after a request is what its method sends with the parameters. -/
theorem received_of_paramsFor? {m : Method} {slots : List (Json.Slot Params)} {p : Params}
    {next : Params → Option Step} (h : r.paramsFor? m slots = some p)
    (hnext : perform o s m r = withParams s r (Params.ofJson? slots r.params) next) :
    (receive o s r).map Step.received = (next p).map fun step ↦ step.messages.map some := by
  rw [Request.paramsFor?] at h
  split_ifs at h with hm
  rw [receive, handle, hm, Method.ofName?_name, Option.map_map]
  simp only [hnext, h, withParams]
  exact Option.map_congr fun step _ ↦ Step.received_eq _

theorem messages_update (uri text : String) (version : Int) :
    (update o s uri text version).map (fun step ↦ step.messages.map some) =
      (assemble o text).map fun a ↦ [some (.publish uri version a.diagnostics.toList)] := by
  rw [update, State.keep, Option.map_map, Option.map_map]
  rfl

/-- The edit that an editor gets before a document is saved, from the text that is kept. -/
theorem received_of_willSave {p : Params}
    (h : r.paramsFor? .willSave Params.saveSlots = some p) :
    (receive o s r).map Step.received =
      (reformat o (s.textOf p.textDocument.uri)).map fun newText ↦
        [some (.reply r.id
          (.edits [{ range :=
                       { start := { line := 0, character := 0 }
                         stop := endOfText (s.textOf p.textDocument.uri) }
                     newText }]))] := by
  refine (received_of_paramsFor? h rfl).trans ?_
  simp only [beforeSave, Option.map_map, reformat]
  rfl

theorem tokens_read_nil : (Line.read []).tokens = [] := by
  rw [Line.read, Line.tokens]
  exact Text.tokens.eq_1 ..

/-- An empty source has one line, which says nothing. -/
theorem scan_of_empty {a : Assembly} (h : assemble o "" = some a) :
    a.source = #[[]] ∧ ∃ labels, a.scan = { Scan.start o.base labels with lines := 1 } := by
  obtain ⟨labels, -, -, -, hsource, hscan, -⟩ := assemble_cases h
  refine ⟨hsource, labels, ?_⟩
  have hlines : Text.splitLines "".toList = [[]] := rfl
  have hlabel : (Line.read []).label? = none := rfl
  have herrors : (Scan.start o.base labels).hasErrors = false := by
    simp [Scan.hasErrors, Scan.start]
  rw [hlines, Scan.ofLines, List.foldlM_cons] at hscan
  simp only [Scan.readLine, herrors, Scan.defineLabel, hlabel, Scan.readInstruction,
    tokens_read_nil, Bool.and_false, Bool.false_eq_true, if_false] at hscan
  exact (Option.some.inj hscan).symm

/-- There is nothing to show about an empty source. -/
theorem hover_of_empty {a : Assembly} (h : assemble o "" = some a) (p : Position) :
    (a.hover p).1 = none := by
  obtain ⟨hsource, labels, hscan⟩ := scan_of_empty h
  rw [Assembly.hover]
  rcases p.line with (_ | number) | _
  · have hline : a.line? 0 = some (Line.read []) := by
      rw [Assembly.line?, hsource, hscan]
      rfl
    have hlabel : a.describeDefinition 0 = none := by
      rw [Assembly.describeDefinition, hscan]
      rfl
    simp only [hline, hlabel, tokens_read_nil, Assembly.describeToken]
    split <;> rfl
  · have hline : a.line? (number + 1) = none := by
      rw [Assembly.line?, hsource]
      rfl
    simp only [hline]
  · rfl

/-- What is shown about a position of a document comes from its text as it is now. -/
theorem State.Follows.hover {history : List Request} (hs : s.Follows o history) (r : Request)
    (uri : String) (p : Position) {a : Assembly}
    (ha : assemble o (textAfter uri history) = some a) :
    (Server.hover s r uri p).messages =
      [.reply r.id (((a.hover p).1.map Answer.hover).getD .nothing)] := by
  rw [← hs.text, textOf] at ha
  rw [Server.hover]
  cases hd : s.documents[uri]? with
  | none =>
    simp only [hd] at ha
    rw [hover_of_empty ha]
    rfl
  | some d =>
    simp only [hd] at ha
    rw [hs.assembled uri d hd] at ha
    obtain rfl := Option.some.inj ha
    rfl

/-- **Answers come from the last text of a document.**  Some requests have come in, and the next one
is about a document, of which `text` is what the last request before says that gave it a text or
closed it.  What is shown about a position, the diagnostics that are asked for and the layout before
it is saved are those of `text`.  A request that gives the document a new text is followed by the
diagnostics of that text, under the version that it names, and a change without a text by nothing.
A request that says nothing of the text leaves it as it is.  What is sent is said as an editor reads
it from the JSON form of the messages. -/
theorem answers_follow_the_last_text (o : Options) (history : List Request) (steps : List Step)
    (hrun : run o State.start history = some steps) (r : Request) (p : Params) :
    let uri := p.textDocument.uri
    let text := textAfter uri history
    let sent := (receive o (stateAfter State.start steps) r).map Step.received
    let published := fun text ↦ (assemble o text).map fun a ↦
      [some (Outgoing.publish uri p.textDocument.version a.diagnostics.toList)]
    (r.paramsFor? .hover Params.positionSlots = some p →
      ∀ a, assemble o text = some a →
        sent = some
          [some (.reply r.id (((a.hover p.position).1.map Answer.hover).getD .nothing))]) ∧
    (r.paramsFor? .diagnostic Params.nameSlots = some p →
      sent = (assemble o text).map fun a ↦
        [some (.reply r.id (.diagnostics a.diagnostics.toList))]) ∧
    (r.paramsFor? .willSave Params.saveSlots = some p →
      sent = (reformat o text).map fun newText ↦
        [some (.reply r.id
          (.edits [{ range := { start := { line := 0, character := 0 }, stop := endOfText text }
                     newText }]))]) ∧
    (r.paramsFor? .didOpen Params.openSlots = some p →
      sent = published p.textDocument.text) ∧
    (r.paramsFor? .didChange Params.changeSlots = some p →
      sent = p.contentChanges.items.getLast?.elim (some []) published) ∧
    ((∀ news, r.news? ≠ some (uri, news)) → textAfter uri (history ++ [r]) = text) := by
  intro uri text sent published
  have hfollows := follows_run hrun
  refine ⟨fun hr a ha ↦ ?_, fun hr ↦ ?_, fun hr ↦ ?_, fun hr ↦ ?_, fun hr ↦ ?_, fun hnews ↦ ?_⟩
  · refine (received_of_paramsFor? hr rfl).trans ?_
    rw [Option.map_some, hfollows.hover r uri p.position ha]
    rfl
  · refine (received_of_paramsFor? hr rfl).trans ?_
    simp only [diagnose, State.keep, hfollows.text, Option.map_map]
    rfl
  · exact (received_of_willSave hr).trans (by rw [hfollows.text])
  · exact (received_of_paramsFor? hr rfl).trans (messages_update ..)
  · refine (received_of_paramsFor? hr rfl).trans ?_
    rw [change]
    cases p.contentChanges.items.getLast? with
    | none => rfl
    | some new => exact messages_update ..
  · exact textAfter_concat_of_other hnews

/-- A request about a document as an editor makes it. -/
def about (id : Option Id) (m : Method) (uri : String) (document others : List (String × Json)) :
    Request :=
  { id := id.getD (.number 0)
    notification := id.isNone
    method := m.name
    params := some (.object
      (("textDocument", .object (("uri", .string uri) :: document)) :: others)) }

/-- Two documents are opened.  The first is changed twice in one request, and the second is changed
without a text, closed, and asked about after that. -/
def conversation : List Request :=
  [about none .didOpen "a.s" [("version", .nat 1), ("text", .string "x: jr $ra")] [],
    about none .didOpen "b.s" [("version", .nat 1), ("text", .string "oops")] [],
    about none .didChange "a.s" [("version", .nat 2)]
      [("contentChanges", .array
        [.object [("text", .string "y:")], .object [("text", .string "\ty:li  $t0 70000")]])],
    about none .didChange "b.s" [("version", .nat 2)] [("contentChanges", .array [])],
    about none .didClose "b.s" [] [],
    about (some (.number 1)) .diagnostic "b.s" [] []]

/-- After a conversation about two documents, the layout of one is that of its last text, and what
is shown about the other is what is shown about no text. -/
theorem answers_follow_the_last_text_of_two :
    ∃ steps, run {} State.start conversation = some steps ∧
      (receive {} (stateAfter State.start steps)
          (about (some (.number 2)) .willSave "a.s" [] [("reason", .nat 1)])).map Step.received =
        some [some (.reply (.number 2) (.edits
          [{ range :=
               { start := { line := 0, character := 0 }, stop := { line := 0, character := 16 } }
             newText := "y: li $t0 70000" }]))] ∧
      (receive {} (stateAfter State.start steps)
          (about (some (.number 3)) .hover "b.s" []
            [("position", .object [("line", .nat 0), ("character", .nat 1)])])).map Step.received =
        some [some (.reply (.number 3) .nothing)] := by
  have hsome : (run {} State.start conversation).isSome = true := by decide +kernel
  have hrun := (Option.some_get hsome).symm
  have hanswers := answers_follow_the_last_text {} conversation _ hrun
  refine ⟨_, hrun, ?_, ?_⟩
  · refine ((hanswers _ { textDocument := { uri := "a.s" }, reason := 1 }).2.2.1
      (by decide +kernel)).trans ?_
    decide +kernel
  · have htext : textAfter "b.s" conversation = "" := by decide +kernel
    have hempty : (assemble {} "").isSome = true := by decide +kernel
    obtain ⟨a, ha⟩ := Option.isSome_iff_exists.mp hempty
    refine ((hanswers _
      { textDocument := { uri := "b.s" }, position := { line := 0, character := 1 } }).1
      (by decide +kernel) a (by rw [htext, ha])).trans ?_
    rw [hover_of_empty ha]
    rfl

end Server
end MipsAsm
