import EdgeOrchestrator.Core.Types
import EdgeOrchestrator.Library.JsonDoc
import Mathlib.Algebra.Order.BigOperators.Group.List
import Mathlib.Algebra.Order.Group.Nat

/-!
# The event log

The lines that the metrics collector assembles by hand and writes to its sink, and the
analyzer that loads them.  Ids come from submissions, requests and adverts and are
spliced in as they are.

Main results:

- `eventLog_faithful_iff`: the analyzer recovers the recorded events exactly when no id has a
  quote, a backslash or a control character and all are UTF-8.
- `eventLog_forged`: a quote loses an event, a newline adds one.
-/

namespace EdgeOrchestrator

open Json Utf8

/-- `to_string`. -/
def TaskState.toString : TaskState → ByteString
  | .pending => text "pending"
  | .ready => text "ready"
  | .scheduled => text "scheduled"
  | .running => text "running"
  | .completed => text "completed"
  | .failed => text "failed"

/-- `static_cast<int>`. -/
def Reason.toInt : Reason → Int
  | .localCapacity => 0
  | .leastLoaded => 1
  | .thresholdOffload => 2
  | .optimizationResult => 3
  | .fallback => 4

namespace MetricsCollector

/-! ## Lines -/

/-- `record_scheduling_decision`. -/
def recordSchedulingDecision (decision : SchedulingDecision) : ByteString :=
  text "\x7b\"event\":\"scheduling_decision\"" ++
    text ",\"task\":\"" ++ decision.taskId ++ text "\"" ++
    text ",\"assigned_to\":\"" ++ decision.assignedNode ++ text "\"" ++
    text ",\"reason\":" ++ intText decision.reason.toInt ++
    text "\x7d"

/-- `record_task_event`. -/
def recordTaskEvent (id : TaskId) (state : TaskState) (duration : Duration) : ByteString :=
  text "\x7b\"event\":\"task_state_change\"" ++
    text ",\"task\":\"" ++ id ++ text "\"" ++
    text ",\"state\":\"" ++ state.toString ++ text "\"" ++
    text ",\"duration_us\":" ++ intText duration ++
    text "\x7d"

/-- `record_peer_event`. -/
def recordPeerEvent (peer : NodeId) (eventType : ByteString) : ByteString :=
  text "\x7b\"event\":\"peer_" ++ eventType ++ text "\"" ++
    text ",\"peer\":\"" ++ peer ++ text "\"" ++
    text "\x7d"

/-- `record_custom`. -/
def recordCustom (event jsonPayload : ByteString) : ByteString :=
  text "\x7b\"event\":\"" ++ event ++ text "\"" ++
    text ",\"data\":" ++ jsonPayload ++
    text "\x7d"

/-- What the discovery callbacks report. -/
inductive PeerChange where
  | discovered
  | lost
deriving DecidableEq, Repr

/-- The word in the log. -/
def PeerChange.eventType : PeerChange → ByteString
  | .discovered => text "discovered"
  | .lost => text "lost"

/-- The events that carry ids. -/
inductive Event where
  | schedulingDecision (decision : SchedulingDecision)
  | taskEvent (id : TaskId) (state : TaskState) (duration : Duration)
  | peerEvent (peer : NodeId) (change : PeerChange)
  /-- `submit_workload` records it when an offload has failed. -/
  | offloadFallback (taskId : TaskId) (target : NodeId)
deriving DecidableEq, Repr

/-- The line that is passed to the sink. -/
def Event.line : Event → ByteString
  | .schedulingDecision decision => recordSchedulingDecision decision
  | .taskEvent id state duration => recordTaskEvent id state duration
  | .peerEvent peer change => recordPeerEvent peer change.eventType
  | .offloadFallback taskId target =>
    recordCustom (text "offload_fallback")
      (text "\x7b\"task\":\"" ++ taskId ++ text "\",\"target\":\"" ++ target ++ text "\"\x7d")

/-- The ids of an event. -/
def Event.ids : Event → List ByteString
  | .schedulingDecision decision => [decision.taskId, decision.assignedNode]
  | .taskEvent id _ _ => [id]
  | .peerEvent peer _ => [peer]
  | .offloadFallback taskId target => [taskId, target]

/-- The object that an event stands for. -/
def Event.recorded : Event → Value
  | .schedulingDecision decision =>
    .obj (lastOf [(text "event", .str (text "scheduling_decision")),
      (text "task", .str decision.taskId), (text "assigned_to", .str decision.assignedNode),
      (text "reason", .int decision.reason.toInt)])
  | .taskEvent id state duration =>
    .obj (lastOf [(text "event", .str (text "task_state_change")), (text "task", .str id),
      (text "state", .str state.toString), (text "duration_us", .int duration)])
  | .peerEvent peer change =>
    .obj (lastOf [(text "event", .str (text "peer_" ++ change.eventType)),
      (text "peer", .str peer)])
  | .offloadFallback taskId target =>
    .obj (lastOf [(text "event", .str (text "offload_fallback")),
      (text "data", .obj (lastOf [(text "task", .str taskId), (text "target", .str target)]))])

/-- An id that may be spliced into a JSON string. -/
def Printable (id : ByteString) : Prop :=
  IsUtf8 id ∧ ∀ byte ∈ id, byte ≠ 0x22 ∧ byte ≠ 0x5C ∧ 0x20 ≤ byte

instance : DecidablePred Printable := fun id =>
  inferInstanceAs (Decidable (IsUtf8 id ∧ ∀ byte ∈ id, byte ≠ 0x22 ∧ byte ≠ 0x5C ∧ 0x20 ≤ byte))

/-! ## The log file -/

/-- `JsonFileSink::write`. -/
def write (file jsonLine : ByteString) : ByteString :=
  file ++ jsonLine ++ [0x0A]

/-- The file after the events were recorded one after another. -/
def logFile (events : List Event) : ByteString :=
  events.foldl (fun file event => write file event.line) []

/-! ## The analyzer -/

/-- The lines of a file that is opened as text.  A carriage return ends a line as well;
before a newline it adds an empty line, which the loop skips. -/
def splitLines : ByteString → ByteString → List ByteString
  | current, [] => if current = [] then [] else [current]
  | current, byte :: rest =>
    if byte = 0x0A ∨ byte = 0x0D then current :: splitLines [] rest
    else splitLines (current ++ [byte]) rest

/-- The white space of `str.strip`, in UTF-8. -/
def whitespace : List ByteString :=
  [[0x09], [0x0A], [0x0B], [0x0C], [0x0D], [0x1C], [0x1D], [0x1E], [0x1F], [0x20],
    [0xC2, 0x85], [0xC2, 0xA0], [0xE1, 0x9A, 0x80], [0xE2, 0x80, 0x80], [0xE2, 0x80, 0x81],
    [0xE2, 0x80, 0x82], [0xE2, 0x80, 0x83], [0xE2, 0x80, 0x84], [0xE2, 0x80, 0x85],
    [0xE2, 0x80, 0x86], [0xE2, 0x80, 0x87], [0xE2, 0x80, 0x88], [0xE2, 0x80, 0x89],
    [0xE2, 0x80, 0x8A], [0xE2, 0x80, 0xA8], [0xE2, 0x80, 0xA9], [0xE2, 0x80, 0xAF],
    [0xE2, 0x81, 0x9F], [0xE3, 0x80, 0x80]]

/-- Drop the spaces a line starts with. -/
def dropSpaces (spaces : List ByteString) : Nat → ByteString → ByteString
  | 0, line => line
  | fuel + 1, line =>
    match spaces.find? fun space => space.isPrefixOf line with
    | some space => dropSpaces spaces fuel (line.drop space.length)
    | none => line

/-- `line.strip()`. -/
def strip (line : ByteString) : ByteString :=
  let left := dropSpaces whitespace line.length line
  (dropSpaces (whitespace.map List.reverse) left.length left.reverse).reverse

/-- Blank and malformed lines are skipped. -/
def loadLine (line : ByteString) : Option Value :=
  let line := strip line
  if line = [] then none else loads line

/-- `load_events`; a file that is not UTF-8 fails as a whole. -/
def loadEvents (file : ByteString) : Option (List Value) :=
  if IsUtf8 file then some ((splitLines [] file).filterMap loadLine) else none

/-! ## Lines as documents -/

/-- The document a line is to hold. -/
def Event.doc : Event → Doc
  | .schedulingDecision decision =>
    .obj (.more (text "event") (.str (text "scheduling_decision"))
      (.more (text "task") (.str decision.taskId)
        (.more (text "assigned_to") (.str decision.assignedNode)
          (.last (text "reason") (.int decision.reason.toInt)))))
  | .taskEvent id state duration =>
    .obj (.more (text "event") (.str (text "task_state_change"))
      (.more (text "task") (.str id)
        (.more (text "state") (.str state.toString)
          (.last (text "duration_us") (.int duration)))))
  | .peerEvent peer change =>
    .obj (.more (text "event") (.str (text "peer_" ++ change.eventType))
      (.last (text "peer") (.str peer)))
  | .offloadFallback taskId target =>
    .obj (.more (text "event") (.str (text "offload_fallback"))
      (.last (text "data")
        (.obj (.more (text "task") (.str taskId) (.last (text "target") (.str target))))))

variable (event : Event)

/-- The line is the rendering of the document. -/
theorem Event.render_doc : event.doc.render = event.line := by
  cases event <;>
    simp only [Event.doc, Event.line, recordSchedulingDecision, recordTaskEvent, recordPeerEvent,
      recordCustom, Doc.render, Members.render, quoted, List.append_assoc, List.cons_append] <;>
    rfl

/-- The document denotes the recorded values. -/
theorem Event.value_doc : event.doc.value = event.recorded := by
  cases event <;> rfl

theorem Event.distinct_doc : event.doc.Distinct := by
  cases event <;>
    simp only [Event.doc, Doc.Distinct, Members.Distinct, Members.values, List.map_cons,
      List.map_nil, and_self, and_true] <;>
    decide

/-- The strings of the lines that are not ids. -/
def vocabulary : List ByteString :=
  ["event", "scheduling_decision", "task", "assigned_to", "reason", "task_state_change", "state",
    "pending", "ready", "scheduled", "running", "completed", "failed", "duration_us",
    "peer_discovered", "peer_lost", "peer", "offload_fallback", "data", "target"].map text

/-- The strings of a line are its ids and fixed words. -/
theorem Event.mem_strings {event : Event} {string : ByteString}
    (h : string ∈ event.doc.strings) : string ∈ vocabulary ∨ string ∈ event.ids := by
  cases event with
  | schedulingDecision decision | offloadFallback taskId target =>
    simp only [Event.doc, Doc.strings, Members.strings, List.cons_append, List.nil_append,
      List.mem_cons, List.not_mem_nil, or_false] at h
    rcases h with rfl | rfl | rfl | rfl | rfl | rfl | rfl <;>
      first
      | (right; simp [Event.ids]; done)
      | (left; decide)
  | taskEvent id state duration =>
    simp only [Event.doc, Doc.strings, Members.strings, List.cons_append, List.nil_append,
      List.mem_cons, List.not_mem_nil, or_false] at h
    rcases h with rfl | rfl | rfl | rfl | rfl | rfl | rfl <;>
      first
      | (right; simp [Event.ids]; done)
      | (left; cases state <;> decide)
  | peerEvent peer change =>
    simp only [Event.doc, Doc.strings, Members.strings, List.cons_append, List.nil_append,
      List.mem_cons, List.not_mem_nil, or_false] at h
    rcases h with rfl | rfl | rfl | rfl <;>
      first
      | (right; simp [Event.ids]; done)
      | (left; cases change <;> decide)

theorem Event.ids_subset : event.ids ⊆ event.doc.strings := by
  cases event <;> simp [Event.ids, Event.doc, Doc.strings, Members.strings]

theorem plain_of_mem_vocabulary : ∀ word ∈ vocabulary, Plain word := by
  decide

theorem isUtf8_of_mem_vocabulary {word : ByteString} (h : word ∈ vocabulary) : IsUtf8 word := by
  obtain ⟨literal, -, rfl⟩ := List.mem_map.1 h
  exact isUtf8_data literal

theorem Event.plain_strings_iff :
    (∀ string ∈ event.doc.strings, Plain string) ↔ ∀ id ∈ event.ids, Plain id := by
  refine ⟨fun h id hid => h id (event.ids_subset hid), fun h string hstring => ?_⟩
  rcases Event.mem_strings hstring with hword | hid
  · exact plain_of_mem_vocabulary string hword
  · exact h string hid

theorem Event.isUtf8_strings_iff :
    (∀ string ∈ event.doc.strings, IsUtf8 string) ↔ ∀ id ∈ event.ids, IsUtf8 id := by
  refine ⟨fun h id hid => h id (event.ids_subset hid), fun h string hstring => ?_⟩
  rcases Event.mem_strings hstring with hword | hid
  · exact isUtf8_of_mem_vocabulary hword
  · exact h string hid

theorem printable_iff {id : ByteString} : Printable id ↔ IsUtf8 id ∧ Plain id := by
  rw [Printable, plain_iff]

theorem Event.printable_iff (event : Event) :
    (∀ id ∈ event.ids, Printable id) ↔ IsUtf8 event.line ∧ escapes event.doc.strings = 0 := by
  rw [← event.render_doc, event.doc.isUtf8_render_iff, event.isUtf8_strings_iff,
    escapes_eq_zero_iff, event.plain_strings_iff, ← forall₂_and]
  exact forall₂_congr fun _ _ => MetricsCollector.printable_iff

/-- A line is the record of its event exactly when the ids are printable. -/
theorem Event.loads_line_iff :
    loads event.line = some event.recorded ↔ escapes event.doc.strings = 0 := by
  rw [← event.render_doc, ← event.value_doc, Doc.loads_render_iff event.distinct_doc,
    escapes_eq_zero_iff]

/-- A line without escapes is one line of the file. -/
theorem Event.newline_free {event : Event} (h : escapes event.doc.strings = 0) :
    ∀ byte ∈ event.line, byte ≠ 0x0A ∧ byte ≠ 0x0D := by
  intro byte hmem
  rw [← event.render_doc] at hmem
  have hle := event.doc.le_of_mem_render (escapes_eq_zero_iff.1 h) hmem
  constructor
  · rintro rfl
    exact absurd hle (by decide)
  · rintro rfl
    exact absurd hle (by decide)

/-- Reading an event back costs its line and its escapes. -/
theorem Event.takes_recorded :
    Takes event.recorded (event.line.length + escapes event.doc.strings) := by
  have htakes := event.doc.takes_value event.distinct_doc
  rwa [event.value_doc, event.render_doc] at htakes

/-! ## The file as lines -/

variable (events : List Event)

theorem logFile_eq : logFile events = events.flatMap fun event => event.line ++ [0x0A] := by
  have hgeneral : ∀ (events : List Event) (file : ByteString),
      events.foldl (fun file event => write file event.line) file =
        file ++ events.flatMap fun event => event.line ++ [0x0A] := by
    intro events
    induction events with
    | nil => simp
    | cons event events ih =>
      intro file
      rw [List.foldl_cons, ih, write, List.flatMap_cons]
      simp only [List.append_assoc]
  exact hgeneral events []

theorem logFile_cons : logFile (event :: events) = event.line ++ 0x0A :: logFile events := by
  simp [logFile_eq]

theorem isUtf8_logFile_iff : IsUtf8 (logFile events) ↔ ∀ event ∈ events, IsUtf8 event.line := by
  induction events with
  | nil => exact iff_of_true isUtf8_nil (by simp)
  | cons event events ih =>
    rw [logFile_cons, isUtf8_append_ascii_iff (by decide), ih, List.forall_mem_cons]

/-- The bytes of lines, with the newline that ends each of them. -/
def lineBytes (lines : List ByteString) : Nat :=
  (lines.map fun line => line.length + 1).sum

/-- Every byte up to a newline belongs to a line or ends one. -/
theorem lineBytes_splitLines (current first rest : ByteString) :
    lineBytes (splitLines current (first ++ 0x0A :: rest)) =
      current.length + first.length + 1 + lineBytes (splitLines [] rest) := by
  induction first generalizing current with
  | nil => simp [splitLines, lineBytes]
  | cons byte first ih =>
    rw [List.cons_append, splitLines]
    split
    · have hlater := ih []
      simp only [lineBytes, List.map_cons, List.sum_cons, List.length_cons,
        List.length_nil] at hlater ⊢
      omega
    · rw [ih (current ++ [byte])]
      simp only [List.length_append, List.length_cons, List.length_nil]
      omega

theorem lineBytes_logFile :
    lineBytes (splitLines [] (logFile events)) = lineBytes (events.map Event.line) := by
  induction events with
  | nil => rfl
  | cons event events ih =>
    rw [logFile_cons, lineBytes_splitLines, ih]
    simp [lineBytes]

/-- Lines without line breaks are split as they were written. -/
theorem splitLines_append {first : ByteString} (h : ∀ byte ∈ first, byte ≠ 0x0A ∧ byte ≠ 0x0D)
    (current rest : ByteString) :
    splitLines current (first ++ 0x0A :: rest) = (current ++ first) :: splitLines [] rest := by
  induction first generalizing current with
  | nil => simp [splitLines]
  | cons byte first ih =>
    rw [List.forall_mem_cons] at h
    rw [List.cons_append, splitLines, if_neg (not_or.2 h.1), ih h.2, List.append_assoc]
    rfl

/-- The file splits into the written lines. -/
theorem splitLines_logFile {events : List Event}
    (h : ∀ event ∈ events, ∀ byte ∈ event.line, byte ≠ 0x0A ∧ byte ≠ 0x0D) :
    splitLines [] (logFile events) = events.map Event.line := by
  induction events with
  | nil => rfl
  | cons event events ih =>
    rw [List.forall_mem_cons] at h
    rw [logFile_cons, splitLines_append h.1, ih h.2]
    rfl

/-! ## Loading lines -/

theorem length_dropSpaces_le (spaces : List ByteString) (fuel : Nat) (line : ByteString) :
    (dropSpaces spaces fuel line).length ≤ line.length := by
  induction fuel generalizing line with
  | zero => exact le_refl _
  | succ fuel ih =>
    rw [dropSpaces]
    split
    · refine (ih _).trans ?_
      simp
    · exact le_refl _

theorem length_strip_le (line : ByteString) : (strip line).length ≤ line.length := by
  have hleft := length_dropSpaces_le whitespace line.length line
  have hright := length_dropSpaces_le (whitespace.map List.reverse)
    (dropSpaces whitespace line.length line).length (dropSpaces whitespace line.length line).reverse
  simp only [strip, List.length_reverse] at hright ⊢
  omega

/-- Nothing is dropped in front of a byte that starts no space. -/
theorem dropSpaces_cons {spaces : List ByteString} {byte : UInt8}
    (h : ∀ space ∈ spaces, ∃ first rest, space = first :: rest ∧ first ≠ byte) (fuel : Nat)
    (line : ByteString) : dropSpaces spaces fuel (byte :: line) = byte :: line := by
  cases fuel with
  | zero => rfl
  | succ fuel =>
    have hnone : (spaces.find? fun space => space.isPrefixOf (byte :: line)) = none := by
      refine List.find?_eq_none.2 fun space hspace hstart => ?_
      obtain ⟨first, rest, rfl, hne⟩ := h space hspace
      simp only [List.isPrefixOf, Bool.and_eq_true, beq_iff_eq] at hstart
      exact hne hstart.1
    rw [dropSpaces, hnone]

theorem strip_braces (middle : ByteString) :
    strip (0x7B :: (middle ++ [0x7D])) = 0x7B :: (middle ++ [0x7D]) := by
  have hspaces : ∀ (spaces : List ByteString) (byte : UInt8),
      (∀ space ∈ spaces, space.head? ≠ none ∧ space.head? ≠ some byte) →
      ∀ space ∈ spaces, ∃ first rest, space = first :: rest ∧ first ≠ byte := by
    intro spaces byte h space hspace
    obtain ⟨hnonempty, hne⟩ := h space hspace
    cases space with
    | nil => exact absurd rfl hnonempty
    | cons first rest => exact ⟨first, rest, rfl, fun hsame => hne (congrArg some hsame)⟩
  have hleft := dropSpaces_cons (hspaces whitespace 0x7B (by decide))
    (0x7B :: (middle ++ [0x7D])).length (middle ++ [0x7D])
  have hreverse : (0x7B :: (middle ++ [0x7D]) : ByteString).reverse =
      0x7D :: (middle.reverse ++ [0x7B]) := by
    simp
  rw [strip, hleft, hreverse, dropSpaces_cons (hspaces _ 0x7D (by decide))]
  simp

theorem Event.line_cases (event : Event) : ∃ middle, event.line = 0x7B :: (middle ++ [0x7D]) := by
  obtain ⟨members, hdoc⟩ : ∃ members, event.doc = .obj members := by
    cases event <;> exact ⟨_, rfl⟩
  obtain ⟨middle, hmiddle⟩ := members.exists_render
  refine ⟨middle, ?_⟩
  rw [← event.render_doc, hdoc, Doc.render, hmiddle]

theorem Event.loadLine_line {event : Event} (h : escapes event.doc.strings = 0) :
    loadLine event.line = some event.recorded := by
  obtain ⟨middle, hline⟩ := event.line_cases
  have hstrip : strip event.line = event.line := by
    rw [hline, strip_braces]
  rw [loadLine, hstrip, if_neg (by rw [hline]; exact List.cons_ne_nil _ _)]
  exact event.loads_line_iff.2 h

/-- A loaded value is paid for by the line. -/
theorem length_of_loadLine {line : ByteString} {value : Value} {n : Nat}
    (h : loadLine line = some value) (htakes : Takes value n) : n ≤ line.length := by
  rw [loadLine] at h
  split at h
  · cases h
  · exact (length_of_loads h htakes).trans (length_strip_le line)

/-- Lines from which all events are recovered have room for the escapes of all ids. -/
theorem lineBytes_of_recovered {lines : List ByteString} {events : List Event}
    (h : lines.filterMap loadLine = events.map Event.recorded) :
    lineBytes (events.map Event.line) +
        (events.map fun event => escapes event.doc.strings).sum ≤ lineBytes lines := by
  induction lines generalizing events with
  | nil =>
    rw [List.filterMap_nil] at h
    rw [List.map_eq_nil_iff.1 h.symm]
    rfl
  | cons line lines ih =>
    cases hload : loadLine line with
    | none =>
      rw [List.filterMap_cons_none hload] at h
      have hlater := ih h
      simp only [lineBytes, List.map_cons, List.sum_cons] at hlater ⊢
      omega
    | some value =>
      rw [List.filterMap_cons_some hload] at h
      obtain ⟨event, events', rfl, rfl, hevents⟩ := List.map_eq_cons_iff.1 h.symm
      have hfirst := length_of_loadLine hload event.takes_recorded
      have hlater := ih hevents.symm
      simp only [lineBytes, List.map_cons, List.sum_cons] at hlater ⊢
      omega

/-- The analyzer recovers the events whose lines are records of them, and only those. -/
theorem loadEvents_logFile_iff (events : List Event) :
    loadEvents (logFile events) = some (events.map Event.recorded) ↔
      ∀ event ∈ events, ∀ id ∈ event.ids, Printable id := by
  constructor
  · intro h event hevent
    rw [loadEvents] at h
    split at h
    · rename_i hutf8
      have hroom := lineBytes_of_recovered (Option.some.inj h)
      rw [lineBytes_logFile] at hroom
      -- The lines have no room for any escape.
      have hescapes : escapes event.doc.strings ≤
          (events.map fun event => escapes event.doc.strings).sum :=
        List.single_le_sum (fun _ _ => Nat.zero_le _) _ (List.mem_map_of_mem hevent)
      exact event.printable_iff.2
        ⟨(isUtf8_logFile_iff events).1 hutf8 event hevent, by omega⟩
    · cases h
  · intro h
    have hclean : ∀ event ∈ events, IsUtf8 event.line ∧ escapes event.doc.strings = 0 :=
      fun event hevent => event.printable_iff.1 (h event hevent)
    have hutf8 : IsUtf8 (logFile events) :=
      (isUtf8_logFile_iff events).2 fun event hevent => (hclean event hevent).1
    have hlines : splitLines [] (logFile events) = events.map Event.line :=
      splitLines_logFile fun event hevent => Event.newline_free (hclean event hevent).2
    have hload : ∀ event ∈ events, (loadLine ∘ Event.line) event = some event.recorded :=
      fun event hevent => Event.loadLine_line (hclean event hevent).2
    rw [loadEvents, if_pos hutf8, hlines, List.filterMap_map, List.filterMap_congr hload]
    exact congrArg some (congrFun List.filterMap_eq_map' events)

/-- The line of an event has no newline and is a JSON text of the recorded object, and the
analyzer recovers from the log what was recorded and nothing else, exactly when every id is
UTF-8 without quotes, backslashes and control characters. -/
theorem eventLog_faithful_iff (event : Event) (events : List Event) :
    ((0x0A ∉ event.line ∧ IsUtf8 event.line ∧ loads event.line = some event.recorded) ↔
      ∀ id ∈ event.ids, Printable id) ∧
    (loadEvents (logFile events) = some (events.map Event.recorded) ↔
      ∀ event ∈ events, ∀ id ∈ event.ids, Printable id) := by
  refine ⟨?_, loadEvents_logFile_iff events⟩
  rw [event.printable_iff, event.loads_line_iff]
  constructor
  · rintro ⟨-, hutf8, hescapes⟩
    exact ⟨hutf8, hescapes⟩
  · rintro ⟨hutf8, hescapes⟩
    exact ⟨fun hmem => (Event.newline_free hescapes _ hmem).1 rfl, hutf8, hescapes⟩

/-- A quote in a task id loses the event, and a peer whose id has a quote and a newline
adds an event of its own. -/
theorem eventLog_forged :
    loadEvents (logFile [.taskEvent (text "a\"b") .completed 7]) = some [] ∧
    loadEvents (logFile
        [.peerEvent (text "a\"\x7d\n\x7b\"event\":\"x\",\"peer\":\"b") .discovered]) =
      some [Event.recorded (.peerEvent (text "a") .discovered),
        .obj (lastOf [(text "event", .str (text "x")), (text "peer", .str (text "b"))])] := by
  constructor
  · rw [loadEvents, if_pos (by decide +kernel)]
    rfl
  · rw [loadEvents, if_pos (by decide +kernel)]
    rfl

end MetricsCollector

end EdgeOrchestrator
