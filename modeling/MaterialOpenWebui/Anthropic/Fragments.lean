import MaterialOpenWebui.Anthropic.Stream

/-!
# `Anthropic.Fragments` — the argument fragments of tool calls, and which of them are passed on

The deltas of a stream belong to tool calls: one with an id to that of its id, one without to the call of the last delta at
its index. The arguments of a call are its fragments, one after the other. Of these the converter passes on what comes when
the call has a name and until its arguments are complete; and nothing after an exception.
-/

namespace MaterialOpenWebui
namespace Anthropic
open Py
open Responses (iterate)

/-! ## What is sent -/

/-- The block that an event starts for a tool call. -/
def startOf (call : ToolId) : Event → Option Nat
  | .content_block_start i (.tool_use id _) => if id = call then some i else none
  | _ => none

def blockOf (call : ToolId) (events : List Event) : Option Nat := events.findSome? (startOf call)

def partialOf (i : Nat) : Event → Str
  | .content_block_delta j (.input_json_delta partial_json) => if j = i then partial_json else []
  | _ => []

/-- What is sent of the arguments of a tool call, in the deltas of its block. -/
def partial_json (call : ToolId) (events : List Event) : Str :=
  match blockOf call events with
  | some i => events.flatMap (partialOf i)
  | none => []

/-! ## What is received -/

/-- The tool calls in what is read of a line. -/
def callsOf (data : Val) : List Val :=
  match first? (data.get (py "choices")) with
  | none => []
  | some choice =>
    let own := (choice.get (py "delta")).get (py "tool_calls")
    (iterate (if own.truthy then own else (choice.get (py "message")).get (py "tool_calls"))).getD []

def documents (settings : Settings) (source : Source) : List Val :=
  source.chunks.flatMap fun chunk => (lines settings chunk).filterMap (data? settings)

/-- All deltas of tool calls that the source sends. -/
def received (docs : List Val) : List ToolCall := docs.flatMap fun data => (callsOf data).filterMap toolCall?

def ToolCall.named (c : ToolCall) : Bool := c.name.truthy

def ToolCall.fragment (c : ToolCall) : Str := c.arguments.text?.getD []

/-- The deltas so far, each with the call that it belongs to, and how many calls came without an id. -/
structure Assigned where
  past : List (ToolCall × ToolId)
  drawn : Nat

/-- The call of the last delta at an index. -/
def latest (past : List (ToolCall × ToolId)) (index : Option Key) : Option ToolId :=
  past.foldl (fun call q => if key? q.1.index = index then some q.2 else call) none

def Assigned.add (a : Assigned) (c : ToolCall) : Assigned :=
  match if c.id.truthy then key? c.id else none with
  | some id => { a with past := a.past ++ [(c, .given id)] }
  | none =>
    match latest a.past (key? c.index) with
    | some call => { a with past := a.past ++ [(c, call)] }
    | none => ⟨a.past ++ [(c, .fallback a.drawn)], a.drawn + 1⟩

def assign (cs : List ToolCall) : Assigned := cs.foldl Assigned.add ⟨[], 0⟩

/-- The deltas of a call. -/
def piecesOf (call : ToolId) (past : List (ToolCall × ToolId)) : List ToolCall :=
  (past.filter fun q => q.2 = call).map Prod.fst

/-- The arguments of a call: its fragments together. -/
def arguments (pieces : List ToolCall) : Str := pieces.flatMap ToolCall.fragment

/-- What is sent for each call that is given a name are its arguments. -/
def KeepsArguments (settings : Settings) (source : Source) : Prop :=
  ∀ message_id model input_tokens call,
    let pieces := piecesOf call (assign (received (documents settings source))).past
    (∃ c ∈ pieces, c.named = true) →
      partial_json call (openai_stream_to_anthropic_stream settings source message_id model input_tokens) =
        arguments pieces

/-! ## The condition -/

/-- A delta is read without an exception. -/
def wellTyped (tool_call : Val) : Bool :=
  match toolCall? tool_call with
  | none => false
  | some c =>
    (!c.id.truthy || (key? c.id).isSome) && (key? c.index).isSome && (!c.arguments.truthy || c.arguments.text?.isSome)

/-- The tool calls that the loop over them is run on; nothing if there is an exception before. -/
def reachedChoice (choice : Val) : Option (List Val) :=
  (field choice (py "delta") (.dict [])).bind fun delta =>
    let message := (choice.get (py "message")).or (.dict [])
    (reasoning_content delta message).bind fun _ =>
      (tool_calls delta message).bind fun calls => if calls.truthy then iterate calls else some []

/-- A usage that cannot be counted raises. -/
def usageRaises (round : Rat → Rat) (usage_data : Val) : Bool :=
  usage_data.isDict && (read_usage round ⟨.none, .none, .none, .none, .none, .none, .none⟩ usage_data).isNone

def reached (round : Rat → Rat) (data : Val) : Option (List Val) :=
  (field data (py "usage") .none).bind fun usage_data =>
    if usageRaises round usage_data then none
    else
      (field data (py "choices") (.list [])).bind fun choices =>
        if choices.truthy then (first? choices).bind reachedChoice else some []

/-- There is no exception after the tool calls. -/
def finishes (data : Val) : Bool :=
  match first? (data.get (py "choices")) with
  | none => true
  | some choice => (key? (choice.get (py "finish_reason"))).isSome

/-- The deltas up to the first exception. -/
def handled (round : Rat → Rat) : List Val → List ToolCall
  | [] => []
  | data :: docs =>
    match reached round data with
    | none => []
    | some calls =>
      (calls.takeWhile wellTyped).filterMap toolCall? ++
        if calls.all wellTyped && finishes data then handled round docs else []

/-- No fragment comes before the name, and none after the arguments have become complete JSON. -/
def keeps (loads : Str → Option Val) (named : Bool) (arguments : Str) : List ToolCall → Prop
  | [] => True
  | c :: cs =>
    if c.fragment = [] then keeps loads (named || c.named) arguments cs
    else (named || c.named) = true ∧ (arguments ≠ [] → loads arguments = none) ∧
      keeps loads (named || c.named) (arguments ++ c.fragment) cs

/-- For each call that is given a name, none of its fragments comes before the name, after its arguments have become
complete, or after an exception. -/
def Kept (settings : Settings) (source : Source) : Prop :=
  ∀ call,
    let pieces := piecesOf call (assign (received (documents settings source))).past
    let read := piecesOf call (assign (handled settings.round (documents settings source))).past
    (∃ c ∈ pieces, c.named = true) → keeps settings.loads false [] read ∧ arguments (pieces.drop read.length) = []

/-! ## One call -/

/-- What the converter knows of a call. -/
structure Entry where
  named : Bool
  started : Bool
  arguments : Str
  stopped : Bool
  sent : Str

def Entry.initial : Entry := ⟨false, false, [], false, []⟩

def Entry.name (e : Entry) (named : Bool) : Entry := { e with named := e.named || named }

def Entry.start (e : Entry) : Entry := { e with started := e.started || e.named }

def Entry.addFragment (loads : Str → Option Val) (e : Entry) (fragment : Str) : Entry :=
  if e.started && !e.stopped then
    { e with
      arguments := e.arguments ++ fragment, stopped := (loads (e.arguments ++ fragment)).isSome
      sent := e.sent ++ fragment }
  else { e with arguments := e.arguments ++ fragment }

section
variable (loads : Str → Option Val)

def Entry.add (e : Entry) (c : ToolCall) : Entry :=
  let e := (e.name c.named).start
  if c.fragment = [] then e else e.addFragment loads c.fragment

def Entry.after (pieces : List ToolCall) : Entry := pieces.foldl (Entry.add loads) .initial

variable {loads}

theorem Entry.name_name (e : Entry) (named : Bool) : (e.name named).name named = e.name named := by
  simp [Entry.name]

theorem Entry.arguments_add (e : Entry) (c : ToolCall) : (e.add loads c).arguments = e.arguments ++ c.fragment := by
  unfold Entry.add
  by_cases hfragment : c.fragment = []
  · rw [if_pos hfragment, hfragment, List.append_nil]
    rfl
  · rw [if_neg hfragment, Entry.addFragment]
    split <;> rfl

theorem Entry.arguments_foldl (e : Entry) (cs : List ToolCall) :
    (cs.foldl (Entry.add loads) e).arguments = e.arguments ++ Anthropic.arguments cs := by
  induction cs generalizing e with
  | nil => exact (List.append_nil _).symm
  | cons c cs ih =>
    rw [List.foldl_cons, ih, Entry.arguments_add, List.append_assoc]
    rfl

/-- A call that has a name is started. -/
theorem Entry.started_foldl (e : Entry) (h : e.started = e.named) (cs : List ToolCall) :
    (cs.foldl (Entry.add loads) e).started = (cs.foldl (Entry.add loads) e).named := by
  induction cs generalizing e with
  | nil => exact h
  | cons c cs ih =>
    apply ih
    have hstart : (e.name c.named).start.started = (e.name c.named).start.named := by
      show (e.started || (e.named || c.named)) = (e.named || c.named)
      rw [h, ← Bool.or_assoc, Bool.or_self]
    unfold Entry.add
    dsimp only
    split
    · exact hstart
    · unfold Entry.addFragment
      split <;> exact hstart

/-- What was not sent is never sent later. -/
theorem Entry.lost_add (e : Entry) (h : e.sent.length < e.arguments.length) (c : ToolCall) :
    (e.add loads c).sent.length < (e.add loads c).arguments.length := by
  unfold Entry.add
  by_cases hfragment : c.fragment = []
  · rw [if_pos hfragment]
    exact h
  · rw [if_neg hfragment, Entry.addFragment]
    split
    · show (e.sent ++ c.fragment).length < (e.arguments ++ c.fragment).length
      rw [List.length_append, List.length_append]
      exact Nat.add_lt_add_right h _
    · show e.sent.length < (e.arguments ++ c.fragment).length
      rw [List.length_append]
      exact Nat.lt_add_right _ h

theorem Entry.lost_foldl (e : Entry) (h : e.sent.length < e.arguments.length) (cs : List ToolCall) :
    (cs.foldl (Entry.add loads) e).sent.length < (cs.foldl (Entry.add loads) e).arguments.length := by
  induction cs generalizing e with
  | nil => exact h
  | cons c cs ih => exact ih (e.add loads c) (e.lost_add h c)

/-- So far everything was sent, and the block is stopped if the arguments are complete. -/
structure Entry.Complete (loads : Str → Option Val) (e : Entry) : Prop where
  sent : e.sent = e.arguments
  started : e.started = e.named
  stopped : e.stopped = (decide (e.arguments ≠ []) && (loads e.arguments).isSome)

theorem Entry.sent_le (e : Entry) (h : e.sent.length ≤ e.arguments.length) (cs : List ToolCall) :
    (cs.foldl (Entry.add loads) e).sent.length ≤ (cs.foldl (Entry.add loads) e).arguments.length := by
  induction cs generalizing e with
  | nil => exact h
  | cons c cs ih =>
    apply ih
    unfold Entry.add
    by_cases hfragment : c.fragment = []
    · rw [if_pos hfragment]
      exact h
    · rw [if_neg hfragment, Entry.addFragment]
      split
      · show (e.sent ++ c.fragment).length ≤ (e.arguments ++ c.fragment).length
        rw [List.length_append, List.length_append]
        exact Nat.add_le_add_right h _
      · show e.sent.length ≤ (e.arguments ++ c.fragment).length
        rw [List.length_append]
        exact Nat.le_add_right_of_le h

/-- **What is sent are the arguments exactly if the fragments come at the right time.** -/
theorem Entry.Complete.sent_iff {e : Entry} (h : e.Complete loads) (cs : List ToolCall) :
    (cs.foldl (Entry.add loads) e).sent = (cs.foldl (Entry.add loads) e).arguments ↔ keeps loads e.named e.arguments cs := by
  induction cs generalizing e with
  | nil => exact iff_of_true h.sent trivial
  | cons c cs ih =>
    have hstart : (e.name c.named).start.started = (e.named || c.named) := by
      show (e.started || (e.named || c.named)) = (e.named || c.named)
      rw [h.started, ← Bool.or_assoc, Bool.or_self]
    rw [List.foldl_cons, keeps]
    by_cases hfragment : c.fragment = []
    · have hadd : e.add loads c = (e.name c.named).start := if_pos hfragment
      rw [if_pos hfragment, hadd]
      exact ih ⟨h.sent, hstart, h.stopped⟩
    · have hadd : e.add loads c = (e.name c.named).start.addFragment loads c.fragment := if_neg hfragment
      rw [if_neg hfragment, hadd, Entry.addFragment]
      by_cases hsends : ((e.name c.named).start.started && !(e.name c.named).start.stopped) = true
      · -- the fragment is sent
        rw [if_pos hsends]
        rw [Bool.and_eq_true, Bool.not_eq_true', hstart] at hsends
        have hnot : e.arguments ≠ [] → loads e.arguments = none := by
          intro hne
          have hstopped : e.stopped = false := hsends.2
          rw [h.stopped, decide_eq_true hne, Bool.true_and, Option.isSome_eq_false_iff,
            Option.isNone_iff_eq_none] at hstopped
          exact hstopped
        have hne : e.arguments ++ c.fragment ≠ [] := by
          intro heq
          exact hfragment (List.append_eq_nil_iff.mp heq).2
        have hnext : Entry.Complete loads { (e.name c.named).start with
            arguments := e.arguments ++ c.fragment, stopped := (loads (e.arguments ++ c.fragment)).isSome
            sent := e.sent ++ c.fragment } := by
          refine ⟨congrArg (· ++ c.fragment) h.sent, hstart, ?_⟩
          show (loads (e.arguments ++ c.fragment)).isSome = (decide (e.arguments ++ c.fragment ≠ []) && _)
          rw [decide_eq_true hne, Bool.true_and]
        apply (ih hnext).trans
        exact ⟨fun hkeeps => ⟨hsends.1, hnot, hkeeps⟩, fun hkeeps => hkeeps.2.2⟩
      · -- it is lost
        rw [if_neg hsends]
        apply iff_of_false
        · intro heq
          refine Nat.ne_of_lt (Entry.lost_foldl _ ?_ cs) (congrArg List.length heq)
          show e.sent.length < (e.arguments ++ c.fragment).length
          rw [h.sent, List.length_append]
          exact Nat.lt_add_of_pos_right (List.length_pos_iff.mpr hfragment)
        · rintro ⟨hnamed, hnot, -⟩
          apply hsends
          rw [hstart, hnamed, Bool.true_and, Bool.not_eq_true']
          show e.stopped = false
          rw [h.stopped]
          by_cases hne : e.arguments = []
          · rw [hne]
            rfl
          · rw [hnot hne]
            exact Bool.and_false _

/-- The same for the deltas that were read and those after the exception. -/
theorem sent_eq_iff (read unread : List ToolCall) :
    (Entry.after loads read).sent = arguments (read ++ unread) ↔ keeps loads false [] read ∧ arguments unread = [] := by
  have hcomplete : Entry.initial.Complete loads := ⟨rfl, rfl, rfl⟩
  have harguments : (Entry.after loads read).arguments = arguments read := Entry.arguments_foldl Entry.initial read
  have hle : (Entry.after loads read).sent.length ≤ (arguments read).length :=
    harguments ▸ Entry.sent_le Entry.initial (Nat.le_refl _) read
  have hiff := hcomplete.sent_iff read
  have happend : arguments (read ++ unread) = arguments read ++ arguments unread := List.flatMap_append
  rw [happend]
  constructor
  · intro heq
    have hunread : arguments unread = [] := by
      apply List.eq_nil_of_length_eq_zero
      rw [heq, List.length_append] at hle
      omega
    rw [hunread, List.append_nil, ← harguments] at heq
    exact ⟨hiff.mp heq, hunread⟩
  · rintro ⟨hkeeps, hunread⟩
    rw [hunread, List.append_nil, ← harguments]
    exact hiff.mpr hkeeps

end

end Anthropic
end MaterialOpenWebui
