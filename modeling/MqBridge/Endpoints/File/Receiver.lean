import MqBridge.Consumer

/-! What the two line readers of the file consumer have in common: the records
of a file, the channel from the reader's thread and the `receive_batch` that
takes batches from it. An empty batch in the channel is the marker for the end
of the file.

Here a record is what is left of it without its delimiter: nothing, or what is
decoded to a message. Each carries its place among all records the file ever
had, which the program does not see. -/
namespace MqBridge.File

open List

structure Record where
  place : Nat
  message : Option CanonicalMessage
  deriving DecidableEq

structure Entry where
  place : Nat
  message : CanonicalMessage
  deriving DecidableEq

/-- What is made of one record, and whether the column names are unread after
it: the first record that is not blank has them. -/
def parseMessage (unread : Bool) (record : Record) : Option Entry × Bool :=
  match record.message with
  | none => (none, unread)
  | some message => if unread then (none, false) else (some ⟨record.place, message⟩, false)

def entries (unread : Bool) : List Record → List Entry
  | [] => []
  | record :: rest =>
    (parseMessage unread record).1.toList ++ entries (parseMessage unread record).2 rest

def unreadAfter (unread : Bool) : List Record → Bool
  | [] => unread
  | record :: rest => unreadAfter (parseMessage unread record).2 rest

/-- What a pass of a reader comes to see of the file. -/
inductive Sight where
  | openFails
  /-- Everything up to the end. -/
  | whole
  /-- All but a final record that has no delimiter yet. -/
  | heldBack
  /-- All but a final record whose quoted field is not closed, where the file
  is taken to be complete. -/
  | openQuote (reason : String)
  /-- A read error follows after so many records. -/
  | fails (after : Nat)
  deriving DecidableEq

inductive Stop where
  | endOfFile
  | heldBack
  | openQuote (reason : String)
  | error
  deriving DecidableEq

/-- The records behind the first `skip`, and what comes after them. -/
def Sight.records (skip : Nat) (file : List Record) : Sight → Option (List Record × Stop)
  | .openFails => none
  | .whole => some (file.drop skip, .endOfFile)
  | .heldBack =>
    if file.length ≤ skip then some ([], .endOfFile)
    else some (file.dropLast.drop skip, .heldBack)
  | .openQuote reason =>
    if file.length ≤ skip then some ([], .endOfFile)
    else some (file.dropLast.drop skip, .openQuote reason)
  | .fails after => some ((file.take after).drop skip, .error)

inductive Event where
  /-- The reader met the end of the file, with these messages before it. -/
  | reached (rows : List Entry)
  /-- A batch was returned, with this left in the buffer. -/
  | returned (batch buffer : List Entry)
  | committed (batch : List (Entry × MessageDisposition))
  | deleted (record : Record)
  deriving DecidableEq

inductive Answer where
  | batch (messages : List Entry)
  | error (cause : ConsumerError)
  deriving DecidableEq

/-- The receiving side. A call that has to wait for the channel keeps the
largest number of messages it was called for. -/
structure Receiver where
  channel : List (List Entry)
  closed : Bool
  decodeError : Option String
  buffer : List Entry
  pendingEof : Bool
  waiting : Option Nat
  deriving DecidableEq

def Receiver.new : Receiver := ⟨[], false, none, [], false, none⟩

/-- Fills the buffer from the channel. A marker stops it and is remembered. -/
def fill (maxMessages : Nat) :
    List (List Entry) → List Entry → List (List Entry) × List Entry × Bool
  | [], buffer => ([], buffer, false)
  | batch :: rest, buffer =>
    if buffer.length < maxMessages then
      if batch = [] then (rest, buffer, true) else fill maxMessages rest (buffer ++ batch)
    else (batch :: rest, buffer, false)

def Receiver.serve (receiver : Receiver) (maxMessages : Nat) : List Entry × Receiver :=
  let (channel, buffer, marker) := fill maxMessages receiver.channel receiver.buffer
  (buffer.take maxMessages, { receiver with
      channel := channel
      buffer := buffer.drop maxMessages
      pendingEof := marker
      waiting := none })

/-- A call of `receive_batch`. With an empty buffer it waits for the channel
and has no answer yet. -/
def Receiver.call (receiver : Receiver) (maxMessages : Nat) : Option (Option Answer × Receiver) :=
  if receiver.waiting.isSome then none
  else if receiver.pendingEof then some (some (.batch []), { receiver with pendingEof := false })
  else if receiver.buffer = [] then some (none, { receiver with waiting := some maxMessages })
  else
    let (batch, receiver) := receiver.serve maxMessages
    some (some (.batch batch), receiver)

/-- A waiting call goes on when the channel has a batch, or is closed. -/
def Receiver.resume (receiver : Receiver) : Option (Answer × Receiver) :=
  match receiver.waiting, receiver.channel with
  | none, _ => none
  | some maxMessages, batch :: rest =>
    let (batch, receiver) :=
      ({ receiver with channel := rest, buffer := receiver.buffer ++ batch }).serve maxMessages
    some (.batch batch, receiver)
  | some _, [] =>
    if receiver.closed then
      some (.error (receiver.decodeError.elim .endOfStream .permanent),
        { receiver with decodeError := none, waiting := none })
    else none

def Receiver.send (receiver : Receiver) (batch : List Entry) : Receiver :=
  { receiver with channel := receiver.channel ++ [batch] }

inductive Action where
  | append (contents : List (Option CanonicalMessage))
  | pass (sight : Sight)
  | call (maxMessages : Nat)
  | resume
  /-- The oldest batch that is handed out is committed. -/
  | commit (dispositions : Dispositions)
  deriving DecidableEq

def placed (next : Nat) (contents : List (Option CanonicalMessage)) : List Record :=
  contents.mapIdx fun i content => ⟨next + i, content⟩

variable {file records : List Record} {sight : Sight} {skip : Nat}

theorem Sight.records_split {stop : Stop}
    (hRecords : sight.records skip file = some (records, stop)) :
    ∃ hidden, file.drop skip = records ++ hidden := by
  have hCut (n : Nat) : (file.take n).drop skip <+: file.drop skip :=
    IsPrefix.drop ⟨_, take_append_drop n file⟩ skip
  have hLast : file.dropLast.drop skip <+: file.drop skip := dropLast_eq_take ▸ hCut _
  cases sight with
  | openFails => cases hRecords
  | whole =>
    cases hRecords
    exact ⟨[], (append_nil _).symm⟩
  | heldBack | openQuote reason =>
    rw [Sight.records] at hRecords
    split_ifs at hRecords with hAll
    · cases hRecords
      exact ⟨_, rfl⟩
    · cases hRecords
      exact hLast.imp fun _ hEq => hEq.symm
  | fails after =>
    cases hRecords
    exact (hCut after).imp fun _ hEq => hEq.symm

theorem Sight.records_whole
    (hRecords : sight.records skip file = some (records, .endOfFile)) :
    file.drop skip = records := by
  cases sight with
  | openFails | fails => cases hRecords
  | whole =>
    cases hRecords
    rfl
  | heldBack | openQuote reason =>
    rw [Sight.records] at hRecords
    split_ifs at hRecords with hAll
    · cases hRecords
      exact drop_eq_nil_of_le hAll
    · cases hRecords

theorem Sight.stop_ne_error {stop : Stop}
    (hClean : ∀ after, sight ≠ .fails after)
    (hRecords : sight.records skip file = some (records, stop)) : stop ≠ .error := by
  rintro rfl
  cases sight with
  | openFails | whole => cases hRecords
  | heldBack | openQuote reason =>
    rw [Sight.records] at hRecords
    split_ifs at hRecords <;> cases hRecords
  | fails after => exact hClean after rfl

section Entries

theorem entries_append (unread : Bool) (before after : List Record) :
    entries unread (before ++ after) =
      entries unread before ++ entries (unreadAfter unread before) after := by
  induction before generalizing unread with
  | nil => rfl
  | cons record rest ih => rw [cons_append, entries, entries, unreadAfter, ih, append_assoc]

theorem unreadAfter_append (unread : Bool) (before after : List Record) :
    unreadAfter unread (before ++ after) = unreadAfter (unreadAfter unread before) after := by
  induction before generalizing unread with
  | nil => rfl
  | cons record rest ih => rw [cons_append, unreadAfter, unreadAfter, ih]

variable {blanks : List Record}

theorem entries_blanks (hBlanks : ∀ r ∈ blanks, r.message = none) (unread : Bool) :
    entries unread blanks = [] := by
  induction blanks with
  | nil => rfl
  | cons record rest ih =>
    obtain ⟨hRecord, hRest⟩ := forall_mem_cons.mp hBlanks
    simp [entries, parseMessage, hRecord, ih hRest]

theorem unreadAfter_blanks (hBlanks : ∀ r ∈ blanks, r.message = none) (unread : Bool) :
    unreadAfter unread blanks = unread := by
  induction blanks with
  | nil => rfl
  | cons record rest ih =>
    obtain ⟨hRecord, hRest⟩ := forall_mem_cons.mp hBlanks
    simp [unreadAfter, parseMessage, hRecord, ih hRest]

end Entries

section Receiving

variable {receiver after : Receiver} {maxMessages : Nat}

/-- Filling moves batches from the front of the channel to the end of the
buffer. If it stops at a marker, the buffer is still smaller than asked for. -/
theorem fill_spec (maxMessages : Nat) (channel : List (List Entry)) (buffer : List Entry) :
    ∃ front, (fill maxMessages channel buffer).2.1 = buffer ++ front.flatten ∧
      (((fill maxMessages channel buffer).2.2 = false ∧
        channel = front ++ (fill maxMessages channel buffer).1) ∨
        ((fill maxMessages channel buffer).2.2 = true ∧
          channel = front ++ [] :: (fill maxMessages channel buffer).1 ∧
          (buffer ++ front.flatten).length < maxMessages)) := by
  induction channel generalizing buffer with
  | nil => exact ⟨[], by simp [fill]⟩
  | cons batch rest ih =>
    rw [fill]
    split_ifs with hRoom hMarker
    · refine ⟨[], by simp, .inr ⟨rfl, ?_, by simpa using hRoom⟩⟩
      rw [hMarker]
      rfl
    · obtain ⟨front, hBuf, hChan⟩ := ih (buffer ++ batch)
      refine ⟨batch :: front, by simp [hBuf], ?_⟩
      rcases hChan with ⟨hNo, hRest⟩ | ⟨hYes, hRest, hLen⟩
      · exact .inl ⟨hNo, congrArg (batch :: ·) hRest⟩
      · exact .inr ⟨hYes, congrArg (batch :: ·) hRest, by simpa using hLen⟩
    · exact ⟨[], by simp⟩

/-- What is served was in the buffer and in the batches before the next marker.
The marker is only taken together with all that was before it. -/
theorem serve_spec (receiver : Receiver) (maxMessages : Nat) :
    ∃ front, (receiver.serve maxMessages).1 ++ (receiver.serve maxMessages).2.buffer =
        receiver.buffer ++ front.flatten ∧
      (((receiver.serve maxMessages).2.pendingEof = false ∧
          receiver.channel = front ++ (receiver.serve maxMessages).2.channel) ∨
        ((receiver.serve maxMessages).2.pendingEof = true ∧
          receiver.channel = front ++ [] :: (receiver.serve maxMessages).2.channel ∧
          (receiver.serve maxMessages).2.buffer = [])) := by
  obtain ⟨front, hBuf, hChan⟩ := fill_spec maxMessages receiver.channel receiver.buffer
  refine ⟨front, (take_append_drop ..).trans hBuf, hChan.imp_right ?_⟩
  rintro ⟨hMarker, hRest, hLen⟩
  refine ⟨hMarker, hRest, drop_eq_nil_of_le ?_⟩
  rw [hBuf]
  omega

def Answer.messages : Answer → List Entry
  | .batch messages => messages
  | .error _ => []

def Receiver.held (receiver : Receiver) : List Entry := receiver.buffer ++ receiver.channel.flatten

theorem serve_held (receiver : Receiver) (maxMessages : Nat) :
    (receiver.serve maxMessages).1 ++ (receiver.serve maxMessages).2.held = receiver.held := by
  obtain ⟨front, hBuf, hChan⟩ := serve_spec receiver maxMessages
  rw [Receiver.held, Receiver.held, ← append_assoc, hBuf]
  rcases hChan with ⟨-, hRest⟩ | ⟨-, hRest, -⟩
  · simp [hRest]
  · simp [hRest]

theorem call_held {answer : Option Answer}
    (hCall : receiver.call maxMessages = some (answer, after)) :
    (answer.map Answer.messages).getD [] ++ after.held = receiver.held := by
  rw [Receiver.call] at hCall
  split_ifs at hCall with hWait hPend hEmpty
  · cases hCall
    rfl
  · cases hCall
    rfl
  · cases hCall
    exact serve_held receiver maxMessages

theorem resume_held {answer : Answer} (hResume : receiver.resume = some (answer, after)) :
    answer.messages ++ after.held = receiver.held := by
  rw [Receiver.resume] at hResume
  split at hResume
  · cases hResume
  · next maxMessages batch rest hWait hChan =>
      cases hResume
      refine (serve_held _ maxMessages).trans ?_
      simp [Receiver.held, hChan]
  · split_ifs at hResume
    cases hResume
    rfl

end Receiving

end MqBridge.File
