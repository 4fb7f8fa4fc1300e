import MqBridge.Consumer
import MqBridge.Json.Value
import MqBridge.Machine.Outcome
import MqBridge.Machine.Rewind
import MqBridge.Machine.Run

/-! Reading a listing page by page over HTTP. The position is a count of documents, or
what a page names as the next one. It moves ahead with each page and back when a
document is refused; a page that is requested meanwhile is requested again. -/
namespace MqBridge.HttpBulk

open List Option Machine

open Json (Value)

inductive Position where
  | cursor (value : Value)
  | ended

def Position.same : Position → Position → Bool
  | .cursor a, .cursor b => a.same b
  | .ended, .ended => true
  | _, _ => false

inductive CursorSource where
  | count
  | response (pointer : String) (endWhenMissing : Bool)
  | nextUrl

/-- What a consumer reads, and how a document becomes a payload. -/
structure Config where
  source : CursorSource
  items : String
  checkpoint : Bool
  payloadOf : Value → Except ConsumerError (List UInt8)

structure Answer where
  /-- The documents, if they are an array. -/
  items : Option (List Value)
  /-- What the response names as the next position. -/
  next : Option Value
  /-- The URL of the next page, where the cursor follows URLs. -/
  nextUrl : Option Position

def asU64 : Value → Option Nat
  | .number (.posInt value) => some value.toNat
  | _ => none

/-- Positions for a page whose end is `next`. An empty page may still move on. -/
def afterPage (items : List Value) (next : Position) : List (Option Position) :=
  match items with
  | [] => [some next]
  | _ :: rest => List.replicate rest.length none ++ [some next]

def responseNext (pointer : String) (endWhenMissing : Bool) :
    Option Value → Except ConsumerError Position
  | some .null => .ok .ended
  | some (.string text) => if text = "" then .ok .ended else .ok (.cursor (.string text))
  | some value => .ok (.cursor value)
  | none =>
    if endWhenMissing then .ok .ended
    else .error (.permanent
      ("http_bulk read.cursor.response '" ++ pointer ++ "' is missing in the response; " ++
      "set read.cursor.end_when_missing if the API leaves it out on the last page"))

/-- The position after each document of a page; none where a page cannot be split. -/
def positions (source : CursorSource) (answer : Answer) (items : List Value) (cursor : Value) :
    Except ConsumerError (List (Option Position)) :=
  match source with
  | .nextUrl => .ok (afterPage items (answer.nextUrl.getD .ended))
  | .count =>
    .ok ((List.range' 1 items.length).map fun n =>
      some (.cursor (.number (.posInt (UInt64.ofNat ((asU64 cursor).getD 0 + n))))))
  | .response pointer endWhenMissing =>
    (responseNext pointer endWhenMissing answer.next).map (afterPage items)

def payloadsOf (config : Config) : List Value → Except ConsumerError (List (List UInt8))
  | [] => .ok []
  | item :: rest =>
    match config.payloadOf item with
    | .error error => .error error
    | .ok payload => (payloadsOf config rest).map (payload :: ·)

/-- The shared position and the batches. The epoch counts how often a nack has moved the
position back. -/
structure Consumer extends Rewind.Reader Position where
  /-- Pages handed out and not yet committed. -/
  outstanding : Nat
  /-- `receive_batch` is running. -/
  call : Bool
  saves : List Position
  received : List (Except ConsumerError (List (List UInt8)))

namespace Consumer

def new (position : Position) : Consumer := ⟨⟨position, 0, none, [], []⟩, 0, false, [], []⟩

def finish (s : Consumer) (result : Except ConsumerError (List (List UInt8))) : Consumer :=
  { s with request := none, call := false, received := s.received ++ [result] }

def save (config : Config) (s : Consumer) (position : Position) : Consumer :=
  { s with saves := if config.checkpoint then s.saves ++ [position] else s.saves }

def receiveBatch (s : Consumer) (maxMessages : Nat) : Option Consumer :=
  if s.call then none
  else if maxMessages = 0 then some (s.finish (.ok []))
  else some { s with call := true }

/-- The position is read and the page requested; at the end there is no page. -/
def sendRequest (s : Consumer) : Option Consumer :=
  if s.call ∧ s.request.isNone then
    match s.position with
    | .ended => some (s.finish (.ok []))
    | .cursor _ => some { s with request := some (s.position, s.epoch) }
  else none

def skip (config : Config) (s : Consumer) (before : Position) (epoch : Nat)
    (found : List (Option Position)) : Consumer :=
  match found.getLast?.join.filter fun next => !next.same before with
  | none => s
  | some next =>
    let moved := if s.epoch = epoch then { s with position := next } else s
    -- Saved past a page that is still out, a restart would skip it.
    if s.epoch = epoch ∧ s.outstanding = 0 then moved.save config next else moved

/-- The answer to the page's request arrives. `offset` counts the documents before
a position. -/
def answer (config : Config) (offset : Position → Nat) (s : Consumer) (reply : Answer) :
    Option Consumer :=
  match s.request with
  | some (.cursor cursor, epoch) =>
    match reply.items with
    | none =>
      some (s.finish (.error (.permanent
        ("http_bulk read.items '" ++ config.items ++ "' is not an array in the response"))))
    | some items =>
      match positions config.source reply items cursor with
      | .error error => some (s.finish (.error error))
      | .ok found =>
        if items = [] then some ((s.skip config (.cursor cursor) epoch found).finish (.ok []))
        else
          match payloadsOf config items with
          | .error error => some (s.finish (.error error))
          | .ok payloads =>
            if s.epoch ≠ epoch then some { s with request := none }
            else
              let reader := s.handOut (offset (.cursor cursor)) (.cursor cursor) found
              some ({ s with toReader := reader, outstanding := s.outstanding + 1 }.finish
                (.ok payloads))
  | _ => none

def isAck : MessageDisposition → Bool
  | .ack | .reply _ => true
  | .nack => false

def commit (config : Config) (s : Consumer) (dispositions : Dispositions) : Option Consumer :=
  match s.batches with
  | [] => none
  | batch :: rest =>
    if dispositions.length ≠ batch.positions.length then none
    else
      let answers := dispositions.map isAck
      let settled := { s with toReader := s.toReader.commit batch rest answers, outstanding :=
        s.outstanding - 1 }
      if s.epoch ≠ batch.epoch then some settled
      else some ((batch.reached (Rewind.leading answers)).elim settled (settled.save config))

def drop (s : Consumer) : Option Consumer :=
  match s.batches with
  | [] => none
  | batch :: rest =>
    some { s with toReader := s.toReader.drop batch rest, outstanding := s.outstanding - 1 }

end Consumer

inductive Action where
  | receive (maxMessages : Nat)
  | request
  | answer (reply : Answer)
  /-- The page cannot be read, or the call of `receive_batch` is given up. -/
  | fail (error : ConsumerError)
  | cancel
  | commit (dispositions : Dispositions)
  | drop

def step (config : Config) (offset : Position → Nat) (s : Consumer) : Action → Option Consumer
  | .receive maxMessages => s.receiveBatch maxMessages
  | .request => s.sendRequest
  | .answer reply => s.answer config offset reply
  | .fail error => some (s.finish (.error error))
  | .cancel => some { s with request := none, call := false }
  | .commit dispositions => s.commit config dispositions
  | .drop => s.drop

/-- What the server holds: a list of documents that is read by a count, or a chain of
pages, each under its cursor. -/
inductive Server where
  | list (documents : List Value)
  | chain (pages : List (Value × List Value))

def positionAt : List (Value × List Value) → Position
  | [] => .ended
  | page :: _ => .cursor page.1

def nextOf (source : CursorSource) (reply : Answer) : Except ConsumerError Position :=
  match source with
  | .nextUrl => .ok (reply.nextUrl.getD .ended)
  | .response pointer endWhenMissing => responseNext pointer endWhenMissing reply.next
  | .count => .ok .ended

/-- The server answers a cursor like this. A list is empty only after its last
document; a page of a chain names the one that follows. -/
def Server.Answers (server : Server) (source : CursorSource) (cursor : Value) (reply : Answer) :
    Prop :=
  match server with
  | .list documents =>
    source = .count ∧ ∃ n items, asU64 cursor = some n ∧ reply.items = some items ∧
      items <+: documents.drop n ∧ (items = [] → documents.drop n = [])
  | .chain pages =>
    source ≠ .count ∧ ∃ earlier items rest, pages = earlier ++ (cursor, items) :: rest ∧
      reply.items = some items ∧ nextOf source reply = .ok (positionAt rest)

open Classical in
noncomputable def Server.offset : Server → Position → Nat
  | .list _, .cursor value => (asU64 value).getD 0
  | .list documents, .ended => documents.length
  | .chain pages, .cursor value =>
    ((pages.takeWhile fun page => decide (page.1 ≠ value)).flatMap Prod.snd).length
  | .chain pages, .ended => (pages.flatMap Prod.snd).length

/-- The documents are counted in 64 bits, and no two pages have one cursor. -/
def Server.Fits : Server → Prop
  | .list documents => documents.length < 2 ^ 64
  | .chain pages => (pages.map Prod.fst).Nodup

def Served (server : Server) (config : Config) (s : Consumer) : Action → Prop
  | .answer reply =>
    ∀ cursor epoch, s.request = some (.cursor cursor, epoch) →
      server.Answers config.source cursor reply
  | _ => True

section Offsets

variable {server : Server} {source : CursorSource} {cursor : Value} {reply : Answer}
    {items : List Value}
  {found : List (Option Position)}

theorem offset_positionAt {earlier rest : List (Value × List Value)}
    (hFits : ((earlier ++ rest).map Prod.fst).Nodup) :
    (Server.chain (earlier ++ rest)).offset (positionAt rest) =
      (earlier.flatMap Prod.snd).length := by
  cases rest with
  | nil => rw [positionAt, Server.offset, append_nil]
  | cons page rest =>
    rw [map_append, nodup_append] at hFits
    rw [positionAt, Server.offset, takeWhile_append_of_pos, takeWhile_cons_of_neg (by simp),
      append_nil]
    intro other hMem
    have hOther := hFits.2.2 _ (mem_map_of_mem hMem) _ mem_cons_self
    simpa using hOther

/-- The position at the end of a page of a chain, and no other one inside it. -/
theorem afterPage_some {next : Position} {i : Nat} {p : Position}
    (hFound : (afterPage items next)[i]? = some (some p)) :
    p = next ∧ (items ≠ [] → i + 1 = items.length) := by
  cases items with
  | nil =>
    cases i with
    | zero =>
      cases hFound
      exact ⟨rfl, absurd rfl⟩
    | succ i => cases hFound
  | cons item rest =>
    rw [afterPage] at hFound
    rcases lt_trichotomy i rest.length with hLess | rfl | hMore
    · rw [getElem?_append_left (by simpa using hLess), getElem?_replicate_of_lt hLess] at hFound
      cases hFound
    · rw [getElem?_append_right (by simp)] at hFound
      simp only [length_replicate, Nat.sub_self, getElem?_cons_zero, some.injEq] at hFound
      exact ⟨hFound.symm, fun _ => rfl⟩
    · rw [getElem?_eq_none (by simp; omega)] at hFound
      cases hFound

/-- The positions of a page count the documents of the page up to each one. -/
theorem positions_offset (hFits : server.Fits) (hAnswers : server.Answers source cursor reply)
    (hItems : reply.items = some items) (hFound : positions source reply items cursor = .ok found)
    {i : Nat} {p : Position} (hPos : found[i]? = some (some p)) :
    server.offset p = server.offset (.cursor cursor) + if items = [] then 0 else i + 1 := by
  cases server with
  | list documents =>
    obtain ⟨rfl, n, given, hCursor, hGiven, hPre, -⟩ := hAnswers
    obtain rfl : given = items := some.inj (hGiven.symm.trans hItems)
    cases hFound
    rw [getElem?_map, map_eq_some_iff] at hPos
    obtain ⟨count, hCount, hPos⟩ := hPos
    cases hPos
    have hLt : i < given.length := by
      have hLt := (List.getElem?_eq_some_iff.mp hCount).1
      rwa [length_range'] at hLt
    have hSome : given ≠ [] := ne_nil_of_length_pos (Nat.zero_lt_of_lt hLt)
    have hBound := hPre.length_le
    rw [length_drop] at hBound
    rw [getElem?_range' hLt] at hCount
    cases hCount
    have hSize : documents.length < 2 ^ 64 := hFits
    rw [Server.offset, Server.offset, if_neg hSome, hCursor, asU64, getD_some, getD_some,
      UInt64.toNat_ofNat', Nat.mod_eq_of_lt]
    · omega
    · omega
  | chain pages =>
    obtain ⟨hSrc, earlier, given, rest, rfl, hGiven, hNext⟩ := hAnswers
    obtain rfl : given = items := some.inj (hGiven.symm.trans hItems)
    have hPage : found = afterPage given (positionAt rest) := by
      cases source with
      | count => exact absurd rfl hSrc
      | nextUrl =>
        rw [← Except.ok.inj hNext]
        exact (Except.ok.inj hFound).symm
      | response pointer endWhenMissing =>
        rw [nextOf] at hNext
        rw [positions, hNext] at hFound
        cases hFound
        rfl
    subst hPage
    obtain ⟨rfl, hLast⟩ := afterPage_some hPos
    have hBefore := offset_positionAt hFits
    rw [positionAt] at hBefore
    rw [append_cons] at hFits
    rw [hBefore, append_cons, offset_positionAt hFits]
    split_ifs with hNone
    · simp [hNone]
    · rw [hLast hNone]
      simp

/-- The last document of a page has a position after it. -/
theorem positions_last (hFound : positions source reply items cursor = .ok found)
    (hSome : items ≠ []) : found.getLast?.join.isSome := by
  have hAfter (next : Position) : (afterPage items next).getLast?.join.isSome := by
    cases items with
    | nil => exact absurd rfl hSome
    | cons item rest => simp [afterPage]
  cases source with
  | count =>
    cases hFound
    obtain ⟨count, hCount⟩ := Nat.exists_eq_succ_of_ne_zero (length_pos_of_ne_nil hSome).ne'
    rw [hCount, range'_1_concat]
    simp
  | nextUrl =>
    cases hFound
    exact hAfter _
  | response pointer endWhenMissing =>
    obtain ⟨next, -, rfl⟩ := Outcome.map_eq_ok.mp hFound
    exact hAfter next

end Offsets

namespace Consumer

variable {config : Config} {offset : Position → Nat} {first : Nat} {s t : Consumer}

/-- A batch knows where its documents are. -/
def Holds (offset : Position → Nat) (batch : Rewind.Batch Position) : Prop :=
  ∀ i p, batch.positions[i]? = some (some p) → offset p = batch.first + (i + 1)

/-- What is saved is done with. -/
structure Sound (offset : Position → Nat) (first : Nat) (s : Consumer) : Prop where
  reader : ∃ base, Rewind.Sound offset (Holds offset) first base s.toReader ∧
    ∀ p ∈ s.saves, offset p ≤ base
  counted : s.outstanding = s.batches.length

namespace Sound

theorem new (position : Position) : Sound offset (offset position) (Consumer.new position) :=
  ⟨⟨_, Rewind.Sound.new _, nofun⟩, rfl⟩

section

variable (hSound : Sound offset first s)

include hSound

theorem leave (call : Bool) (received : List (Except ConsumerError (List (List UInt8)))) :
    Sound offset first { s with request := none, call := call, received := received } := by
  obtain ⟨base, hReader, hSaves⟩ := hSound.reader
  exact { hSound with reader := ⟨base, hReader.leave, hSaves⟩ }

theorem sendRequest (hStep : s.sendRequest = some t) : Sound offset first t := by
  obtain ⟨-, hStep⟩ := ite_none_right_eq_some.mp hStep
  split at hStep
  · cases hStep
    exact hSound.leave _ _
  · cases hStep
    obtain ⟨base, hReader, hSaves⟩ := hSound.reader
    exact { hSound with reader := ⟨base, hReader.ask, hSaves⟩ }

/-- A save of a position up to which everything is done with. -/
theorem save (config : Config) {base : Nat} {p : Position}
    (hReader : Rewind.Sound offset (Holds offset) first base s.toReader)
    (hSaves : ∀ q ∈ s.saves, offset q ≤ base)
    (hSave : offset p ≤ base) : Sound offset first (s.save config p) := by
  refine { hSound with reader := ⟨base, hReader, ?_⟩ }
  rw [Consumer.save]
  split_ifs
  · exact forall_mem_append.mpr ⟨hSaves, forall_mem_singleton.mpr hSave⟩
  · exact hSaves

variable {found : List (Option Position)}

/-- An empty page moves the position, and no document lies between. -/
theorem skip {before : Position} {epoch : Nat} (hPage : epoch = s.epoch → before = s.position)
    (hFound : ∀ p, found.getLast?.join = some p → offset p = offset before)
    (result : Except ConsumerError (List (List UInt8))) :
    Sound offset first ((s.skip config before epoch found).finish result) := by
  rw [Consumer.skip]
  split
  · exact hSound.leave _ _
  rename_i next hNext
  have hSame : offset next = offset before := hFound next (eq_some_of_filter_eq_some hNext)
  by_cases hCur : s.epoch = epoch
  · obtain ⟨base, hReader, hSaves⟩ := hSound.reader
    have hNext := hReader.advance (hSame.trans (congrArg offset (hPage hCur.symm)))
    have hMoved : Sound offset first { s with position := next, request := none } :=
      { hSound with reader := ⟨base, hNext, hSaves⟩ }
    split_ifs with hSettled
    · have hNone : s.batches = [] := eq_nil_of_length_eq_zero (hSound.counted ▸ hSettled.2)
      exact (hMoved.save config hNext hSaves (hNext.base_eq hNone).ge).leave _ _
    · exact hMoved.leave _ _
  · rw [if_neg hCur, if_neg fun hSettled => hCur hSettled.1]
    exact hSound.leave _ _

theorem handOut (hLast : found.getLast?.join.isSome)
    (hFound : ∀ i p, found[i]? = some (some p) → offset p = offset s.position + (i + 1)) :
    Sound offset first { s with
      toReader := s.handOut (offset s.position) s.position found, outstanding :=
        s.outstanding + 1 } := by
  obtain ⟨base, hReader, hSaves⟩ := hSound.reader
  obtain ⟨last, hLast⟩ := isSome_iff_exists.mp hLast
  have hStop : offset last = offset s.position + found.length := by
    obtain ⟨kept, hKept, hGet⟩ := Rewind.Batch.getElem?_of_reached (le_refl _)
      ((Rewind.Batch.reached_length ⟨0, found, s.position, 0⟩).trans hLast)
    rw [hKept]
    exact hFound kept last hGet
  refine ⟨⟨base, hReader.handOut hLast hStop hFound, hSaves⟩, ?_⟩
  rw [Rewind.Reader.handOut, length_append, hSound.counted]
  rfl

end

theorem answer {server : Server} (hFits : server.Fits) (hSound : Sound server.offset first s)
    {reply : Answer}
    (hServed : Served server config s (.answer reply))
    (hStep : s.answer config server.offset reply = some t) : Sound server.offset first t := by
  rw [Consumer.answer] at hStep
  split at hStep
  · rename_i cursor epoch hRequest
    have hAnswers := hServed _ _ hRequest
    obtain ⟨base, hReader, -⟩ := hSound.reader
    have hPage := (hReader.request _ hRequest).2
    split at hStep
    · cases hStep
      exact hSound.leave _ _
    rename_i items hItems
    split at hStep
    · cases hStep
      exact hSound.leave _ _
    rename_i found hFound
    have hOffset {i : Nat} {p : Position} (hPos : found[i]? = some (some p)) :=
      positions_offset hFits hAnswers hItems hFound hPos
    split at hStep
    · rename_i hNone
      cases hStep
      apply hSound.skip hPage
      intro p hLast
      rw [join_eq_some_iff, getLast?_eq_getElem?] at hLast
      rw [hOffset hLast, if_pos hNone]
      rfl
    rename_i hSome
    split at hStep
    · cases hStep
      exact hSound.leave _ _
    split at hStep
    · cases hStep
      exact hSound.leave _ _
    · rename_i hCur
      cases hStep
      have hPos := hPage (not_not.mp hCur).symm
      have hHanded := hSound.handOut (positions_last hFound hSome) fun i p hAt => by
        rw [← hPos, hOffset hAt, if_neg hSome]
      rw [← hPos] at hHanded
      exact hHanded.leave _ _
  · cases hStep

theorem commit (hSound : Sound offset first s) {dispositions : Dispositions}
    (hStep : s.commit config dispositions = some t) : Sound offset first t := by
  rw [Consumer.commit] at hStep
  split at hStep
  · cases hStep
  rename_i batch rest hHead
  split at hStep
  · cases hStep
  rename_i hLen
  have hAnswers : (dispositions.map isAck).length = batch.positions.length := by
    rw [length_map]
    exact not_not.mp hLen
  have hLeading := hAnswers ▸ Rewind.leading_le (dispositions.map isAck)
  obtain ⟨base, hReader, hSaves⟩ := hSound.reader
  obtain ⟨higher, hBase, hNext, hBoundary⟩ := hReader.commit hHead hAnswers fun p hReached => by
    obtain ⟨kept, hKept, hGet⟩ := Rewind.Batch.getElem?_of_reached hLeading hReached
    rw [hKept]
    exact (hReader.before batch (hHead ▸ mem_cons_self)).2 kept p hGet
  have hKept : ∀ p ∈ s.saves, offset p ≤ higher := fun p hMem => (hSaves p hMem).trans hBase
  have hSettled : Sound offset first
      { s with toReader := s.toReader.commit batch rest (dispositions.map isAck), outstanding :=
        s.outstanding - 1 } := by
    have hRest : (s.toReader.commit batch rest (dispositions.map isAck)).batches = rest := by
      rw [Rewind.Reader.commit]
      split_ifs <;> rfl
    refine ⟨⟨higher, hNext, hKept⟩, ?_⟩
    rw [hRest, hSound.counted, hHead]
    rfl
  split at hStep
  · cases hStep
    exact hSettled
  rename_i hEpoch
  cases hStep
  have hBoundary := hBoundary (not_not.mp hEpoch)
  rw [Rewind.Batch.boundary] at hBoundary
  cases hReached : batch.reached (Rewind.leading (dispositions.map isAck)) with
  | none => exact hSettled
  | some p =>
    rw [hReached] at hBoundary
    exact hSettled.save config hNext hKept hBoundary

theorem drop (hSound : Sound offset first s) (hStep : s.drop = some t) : Sound offset first t := by
  rw [Consumer.drop] at hStep
  split at hStep
  · cases hStep
  rename_i batch rest hHead
  cases hStep
  obtain ⟨base, hReader, hSaves⟩ := hSound.reader
  have hRest : (s.toReader.drop batch rest).batches = rest := by
    rw [Rewind.Reader.drop]
    split_ifs <;> rfl
  refine ⟨⟨base, hReader.drop hHead, hSaves⟩, ?_⟩
  rw [hRest, hSound.counted, hHead]
  rfl

theorem step {server : Server} (hFits : server.Fits) (hSound : Sound server.offset first s)
    {action : Action}
    (hServed : Served server config s action)
    (hStep : HttpBulk.step config server.offset s action = some t) :
    Sound server.offset first t := by
  cases action with
  | receive maxMessages =>
    rw [HttpBulk.step, receiveBatch] at hStep
    split_ifs at hStep
    · cases hStep
      exact hSound.leave _ _
    · cases hStep
      exact { hSound with }
  | request => exact hSound.sendRequest hStep
  | answer reply => exact hSound.answer hFits hServed hStep
  | fail | cancel =>
    cases hStep
    exact hSound.leave _ _
  | commit dispositions => exact hSound.commit hStep
  | drop => exact hSound.drop hStep

end Sound

/-- A saved position passes only acknowledged documents, of those from the start of
the run on. A document that was refused and not acknowledged since is after the
position, or in a batch that is out and was read since the position last moved back. -/
theorem never_saves_past_unacknowledged {server : Server} (hFits : server.Fits) {start : Position}
    {actions : List Action}
    (hServed : Machine.Guarded (step config server.offset) (Served server config)
      (Consumer.new start) actions)
    (hRun : run (step config server.offset) (Consumer.new start) actions = some s) :
    (∀ p ∈ s.saves, ∀ i, server.offset start ≤ i → i < server.offset p →
      Rewind.Acknowledged s.history i) ∧
      ∀ i, Rewind.Refused s.history i → server.offset s.position ≤ i ∨
        ∃ batch ∈ s.batches, batch.epoch = s.epoch ∧ batch.first ≤ i ∧ i < batch.stop := by
  have hSound : Sound server.offset (server.offset start) s :=
    invariant_of_guarded (fun _ _ _ hSound hServed hStep => .step hFits hSound hServed hStep)
      (.new start) hServed hRun
  obtain ⟨base, hReader, hSaves⟩ := hSound.reader
  exact ⟨fun p hMem i hStart hLess =>
    hReader.acknowledged i hStart (lt_of_lt_of_le hLess (hSaves p hMem)),
    fun i => hReader.refused_later⟩

def countConfig : Config := ⟨.count, "/items", true, fun _ => .ok []⟩

def countStart : Position := .cursor (.number (.posInt 0))

def twoDocuments : Server := .list [.null, .null]

def onePage : Answer := ⟨some [.null], none, none⟩

def readPage : List Action := [.receive 1, .request, .answer onePage]

theorem served_onePage {cursor : Value} {epoch : Nat}
    (hRequest : s.request = some (.cursor cursor, epoch))
    (hCursor : asU64 cursor = some 0 ∨ asU64 cursor = some 1) :
    Served twoDocuments countConfig s (.answer onePage) := by
  intro other found hOther
  rw [hRequest] at hOther
  cases hOther
  rcases hCursor with hCursor | hCursor
  · exact ⟨rfl, 0, [.null], hCursor, rfl, ⟨[.null], rfl⟩, nofun⟩
  · exact ⟨rfl, 1, [.null], hCursor, rfl, ⟨[], rfl⟩, nofun⟩

/-- A page of two documents, the first of which is acknowledged and the second refused. -/
def halfRefused : List Action :=
  [.receive 2, .request, .answer ⟨some [.null, .null], none, none⟩, .commit [.ack, .nack]]

theorem never_saves_past_unacknowledged_page :
    ∃ s, run (step countConfig twoDocuments.offset) (Consumer.new countStart) halfRefused = some s ∧
      s.saves = [.cursor (.number (.posInt 1))] ∧ Rewind.Acknowledged s.history 0 ∧
      Rewind.Refused s.history 1 ∧ twoDocuments.offset s.position ≤ 1 := by
  refine ⟨_, rfl, rfl, ?_⟩
  have hServed : Machine.Guarded (step countConfig twoDocuments.offset)
      (Served twoDocuments countConfig)
      (Consumer.new countStart) halfRefused := by
    iterate 2
      refine ⟨trivial, ?_⟩
      rintro _ ⟨⟩
    refine ⟨fun other found hOther => ?_, fun _ _ => ⟨trivial, fun _ _ => trivial⟩⟩
    cases hOther
    exact ⟨rfl, 0, [.null, .null], rfl, rfl, ⟨[], rfl⟩, nofun⟩
  have hFits : twoDocuments.Fits := by
    show 2 < 2 ^ 64
    decide
  obtain ⟨hSaves, hRefused⟩ := never_saves_past_unacknowledged hFits hServed rfl
  have hLast : Rewind.Refused [(0, true), (1, false)] 1 := ⟨[(0, true)], [], rfl, nofun⟩
  exact ⟨hSaves _ mem_cons_self 0 (Nat.le_refl _) Nat.one_pos, hLast,
    (hRefused 1 hLast).resolve_right fun ⟨_, hMem, _⟩ => by cases hMem⟩

/-- Two pages are out and the first one is refused. Both are read again, and then the
second of the old pages is refused too: its document was refused last, it is not out
in a batch read after that, and the position is past it. -/
def staleRefused : List Action :=
  readPage ++ readPage ++ [.commit [.nack]] ++ (readPage ++ readPage ++ [.commit [.nack]])

theorem stale_refused_passed :
    Machine.Guarded (step countConfig twoDocuments.offset) (Served twoDocuments countConfig)
      (Consumer.new countStart) staleRefused ∧
      ∃ s, run (step countConfig twoDocuments.offset) (Consumer.new countStart) staleRefused =
        some s ∧ Rewind.Refused s.history 1 ∧ twoDocuments.offset s.position = 2 := by
  constructor
  · iterate 2
      iterate 2
        iterate 2
          refine ⟨trivial, ?_⟩
          rintro _ ⟨⟩
        refine ⟨served_onePage rfl (by first | exact .inl rfl | exact .inr rfl), ?_⟩
        rintro _ ⟨⟩
      refine ⟨trivial, ?_⟩
      rintro _ ⟨⟩
    trivial
  · refine ⟨_, rfl, ⟨[(0, false)], [], rfl, not_mem_nil⟩, rfl⟩

end Consumer

end MqBridge.HttpBulk
