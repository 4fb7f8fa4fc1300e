import MqBridge.Support.Crypto

/-! Encrypted files. Every batch is one member: it is compressed if that is asked
for, sealed, and written behind its length. The reader takes the file apart frame
by frame and serves what it decodes as one stream. -/
namespace MqBridge.File

open List

open Codec

inductive IoErrorKind where
  | unexpectedEof
  | invalidData
  | other
  deriving DecidableEq

structure IoError where
  kind : IoErrorKind
  message : String
  deriving DecidableEq

inductive Compression where
  | none
  | gzip
  | lz4
  | zstd
  deriving DecidableEq

/-- The codecs, for any setting but `none`. What one has compressed it decompresses
to the same bytes. -/
structure Compressor where
  compressMember : Compression → List UInt8 → Except String (List UInt8)
  decompressAll : Compression → List UInt8 → Except IoError (List UInt8)
  inverse : ∀ {algo body member}, algo ≠ .none → compressMember algo body = .ok member →
    decompressAll algo member = .ok body

def compressionMagicName (head : List UInt8) : Option String :=
  if [0x1f, 0x8b].isPrefixOf head then some "gzip"
  else if [0x28, 0xb5, 0x2f, 0xfd].isPrefixOf head then some "zstd"
  else if [0x04, 0x22, 0x4d, 0x18].isPrefixOf head then some "lz4"
  else none

/-- The reader refuses a longer frame, so the sink does not write one. -/
def maxEncryptedFrameBytes : Nat := 2 ^ 30

def frameLength (bytes : List UInt8) : Nat := ofLeBytes bytes.reverse

variable {κ : Type}

/-! ### Writing -/

section Write

variable (compressor : Compressor) (aead : Aead κ) (compression : Compression)

def compressed (body : List UInt8) : Except PublisherError (List UInt8) :=
  if compression = .none then .ok body
  else
    match compressor.compressMember compression body with
    | .ok member => .ok member
    | .error cause => .error (.nonRetryable cause)

def tooLarge (length : Nat) : String :=
  "encrypted batch frame is " ++ toString length ++ " bytes, exceeding the " ++
    toString maxEncryptedFrameBytes ++ " byte cap the consumer can read; reduce batch_size"

/-- A sealed member does not tell where it ends, hence the frame. The nonce counter
moves on with every seal. -/
def encodeMember (crypto : Option (Crypto κ)) (counter : UInt64) (body : List UInt8) :
    Except PublisherError (List UInt8) × UInt64 :=
  match compressed compressor compression body with
  | .error error => (.error error, counter)
  | .ok body =>
    match crypto with
    | none => (.ok body, counter)
    | some crypto =>
      match crypto.seal aead counter body [] with
      | (.error cause, counter) => (.error (.nonRetryable cause), counter)
      | (.ok sealed, counter) =>
        if maxEncryptedFrameBytes < sealed.length then
          (.error (.nonRetryable (tooLarge sealed.length)), counter)
        else (.ok (framed 8 sealed), counter)

end Write

/-! ### Reading -/

/-- How many bytes a read of a file hands out: one at least, while there are any. -/
structure Source where
  give : List UInt8 → Nat → Nat
  give_pos : ∀ {bytes asked}, bytes ≠ [] → 0 < asked → 0 < give bytes asked
  give_le : ∀ bytes asked, give bytes asked ≤ min bytes.length asked

/-- Reads until the buffer has `size` bytes, or the file ends. -/
def Source.fill (source : Source) (size : Nat) :
    Nat → List UInt8 → List UInt8 → List UInt8 × List UInt8
  | 0, filled, inner => (filled, inner)
  | fuel + 1, filled, inner =>
    let n := source.give inner (size - filled.length)
    if n = 0 then (filled, inner) else source.fill size fuel (filled ++ inner.take n) (inner.drop n)

structure EncryptedFramesReader where
  inner : List UInt8
  current : List UInt8
  deriving DecidableEq

def EncryptedFramesReader.new (inner : List UInt8) : EncryptedFramesReader := ⟨inner, []⟩

section Read

variable (compressor : Compressor) (aead : Aead κ) (compression : Compression) (crypto : Crypto κ)
  (source : Source)

def unconfigured (codec : String) : IoError :=
  ⟨.invalidData, "decrypted data begins with a " ++ codec ++
    " magic header but no `compression` is configured; set `compression: " ++ codec ++ "`"⟩

/-- What a frame holds. Decryption succeeds whatever was compressed, so data that
looks compressed is refused if it should not be. -/
def decodeFrame (sealed : List UInt8) : Except IoError (List UInt8) :=
  match crypto.open aead sealed [] with
  | .error cause => .error ⟨.invalidData, cause⟩
  | .ok member =>
    if compression = .none then
      match compressionMagicName member with
      | some codec => .error (unconfigured codec)
      | none => .ok member
    else compressor.decompressAll compression member

def tooLong (length : Nat) : IoError :=
  ⟨.invalidData, "encrypted frame length " ++ toString length ++ " exceeds the " ++
    toString maxEncryptedFrameBytes ++ " byte cap (corrupt file?)"⟩

def EncryptedFramesReader.refill (reader : EncryptedFramesReader) :
    Except IoError Bool × EncryptedFramesReader :=
  let (head, inner) := source.fill 8 8 [] reader.inner
  if head = [] then (.ok false, { reader with inner })
  else if head.length < 8 then
    (.error ⟨.unexpectedEof, "torn encrypted frame length prefix"⟩, { reader with inner })
  else
    let length := frameLength head
    if maxEncryptedFrameBytes < length then (.error (tooLong length), { reader with inner })
    else if inner.length < length then
      (.error ⟨.unexpectedEof, "failed to fill whole buffer"⟩, { reader with inner := [] })
    else
      match decodeFrame compressor aead compression crypto (inner.take length) with
      | .error error => (.error error, { reader with inner := inner.drop length })
      | .ok member => (.ok true, ⟨inner.drop length, member⟩)

/-- Frames that hold nothing are passed over. -/
def EncryptedFramesReader.readLoop (size : Nat) :
    Nat → EncryptedFramesReader → Except IoError (List UInt8) × EncryptedFramesReader
  | 0, reader => (.ok [], reader)
  | fuel + 1, reader =>
    if reader.current.take size ≠ [] ∨ size = 0 then
      (.ok (reader.current.take size), { reader with current := reader.current.drop size })
    else
      match reader.refill compressor aead compression crypto source with
      | (.error error, reader) => (.error error, reader)
      | (.ok false, reader) => (.ok [], reader)
      | (.ok true, reader) => readLoop size fuel reader

/-- `read` with a buffer of `size` bytes. Every frame is longer than nothing. -/
def EncryptedFramesReader.read (reader : EncryptedFramesReader) (size : Nat) :
    Except IoError (List UInt8) × EncryptedFramesReader :=
  reader.readLoop compressor aead compression crypto source size (reader.inner.length + 1)

inductive Ending where
  | eof
  | error (error : IoError)
  deriving DecidableEq

def Ending.result : Ending → Except IoError (List UInt8)
  | .eof => .ok []
  | .error cause => .error cause

/-- What reads with buffers of these sizes return, up to the end of the stream or
an error. -/
def EncryptedFramesReader.reads (reader : EncryptedFramesReader) :
    List Nat → List UInt8 × Option Ending
  | [] => ([], none)
  | size :: sizes =>
    match reader.read compressor aead compression crypto source size with
    | (.error error, _) => ([], some (.error error))
    | (.ok [], _) => ([], some .eof)
    | (.ok bytes, reader) =>
      let (more, ending) := reads reader sizes
      (bytes ++ more, ending)

end Read

/-! ### Reading back -/

theorem frameLength_beBytes {length : Nat} (hLe : length ≤ maxEncryptedFrameBytes) :
    frameLength (beBytes 8 length) = length := by
  have hLt : length < 256 ^ 8 := hLe.trans_lt (by decide)
  rw [frameLength, beBytes, reverse_reverse, ofLeBytes_leBytes, Nat.mod_eq_of_lt hLt]

theorem Source.fill_eq (source : Source) (size : Nat) {fuel : Nat} {filled : List UInt8}
    (inner : List UInt8)
    (hFuel : size - filled.length ≤ fuel) : source.fill size fuel filled inner =
      (filled ++ inner.take (size - filled.length), inner.drop (size - filled.length)) := by
  induction fuel generalizing filled inner with
  | zero =>
    have hNone : size - filled.length = 0 := Nat.le_zero.mp hFuel
    rw [fill, hNone, take_zero, append_nil, drop_zero]
  | succ fuel ih =>
    rw [fill]
    have hLe := source.give_le inner (size - filled.length)
    generalize hN : source.give inner (size - filled.length) = n at hLe
    split_ifs with hZero
    · -- nothing is handed out: nothing is left or nothing is missing
      rcases inner.eq_nil_or_concat with rfl | ⟨_, _, hInner⟩
      · simp
      · have hNone : size - filled.length = 0 := by
          by_contra hMore
          have hPos : 0 < source.give inner (size - filled.length) :=
            source.give_pos (by simp [hInner]) (pos_of_ne_zero hMore)
          omega
        rw [hNone, take_zero, append_nil, drop_zero]
    · have hTaken : (inner.take n).length = n := by
        rw [length_take]
        omega
      have hSum : n + (size - filled.length - n) = size - filled.length := by omega
      rw [ih _ (by rw [length_append]; omega), length_append, hTaken, ← Nat.sub_sub,
        append_assoc, ← take_add, drop_drop, hSum]

theorem Source.fill_head (source : Source) (inner : List UInt8) :
    source.fill 8 8 [] inner = (inner.take 8, inner.drop 8) :=
  source.fill_eq 8 inner le_rfl

section ReadBack

variable {compressor : Compressor} {aead : Aead κ} {compression : Compression} {crypto : Crypto κ}
  {source : Source}

/-- A whole frame is taken off the file, and its member is decoded or refused. -/
theorem refill_framed {sealed : List UInt8} (rest current : List UInt8)
    (hLength : sealed.length ≤ maxEncryptedFrameBytes) :
    EncryptedFramesReader.refill compressor aead compression crypto source
        ⟨framed 8 sealed ++ rest, current⟩ =
      match decodeFrame compressor aead compression crypto sealed with
      | .error error => (.error error, ⟨rest, current⟩)
      | .ok body => (.ok true, ⟨rest, body⟩) := by
  have hFill : source.fill 8 8 [] (framed 8 sealed ++ rest) =
      (beBytes 8 sealed.length, sealed ++ rest) := by
    rw [source.fill_head, framed, append_assoc, take_left' (length_beBytes 8 _),
      drop_left' (length_beBytes 8 _)]
  have hSome : beBytes 8 sealed.length ≠ [] := ne_nil_of_length_eq_add_one (length_beBytes 8 _)
  rw [EncryptedFramesReader.refill, hFill]
  simp only [hSome, if_false, length_beBytes, lt_irrefl, frameLength_beBytes hLength,
    not_lt.mpr hLength, length_append, not_lt.mpr (Nat.le_add_right _ _), take_left, drop_left]

/-- A frame that is cut off anywhere is an error. -/
theorem refill_torn {sealed : List UInt8} {cut : Nat}
    (hLength : sealed.length ≤ maxEncryptedFrameBytes)
    (hSome : 0 < cut) (hCut : cut < (framed 8 sealed).length) : ∃ error, ∀ current, ∃ reader,
      EncryptedFramesReader.refill compressor aead compression crypto source
        ⟨(framed 8 sealed).take cut, current⟩ = (.error error, reader) := by
  rw [framed, length_append, length_beBytes] at hCut
  simp only [EncryptedFramesReader.refill, source.fill_head, take_take, framed]
  rcases lt_or_ge cut 8 with hTorn | hHead
  · have hLen : (take (min 8 cut) (beBytes 8 sealed.length ++ sealed)).length = cut := by
      rw [length_take, length_append, length_beBytes]
      omega
    have hNe : take (min 8 cut) (beBytes 8 sealed.length ++ sealed) ≠ [] :=
      ne_nil_of_length_pos (by omega)
    simp only [hNe, hLen, hTorn]
    exact ⟨_, fun _ => ⟨_, rfl⟩⟩
  · have hShort :
        (drop 8 (take cut (beBytes 8 sealed.length ++ sealed))).length < sealed.length := by
      rw [length_drop, length_take]
      omega
    rw [min_eq_left hHead, take_left' (length_beBytes 8 _)]
    simp only [frameLength_beBytes hLength, not_lt.mpr hLength, hShort]
    exact ⟨_, fun _ => ⟨_, rfl⟩⟩

variable (compressor aead compression crypto source) in
/-- What a file still serves, and how that ends. -/
inductive Serves : List UInt8 → List UInt8 → Ending → Prop
  | eof : Serves [] [] .eof
  | error {inner : List UInt8} {error : IoError}
      (hRefill : ∀ current, ∃ reader,
        EncryptedFramesReader.refill compressor aead compression crypto source ⟨inner, current⟩ =
          (.error error, reader)) : Serves inner [] (.error error)
  | frame {inner rest body bytes : List UInt8} {ending : Ending}
      (hShorter : rest.length < inner.length)
      (hRefill : ∀ current, EncryptedFramesReader.refill compressor aead compression crypto source
        ⟨inner, current⟩ =
          (.ok true, ⟨rest, body⟩))
      (hRest : Serves rest bytes ending) : Serves inner (body ++ bytes) ending

/-- One read returns some of what is served, or the end of it. -/
theorem readLoop_spec (reader : EncryptedFramesReader) {bytes : List UInt8} {ending : Ending}
    {size fuel : Nat}
    (hServes : Serves compressor aead compression crypto source reader.inner bytes ending)
    (hSize : 0 < size) (hFuel : reader.inner.length < fuel) : (∃ chunk after more,
      reader.readLoop compressor aead compression crypto source size fuel = (.ok chunk, after) ∧
        chunk ≠ [] ∧ reader.current ++ bytes = chunk ++ (after.current ++ more) ∧
        Serves compressor aead compression crypto source after.inner more ending) ∨
      reader.current ++ bytes = [] ∧ ∃ after,
        reader.readLoop compressor aead compression crypto source size fuel =
          (ending.result, after) := by
  induction fuel generalizing reader bytes with
  | zero => cases hFuel
  | succ fuel ih =>
    rw [EncryptedFramesReader.readLoop]
    by_cases hChunk : reader.current.take size = []
    · have hEmpty : reader.current = [] := by
        rcases take_eq_nil_iff.mp hChunk with hNone | hNone
        · exact absurd hNone hSize.ne'
        · exact hNone
      have hZero : ¬(reader.current.take size ≠ [] ∨ size = 0) := by
        simp [hChunk, hSize.ne']
      obtain ⟨inner, current⟩ := reader
      rw [if_neg hZero]
      cases hServes with
      | eof =>
        exact .inr
          ⟨by simpa using hEmpty, _, by rw [EncryptedFramesReader.refill, source.fill_head]; rfl⟩
      | error hRefill =>
        obtain ⟨after, hError⟩ := hRefill current
        exact .inr ⟨by simpa using hEmpty, after, by rw [hError]; rfl⟩
      | frame hShorter hRefill hRest =>
        rw [hRefill current, show current = [] from hEmpty]
        exact ih ⟨_, _⟩ hRest (hShorter.trans_le (Nat.lt_succ_iff.mp hFuel))
    · rw [if_pos (.inl hChunk)]
      refine .inl ⟨_, _, bytes, rfl, hChunk, ?_, hServes⟩
      rw [← append_assoc, take_append_drop]

/-- Reads that are not too few return all that is served. -/
theorem reads_of_serves {reader : EncryptedFramesReader} {bytes : List UInt8} {ending : Ending}
    {sizes : List Nat}
    (hServes : Serves compressor aead compression crypto source reader.inner bytes ending)
    (hSizes : ∀ size ∈ sizes, 0 < size)
    (hEnough : (reader.current ++ bytes).length < sizes.length) :
    reader.reads compressor aead compression crypto source sizes =
      (reader.current ++ bytes, some ending) := by
  induction sizes generalizing reader bytes with
  | nil => cases hEnough
  | cons size sizes ih =>
    rw [EncryptedFramesReader.reads, EncryptedFramesReader.read]
    rcases readLoop_spec reader hServes (hSizes size mem_cons_self) (Nat.lt_succ_self _) with
      ⟨chunk, after, more, hRead, hSome, hBytes, hLater⟩ | ⟨hNone, after, hRead⟩
    · rw [hRead, hBytes]
      rw [hBytes, length_append, length_cons] at hEnough
      have hPos := length_pos_of_ne_nil hSome
      have hRest := ih hLater (fun other hMem => hSizes other (mem_cons_of_mem _ hMem)) (by omega)
      cases chunk with
      | nil => exact absurd rfl hSome
      | cons => simp only [hRest]
    · rw [hRead, hNone]
      cases ending <;> rfl

/-- A body that is not compressed is refused if it looks as if it were. -/
def Readable (compression : Compression) (body : List UInt8) : Prop :=
  compression = .none → compressionMagicName body = none

/-- Everything that is written is read back from its frame, unless it is refused. -/
theorem encodeMember_spec {counter : UInt64} {body member : List UInt8}
    (hMember : (encodeMember compressor aead compression (some crypto) counter body).1 =
      .ok member) : ∃ sealed, member = framed 8 sealed ∧ sealed.length ≤ maxEncryptedFrameBytes ∧
      (Readable compression body → decodeFrame compressor aead compression crypto sealed =
        .ok body) ∧ (¬Readable compression body →
        ∃ error, decodeFrame compressor aead compression crypto sealed = .error error) := by
  have hKey : crypto.keyFor crypto.keyId = .ok crypto.key := if_pos rfl
  rw [encodeMember] at hMember
  split at hMember
  next => cases hMember
  next packed hPacked =>
    dsimp only at hMember
    split at hMember
    next => cases hMember
    next sealed _ hSeal =>
      split_ifs at hMember with hLength
      cases hMember
      have hOpen : crypto.open aead sealed [] = .ok packed :=
        Crypto.open_seal (congrArg Prod.fst hSeal) hKey
      refine ⟨sealed, rfl, not_lt.mp hLength, ?_⟩
      rw [compressed] at hPacked
      simp only [decodeFrame, hOpen]
      split_ifs at hPacked ⊢ with hNone
      · cases hPacked
        cases hMagic : compressionMagicName body with
        | none => exact ⟨fun _ => rfl, fun hNot => absurd (fun _ => hMagic) hNot⟩
        | some codec =>
          refine ⟨fun hReadable => ?_, fun _ => ⟨_, rfl⟩⟩
          cases hMagic.symm.trans (hReadable hNone)
      · refine ⟨fun _ => ?_, fun hNot => absurd (fun hSame => absurd hSame hNone) hNot⟩
        split at hPacked
        next found hFound =>
          cases hPacked
          exact compressor.inverse hNone hFound
        next => cases hPacked

variable (compressor aead compression crypto) in
def Encoded (body member : List UInt8) : Prop :=
  ∃ counter, (encodeMember compressor aead compression (some crypto) counter body).1 = .ok member

/-- A member in front is served before the rest. -/
theorem Serves.member {body member : List UInt8}
    (hEncoded : Encoded compressor aead compression crypto body member)
    (hReadable : Readable compression body) {rest bytes : List UInt8} {ending : Ending}
    (hRest : Serves compressor aead compression crypto source rest bytes ending) :
    Serves compressor aead compression crypto source (member ++ rest) (body ++ bytes) ending := by
  obtain ⟨counter, hMember⟩ := hEncoded
  obtain ⟨sealed, rfl, hLength, hBody, -⟩ := encodeMember_spec hMember
  refine .frame ?_ (fun current => ?_) hRest
  · have hFrame : (framed 8 sealed).length = 8 + sealed.length := by
      rw [framed, length_append, length_beBytes]
    rw [@length_append _ (framed 8 sealed)]
    omega
  · rw [refill_framed _ current hLength, hBody hReadable]

/-- Complete members in front are served before the rest. -/
theorem Serves.members {bodies members : List (List UInt8)}
    (hEncoded : List.Forall₂ (Encoded compressor aead compression crypto) bodies members)
    (hReadable : ∀ body ∈ bodies, Readable compression body) {rest bytes : List UInt8}
    {ending : Ending} (hRest : Serves compressor aead compression crypto source rest bytes ending) :
    Serves compressor aead compression crypto source (members.flatten ++ rest)
      (bodies.flatten ++ bytes) ending := by
  induction hEncoded with
  | nil => exact hRest
  | @cons body member bodies members hFirst _ ih =>
    have hLater := ih fun other hMem => hReadable other (mem_cons_of_mem _ hMem)
    rw [flatten_cons, flatten_cons, append_assoc, append_assoc]
    exact .member hFirst (hReadable body mem_cons_self) hLater

/-- The members up to the first one that is refused are served. -/
theorem Serves.refused (source : Source) {bodies members : List (List UInt8)}
    (hEncoded : List.Forall₂ (Encoded compressor aead compression crypto) bodies members)
    (hNot : ¬∀ body ∈ bodies, Readable compression body) : ∃ count error,
      Serves compressor aead compression crypto source members.flatten
        (bodies.take count).flatten (.error error) := by
  induction hEncoded with
  | nil => exact absurd nofun hNot
  | @cons body member bodies members hFirst _ ih =>
    rw [flatten_cons]
    by_cases hReadable : Readable compression body
    · obtain ⟨count, error, hLater⟩ := ih fun hAll => hNot (forall_mem_cons.mpr ⟨hReadable, hAll⟩)
      exact ⟨count + 1, error, .member hFirst hReadable hLater⟩
    · obtain ⟨counter, hMember⟩ := hFirst
      obtain ⟨sealed, rfl, hLength, -, hRefused⟩ := encodeMember_spec hMember
      obtain ⟨error, hError⟩ := hRefused hReadable
      refine ⟨0, error, .error fun current => ⟨⟨members.flatten, current⟩, ?_⟩⟩
      rw [refill_framed _ current hLength, hError]

def lengthOf (members : List (List UInt8)) (count : Nat) : Nat :=
  (members.take count).flatten.length

variable (members : List (List UInt8))

theorem lengthOf_mono {count more : Nat} (hLe : count ≤ more) :
    lengthOf members count ≤ lengthOf members more :=
  (take_sublist_take_left hLe).flatten.length_le

theorem lengthOf_succ {members : List (List UInt8)} {count : Nat} {member : List UInt8}
    (hMember : members[count]? = some member) :
    lengthOf members (count + 1) = lengthOf members count + member.length := by
  rw [lengthOf, take_add_one, hMember, lengthOf]
  simp

/-- A cut is behind a member or inside of the next one. -/
theorem exists_cut (cut : Nat) (hCut : cut ≤ members.flatten.length) :
    ∃ whole, cut = lengthOf members whole ∧ members.flatten.take cut =
      (members.take whole).flatten ∨
      ∃ member k, members[whole]? = some member ∧ 0 < k ∧ k < member.length ∧
        cut = lengthOf members whole + k ∧
        members.flatten.take cut = (members.take whole).flatten ++ member.take k := by
  induction members generalizing cut with
  | nil => exact ⟨0, .inl ⟨Nat.le_zero.mp hCut, by simp⟩⟩
  | cons member members ih =>
    rw [flatten_cons, length_append] at hCut
    rcases lt_or_ge cut member.length with hInside | hBehind
    · refine ⟨0, ?_⟩
      rcases eq_zero_or_pos cut with rfl | hSome
      · exact .inl ⟨rfl, rfl⟩
      · refine .inr ⟨member, cut, rfl, hSome, hInside, (zero_add cut).symm, ?_⟩
        rw [flatten_cons, take_append_of_le_length hInside.le]
        rfl
    · have hTake : (member :: members).flatten.take cut =
          member ++ members.flatten.take (cut - member.length) := by
        rw [flatten_cons, take_append, take_of_length_le hBehind]
      have hLength : ∀ count, lengthOf (member :: members) (count + 1) =
          member.length + lengthOf members count := by
        intro count
        rw [lengthOf, take_succ_cons, flatten_cons, length_append, lengthOf]
      obtain ⟨whole, hWhole⟩ := ih (cut - member.length) (by omega)
      refine ⟨whole + 1, ?_⟩
      rw [hTake, hLength, take_succ_cons, flatten_cons]
      rcases hWhole with ⟨hHere, hBytes⟩ | ⟨next, k, hNext, hSome, hLess, hHere, hBytes⟩
      · exact .inl ⟨by omega, by rw [hBytes]⟩
      · exact .inr ⟨next, k, hNext, hSome, hLess, by omega, by rw [hBytes, append_assoc]⟩

variable {members} {bodies : List (List UInt8)} {sizes : List Nat}

/-- A file that is cut off gives the bodies of the members that are complete, with
an error behind them unless it ends where a frame does. -/
theorem cut_file_read_back
    (hEncoded : List.Forall₂ (Encoded compressor aead compression crypto) bodies members)
    (hReadable : ∀ body ∈ bodies, Readable compression body) (source : Source)
    (hSizes : ∀ size ∈ sizes, 0 < size) (hEnough : bodies.flatten.length < sizes.length) {cut : Nat}
    (hCut : cut < members.flatten.length) : ∃ whole ending,
      EncryptedFramesReader.reads compressor aead compression crypto source
          (.new (members.flatten.take cut)) sizes = ((bodies.take whole).flatten, some ending) ∧
        lengthOf members whole ≤ cut ∧
        ((∃ count, cut = lengthOf members count) → ending = .eof) ∧
        ((¬∃ count, cut = lengthOf members count) → ∃ error, ending = .error error) := by
  have hPart : ∀ count, (bodies.take count).flatten.length < sizes.length := fun count =>
    (take_sublist count bodies).flatten.length_le.trans_lt hEnough
  have hFirst : ∀ count {rest bytes ending},
      Serves compressor aead compression crypto source rest bytes ending →
      Serves compressor aead compression crypto source ((members.take count).flatten ++ rest)
        ((bodies.take count).flatten ++ bytes) ending := fun count _ _ _ hRest =>
    hRest.members (forall₂_take count hEncoded) fun body hMem =>
      hReadable body (mem_of_mem_take hMem)
  obtain ⟨whole, ⟨hHere, hBytes⟩ | ⟨member, k, hMember, hSome, hLess, hHere, hBytes⟩⟩ :=
    exists_cut members cut hCut.le
  · have hServes := hFirst whole .eof
    rw [append_nil, ← hBytes, append_nil] at hServes
    exact ⟨whole, .eof, reads_of_serves hServes hSizes (hPart whole), hHere.ge, fun _ => rfl,
      fun hNone => absurd ⟨whole, hHere⟩ hNone⟩
  · obtain ⟨hWhole, rfl⟩ := List.getElem?_eq_some_iff.mp hMember
    have hBody : whole < bodies.length := hEncoded.length_eq ▸ hWhole
    obtain ⟨counter, hMade⟩ := (forall₂_iff_get.mp hEncoded).2 whole hBody hWhole
    obtain ⟨sealed, hFrame, hLength, -⟩ := encodeMember_spec hMade
    rw [get_eq_getElem] at hFrame
    rw [hFrame] at hMember hLess hBytes
    obtain ⟨error, hError⟩ := refill_torn hLength hSome hLess
    have hServes := hFirst whole (.error hError)
    rw [← hBytes, append_nil] at hServes
    refine ⟨whole, .error error, reads_of_serves hServes hSizes (hPart whole), by omega, ?_,
      fun _ => ⟨error, rfl⟩⟩
    rintro ⟨count, hCount⟩
    -- no member ends between these two
    have hNext := lengthOf_succ hMember
    rcases lt_or_ge whole count with hLater | hEarlier
    · have hLe : lengthOf members (whole + 1) ≤ lengthOf members count :=
        lengthOf_mono members hLater
      omega
    · have hLe := lengthOf_mono members hEarlier
      omega

/-- Whatever the sizes of the reads: the whole file gives all bodies, and every part
of it those of its complete members, exactly when a compression is configured or no
body looks compressed. -/
theorem encrypted_file_read_back_iff
    (hEncoded : List.Forall₂ (Encoded compressor aead compression crypto) bodies members)
    (source : Source) (hSizes : ∀ size ∈ sizes, 0 < size)
    (hEnough : bodies.flatten.length < sizes.length) :
    (EncryptedFramesReader.reads compressor aead compression crypto source
      (.new members.flatten) sizes = (bodies.flatten, some .eof) ∧
      ∀ cut < members.flatten.length, ∃ whole ending,
        EncryptedFramesReader.reads compressor aead compression crypto source
            (.new (members.flatten.take cut)) sizes = ((bodies.take whole).flatten, some ending) ∧
          lengthOf members whole ≤ cut ∧
          ((∃ count, cut = lengthOf members count) → ending = .eof) ∧
          ((¬∃ count, cut = lengthOf members count) → ∃ error, ending = .error error)) ↔
      compression ≠ .none ∨ ∀ body ∈ bodies, compressionMagicName body = none := by
  have hCondition : (∀ body ∈ bodies, Readable compression body) ↔
      compression ≠ .none ∨ ∀ body ∈ bodies, compressionMagicName body = none := by
    simp only [Readable]
    by_cases hNone : compression = .none <;> simp [hNone]
  rw [← hCondition]
  constructor
  · rintro ⟨hWhole, -⟩
    by_contra hNot
    obtain ⟨count, error, hServes⟩ := Serves.refused source hEncoded hNot
    have hLess := (take_sublist count bodies).flatten.length_le.trans_lt hEnough
    have hReads : EncryptedFramesReader.reads compressor aead compression crypto source
        (.new members.flatten) sizes = ((bodies.take count).flatten, some (.error error)) :=
      reads_of_serves hServes hSizes hLess
    cases (Prod.ext_iff.mp (hWhole.symm.trans hReads)).2
  · intro hReadable
    have hServes : Serves compressor aead compression crypto source (members.flatten ++ [])
        (bodies.flatten ++ []) .eof := .members hEncoded hReadable .eof
    rw [append_nil, append_nil] at hServes
    exact ⟨reads_of_serves hServes hSizes hEnough,
      fun cut hCut => cut_file_read_back hEncoded hReadable source hSizes hEnough hCut⟩

end ReadBack

/-! ### A file -/

def stored : Compressor where
  compressMember := fun _ body => .ok body
  decompressAll := fun _ member => .ok member
  inverse := fun _ hMember => by
    cases hMember
    rfl

def bytewise : Source where
  give := fun bytes asked => min (min bytes.length asked) 1
  give_pos := fun hSome hAsked => by
    have hPos := length_pos_of_ne_nil hSome
    omega
  give_le := fun bytes asked => Nat.min_le_left _ 1

/-- Two batches, the second of them empty, and the same file cut off anywhere. -/
theorem encrypted_file_read_back_two :
    ∃ members, List.Forall₂ (Encoded stored transparent .none tenantCrypto)
      [[104, 105], []] members ∧
      EncryptedFramesReader.reads stored transparent .none tenantCrypto bytewise
        (.new members.flatten) (List.replicate 3 1) = ([104, 105], some .eof) ∧
      ∀ cut < members.flatten.length, ∃ whole ending,
        EncryptedFramesReader.reads stored transparent .none tenantCrypto bytewise
            (.new (members.flatten.take cut)) (List.replicate 3 1) =
              (([[104, 105], []].take whole).flatten, some ending) ∧
          lengthOf members whole ≤ cut ∧
          ((∃ count, cut = lengthOf members count) → ending = .eof) ∧
          ((¬∃ count, cut = lengthOf members count) → ∃ error, ending = .error error) := by
  have hEncoded :
      List.Forall₂ (Encoded stored transparent .none tenantCrypto) [[104, 105], []] [_, _] :=
    .cons ⟨3, rfl⟩ (.cons ⟨4, rfl⟩ .nil)
  exact ⟨_, hEncoded, (encrypted_file_read_back_iff hEncoded bytewise (by decide) (by decide)).mpr
    (.inr (by decide))⟩

/-- A raw body that begins like a gzip file is written, but the reader refuses it. -/
theorem magic_body_unreadable :
    ∃ member, Encoded stored transparent .none tenantCrypto [0x1f, 0x8b] member ∧
      EncryptedFramesReader.reads stored transparent .none tenantCrypto bytewise (.new member)
        (List.replicate 3 1) = ([], some (.error (unconfigured "gzip"))) :=
  ⟨_, ⟨3, rfl⟩, by decide⟩

end MqBridge.File
