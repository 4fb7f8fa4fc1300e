import MqBridge.Machine.Outcome
import MqBridge.Support.Pack

/-! What was packed is unpacked again, and the end of an envelope is where its
own lengths say it is: neither less nor more of it is accepted. -/
namespace MqBridge.Pack

open List

open Codec Text

/-! ### Readers and writers side by side -/

theorem reads_uvarint {value : Nat} (hVal : value < 2 ^ 64) :
    Reads (2 ^ 64) uvarint (putUvarint value) value :=
  reads_getUvarint hVal

theorem reads_take (bytes : List UInt8) (what : String) :
    Reads (2 ^ 64) (take bytes.length what) bytes bytes := by
  intro pos tail hLimit
  have hEnough : ¬(bytes ++ tail).length < bytes.length := by
    rw [length_append]
    omega
  change take bytes.length what ⟨pos, bytes ++ tail⟩ = _
  rw [take]
  simp only [if_neg (not_le.mpr hLimit), if_neg hEnough, take_left, drop_left]

/-- Bytes behind their own length. -/
theorem reads_lengthPrefixed (bytes : List UInt8) (what : String) :
    Reads (2 ^ 64) (uvarint >>= fun len => take len what) (putUvarint bytes.length ++ bytes)
      bytes := by
  refine .of_fits fun hFits => ?_
  rw [length_append] at hFits
  exact (reads_uvarint (by omega)).bind (reads_take bytes what)

theorem reads_getText (what text : String) : Reads (2 ^ 64) (getText what) (putText text) text := by
  have hText := (reads_lengthPrefixed (bytesOf text) what).bind_nil
    (f := fun bytes => .lift (fromUtf8 bytes)) (by
      rw [fromUtf8_bytesOf]
      exact fun _ _ _ => rfl)
  rwa [bind_assoc] at hText

variable (pair : Σ _ : String, String)

theorem reads_getPair : Reads (2 ^ 64) getPair (putPair pair) pair :=
  (reads_getText "metadata key" pair.1).bind
    ((reads_getText "metadata value" pair.2).bind_nil (reads_pure _ _))

theorem lookup_foldl_insert {pairs : List (Σ _ : String, String)}
    (hNodup : pairs.NodupKeys) (metadata : Metadata) (key : String) :
    (pairs.foldl (fun metadata pair => metadata.insert pair.1 pair.2) metadata).lookup key =
      (pairs.dlookup key).or (metadata.lookup key) := by
  induction pairs generalizing metadata with
  | nil => rw [foldl_nil, dlookup_nil, Option.none_or]
  | cons pair pairs ih =>
    obtain ⟨hFresh, hRest⟩ := nodupKeys_cons.mp hNodup
    rw [foldl_cons, ih hRest]
    by_cases hKey : key = pair.1
    · subst hKey
      rw [dlookup_eq_none.mpr hFresh, Finmap.lookup_insert, dlookup_cons_eq]
      rfl
    · rw [dlookup_cons_ne _ _ hKey, Finmap.lookup_insert_of_ne _ hKey]

variable (order : MetadataOrder) (metadata : Metadata)

/-- The pairs may come in any order. -/
theorem insertAll_pairs :
    insertAll (order.pairs metadata) = metadata := by
  have hEntries := order.perm metadata
  have hNodup : (order.pairs metadata).NodupKeys := by
    rw [← Multiset.coe_nodupKeys, hEntries]
    exact metadata.nodupKeys
  refine Finmap.ext_lookup fun key => Option.ext fun value => ?_
  rw [insertAll, lookup_foldl_insert hNodup, Finmap.lookup_empty, Option.or_none,
    ← Option.mem_def, mem_dlookup_iff hNodup, Finmap.lookup_eq_some_iff, ← hEntries,
      Multiset.mem_coe]

theorem length_pairs :
    (order.pairs metadata).length = metadata.entries.card := by
  rw [← order.perm, Multiset.coe_card]

/-- More bytes leave more room. -/
theorem room_mono {count size m n : Nat} (hLe : m ≤ n)
    (hRoom : decide (count ≤ m / size) = true) : decide (count ≤ n / size) = true :=
  decide_eq_true ((of_decide_eq_true hRoom).trans (Nat.div_le_div_right hLe))

theorem two_le_length_putPair : 2 ≤ (putPair pair).length := by
  have hKey := one_le_length_putUvarint (bytesOf pair.1).length
  have hVal := one_le_length_putUvarint (bytesOf pair.2).length
  rw [putPair, putText, putText]
  simp only [length_append]
  omega

variable {maxPairs : Nat}

theorem reads_getMetadata {metadata : Metadata}
    (hPairs : metadata.entries.card ≤ maxPairs) :
    Reads (2 ^ 64) (getMetadata maxPairs) (putMetadata order metadata) metadata := by
  have hRoom := mul_le_length_flatMap two_le_length_putPair (order.pairs metadata)
  rw [length_pairs] at hRoom
  have hEntries : Reads (2 ^ 64) (readMany getPair (order.pairs metadata).length)
      ((order.pairs metadata).flatMap putPair) ((order.pairs metadata).map id) :=
    reads_readMany fun pair _ => reads_getPair pair
  rw [length_pairs, map_id] at hEntries
  refine .of_fits fun hFits => ?_
  rw [putMetadata, length_append] at hFits
  refine (reads_uvarint (by omega)).bind ?_
  refine .ensure (fun _ _ _ h => h) (decide_eq_true hPairs) ?_
  refine .ensure (fun _ _ => room_mono) (decide_eq_true (by omega)) ?_
  refine hEntries.bind_nil ?_
  rw [insertAll_pairs]
  exact reads_pure _ _

section Body
variable {withMetadata withMessageId : Bool} {maxPairs : Nat} (order : MetadataOrder)

def recordOf (withMessageId : Bool) (message : CanonicalMessage) : PackedRecord :=
  ⟨if withMessageId then some (message.messageId % 2 ^ 128) else none, message.payload,
    message.metadata⟩

theorem reads_getMessageId (withMessageId : Bool) (messageId : Nat) :
    Reads (2 ^ 64) (getMessageId withMessageId)
      (if withMessageId then leBytes 16 messageId else [])
      (if withMessageId then some (messageId % 2 ^ 128) else none) := by
  cases withMessageId with
  | false => exact reads_pure _ _
  | true =>
    have hBytes := reads_take (leBytes 16 messageId) "message id"
    refine hBytes.bind_nil ?_
    rw [ofLeBytes_leBytes]
    exact reads_pure _ _

theorem reads_getRecord {message : CanonicalMessage}
    (hNone : withMetadata = false → message.metadata = ∅)
    (hPairs : message.metadata.entries.card ≤ maxPairs) :
    Reads (2 ^ 64) (getRecord maxPairs withMetadata withMessageId)
      (putRecord order withMetadata withMessageId message) (recordOf withMessageId message) := by
  have hMetadata : Reads (2 ^ 64) (getMetadataIf maxPairs withMetadata)
      (if withMetadata then putMetadata order message.metadata else []) message.metadata := by
    cases withMetadata with
    | true => exact reads_getMetadata order hPairs
    | false =>
      rw [hNone rfl]
      exact reads_pure _ _
  refine (reads_getMessageId withMessageId message.messageId).bind ?_
  refine .of_fits fun hFits => ?_
  simp only [length_append] at hFits
  refine (reads_uvarint (by omega)).bind ((reads_take message.payload "payload").bind ?_)
  exact hMetadata.bind_nil (reads_pure _ _)

theorem minRecordLen_le_length_putRecord (message : CanonicalMessage) :
    minRecordLen withMetadata withMessageId ≤
      (putRecord order withMetadata withMessageId message).length := by
  have hPayload := one_le_length_putUvarint message.payload.length
  have hPairs := one_le_length_putUvarint message.metadata.entries.card
  rw [putRecord, minRecordLen, putMetadata]
  cases withMetadata <;> cases withMessageId <;> simp <;> omega

theorem reads_getBody {messages : List CanonicalMessage}
    (hNone : withMetadata = false → ∀ message ∈ messages, message.metadata = ∅)
    (hPairs : ∀ message ∈ messages, message.metadata.entries.card ≤ maxPairs) :
    Reads (2 ^ 64) (getBody maxPairs withMetadata withMessageId ⟨none⟩)
      (putBody order withMetadata withMessageId messages)
      (messages.map (recordOf withMessageId)) := by
  have hRecords : Reads (2 ^ 64)
      (readMany (getRecord maxPairs withMetadata withMessageId) messages.length) _ _ :=
    reads_readMany fun message hMem => reads_getRecord order (fun hOff => hNone hOff message hMem)
      (hPairs message hMem)
  have hRoom : messages.length * minRecordLen withMetadata withMessageId ≤
      (messages.flatMap (putRecord order withMetadata withMessageId)).length :=
    mul_le_length_flatMap (minRecordLen_le_length_putRecord order) messages
  have hPos : 0 < minRecordLen withMetadata withMessageId := by
    rw [minRecordLen]
    omega
  have hCount : messages.length ≤ messages.length * minRecordLen withMetadata withMessageId :=
    Nat.le_mul_of_pos_right _ hPos
  refine .of_fits fun hFits => ?_
  rw [putBody, length_append] at hFits
  refine (reads_uvarint (by omega)).bind ?_
  rw [checkCount, bind_assoc]
  refine .ensure (fun _ _ => room_mono) (decide_eq_true ?_) hRecords
  exact (Nat.le_div_iff_mul_le hPos).mpr hRoom

end Body

/-! ### Readers do not look behind what they read -/

theorem stable_uvarint : Stable uvarint := stable_getUvarint

theorem stable_take (len : Nat) (what : String) : Stable (take len what) := by
  intro cursor next bytes hRun tail
  change take len what cursor = _ at hRun
  change take len what ⟨cursor.pos, cursor.rest ++ tail⟩ = _
  rw [take] at hRun ⊢
  split_ifs at hRun with hOver hShort
  have hEnough : ¬(cursor.rest ++ tail).length < len := by
    rw [length_append]
    omega
  cases hRun
  rw [if_neg hOver, if_neg hEnough]
  simp only [take_append_of_le_length (not_lt.mp hShort),
    drop_append_of_le_length (not_lt.mp hShort)]

theorem stable_getText (what : String) : Stable (getText what) :=
  stable_uvarint.bind fun len => (stable_take len what).bind fun _ => stable_lift _

theorem stable_getPair : Stable getPair :=
  (stable_getText _).bind fun _ => (stable_getText _).bind fun _ => stable_pure _

theorem stable_getMetadataIf (maxPairs : Nat) (withMetadata : Bool) :
    Stable (getMetadataIf maxPairs withMetadata) := by
  cases withMetadata with
  | false => exact stable_pure _
  | true =>
    refine stable_uvarint.bind fun pairs => ?_
    refine .bind (stable_ensure fun _ _ _ h => h) fun _ => ?_
    refine .bind (stable_ensure fun _ _ => room_mono) fun _ => ?_
    exact (stable_readMany stable_getPair pairs).bind fun _ => stable_pure _

theorem stable_getMessageId (withMessageId : Bool) : Stable (getMessageId withMessageId) := by
  cases withMessageId with
  | false => exact stable_pure _
  | true => exact (stable_take _ _).bind fun _ => stable_pure _

theorem stable_getRecord (maxPairs : Nat) (withMetadata withMessageId : Bool) :
    Stable (getRecord maxPairs withMetadata withMessageId) :=
  (stable_getMessageId _).bind fun _ => stable_uvarint.bind fun _ =>
    (stable_take _ _).bind fun _ => (stable_getMetadataIf _ _).bind fun _ => stable_pure _

theorem stable_checkCount (count size : Nat) (limits : UnpackLimits) :
    Stable (checkCount count size limits) := by
  refine .bind (stable_ensure fun _ _ => room_mono) fun _ => ?_
  cases limits.maxMessages with
  | none => exact stable_pure _
  | some max => exact stable_ensure fun _ _ _ h => h

/-! ### Limits only refuse -/

section Limits
variable {maxPairs more : Nat} (hMore : maxPairs ≤ more)

include hMore

theorem restricts_getMetadataIf (withMetadata : Bool) :
    Restricts (getMetadataIf maxPairs withMetadata) (getMetadataIf more withMetadata) := by
  cases withMetadata with
  | false => exact .refl _
  | true =>
    refine (Restricts.refl _).bind fun pairs => ?_
    refine .bind (restricts_ensure fun _ h => ?_) fun _ => ?_
    · exact decide_eq_true ((of_decide_eq_true h).trans hMore)
    · exact .refl _

theorem restricts_getBody (withMetadata withMessageId : Bool) (limits : UnpackLimits) :
    Restricts (getBody maxPairs withMetadata withMessageId limits)
      (getBody more withMetadata withMessageId ⟨none⟩) := by
  refine (Restricts.refl _).bind fun count => ?_
  refine .bind ?_ fun _ => restricts_readMany ?_ count
  · refine (Restricts.refl _).bind fun _ => ?_
    cases limits.maxMessages with
    | none => exact .refl _
    | some max => exact restricts_ensure_pure _ _
  · exact (Restricts.refl _).bind fun _ => (Restricts.refl _).bind fun _ =>
      (Restricts.refl _).bind fun _ => (restricts_getMetadataIf hMore withMetadata).bind fun _ =>
        .refl _

end Limits

/-! ### Envelopes -/

variable {records : List PackedRecord} {limits : UnpackLimits}

theorem unpackRecords_eq_ok {payload : List UInt8} :
    unpackRecords maxPairs payload limits = .ok records ↔ ∃ withMetadata withMessageId last,
        getHeader (payload.take headerLen) = .ok (withMetadata, withMessageId) ∧
        (getBody maxPairs withMetadata withMessageId limits).run ⟨0, payload.drop headerLen⟩ =
          .ok (records, ⟨last, []⟩) := by
  rw [unpackRecords, Outcome.bind_eq_ok]
  constructor
  · rintro ⟨⟨withMetadata, withMessageId⟩, hHeader, hUnpack⟩
    obtain ⟨⟨found, last, rest⟩, hBody, hFound⟩ := Outcome.bind_eq_ok.mp hUnpack
    dsimp only at hFound
    split_ifs at hFound with hRest
    cases hFound
    rw [isEmpty_iff.mp hRest] at hBody
    exact ⟨_, _, last, hHeader, hBody⟩
  · rintro ⟨_, _, last, hHeader, hBody⟩
    exact ⟨_, hHeader, Outcome.bind_eq_ok.mpr ⟨_, hBody, rfl⟩⟩

theorem getHeader_putHeader (withMetadata withMessageId : Bool) :
    getHeader (putHeader withMetadata withMessageId) = .ok (withMetadata, withMessageId) := by
  cases withMetadata <;> cases withMessageId <;> decide

theorem length_putHeader (withMetadata withMessageId : Bool) :
    (putHeader withMetadata withMessageId).length = headerLen := by
  cases withMetadata <;> cases withMessageId <;> decide

theorem length_of_getHeader {header : List UInt8} {flags : Bool × Bool}
    (hHeader : getHeader header = .ok flags) : headerLen ≤ header.length := by
  rw [getHeader] at hHeader
  split_ifs at hHeader with hShort
  all_goals omega

section Envelope
variable {keep : Bool} {order : MetadataOrder} {messages : List CanonicalMessage}

theorem batchHasMetadata_eq_false
    (hNone : (Packer.new .mqb keep).batchHasMetadata messages = false) :
    ∀ message ∈ messages, message.metadata = ∅ := by
  intro message hMem
  have hCard : message.metadata.entries.card = 0 := by
    by_contra hSome
    have hAny : messages.any (fun m => m.metadata.entries.card ≠ 0) = true :=
      any_eq_true.mpr ⟨message, hMem, decide_eq_true hSome⟩
    rw [Packer.batchHasMetadata, hAny] at hNone
    cases hNone
  exact Finmap.ext (Multiset.card_eq_zero.mp hCard)

theorem pack_eq : (Packer.new .mqb keep).pack order messages =
    putHeader ((Packer.new .mqb keep).batchHasMetadata messages) keep ++
      putBody order ((Packer.new .mqb keep).batchHasMetadata messages) keep messages := by
  rw [Packer.pack, Packer.new]
  simp only [Packer.packMqb, decide_true, Bool.and_true]

theorem reads_packedBody (keep : Bool) (order : MetadataOrder)
    (hPairs : ∀ message ∈ messages, message.metadata.entries.card ≤ maxPairs) : Reads (2 ^ 64)
      (getBody maxPairs ((Packer.new .mqb keep).batchHasMetadata messages) keep ⟨none⟩)
      (putBody order ((Packer.new .mqb keep).batchHasMetadata messages) keep messages)
      (messages.map (recordOf keep)) :=
  reads_getBody order batchHasMetadata_eq_false hPairs

theorem unpackRecords_pack (hPairs : ∀ message ∈ messages, message.metadata.entries.card ≤ maxPairs)
    (hSize : ((Packer.new .mqb keep).pack order messages).length < 2 ^ 63) :
    unpackRecords maxPairs ((Packer.new .mqb keep).pack order messages) ⟨none⟩ =
      .ok (messages.map (recordOf keep)) := by
  rw [pack_eq, length_append] at hSize
  have hRun := reads_packedBody keep order hPairs 0 [] (by omega)
  rw [append_nil] at hRun
  rw [pack_eq, unpackRecords_eq_ok, take_left' (length_putHeader _ _),
    getHeader_putHeader]
  exact ⟨_, _, _, rfl, hRun⟩

/-- Only the packed envelope itself is unpacked, of all byte strings that begin
with it or that it begins with. -/
theorem eq_of_unpackRecords {maxPairs more : Nat} {other : List UInt8} (hMore : maxPairs ≤ more)
    (hPairs : ∀ message ∈ messages, message.metadata.entries.card ≤ more)
    (hSize : ((Packer.new .mqb keep).pack order messages).length < 2 ^ 63)
    (hOther : unpackRecords maxPairs other limits = .ok records)
    (hPre : other <+: (Packer.new .mqb keep).pack order messages ∨
      (Packer.new .mqb keep).pack order messages <+: other) :
    other = (Packer.new .mqb keep).pack order messages ∧
      records = messages.map (recordOf keep) := by
  obtain ⟨withMetadata, withMessageId, last, hHeader, hBody⟩ := unpackRecords_eq_ok.mp hOther
  rw [pack_eq] at hSize hPre ⊢
  have hLen := length_of_getHeader hHeader
  -- both begin with the same header, and their bodies begin with each other
  have hSame : other.take headerLen =
      putHeader ((Packer.new .mqb keep).batchHasMetadata messages) keep := by
    have hWidth : (other.take headerLen).length =
        (putHeader ((Packer.new .mqb keep).batchHasMetadata messages) keep).length := by
      exact le_antisymm (length_take_le _ _) hLen
    rcases hPre with hBefore | hAfter
    · have hTake := hBefore.take headerLen
      exact hTake.eq_of_length hWidth
    · have hTake := hAfter.take headerLen
      exact (hTake.eq_of_length hWidth.symm).symm
  have hBodies : other.drop headerLen <+:
        putBody order ((Packer.new .mqb keep).batchHasMetadata messages) keep messages ∨
      putBody order ((Packer.new .mqb keep).batchHasMetadata messages) keep messages <+:
        other.drop headerLen := by
    have hDrop := hPre.imp (fun h => h.drop headerLen) fun h => h.drop headerLen
    rwa [drop_left' (length_putHeader _ _)] at hDrop
  rw [hSame, getHeader_putHeader] at hHeader
  cases hHeader
  rw [length_append] at hSize
  obtain ⟨hRest, hRecords⟩ := (reads_packedBody keep order hPairs).eq_of_exhausted (by omega)
    (stable_uvarint.bind fun _ => (stable_checkCount _ _ _).bind fun _ =>
      stable_readMany (stable_getRecord _ _ _) _)
    (restricts_getBody hMore _ _ limits _ _ _ hBody) hBodies
  refine ⟨?_, hRecords⟩
  rw [← hSame, ← hRest, take_append_drop]

end Envelope

/-- There is room for the metadata of every message of a list. -/
theorem exists_maxPairs (least : Nat) (messages : List CanonicalMessage) :
    ∃ most, least ≤ most ∧ ∀ message ∈ messages, message.metadata.entries.card ≤ most := by
  induction messages with
  | nil => exact ⟨least, le_refl _, nofun⟩
  | cons message messages ih =>
    obtain ⟨most, hLeast, hMost⟩ := ih
    refine ⟨max most message.metadata.entries.card, by omega, fun other hMem => ?_⟩
    rcases mem_cons.mp hMem with rfl | hLater
    · omega
    · have hOther := hMost other hLater
      omega

/-- The two lists have the same payloads and metadata, and the same ids if ids
are kept. -/
structure SameContent (keep : Bool) (a b : List CanonicalMessage) : Prop where
  payloads : a.map (·.payload) = b.map (·.payload)
  metadata : a.map (·.metadata) = b.map (·.metadata)
  ids : keep = true → a.map (·.messageId) = b.map (·.messageId)

/-- Lists whose records agree have the same content. -/
theorem sameContent_of_records {keep : Bool} {a b : List CanonicalMessage}
    (hA : keep = true → ∀ message ∈ a, message.messageId < 2 ^ 128)
    (hB : keep = true → ∀ message ∈ b, message.messageId < 2 ^ 128)
    (hRecords : a.map (recordOf keep) = b.map (recordOf keep)) : SameContent keep a b := by
  refine ⟨?_, ?_, ?_⟩
  · have hPayloads := congrArg (map PackedRecord.payload) hRecords
    rwa [map_map, map_map] at hPayloads
  · have hMetadata := congrArg (map PackedRecord.metadata) hRecords
    rwa [map_map, map_map] at hMetadata
  · rintro rfl
    have hIds : ∀ {list : List CanonicalMessage},
        (∀ message ∈ list, message.messageId < 2 ^ 128) →
        list.map (·.messageId) =
          (list.map (recordOf true)).map fun record => record.messageId.getD 0 := by
      intro list hList
      rw [map_map]
      exact map_congr_left fun message hMem => (Nat.mod_eq_of_lt (hList message hMem)).symm
    rw [hIds (hA rfl), hIds (hB rfl), hRecords]

/-- A message made of a record gives that record again. -/
theorem recordOf_toMessage (keep : Bool) (newId : Nat) (message : CanonicalMessage) :
    recordOf keep ((recordOf keep message).toMessage newId) = recordOf keep message := by
  cases keep with
  | false => rfl
  | true =>
    rw [recordOf, recordOf, PackedRecord.toMessage]
    simp only [if_true, Option.getD_some, Nat.mod_mod]

/-- Packing loses nothing but the ids that it was told to leave out. -/
theorem unpack_pack (newId : Nat → Nat) (order : MetadataOrder) (keep : Bool)
    (messages : List CanonicalMessage)
    (hPairs : ∀ message ∈ messages, message.metadata.entries.card ≤ 65536)
    (hIds : ∀ message ∈ messages, message.messageId < 2 ^ 128)
    (hSize : ((Packer.new .mqb keep).pack order messages).length < 2 ^ 63) : ∃ unpacked,
      unpack newId .mqb ((Packer.new .mqb keep).pack order messages) ⟨none⟩ = .ok unpacked ∧
      SameContent keep unpacked messages := by
  refine ⟨(messages.map (recordOf keep)).mapIdx fun i record => record.toMessage (newId i),
    ?_, sameContent_of_records ?_ (fun _ => hIds) ?_⟩
  · rw [unpack, unpackMqb, maxMetadataPairs, unpackRecords_pack hPairs hSize]
    rfl
  · rintro rfl message hMem
    obtain ⟨i, -, rfl⟩ := mem_mapIdx.mp hMem
    rw [getElem_map]
    exact Nat.mod_lt _ (Nat.two_pow_pos 128)
  · refine ext_getElem? fun i => ?_
    rw [getElem?_map, getElem?_mapIdx, getElem?_map, Option.map_map, Option.map_map]
    refine Option.map_congr fun message _ => recordOf_toMessage keep (newId i) message

/-- A message with one pair and one without any. -/
theorem unpack_pack_two : ∃ unpacked, unpack id .mqb ((Packer.new .mqb true).pack someOrder
        [⟨7, [1, 2], [⟨"k", "v"⟩].toFinmap⟩, ⟨8, [], ∅⟩]) ⟨none⟩ = .ok unpacked ∧
      SameContent true unpacked [⟨7, [1, 2], [⟨"k", "v"⟩].toFinmap⟩, ⟨8, [], ∅⟩] := by
  refine unpack_pack id someOrder true _ (by decide) (by decide) ?_
  have hFirst : someOrder.pairs [⟨"k", "v"⟩].toFinmap = [⟨"k", "v"⟩] := Multiset.toList_singleton _
  have hSecond : someOrder.pairs ∅ = [] := Multiset.toList_zero
  rw [pack_eq, putBody, flatMap_cons, flatMap_cons, putRecord, putRecord, putMetadata, putMetadata]
  rw [hFirst, hSecond]
  decide

/-- No byte string that begins with an envelope, or that an envelope begins
with, is accepted beside the envelope itself; so an envelope that begins with
another one has the same content. -/
theorem packed_delimited (order : MetadataOrder) (keep : Bool) (messages : List CanonicalMessage)
    (hIds : ∀ message ∈ messages, message.messageId < 2 ^ 128)
    (hSize : ((Packer.new .mqb keep).pack order messages).length < 2 ^ 63) :
    (∀ newId limits other, other ≠ (Packer.new .mqb keep).pack order messages →
      other <+: (Packer.new .mqb keep).pack order messages ∨
        (Packer.new .mqb keep).pack order messages <+: other →
      ∃ e, unpackMqb newId other limits = .error e) ∧
    ∀ (order' : MetadataOrder) (messages' : List CanonicalMessage),
      (∀ message ∈ messages', message.messageId < 2 ^ 128) →
      ((Packer.new .mqb keep).pack order' messages').length < 2 ^ 63 →
      (Packer.new .mqb keep).pack order messages <+:
        (Packer.new .mqb keep).pack order' messages' →
      SameContent keep messages messages' := by
  refine ⟨fun newId limits other hOther hPre => ?_, fun order' messages' hIds' hSize' hPre =>
    sameContent_of_records (fun _ => hIds) (fun _ => hIds') ?_⟩
  · obtain ⟨more, hMore, hPairs⟩ := exists_maxPairs maxMetadataPairs messages
    cases hUnpack : unpackRecords maxMetadataPairs other limits with
    | error e => exact ⟨e, by rw [unpackMqb, hUnpack]; rfl⟩
    | ok records =>
      exact absurd (eq_of_unpackRecords hMore hPairs hSize hUnpack hPre).1 hOther
  · obtain ⟨first, -, hPairs⟩ := exists_maxPairs 0 messages
    obtain ⟨more, hMore, hPairs'⟩ := exists_maxPairs first messages'
    exact (eq_of_unpackRecords hMore hPairs' hSize' (unpackRecords_pack hPairs hSize)
      (.inl hPre)).2

theorem packed_delimited_one :
    (∀ newId limits other, other ≠ (Packer.new .mqb true).pack someOrder [⟨8, [5], ∅⟩] →
      other <+: (Packer.new .mqb true).pack someOrder [⟨8, [5], ∅⟩] ∨
        (Packer.new .mqb true).pack someOrder [⟨8, [5], ∅⟩] <+: other →
      ∃ e, unpackMqb newId other limits = .error e) ∧
    ∀ (order' : MetadataOrder) (messages' : List CanonicalMessage),
      (∀ message ∈ messages', message.messageId < 2 ^ 128) →
      ((Packer.new .mqb true).pack order' messages').length < 2 ^ 63 →
      (Packer.new .mqb true).pack someOrder [⟨8, [5], ∅⟩] <+:
        (Packer.new .mqb true).pack order' messages' →
      SameContent true [⟨8, [5], ∅⟩] messages' :=
  packed_delimited someOrder true _ (by decide) (by decide)

/-- Without ids, messages that differ in nothing else have one envelope. -/
theorem packed_without_ids_same : ([⟨1, [5], ∅⟩] : List CanonicalMessage) ≠ [⟨2, [5], ∅⟩] ∧
      (Packer.new .mqb false).pack someOrder [⟨1, [5], ∅⟩] <+:
        (Packer.new .mqb false).pack someOrder [⟨2, [5], ∅⟩] :=
  ⟨by decide, by decide⟩

end MqBridge.Pack
