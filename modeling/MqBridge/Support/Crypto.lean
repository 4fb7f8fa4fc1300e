import MqBridge.Codec.Framing
import MqBridge.Message
import MqBridge.Support.Text

/-! The authenticated envelope of the encryption middleware: version, cipher,
key id and nonce in the clear, then the ciphertext with its tag. When metadata
is authenticated, the clear part is authenticated with it. -/
namespace MqBridge

open List

open Codec Text

inductive CipherKind where
  | xchacha20poly1305
  | aes256gcm
  deriving DecidableEq

def envelopeVersion : UInt8 := 1
def envelopeVersionAadBound : UInt8 := 2
def cipherXchacha : UInt8 := 0
def cipherAesGcm : UInt8 := 1
def xchachaNonceLen : Nat := 24
def aesGcmNonceLen : Nat := 12
def nonceCounterLen : Nat := 8

namespace CipherKind

def byte : CipherKind → UInt8
  | xchacha20poly1305 => cipherXchacha
  | aes256gcm => cipherAesGcm

def nonceLen : CipherKind → Nat
  | xchacha20poly1305 => xchachaNonceLen
  | aes256gcm => aesGcmNonceLen

def ofByte (id : UInt8) : Option CipherKind :=
  if id = cipherXchacha then some xchacha20poly1305
  else if id = cipherAesGcm then some aes256gcm
  else none

variable (kind : CipherKind)

theorem ofByte_byte : ofByte kind.byte = some kind := by
  cases kind <;> rfl

theorem nonceCounterLen_le : nonceCounterLen ≤ kind.nonceLen := by
  cases kind <;> decide

theorem nonceLen_le : kind.nonceLen ≤ xchachaNonceLen := by
  cases kind <;> decide

end CipherKind

/-- An authenticated cipher for each kind, over keys of any form. What was
encrypted decrypts under the same key, nonce and associated data. -/
structure Aead (κ : Type) where
  encrypt : CipherKind → κ → List UInt8 → List UInt8 → List UInt8 → Option (List UInt8)
  decrypt : CipherKind → κ → List UInt8 → List UInt8 → List UInt8 → Option (List UInt8)
  decrypt_encrypt : ∀ {kind key nonce aad plaintext ciphertext},
    encrypt kind key nonce aad plaintext = some ciphertext →
      decrypt kind key nonce aad ciphertext = some plaintext

/-- A ciphertext opens only under the key, nonce and associated data it was
sealed with. -/
def Aead.Ideal {κ : Type} (aead : Aead κ) : Prop :=
  ∀ {kind key nonce aad plaintext ciphertext kind' key' nonce' aad' opened},
    aead.encrypt kind key nonce aad plaintext = some ciphertext →
    aead.decrypt kind' key' nonce' aad' ciphertext = some opened →
      kind' = kind ∧ key' = key ∧ nonce' = nonce ∧ aad' = aad

/-- The active key, the keys for decryption only and what every nonce begins
with. The length of the key id is checked when the configuration is read. -/
structure Crypto (κ : Type) where
  cipher : CipherKind
  keyId : String
  key : κ
  decryptKeys : Finmap (fun _ : String => κ)
  noncePrefix : List UInt8
  authenticateMetadata : List String
  keyId_len : 1 ≤ (bytesOf keyId).length ∧ (bytesOf keyId).length ≤ 255
  noncePrefix_len : noncePrefix.length = xchachaNonceLen - nonceCounterLen

structure Envelope where
  version : UInt8
  keyId : String
  kind : CipherKind
  nonce : List UInt8
  ciphertext : List UInt8

def invalidEnvelope : String := "invalid encryption envelope"

def parseEnvelope : List UInt8 → Except String Envelope
  | [] => .error invalidEnvelope
  | version :: rest =>
    if version ≠ envelopeVersion ∧ version ≠ envelopeVersionAadBound then
      .error ("unsupported encryption envelope version " ++ toString version.toNat)
    else
      match rest with
      | cipherByte :: keyIdLen :: rest =>
        if rest.length < keyIdLen.toNat then .error invalidEnvelope
        else
          match decodeUtf8 (rest.take keyIdLen.toNat), CipherKind.ofByte cipherByte with
          | none, _ => .error invalidEnvelope
          | some _, none => .error ("unknown encryption cipher id " ++ toString cipherByte.toNat)
          | some keyId, some kind =>
            let rest := rest.drop keyIdLen.toNat
            if rest.length < kind.nonceLen then .error invalidEnvelope
            else .ok ⟨version, keyId, kind, rest.take kind.nonceLen, rest.drop kind.nonceLen⟩
      | _ => .error invalidEnvelope

namespace Crypto

variable {κ : Type} (crypto : Crypto κ)

/-- The configured metadata in the order of the configuration: the key, and
its value if there is one. -/
def metadataAad (metadata : Finmap fun _ : String => String) : List UInt8 :=
  crypto.authenticateMetadata.flatMap fun key =>
    framed 4 (bytesOf key) ++
      optional (fun value => framed 4 (bytesOf value)) (metadata.lookup key)

def nonce (counter : UInt64) : List UInt8 :=
  crypto.noncePrefix.take (crypto.cipher.nonceLen - nonceCounterLen) ++
    beBytes nonceCounterLen counter.toNat

def header (counter : UInt64) (aad : List UInt8) : List UInt8 :=
  (if aad.isEmpty then envelopeVersion else envelopeVersionAadBound) :: crypto.cipher.byte ::
    UInt8.ofNat (bytesOf crypto.keyId).length :: (bytesOf crypto.keyId ++ crypto.nonce counter)

def keyFor (keyId : String) : Except String κ :=
  if keyId = crypto.keyId then .ok crypto.key
  else
    match crypto.decryptKeys.lookup keyId with
    | some key => .ok key
    | none => .error ("no decryption key for key_id '" ++ keyId ++ "'")

end Crypto

variable {κ : Type}

/-- Encrypts with the active key. The counter moves on, whatever comes of it. -/
def Crypto.seal (crypto : Crypto κ) (aead : Aead κ) (counter : UInt64)
    (plaintext aad : List UInt8) : Except String (List UInt8) × UInt64 :=
  let header := crypto.header counter aad
  let bound := if aad.isEmpty then aad else header ++ aad
  match aead.encrypt crypto.cipher crypto.key (crypto.nonce counter) bound plaintext with
  | some ciphertext => (.ok (header ++ ciphertext), counter + 1)
  | none => (.error "AEAD encryption failed", counter + 1)

/-- The version tells what was authenticated: what the caller gives, or that
behind everything before the ciphertext. -/
def Crypto.open (crypto : Crypto κ) (aead : Aead κ) (envelope aad : List UInt8) :
    Except String (List UInt8) := do
  let parsed ← parseEnvelope envelope
  let bound :=
    if parsed.version = envelopeVersion then aad
    else envelope.take (envelope.length - parsed.ciphertext.length) ++ aad
  let key ← crypto.keyFor parsed.keyId
  match aead.decrypt parsed.kind key parsed.nonce bound parsed.ciphertext with
  | some plaintext => .ok plaintext
  | none => .error "AEAD decryption failed (tampered data or wrong key)"

def ciphertextOf (envelope : List UInt8) : Option (List UInt8) :=
  (parseEnvelope envelope).toOption.map Envelope.ciphertext

section Envelopes

/-- The clear part of an envelope tells its own length. -/
theorem parseEnvelope_eq_ok {envelope : List UInt8} {parsed : Envelope}
    (h : parseEnvelope envelope = .ok parsed) :
    ∃ id len body, envelope = parsed.version :: id :: len :: (body ++ parsed.ciphertext) ∧
      CipherKind.ofByte id = some parsed.kind ∧ body.length = len.toNat + parsed.kind.nonceLen := by
  rw [parseEnvelope.eq_def] at h
  split at h
  next => cases h
  next version rest =>
    split_ifs at h
    split at h
    next id len rest =>
      split_ifs at h with hKeyId
      split at h
      next => cases h
      next => cases h
      next keyId kind _ hKind =>
        simp only at h
        split_ifs at h with hNonce
        cases h
        rw [length_drop] at hNonce
        refine ⟨id, len, rest.take len.toNat ++ (rest.drop len.toNat).take kind.nonceLen, ?_, hKind,
          ?_⟩
        · rw [append_assoc, take_append_drop, take_append_drop]
        · rw [length_append, length_take, length_take, length_drop]
          simp only
          omega
    next => cases h

variable (crypto : Crypto κ) (counter : UInt64) (aad : List UInt8)

theorem Crypto.length_nonce : (crypto.nonce counter).length = crypto.cipher.nonceLen := by
  have hCounter := crypto.cipher.nonceCounterLen_le
  have hNonce := crypto.cipher.nonceLen_le
  rw [nonce, length_append, length_beBytes, length_take, crypto.noncePrefix_len]
  omega

theorem Crypto.toNat_keyIdLen :
    (UInt8.ofNat (bytesOf crypto.keyId).length).toNat = (bytesOf crypto.keyId).length := by
  have hLen := crypto.keyId_len
  rw [UInt8.toNat_ofNat', Nat.mod_eq_of_lt (by omega)]

theorem parseEnvelope_header (ciphertext : List UInt8) :
    parseEnvelope (crypto.header counter aad ++ ciphertext) =
      .ok ⟨if aad.isEmpty then envelopeVersion else envelopeVersionAadBound, crypto.keyId,
        crypto.cipher, crypto.nonce counter, ciphertext⟩ := by
  have hVersion : ¬((if aad.isEmpty then envelopeVersion else envelopeVersionAadBound) ≠
      envelopeVersion ∧ (if aad.isEmpty then envelopeVersion else envelopeVersionAadBound) ≠
        envelopeVersionAadBound) := by
    split_ifs <;> simp
  have hLen := crypto.toNat_keyIdLen
  rw [Crypto.header, cons_append, cons_append, cons_append, parseEnvelope, if_neg hVersion]
  simp only [hLen, append_assoc, take_left, drop_left, decodeUtf8_bytesOf, CipherKind.ofByte_byte]
  rw [if_neg (by rw [length_append]; omega), if_neg (by
    rw [length_append, crypto.length_nonce]; omega), ← crypto.length_nonce counter, take_left,
      drop_left]

end Envelopes

section Binding

variable {crypto opener : Crypto κ} {aead : Aead κ} {counter : UInt64}
  {plaintext opened aad aad' envelope envelope' : List UInt8}

theorem Crypto.seal_eq_ok (hSeal : (crypto.seal aead counter plaintext aad).1 = .ok envelope) :
    ∃ ciphertext, envelope = crypto.header counter aad ++ ciphertext ∧
      aead.encrypt crypto.cipher crypto.key (crypto.nonce counter)
        (if aad.isEmpty then aad else crypto.header counter aad ++ aad) plaintext =
          some ciphertext := by
  simp only [Crypto.seal] at hSeal
  split at hSeal
  next ciphertext hEncrypt =>
    cases hSeal
    exact ⟨ciphertext, rfl, hEncrypt⟩
  next => cases hSeal

theorem Crypto.open_eq_ok (hOpen : opener.open aead envelope' aad' = .ok opened) :
    ∃ parsed key, parseEnvelope envelope' = .ok parsed ∧ opener.keyFor parsed.keyId = .ok key ∧
      aead.decrypt parsed.kind key parsed.nonce
        (if parsed.version = envelopeVersion then aad'
          else envelope'.take (envelope'.length - parsed.ciphertext.length) ++ aad')
        parsed.ciphertext = some opened := by
  rw [Crypto.open] at hOpen
  cases hParsed : parseEnvelope envelope' with
  | error error => rw [hParsed] at hOpen; cases hOpen
  | ok parsed =>
    rw [hParsed] at hOpen
    cases hKey : opener.keyFor parsed.keyId with
    | error error => simp only [hKey, bind, Except.bind] at hOpen; cases hOpen
    | ok key =>
      simp only [hKey, bind, Except.bind] at hOpen
      split at hOpen
      next plaintext hDecrypt =>
        cases hOpen
        exact ⟨parsed, key, rfl, hKey, hDecrypt⟩
      next => cases hOpen

/-- What was sealed opens, with any configuration that has the key. -/
theorem Crypto.open_seal (hSeal : (crypto.seal aead counter plaintext aad).1 = .ok envelope)
    (hKey : opener.keyFor crypto.keyId = .ok crypto.key) :
    opener.open aead envelope aad = .ok plaintext := by
  obtain ⟨ciphertext, rfl, hEncrypt⟩ := seal_eq_ok hSeal
  have hHeader : (crypto.header counter aad ++ ciphertext).take
      ((crypto.header counter aad ++ ciphertext).length - ciphertext.length) =
        crypto.header counter aad := by
    rw [length_append, Nat.add_sub_cancel, take_left]
  have hBound : (if (if aad.isEmpty then envelopeVersion else envelopeVersionAadBound) =
      envelopeVersion then aad else crypto.header counter aad ++ aad) =
        if aad.isEmpty then aad else crypto.header counter aad ++ aad := by
    by_cases hEmpty : aad.isEmpty = true
    · simp [hEmpty]
    · simp [envelopeVersion, envelopeVersionAadBound]
  simp only [Crypto.open, parseEnvelope_header, bind, Except.bind, hKey, hHeader, hBound,
    aead.decrypt_encrypt hEncrypt]

/-- An envelope with the same ciphertext opens only if it is the same envelope
and what is authenticated beside it is the same. Under the first version the
clear part is not authenticated, but what is must not begin like one. -/
theorem Crypto.open_binds (hIdeal : aead.Ideal) (hAad : aad ≠ [])
    (hOther : aad'.head? ≠ some envelopeVersionAadBound)
    (hSeal : (crypto.seal aead counter plaintext aad).1 = .ok envelope)
    (hCarries : ciphertextOf envelope' = ciphertextOf envelope)
    (hOpen : opener.open aead envelope' aad' = .ok opened) : envelope' = envelope ∧ aad' = aad := by
  obtain ⟨ciphertext, rfl, hEncrypt⟩ := seal_eq_ok hSeal
  obtain ⟨parsed, key, hParsed, -, hDecrypt⟩ := open_eq_ok hOpen
  rw [ciphertextOf, ciphertextOf, hParsed, parseEnvelope_header] at hCarries
  have hCipher : parsed.ciphertext = ciphertext := Option.some.inj hCarries
  rw [if_neg (by rwa [List.isEmpty_iff])] at hEncrypt
  rw [hCipher] at hDecrypt
  obtain ⟨-, -, -, hBound⟩ := hIdeal hEncrypt hDecrypt
  obtain ⟨id, len, body, hEnvelope, hKind, hBody⟩ := parseEnvelope_eq_ok hParsed
  have hHeader : crypto.header counter aad = envelopeVersionAadBound :: crypto.cipher.byte ::
      .ofNat (bytesOf crypto.keyId).length :: (bytesOf crypto.keyId ++ crypto.nonce counter) := by
    rw [header, if_neg (by rwa [List.isEmpty_iff])]
  rw [hHeader] at hBound ⊢
  by_cases hVersion : parsed.version = envelopeVersion
  · rw [if_pos hVersion] at hBound
    exact absurd (congrArg head? hBound) hOther
  · have hClear : envelope'.take (envelope'.length - ciphertext.length) =
        parsed.version :: id :: len :: body := by
      rw [hEnvelope, hCipher, ← cons_append, ← cons_append, ← cons_append,
        length_append, Nat.add_sub_cancel, take_left]
    rw [if_neg hVersion, hClear] at hBound
    simp only [cons_append, cons.injEq] at hBound
    obtain ⟨hTwo, rfl, rfl, hRest⟩ := hBound
    have hSame : crypto.cipher = parsed.kind := by
      rw [CipherKind.ofByte_byte] at hKind
      exact Option.some.inj hKind
    have hLength : body.length = (bytesOf crypto.keyId ++ crypto.nonce counter).length := by
      rw [hBody, crypto.toNat_keyIdLen, length_append, crypto.length_nonce, hSame]
    obtain ⟨rfl, hAuthentic⟩ := append_inj hRest hLength
    refine ⟨?_, hAuthentic⟩
    rw [hEnvelope, hCipher, hTwo]
    rfl

end Binding

section Metadata

variable {crypto : Crypto κ} {aead : Aead κ} {m m' : Finmap fun _ : String => String}

def Crypto.Fits (crypto : Crypto κ) (m : Finmap fun _ : String => String) : Prop :=
  ∀ key ∈ crypto.authenticateMetadata, ∀ value ∈ m.lookup key, (bytesOf value).length < 2 ^ 32

theorem Crypto.eq_of_metadataAad_eq (hFits : crypto.Fits m) (hFits' : crypto.Fits m')
    (hSame : crypto.metadataAad m = crypto.metadataAad m') :
    ∀ key ∈ crypto.authenticateMetadata, m.lookup key = m'.lookup key := by
  have hSplits : Splits (fun value : String => (bytesOf value).length < 2 ^ 32)
      fun value => framed 4 (bytesOf value) := by
    intro a b s t hA hB hBytes
    obtain ⟨hText, hRest⟩ := splits_framed 4 _ _ s t hA hB hBytes
    exact ⟨bytesOf_injective hText, hRest⟩
  exact hSplits.optional.flatMap hFits hFits' hSame

/-- The length of the first key fits three bytes, so the fourth is zero. -/
theorem Crypto.head_metadataAad (hListed : crypto.authenticateMetadata ≠ [])
    (hKeys : ∀ key ∈ crypto.authenticateMetadata, (bytesOf key).length < 2 ^ 24) :
    (crypto.metadataAad m).head? = some 0 := by
  obtain ⟨key, rest, hList⟩ := exists_cons_of_ne_nil hListed
  have hKey : (bytesOf key).length < 2 ^ 24 := hKeys key (hList ▸ mem_cons_self ..)
  have hTop : (bytesOf key).length / 256 / 256 / 256 = 0 := by omega
  rw [metadataAad, hList, flatMap_cons, framed, beBytes]
  simp only [leBytes, hTop]
  rfl

/-- Metadata and the clear part of an envelope are bound to its ciphertext. An
envelope with that ciphertext opens only if it is the one that was sealed, and
only beside metadata that has the same values, or none, under the listed keys. -/
theorem seal_binds_metadata (hIdeal : aead.Ideal) (hListed : crypto.authenticateMetadata ≠ [])
    (hKeys : ∀ key ∈ crypto.authenticateMetadata, (bytesOf key).length < 2 ^ 24)
    (hFits : crypto.Fits m) (hFits' : crypto.Fits m') {counter : UInt64}
    {plaintext opened envelope envelope' : List UInt8}
    (hSeal : (crypto.seal aead counter plaintext (crypto.metadataAad m)).1 = .ok envelope)
    (hCarries : ciphertextOf envelope' = ciphertextOf envelope)
    (hOpen : crypto.open aead envelope' (crypto.metadataAad m') = .ok opened) :
    envelope' = envelope ∧ ∀ key ∈ crypto.authenticateMetadata, m.lookup key = m'.lookup key := by
  have hAad : crypto.metadataAad m ≠ [] := by
    intro hNil
    have hHead := Crypto.head_metadataAad (m := m) hListed hKeys
    rw [hNil] at hHead
    cases hHead
  have hOther : (crypto.metadataAad m').head? ≠ some envelopeVersionAadBound := by
    rw [Crypto.head_metadataAad hListed hKeys]
    decide
  obtain ⟨hEnvelope, hSame⟩ := Crypto.open_binds hIdeal hAad hOther hSeal hCarries hOpen
  exact ⟨hEnvelope, Crypto.eq_of_metadataAad_eq hFits hFits' hSame.symm⟩

end Metadata

section Transparent

/-- Bytes with a mark before each and another one behind the last. -/
def delimited (bytes : List UInt8) : List UInt8 := bytes.flatMap (fun byte => [1, byte]) ++ [0]

theorem splits_delimited : Splits (fun _ => True) delimited := by
  intro a b s t _ _ hSame
  induction a generalizing b with
  | nil =>
    cases b with
    | nil => exact ⟨rfl, (cons.inj hSame).2⟩
    | cons byte rest => cases (cons.inj hSame).1
  | cons byte rest ih =>
    cases b with
    | nil => cases (cons.inj hSame).1
    | cons other more =>
      obtain ⟨-, hTail⟩ := cons.inj hSame
      obtain ⟨rfl, hRest⟩ := cons.inj hTail
      obtain ⟨rfl, hEnd⟩ := ih more hRest
      exact ⟨rfl, hEnd⟩

def transparentLabel (kind : CipherKind) (key : UInt8) (nonce aad : List UInt8) : List UInt8 :=
  delimited [kind.byte, key] ++ (delimited nonce ++ delimited aad)

/-- A cipher that hides nothing: the plaintext behind all it is bound to. -/
def transparent : Aead UInt8 where
  encrypt := fun kind key nonce aad plaintext =>
    some (transparentLabel kind key nonce aad ++ plaintext)
  decrypt := fun kind key nonce aad ciphertext =>
    ciphertext.dropPrefix? (transparentLabel kind key nonce aad)
  decrypt_encrypt := fun hEncrypt => by
    cases hEncrypt
    exact dropPrefix?_eq_some_iff.mpr ⟨_, rfl, beq_self_eq_true _⟩

theorem transparent_ideal : transparent.Ideal := by
  intro kind key nonce aad plaintext ciphertext kind' key' nonce' aad' opened hEncrypt hDecrypt
  cases hEncrypt
  obtain ⟨label, hSplit, hLabel⟩ := dropPrefix?_eq_some_iff.mp hDecrypt
  rw [eq_of_beq hLabel, transparentLabel, transparentLabel] at hSplit
  simp only [append_assoc] at hSplit
  obtain ⟨hKey, hRest⟩ := splits_delimited _ _ _ _ trivial trivial hSplit
  obtain ⟨hNonce, hMore⟩ := splits_delimited _ _ _ _ trivial trivial hRest
  obtain ⟨hAad, -⟩ := splits_delimited _ _ _ _ trivial trivial hMore
  simp only [cons.injEq, and_true] at hKey
  refine ⟨?_, hKey.2.symm, hNonce.symm, hAad.symm⟩
  rw [← Option.some_inj, ← CipherKind.ofByte_byte, ← CipherKind.ofByte_byte, hKey.1]

def tenantCrypto : Crypto UInt8 where
  cipher := .aes256gcm
  keyId := "k1"
  key := 7
  decryptKeys := ∅
  noncePrefix := List.replicate 16 9
  authenticateMetadata := ["tenant"]
  keyId_len := by decide
  noncePrefix_len := by decide

theorem seal_binds_metadata_tenant :
    let m : Finmap fun _ : String => String := Finmap.singleton "tenant" "acme"
    let m' := m.insert "trace" "t1"
    ∃ envelope, (tenantCrypto.seal transparent 3 [104, 105] (tenantCrypto.metadataAad m)).1 =
        .ok envelope ∧
      tenantCrypto.open transparent envelope (tenantCrypto.metadataAad m') = .ok [104, 105] ∧
      ∀ key ∈ tenantCrypto.authenticateMetadata, m.lookup key = m'.lookup key := by
  intro m m'
  have hTenant : m.lookup "tenant" = some "acme" := Finmap.lookup_singleton_eq
  have hTenant' : m'.lookup "tenant" = some "acme" := by
    rw [Metadata.lookup_insert, if_neg (by decide), hTenant]
  have hAad : tenantCrypto.metadataAad m = tenantCrypto.metadataAad m' := by
    simp only [Crypto.metadataAad, tenantCrypto, flatMap_cons, flatMap_nil, hTenant, hTenant']
  have hFits : ∀ map : Finmap fun _ : String => String, map.lookup "tenant" = some "acme" →
      tenantCrypto.Fits map := by
    intro map hMap key hMem value hVal
    rw [mem_singleton.mp hMem, hMap] at hVal
    cases hVal
    decide
  have hSeal : (tenantCrypto.seal transparent 3 [104, 105] (tenantCrypto.metadataAad m)).1 =
      .ok (tenantCrypto.header 3 (tenantCrypto.metadataAad m) ++ _) := rfl
  have hOpen : tenantCrypto.open transparent _ (tenantCrypto.metadataAad m') = .ok [104, 105] :=
    hAad ▸ Crypto.open_seal hSeal rfl
  exact ⟨_, hSeal, hOpen, (seal_binds_metadata transparent_ideal (by decide) (by decide)
    (hFits m hTenant) (hFits m' hTenant') hSeal rfl hOpen).2⟩

end Transparent

end MqBridge
