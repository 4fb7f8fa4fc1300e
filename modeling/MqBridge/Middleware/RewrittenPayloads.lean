import MqBridge.Endpoints.File.Frames
import MqBridge.Machine.Outcome
import MqBridge.Publisher

/-! Publishers that send a batch with other payloads, encrypted or compressed.
Messages that come back as failed get their own payloads again. -/
namespace MqBridge

open List File Codec

/-- The id of a message, its own payload and the payload it was sent with. -/
abbrev Original := Nat × List UInt8 × List UInt8

/-- Messages of one id are told apart by what they were sent with. -/
def restorePayload (originals : List Original) (message : CanonicalMessage) : CanonicalMessage :=
  let candidates := originals.filter fun original => original.1 = message.messageId
  match candidates.find? fun c => candidates.length = 1 ∨ c.2.2 = message.payload with
  | some original => { message with payload := original.2.1 }
  | none => message

/-- Only failed messages are touched. -/
def restorePayloads (originals : List Original) : SentBatch → SentBatch
  | .ack => .ack
  | .partly responses failed =>
    .partly responses (failed.map fun failure => (restorePayload originals failure.1, failure.2))

inductive RewritingPublisher (κ : Type) where
  | encryption (crypto : Crypto κ) (aead : Aead κ)
  | compression (compressor : Compressor) (algo : Compression)

namespace RewritingPublisher

variable {κ σ : Type} (p : RewritingPublisher κ)

/-- A message is sealed with the number drawn for it from the counter of the nonces. -/
def rewrite : RewritingPublisher κ → UInt64 × CanonicalMessage → Except PublisherError (List UInt8)
  | encryption crypto aead, (drawn, message) =>
    (crypto.seal aead drawn message.payload (crypto.metadataAad message.metadata)).1.mapError
      .nonRetryable
  | compression compressor algo, (_, message) =>
    if algo = .none then .ok message.payload
    else (compressor.compressMember algo message.payload).mapError .nonRetryable

/-- A message of the batch as it is sent. -/
def sent (pair : (UInt64 × CanonicalMessage) × List UInt8) : CanonicalMessage :=
  { pair.1.2 with payload := pair.2 }

def original (pair : (UInt64 × CanonicalMessage) × List UInt8) : Original :=
  (pair.1.2.messageId, pair.1.2.payload, pair.2)

/-- A batch that cannot be rewritten as a whole is not sent. -/
def sendBatch (batch : List (UInt64 × CanonicalMessage)) (inner : Publisher σ) (s : σ) :
    SendResult × σ :=
  match batch.mapM p.rewrite with
  | .error e => (.error e, s)
  | .ok payloads =>
    let pairs := batch.zip payloads
    let (answer, s) := inner (pairs.map sent) s
    (answer.map (restorePayloads (pairs.map original)), s)

/-- The numbers that the messages of a batch draw from the counter. Before each
of them, other batches may have drawn some. -/
def draws (counter : UInt64) : List (Nat × CanonicalMessage) → List (UInt64 × CanonicalMessage)
  | [] => []
  | (others, message) :: rest =>
    let drawn := counter + .ofNat others
    (drawn, message) :: draws (drawn + 1) rest

theorem draws_bound {counter : UInt64} {batch : List (Nat × CanonicalMessage)}
    {entry : UInt64 × CanonicalMessage} (hEntry : entry ∈ draws counter batch) :
    ∃ k < (batch.map fun m => m.1 + 1).sum, entry.1 = counter + .ofNat k := by
  induction batch generalizing counter with
  | nil => exact absurd hEntry not_mem_nil
  | cons first rest ih =>
    rw [map_cons, sum_cons]
    rcases mem_cons.mp hEntry with rfl | hRest
    · exact ⟨first.1, by omega, rfl⟩
    · obtain ⟨k, hLess, hDrawn⟩ := ih hRest
      refine ⟨first.1 + 1 + k, by omega, ?_⟩
      rw [hDrawn, UInt64.ofNat_add, UInt64.ofNat_add, ← UInt64.add_assoc, ← UInt64.add_assoc]
      rfl

/-- As long as the counter does not come around, the numbers differ. -/
theorem draws_nodup {counter : UInt64} {batch : List (Nat × CanonicalMessage)}
    (hTotal : (batch.map fun m => m.1 + 1).sum ≤ 2 ^ 64) :
    ((draws counter batch).map Prod.fst).Nodup := by
  induction batch generalizing counter with
  | nil => exact nodup_nil
  | cons first rest ih =>
    rw [map_cons, sum_cons] at hTotal
    refine nodup_cons.mpr ⟨fun hMem => ?_, ih (by omega)⟩
    obtain ⟨entry, hEntry, hSame⟩ := mem_map.mp hMem
    obtain ⟨k, hLess, hDrawn⟩ := draws_bound hEntry
    have hAgain := congrArg UInt64.toNat (hSame.symm.trans hDrawn)
    simp only [UInt64.toNat_add, UInt64.toNat_ofNat', UInt64.toNat_one] at hAgain
    omega

variable {pairs : List ((UInt64 × CanonicalMessage) × List UInt8)}

/-- If equal payloads were sent for equal ones only, any candidate will do. -/
theorem restorePayload_sent
    (hApart : ∀ a ∈ pairs, ∀ b ∈ pairs, a.2 = b.2 → a.1.2.payload = b.1.2.payload) :
    ∀ a ∈ pairs, restorePayload (pairs.map original) (sent a) = a.1.2 := by
  intro a hA
  rw [restorePayload]
  set candidates := (pairs.map original).filter fun o => o.1 = (sent a).messageId with hCandidates
  have hOwn : original a ∈ candidates :=
    mem_filter.mpr ⟨mem_map_of_mem hA, decide_eq_true rfl⟩
  split
  next found hFound =>
    have hMem := mem_of_find?_eq_some hFound
    suffices hPayload : found.2.1 = a.1.2.payload by
      rw [hPayload]
      rfl
    have hFits := find?_some hFound
    rw [decide_eq_true_eq] at hFits
    rcases hFits with hOnly | hSent
    · obtain ⟨only, hOnly⟩ := length_eq_one_iff.mp hOnly
      rw [hOnly, mem_singleton] at hMem hOwn
      rw [hMem, ← hOwn]
      rfl
    · obtain ⟨b, hB, rfl⟩ := mem_map.mp (mem_filter.mp hMem).1
      exact hApart b hB a hA hSent
  next hNone => exact absurd (find?_eq_none.mp hNone _ hOwn) (by simp [original, sent])

/-- An envelope tells the number drawn for it, a compressed payload the payload. -/
theorem eq_of_rewrite_eq {a b : UInt64 × CanonicalMessage} {payload : List UInt8}
    (hA : p.rewrite a = .ok payload) (hB : p.rewrite b = .ok payload) :
    a.1 = b.1 ∨ a.2.payload = b.2.payload := by
  cases p with
  | encryption crypto aead =>
    obtain ⟨_, hSealed, -⟩ := Crypto.seal_eq_ok (Outcome.mapError_eq_ok.mp hA)
    obtain ⟨_, hSealed', -⟩ := Crypto.seal_eq_ok (Outcome.mapError_eq_ok.mp hB)
    have hParsed :=
      parseEnvelope_header crypto a.1 _ _ ▸ congrArg parseEnvelope (hSealed.symm.trans hSealed')
    rw [parseEnvelope_header] at hParsed
    have hNonce := append_cancel_left (Envelope.mk.inj (Except.ok.inj hParsed)).2.2.2.1
    have hDrawn :=
      splits_beBytes nonceCounterLen _ _ [] [] a.1.toNat_lt b.1.toNat_lt (by rw [hNonce])
    exact .inl (UInt64.toNat_inj.mp hDrawn.1)
  | compression compressor algo =>
    rw [rewrite] at hA hB
    split_ifs at hA hB with hAlgo
    · exact .inr (Except.ok.inj (hA.trans hB.symm))
    · have hBack := compressor.inverse hAlgo (Outcome.mapError_eq_ok.mp hA)
      exact .inr
        (Except.ok.inj (hBack.symm.trans (compressor.inverse hAlgo (Outcome.mapError_eq_ok.mp hB))))

/-- The messages an inner publisher reports as failed, any of those it was sent,
come back as they were given, each with its own error. -/
theorem failed_restored {batch : List (UInt64 × CanonicalMessage)}
    (hDrawn : (batch.map Prod.fst).Nodup)
    {payloads : List (List UInt8)} (hRewritten : batch.mapM p.rewrite = .ok payloads)
    {inner : Publisher σ} {s s' : σ} {chosen : List ((UInt64 × CanonicalMessage) × List UInt8)}
    (hChosen : chosen <+ batch.zip payloads) {responses : Option (List CanonicalMessage)}
    {errors : List PublisherError}
    (hInner : inner ((batch.zip payloads).map sent) s =
      (.ok (.partly responses ((chosen.map sent).zip errors)), s')) :
    p.sendBatch batch inner s =
      (.ok (.partly responses ((chosen.map fun pair => pair.1.2).zip errors)), s') := by
  have hApart : ∀ a ∈ batch.zip payloads, ∀ b ∈ batch.zip payloads, a.2 = b.2 →
      a.1.2.payload = b.1.2.payload := by
    intro a hA b hB hSame
    have hRewrite := Outcome.of_mem_zip hRewritten hA
    rw [hSame] at hRewrite
    rcases p.eq_of_rewrite_eq hRewrite (Outcome.of_mem_zip hRewritten hB) with hDraw | hPayload
    · rw [inj_on_of_nodup_map hDrawn (of_mem_zip hA).1 (of_mem_zip hB).1 hDraw]
    · exact hPayload
  have hRestored : (chosen.map sent).map (restorePayload ((batch.zip payloads).map original)) =
      chosen.map fun pair => pair.1.2 := by
    rw [map_map]
    exact map_congr_left fun a hMem => restorePayload_sent hApart a (hChosen.subset hMem)
  rw [sendBatch, hRewritten]
  simp only [hInner]
  rw [← hRestored, zip_map_left (f := restorePayload _)]
  rfl

theorem failed_restored_same_id :
    let batch := draws 3 [(0, ⟨1, [104], ∅⟩), (1, ⟨1, [105], ∅⟩)]
    let inner : Publisher Unit :=
      fun sent s => (.ok (.partly none (sent.tail.zip [.retryable "down"])), s)
    (encryption tenantCrypto transparent).sendBatch batch inner () =
      (.ok (.partly none [(⟨1, [105], ∅⟩, .retryable "down")]), ()) := by
  intro batch inner
  have hDrawn : (batch.map Prod.fst).Nodup := draws_nodup (by decide)
  have hRewritten : batch.mapM (encryption tenantCrypto transparent).rewrite = .ok _ := rfl
  exact failed_restored _ hDrawn hRewritten (drop_sublist 1 _) (show inner _ () = _ from rfl)

end RewritingPublisher

end MqBridge
