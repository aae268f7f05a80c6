import WebcryptoMls.AttachmentReader
import WebcryptoMls.TreeExtension

/-!
# Attachment references

A reference on the wire. Only what the encoder writes is read, and it is read to the
end; every other string fails in one way. What a decoder cuts out of its input are
further arrays over the same buffer; a reference that is returned has buffers of its
own, so that nothing written to the input afterwards changes it.
-/
namespace WebcryptoMls
open PrefixCode

/-- A `Uint8Array`: some bytes of a buffer, which other arrays may share. -/
structure View where
  buffer : ℕ
  bytes : Bytes

/-- `slice()` copies into a buffer that there was not before. -/
def View.slice (v : View) (buffers : ℕ) : View × ℕ := ({ v with buffer := buffers }, buffers + 1)

/-- A reference as arrays over buffers. -/
structure AttachmentRefViews where
  version : ℤ
  objectId : View
  plaintextLength : ℤ
  snapshot : View
  locator : View

def AttachmentRefViews.contents (r : AttachmentRefViews) : AttachmentRef where
  version := r.version
  objectId := r.objectId.bytes
  plaintextLength := r.plaintextLength
  snapshot := r.snapshot.bytes
  locator := r.locator.bytes

def encodeRefBody : Encoder AttachmentRef := contramapEncoders [
  contramapEncoder encodeUint8 AttachmentRef.version,
  contramapEncoder encodeVarLenData AttachmentRef.objectId,
  contramapEncoder encodeUint64 AttachmentRef.plaintextLength,
  contramapEncoder encodeVarLenData AttachmentRef.snapshot,
  contramapEncoder encodeVarLenData AttachmentRef.locator]

def encodeAttachmentRef (r : AttachmentRef) : Except MlsError Bytes := do
  validateAttachmentRef r none
  encodeRefBody r

/-- The `subarray` of a decoder is of the buffer that it reads. -/
def decodeVarLenView (buffer : ℕ) : Decoder View :=
  mapDecoder decodeVarLenData fun bytes => { buffer := buffer, bytes := bytes }

def decodeRefBody (buffer : ℕ) : Decoder AttachmentRefViews := do
  let version ← decodeUint8
  let objectId ← decodeVarLenView buffer
  let plaintextLength ← decodeUint64
  let snapshot ← decodeVarLenView buffer
  let locator ← decodeVarLenView buffer
  pure {
    version := version
    objectId := objectId
    plaintextLength := plaintextLength
    snapshot := snapshot
    locator := locator }

/-- Copies of what was decoded. -/
def AttachmentRefViews.copy (decoded : AttachmentRefViews) (buffers : ℕ) : AttachmentRefViews × ℕ :=
  let objectId := decoded.objectId.slice buffers
  let snapshot := decoded.snapshot.slice objectId.2
  let locator := decoded.locator.slice snapshot.2
  ({ version := decoded.version
     objectId := objectId.1
     plaintextLength := decoded.plaintextLength
     snapshot := snapshot.1
     locator := locator.1 }, locator.2)

/-- `buffers` are in use before, and those that are returned after. -/
def decodeAttachmentRef (bytes : View) (buffers : ℕ) : Except MlsError (AttachmentRefViews × ℕ) :=
  match decodeRefBody bytes.buffer bytes.bytes 0 with
  | .error _ => throw attachmentError
  | .ok none => throw attachmentError
  | .ok (some (decoded, length)) =>
    if length ≠ bytes.bytes.length then throw attachmentError
    else do
      validateAttachmentRef decoded.contents none
      pure (decoded.copy buffers)

/-! ## The body -/

theorem canonical_refBody (buffer : ℕ) :
    Canonical (fun r : AttachmentRefViews => encodeRefBody r.contents) (decodeRefBody buffer) := by
  have hview : Canonical (fun v : View => encodeVarLenData v.bytes) (decodeVarLenView buffer) :=
    canonical_varLenData.map fun _ _ hx => hx
  exact .field (f := AttachmentRefViews.version) (canonical_uint 1)
    (fun _ => .bind fun _ => .bind fun _ => .bind fun _ => .bind fun _ => .pure rfl) fun _ =>
    .field (f := AttachmentRefViews.objectId) hview
      (fun _ => .bind fun _ => .bind fun _ => .bind fun _ => .pure rfl) fun _ =>
    .field (f := AttachmentRefViews.plaintextLength) canonical_uint64
      (fun _ => .bind fun _ => .bind fun _ => .pure rfl) fun _ =>
    .field (f := AttachmentRefViews.snapshot) hview (fun _ => .bind fun _ => .pure rfl) fun _ =>
    .field (f := AttachmentRefViews.locator) hview (fun _ => .pure rfl) fun _ =>
    canonical_nil

/-- A reference, its arrays over one buffer. -/
def AttachmentRef.views (r : AttachmentRef) (buffer : ℕ) : AttachmentRefViews where
  version := r.version
  objectId := { buffer := buffer, bytes := r.objectId }
  plaintextLength := r.plaintextLength
  snapshot := { buffer := buffer, bytes := r.snapshot }
  locator := { buffer := buffer, bytes := r.locator }

@[simp] theorem contents_views (r : AttachmentRef) (buffer : ℕ) : (r.views buffer).contents = r := rfl

theorem recovers_refBody {r : AttachmentRef} (buffer : ℕ) (h0 : 0 ≤ r.plaintextLength)
    (hlt : r.plaintextLength < 2 ^ 64) :
    Recovers (decodeRefBody buffer) (encodeRefBody (r.views buffer).contents) (r.views buffer) := by
  have hview : ∀ v : View, v.buffer = buffer →
      Recovers (decodeVarLenView buffer) (encodeVarLenData v.bytes) v := by
    rintro v rfl
    exact (recovers_varLenData v.bytes).map
  have hbody : Recovers (decodeRefBody buffer) (concat [
      fun v : AttachmentRefViews => encodeUint8 v.version,
      fun v => encodeVarLenData v.objectId.bytes,
      fun v => encodeUint64 v.plaintextLength,
      fun v => encodeVarLenData v.snapshot.bytes,
      fun v => encodeVarLenData v.locator.bytes] (r.views buffer)) (r.views buffer) :=
    .field (f := AttachmentRefViews.version) (recovers_uint 1 _) <|
    .field (f := AttachmentRefViews.objectId) (e := fun v => encodeVarLenData v.bytes)
      (hview _ rfl) <|
    .field (f := AttachmentRefViews.plaintextLength) (recovers_uint64 h0 hlt) <|
    .field (f := AttachmentRefViews.snapshot) (e := fun v => encodeVarLenData v.bytes)
      (hview _ rfl) <|
    .field (f := AttachmentRefViews.locator) (e := fun v => encodeVarLenData v.bytes)
      (hview _ rfl) recovers_nil
  exact hbody

/-! ## Validation -/

theorem validateAttachmentRef_none {r : AttachmentRef} :
    validateAttachmentRef r none = .ok () ↔
      r.version = ATTACHMENT_REF_VERSION ∧ 1 ≤ r.objectId.length ∧ r.objectId.length ≤ 255 ∧
      0 < r.plaintextLength ∧ r.plaintextLength < 2 ^ 64 ∧ r.snapshot.length ∈ SNAPSHOT_LENGTHS := by
  unfold validateAttachmentRef
  split_ifs with h1 h2 h3 h4 h5
  · simp [h1]
  · simp
    omega
  · simp
    omega
  · simp
    omega
  · simp [h5, pure, Except.pure]
    omega
  · simp [h5]

theorem validateAttachmentRef_error {r : AttachmentRef} {e : MlsError}
    (h : validateAttachmentRef r none = .error e) : e = attachmentError := by
  unfold validateAttachmentRef at h
  split_ifs at h <;> cases h <;> rfl

/-- Every field of a valid reference can be encoded, but for a locator that is too long. -/
theorem encodeRefBody_returns {r : AttachmentRef} (h : validateAttachmentRef r none = .ok ())
    (hlocator : r.locator.length < 2 ^ 30) : ∃ b, encodeRefBody r = .ok b := by
  obtain ⟨hversion, -, hid, -, -, hsnapshot⟩ := validateAttachmentRef_none.mp h
  have hsize : r.snapshot.length ≤ 64 := by
    simp only [SNAPSHOT_LENGTHS, List.mem_cons, List.not_mem_nil, or_false] at hsnapshot
    omega
  have hv : encodeUint8 r.version = .ok [1] := by
    rw [hversion]
    rfl
  obtain ⟨x, hx⟩ := encodeVarLenData_returns (by omega : r.objectId.length < 2 ^ 30)
  obtain ⟨y, hy⟩ := encodeVarLenData_returns (by omega : r.snapshot.length < 2 ^ 30)
  obtain ⟨z, hz⟩ := encodeVarLenData_returns hlocator
  exact ⟨_, concat_cons_eq_ok.mpr ⟨_, _, hv,
    concat_cons_eq_ok.mpr ⟨_, _, hx,
    concat_cons_eq_ok.mpr ⟨_, _, rfl,
    concat_cons_eq_ok.mpr ⟨_, _, hy,
    concat_cons_eq_ok.mpr ⟨_, _, hz, concat_nil r, rfl⟩, rfl⟩, rfl⟩, rfl⟩, rfl⟩⟩

theorem encodeAttachmentRef_eq_ok {r : AttachmentRef} {b : Bytes} :
    encodeAttachmentRef r = .ok b ↔
      validateAttachmentRef r none = .ok () ∧ encodeRefBody r = .ok b := by
  rw [encodeAttachmentRef, bind_eq_ok]
  exact ⟨fun ⟨_, hvalid, hb⟩ => ⟨hvalid, hb⟩, fun ⟨hvalid, hb⟩ => ⟨(), hvalid, hb⟩⟩

/-! ## Round trips -/

theorem decodeAttachmentRef_encoded {r : AttachmentRef} {b : Bytes}
    (h : encodeAttachmentRef r = .ok b) (buffer buffers : ℕ) :
    decodeAttachmentRef { buffer := buffer, bytes := b } buffers =
      .ok ((r.views buffer).copy buffers) := by
  obtain ⟨hvalid, hb⟩ := encodeAttachmentRef_eq_ok.mp h
  obtain ⟨-, -, -, hpos, hlt, -⟩ := validateAttachmentRef_none.mp hvalid
  have hd := recovers_refBody buffer hpos.le hlt [] b [] hb
  rw [List.append_nil, List.nil_append, List.length_nil] at hd
  simp only [decodeAttachmentRef, hd, contents_views, hvalid, ok_bind]
  rw [if_neg (not_not.mpr rfl)]
  rfl

/-- A string is refused in the one way, or it is the encoding of what is found in it. -/
theorem decodeAttachmentRef_strict (bytes : View) (buffers : ℕ) :
    decodeAttachmentRef bytes buffers = .error attachmentError ∨
      ∃ decoded : AttachmentRefViews,
        decodeAttachmentRef bytes buffers = .ok (decoded.copy buffers) ∧
        encodeAttachmentRef decoded.contents = .ok bytes.bytes := by
  unfold decodeAttachmentRef
  rcases hd : decodeRefBody bytes.buffer bytes.bytes 0 with e | _ | ⟨decoded, length⟩
  · exact .inl rfl
  · exact .inl rfl
  · dsimp only
    split_ifs with hlen
    · exact .inl rfl
    · cases hvalid : validateAttachmentRef decoded.contents none with
      | error e =>
        rw [validateAttachmentRef_error hvalid]
        exact .inl rfl
      | ok _ =>
        obtain ⟨x, hx, hlength, hpre⟩ := canonical_refBody bytes.buffer _ _ _ _ (Nat.zero_le _) hd
        have hall : x = bytes.bytes := hpre.eq_of_length (hlength.trans (not_not.mp hlen))
        exact .inr ⟨decoded, rfl, encodeAttachmentRef_eq_ok.mpr ⟨hvalid, hall ▸ hx⟩⟩

/-- Every valid reference is read back from its encoding, whatever buffer that is in; and
every string is refused, in the one way, or it is the encoding of the reference that is
returned, which shares no buffer with it. -/
theorem attachmentRef_round_trip :
    (∀ r : AttachmentRef, validateAttachmentRef r none = .ok () → r.locator.length < 2 ^ 30 →
      ∃ b, encodeAttachmentRef r = .ok b ∧ ∀ buffer buffers, ∃ decoded buffers',
        decodeAttachmentRef { buffer := buffer, bytes := b } buffers = .ok (decoded, buffers') ∧
        decoded.contents = r) ∧
    (∀ (bytes : View) (buffers : ℕ), bytes.buffer < buffers →
      decodeAttachmentRef bytes buffers = .error attachmentError ∨
      ∃ decoded buffers', decodeAttachmentRef bytes buffers = .ok (decoded, buffers') ∧
        validateAttachmentRef decoded.contents none = .ok () ∧
        encodeAttachmentRef decoded.contents = .ok bytes.bytes ∧
        decoded.objectId.buffer ≠ bytes.buffer ∧ decoded.snapshot.buffer ≠ bytes.buffer ∧
        decoded.locator.buffer ≠ bytes.buffer) := by
  constructor
  · intro r hvalid hlocator
    obtain ⟨b, hb⟩ := encodeRefBody_returns hvalid hlocator
    have hencoded := encodeAttachmentRef_eq_ok.mpr ⟨hvalid, hb⟩
    exact ⟨b, hencoded, fun buffer buffers =>
      ⟨_, _, decodeAttachmentRef_encoded hencoded buffer buffers, rfl⟩⟩
  · intro bytes buffers hused
    rcases decodeAttachmentRef_strict bytes buffers with herror | ⟨decoded, hd, hencoded⟩
    · exact .inl herror
    · refine .inr ⟨_, _, hd, (encodeAttachmentRef_eq_ok.mp hencoded).1, hencoded, ?_, ?_, ?_⟩
      · simp only [View.slice]
        omega
      · simp only [View.slice]
        omega
      · simp only [View.slice]
        omega

/-- A reference to one byte, under an id of one. -/
def smallRef : AttachmentRef where
  version := 1
  objectId := [7]
  plaintextLength := 1
  snapshot := List.replicate 32 0
  locator := [9]

theorem attachmentRef_round_trip_small :
    (∃ b, encodeAttachmentRef smallRef = .ok b ∧ ∀ buffer buffers, ∃ decoded buffers',
      decodeAttachmentRef { buffer := buffer, bytes := b } buffers = .ok (decoded, buffers') ∧
      decoded.contents = smallRef) ∧
    (decodeAttachmentRef { buffer := 0, bytes := [1] } 1 = .error attachmentError ∨
      ∃ decoded buffers', decodeAttachmentRef { buffer := 0, bytes := [1] } 1 = .ok (decoded, buffers') ∧
        validateAttachmentRef decoded.contents none = .ok () ∧
        encodeAttachmentRef decoded.contents = .ok [1] ∧ decoded.objectId.buffer ≠ 0 ∧
        decoded.snapshot.buffer ≠ 0 ∧ decoded.locator.buffer ≠ 0) :=
  ⟨attachmentRef_round_trip.1 smallRef (by decide) (by decide),
    attachmentRef_round_trip.2 { buffer := 0, bytes := [1] } 1 (by decide)⟩

end WebcryptoMls
