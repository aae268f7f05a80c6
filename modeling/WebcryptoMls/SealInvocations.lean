import WebcryptoMls.Oracles
import WebcryptoMls.SealRoundTrip

/-!
# Invocations of the AEAD

Sealing and opening as runs that ask the AEAD. A segment is sealed or opened with one call
of it, under the key and the nonce of its index, and `sealObject` makes one call for each
segment of its layout.
-/
namespace WebcryptoMls
open Slices

/-! ## The AEAD as an oracle -/

structure AeadCall where
  decrypts : Bool
  key : Bytes
  nonce : Bytes
  aad : Bytes
  data : Bytes

namespace Aead

def ofAnswers (answers : AeadCall → Except MlsError Bytes) : Aead where
  encrypt key nonce aad data :=
    answers { decrypts := false, key := key, nonce := nonce, aad := aad, data := data }
  decrypt key nonce aad data :=
    answers { decrypts := true, key := key, nonce := nonce, aad := aad, data := data }

def answers (aead : Aead) (c : AeadCall) : Except MlsError Bytes :=
  bif c.decrypts then aead.decrypt c.key c.nonce c.aad c.data
  else aead.encrypt c.key c.nonce c.aad c.data

@[simp] theorem ofAnswers_answers (aead : Aead) : ofAnswers aead.answers = aead := rfl

@[simp] theorem answers_ofAnswers (given : AeadCall → Except MlsError Bytes) :
    (ofAnswers given).answers = given := by
  funext c
  obtain ⟨decrypts, key, nonce, aad, data⟩ := c
  cases decrypts <;> rfl

end Aead

def SealCrypto.withAead (crypto : SealCrypto) (aead : Aead) : SealCrypto :=
  { crypto with aead := aead }

def SealState.withAead (state : SealState) (aead : Aead) : SealState :=
  { state with crypto := state.crypto.withAead aead }

section
variable (state : SealState) (aead : Aead) (index : ℕ) (isFinal : Bool)

@[simp] theorem SealCrypto.withAead_self (crypto : SealCrypto) :
    crypto.withAead crypto.aead = crypto := rfl

@[simp] theorem SealState.withAead_aead : (state.withAead aead).crypto.aead = aead := rfl

@[simp] theorem SealState.withAead_self : state.withAead state.crypto.aead = state := rfl

@[simp] theorem segmentKey_withAead :
    segmentKey (state.withAead aead) index = segmentKey state index := rfl

@[simp] theorem segmentNonce_withAead (nonce : Option Bytes) :
    segmentNonce (state.withAead aead) index isFinal nonce =
      segmentNonce state index isFinal nonce := rfl

@[simp] theorem segmentAad_withAead (extra : Bytes) :
    segmentAad (state.withAead aead) index isFinal extra =
      segmentAad state index isFinal extra := rfl

end

/-- A schedule is derived without the AEAD. -/
theorem startSeal_withAead (cek : Bytes) (params : SealParams) (g : Bytes) (crypto : SealCrypto)
    (aead : Aead) : startSeal cek params g (crypto.withAead aead) =
      (startSeal cek params g crypto).map fun state => state.withAead aead := by
  unfold startSeal deriveSchedule
  by_cases hmode : params.nonceMode = NONCE_DERIVED
  · simp only [hmode, if_true, map_bind]
    rfl
  · simp only [hmode, if_false, map_bind]
    rfl

/-! ## Invocations -/

/-- An invocation of `sealSegment` or of `openSegment`, its state apart. -/
inductive Invocation where
  | sealSegment (index : ℕ) (isFinal : Bool) (plaintext : Bytes) (nonce : Option Bytes)
      (extra : Bytes)
  | openSegment (index : ℕ) (isFinal : Bool) (ciphertext tag : Bytes) (nonce : Option Bytes)
      (extra : Bytes)

namespace Invocation

def index : Invocation → ℕ
  | sealSegment index _ _ _ _ => index
  | openSegment index _ _ _ _ _ => index

def isFinal : Invocation → Bool
  | sealSegment _ isFinal _ _ _ => isFinal
  | openSegment _ isFinal _ _ _ _ => isFinal

/-- What it returns: a ciphertext, a tag and a nonce, or a plaintext. -/
def run (state : SealState) : Invocation → Except MlsError (SealedSegment ⊕ Bytes)
  | sealSegment index isFinal plaintext nonce extra =>
    .inl <$> WebcryptoMls.sealSegment state index isFinal plaintext nonce extra
  | openSegment index isFinal ciphertext tag nonce extra =>
    .inr <$> WebcryptoMls.openSegment state index isFinal ciphertext tag nonce extra

/-- Its outcome depends on a call of the AEAD with this key and this nonce. -/
def Uses (state : SealState) (invocation : Invocation) (key nonce : Bytes) : Prop :=
  ¬DependsOn (fun answers => invocation.run (state.withAead (.ofAnswers answers)))
    {c | ¬(c.key = key ∧ c.nonce = nonce)}

end Invocation

/-- The key and the nonce that a segment is sealed or opened with. -/
structure SegmentUse (state : SealState) (index : ℕ) (isFinal : Bool) (key nonce : Bytes) :
    Prop where
  key : segmentKey state index = .ok key
  nonce : ∃ given, segmentNonce state index isFinal given = .ok nonce

/-- The call that seals or opens a segment, if its key and its nonce can be derived. -/
def segmentCalls (state : SealState) (decrypts : Bool) (index : ℕ) (isFinal : Bool)
    (nonce : Option Bytes) (extra data : Bytes) : List AeadCall :=
  match segmentNonce state index isFinal nonce, segmentKey state index,
    segmentAad state index isFinal extra with
  | .ok nonce, .ok key, .ok aad =>
    [{ decrypts := decrypts, key := key, nonce := nonce, aad := aad, data := data }]
  | _, _, _ => []

section
variable {state : SealState} {index : ℕ} {isFinal decrypts : Bool} {nonce : Option Bytes}
  {extra data : Bytes}

theorem segmentCalls_use {c : AeadCall}
    (h : c ∈ segmentCalls state decrypts index isFinal nonce extra data) :
    SegmentUse state index isFinal c.key c.nonce := by
  unfold segmentCalls at h
  cases hnonce : segmentNonce state index isFinal nonce with
  | error e => simp [hnonce] at h
  | ok nonce' =>
    cases hkey : segmentKey state index with
    | error e => simp [hnonce, hkey] at h
    | ok key =>
      cases haad : segmentAad state index isFinal extra with
      | error e => simp [hnonce, hkey, haad] at h
      | ok aad =>
        simp only [hnonce, hkey, haad, List.mem_singleton] at h
        subst h
        exact ⟨hkey, nonce, hnonce⟩

theorem segmentCalls_of_ok {nonce' key aad : Bytes}
    (hnonce : segmentNonce state index isFinal nonce = .ok nonce')
    (hkey : segmentKey state index = .ok key)
    (haad : segmentAad state index isFinal extra = .ok aad) :
    segmentCalls state decrypts index isFinal nonce extra data =
      [{ decrypts := decrypts, key := key, nonce := nonce', aad := aad, data := data }] := by
  simp only [segmentCalls, hnonce, hkey, haad]

/-- One call at most. -/
theorem pairwise_segmentCalls {R : AeadCall → AeadCall → Prop} :
    (segmentCalls state decrypts index isFinal nonce extra data).Pairwise R := by
  unfold segmentCalls
  split <;> simp

/-- A segment that is sealed was sealed with a call that was answered. -/
theorem sealSegment_use {sealed : SealedSegment}
    (h : sealSegment state index isFinal data nonce extra = .ok sealed) :
    ∃ c, segmentCalls state false index isFinal nonce extra data = [c] ∧ c.data = data ∧
      c.decrypts = false ∧ ∃ bytes, state.crypto.aead.answers c = .ok bytes := by
  obtain ⟨nonce', hnonce, h⟩ := bind_eq_ok.mp h
  obtain ⟨key, hkey, h⟩ := bind_eq_ok.mp h
  obtain ⟨aad, haad, h⟩ := bind_eq_ok.mp h
  obtain ⟨bytes, hbytes, -⟩ := bind_eq_ok.mp h
  exact ⟨_, segmentCalls_of_ok hnonce hkey haad, rfl, rfl, bytes, hbytes⟩

theorem openSegment_use {ciphertext tag plaintext : Bytes}
    (h : openSegment state index isFinal ciphertext tag nonce extra = .ok plaintext) :
    ∃ c, segmentCalls state true index isFinal nonce extra (concatAll [ciphertext, tag]) = [c] ∧
      state.crypto.aead.answers c = .ok plaintext := by
  obtain ⟨nonce', hnonce, h⟩ := bind_eq_ok.mp h
  split_ifs at h
  obtain ⟨key, hkey, h⟩ := bind_eq_ok.mp h
  obtain ⟨aad, haad, h⟩ := bind_eq_ok.mp h
  refine ⟨_, segmentCalls_of_ok hnonce hkey haad, ?_⟩
  split at h
  · cases h
  · rename_i hdecrypt
    obtain rfl := Except.ok.inj h
    exact hdecrypt

theorem sealSegment_dependsOn :
    DependsOn (fun answers =>
      sealSegment (state.withAead (.ofAnswers answers)) index isFinal data nonce extra)
      {c | c ∈ segmentCalls state false index isFinal nonce extra data} := by
  simp only [sealSegment, segmentNonce_withAead, segmentKey_withAead, segmentAad_withAead]
  cases hnonce : segmentNonce state index isFinal nonce with
  | error e => exact fun _ _ _ => rfl
  | ok nonce' =>
    cases hkey : segmentKey state index with
    | error e => exact fun _ _ _ => rfl
    | ok key =>
      cases haad : segmentAad state index isFinal extra with
      | error e => exact fun _ _ _ => rfl
      | ok aad =>
        rw [segmentCalls_of_ok hnonce hkey haad]
        intro answer other hagree
        have hcall := hagree _ (List.mem_singleton_self _)
        simp only [ok_bind, SealState.withAead_aead, Aead.ofAnswers, hcall]
        rfl

theorem openSegment_dependsOn {ciphertext tag : Bytes} :
    DependsOn (fun answers =>
      openSegment (state.withAead (.ofAnswers answers)) index isFinal ciphertext tag nonce extra)
      {c | c ∈ segmentCalls state true index isFinal nonce extra (concatAll [ciphertext, tag])} := by
  simp only [openSegment, segmentNonce_withAead, segmentKey_withAead, segmentAad_withAead]
  cases hnonce : segmentNonce state index isFinal nonce with
  | error e => exact fun _ _ _ => rfl
  | ok nonce' =>
    cases hkey : segmentKey state index with
    | error e => exact fun _ _ _ => rfl
    | ok key =>
      cases haad : segmentAad state index isFinal extra with
      | error e => exact fun _ _ _ => rfl
      | ok aad =>
        rw [segmentCalls_of_ok hnonce hkey haad]
        intro answer other hagree
        have hcall := hagree _ (List.mem_singleton_self _)
        simp only [ok_bind, SealState.withAead_aead, Aead.ofAnswers, hcall]
        rfl

end

/-- The call that an invocation makes. -/
def Invocation.calls (state : SealState) : Invocation → List AeadCall
  | sealSegment index isFinal plaintext nonce extra =>
    segmentCalls state false index isFinal nonce extra plaintext
  | openSegment index isFinal ciphertext tag nonce extra =>
    segmentCalls state true index isFinal nonce extra (concatAll [ciphertext, tag])

theorem Invocation.run_dependsOn (state : SealState) (invocation : Invocation) :
    DependsOn (fun answers => invocation.run (state.withAead (.ofAnswers answers)))
      {c | c ∈ invocation.calls state} := by
  cases invocation with
  | sealSegment => exact sealSegment_dependsOn.map fun sealed => Sum.inl <$> sealed
  | openSegment => exact openSegment_dependsOn.map fun plaintext => Sum.inr <$> plaintext

/-- An invocation uses a key and a nonce that are of its index and its finality. -/
theorem Invocation.Uses.segmentUse {state : SealState} {invocation : Invocation}
    {key nonce : Bytes} (h : invocation.Uses state key nonce) :
    SegmentUse state invocation.index invocation.isFinal key nonce := by
  obtain ⟨c, hc, hused⟩ := (invocation.run_dependsOn state).exists_asked h
  obtain ⟨rfl, rfl⟩ := not_not.mp hused
  cases invocation <;> exact segmentCalls_use hc

theorem Invocation.calls_of_ok {state : SealState} {invocation : Invocation}
    {result : SealedSegment ⊕ Bytes} (h : invocation.run state = .ok result) :
    ∃ c, invocation.calls state = [c] ∧ ∃ bytes, state.crypto.aead.answers c = .ok bytes := by
  cases invocation with
  | sealSegment =>
    obtain ⟨sealed, hsealed, -⟩ := map_eq_ok.mp h
    obtain ⟨c, hc, -, -, hbytes⟩ := sealSegment_use hsealed
    exact ⟨c, hc, hbytes⟩
  | openSegment =>
    obtain ⟨plaintext, hplaintext, -⟩ := map_eq_ok.mp h
    obtain ⟨c, hc, hbytes⟩ := openSegment_use hplaintext
    exact ⟨c, hc, plaintext, hbytes⟩

/-- One that returns has used the key and the nonce it derived: had the AEAD refused
them, it would have thrown. -/
theorem Invocation.exists_uses {state : SealState} {invocation : Invocation}
    {result : SealedSegment ⊕ Bytes} (h : invocation.run state = .ok result) :
    ∃ key nonce, invocation.Uses state key nonce := by
  obtain ⟨c, hcalls, -⟩ := calls_of_ok h
  refine ⟨c.key, c.nonce, fun hother => ?_⟩
  let refused : AeadCall → Except MlsError Bytes := fun q =>
    if q.key = c.key ∧ q.nonce = c.nonce then .error attachmentError
    else state.crypto.aead.answers q
  have hsame := @hother state.crypto.aead.answers refused fun q hq => (if_neg hq).symm
  simp only [Aead.ofAnswers_answers, SealState.withAead_self, h] at hsame
  obtain ⟨c', hcalls', bytes, hbytes⟩ := calls_of_ok hsame.symm
  obtain rfl := List.singleton_inj.mp (hcalls.symm.trans hcalls')
  simp [refused] at hbytes

/-! ## Sealing an object -/

/-- The call of a round of `sealObject`. -/
def roundCalls (state : SealState) (l : Layout) (plaintext : Bytes) (i : ℕ) : List AeadCall :=
  segmentCalls state false i (i == l.nSeg - 1) none [] (partOf plaintext i)

/-- The calls of `sealObject`, segment by segment. -/
def objectCalls (cek objectId plaintext salt : Bytes) (crypto : SealCrypto) : List AeadCall :=
  match startSeal cek (sealParams crypto salt) objectId crypto,
    layout (layoutParams plaintext.length crypto) with
  | .ok state, .ok l => (List.range l.nSeg).flatMap (roundCalls state l plaintext)
  | _, _ => []

section
variable {state : SealState} {l : Layout} {p : LayoutParams}
  {cek objectId plaintext salt bytes bytes' : Bytes} {crypto : SealCrypto} {i : ℕ}

/-- Once its segment is sealed, a round asks nothing more. -/
theorem exists_sealRound_eq (state : SealState) (l : Layout) (p : LayoutParams)
    (plaintext bytes : Bytes) (i : ℕ) :
    ∃ store : SealedSegment → Except MlsError Bytes, ∀ aead,
      sealRound (state.withAead aead) l p plaintext bytes i =
        sealSegment (state.withAead aead) i (i == l.nSeg - 1) (partOf plaintext i) none [] >>=
          store := by
  refine ⟨fun sealed => do
    let br ← blockRange l p i
    let bytes ← setBytes bytes sealed.ciphertext br.offset
    let leaf ← segmentLeaf state sealed.ciphertext sealed.tag
    setBytes bytes leaf (metaRange l i).offset, fun aead => ?_⟩
  rw [partOf, ← slice_min_length, Nat.succ_mul]
  rfl

theorem sealRound_dependsOn :
    DependsOn (fun answers =>
      sealRound (state.withAead (.ofAnswers answers)) l p plaintext bytes i)
      {c | c ∈ roundCalls state l plaintext i} := by
  obtain ⟨store, heq⟩ := exists_sealRound_eq state l p plaintext bytes i
  simp only [heq]
  exact sealSegment_dependsOn.map fun sealed => sealed >>= store

theorem sealRound_calls (h : sealRound state l p plaintext bytes i = .ok bytes') :
    ∃ c, roundCalls state l plaintext i = [c] ∧ c.data = partOf plaintext i ∧
      c.decrypts = false := by
  obtain ⟨store, heq⟩ := exists_sealRound_eq state l p plaintext bytes i
  rw [← state.withAead_self, heq] at h
  obtain ⟨sealed, hsealed, -⟩ := bind_eq_ok.mp h
  obtain ⟨c, hc, hdata, hencrypts, -⟩ := sealSegment_use hsealed
  exact ⟨c, hc, hdata, hencrypts⟩

/-- Sealing an object asks the AEAD for nothing but its segments. -/
theorem sealObject_dependsOn (cek objectId plaintext salt : Bytes) (crypto : SealCrypto) :
    DependsOn (fun answers =>
      sealObject cek objectId plaintext salt (crypto.withAead (.ofAnswers answers)))
      {c | c ∈ objectCalls cek objectId plaintext salt crypto} := by
  have hparams : ∀ aead, sealParams (crypto.withAead aead) salt = sealParams crypto salt :=
    fun _ => rfl
  have hlayoutParams : ∀ aead, layoutParams plaintext.length (crypto.withAead aead) =
      layoutParams plaintext.length crypto := fun _ => rfl
  intro answer other hagree
  simp only [sealObject, hparams, hlayoutParams, startSeal_withAead]
  cases hstate : startSeal cek (sealParams crypto salt) objectId crypto with
  | error e => rfl
  | ok state =>
    cases hlayout : layout (layoutParams plaintext.length crypto) with
    | error e => rfl
    | ok l =>
      have hrounds : DependsOn (fun answers => (List.range l.nSeg).foldlM
          (sealRound (state.withAead (.ofAnswers answers)) l
            (layoutParams plaintext.length crypto) plaintext) (List.replicate l.totalSize 0))
          {c | ∃ i ∈ List.range l.nSeg, c ∈ roundCalls state l plaintext i} :=
        DependsOn.foldlM _ fun bytes i _ => sealRound_dependsOn
      have heq := hrounds (x := answer) (y := other) fun c hc => hagree c (by
        simp only [objectCalls, hstate, hlayout]
        exact List.mem_flatMap.mpr hc)
      simp only [map_ok, ok_bind, heq]
      rfl

/-- An object that is sealed has each byte of its plaintext encrypted by a call. -/
theorem objectCalls_of_sealObject {sealed : SealedObject}
    (h : sealObject cek objectId plaintext salt crypto = .ok sealed) :
    concatAll ((objectCalls cek objectId plaintext salt crypto).map AeadCall.data) = plaintext ∧
      ∀ c ∈ objectCalls cek objectId plaintext salt crypto, c.decrypts = false := by
  obtain ⟨_, -, h⟩ := bind_eq_ok.mp h
  split_ifs at h
  obtain ⟨state, hstate, h⟩ := bind_eq_ok.mp h
  obtain ⟨l, hlayout, h⟩ := bind_eq_ok.mp h
  obtain ⟨bytes, hrounds, -⟩ := bind_eq_ok.mp h
  have hround : ∀ i ∈ List.range l.nSeg, ∃ c, roundCalls state l plaintext i = [c] ∧
      c.data = partOf plaintext i ∧ c.decrypts = false := by
    intro i hi
    obtain ⟨before, after, hround⟩ := foldlM_round_ok hrounds hi
    exact sealRound_calls hround
  simp only [objectCalls, hstate, hlayout]
  constructor
  · have hdata : ((List.range l.nSeg).flatMap (roundCalls state l plaintext)).map AeadCall.data =
        (List.range l.nSeg).map (partOf plaintext) := by
      rw [List.map_flatMap, List.map_eq_flatMap]
      refine List.flatMap_congr fun i hi => ?_
      obtain ⟨c, hc, hdata, -⟩ := hround i hi
      rw [hc, List.map_singleton, hdata]
    rw [hdata, flatten_partOf (layout_eq_ok SEGMENT_MAX_pos hlayout)]
  · intro c hc
    obtain ⟨i, hi, hc⟩ := List.mem_flatMap.mp hc
    obtain ⟨c', hc', -, hencrypts⟩ := hround i hi
    rw [hc', List.mem_singleton] at hc
    rw [hc, hencrypts]

end

end WebcryptoMls
