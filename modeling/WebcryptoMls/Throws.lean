import WebcryptoMls.GroupContext
import WebcryptoMls.ConfinedDecoders

/-!
# What a computation throws

A computation throws only errors of some kind when its parts do. The encoders throw
nothing but a `CodecError`, and a loop that a budget of rounds bounds throws only such
errors exactly when it ends within the budget.
-/
namespace WebcryptoMls
open PrefixCode

def ThrowsOnly (E : MlsError → Prop) {α : Type} (x : Except MlsError α) : Prop :=
  ∀ e, x = .error e → E e

section
variable {E : MlsError → Prop} {α β : Type}

theorem throwsOnly_ok (a : α) : ThrowsOnly E (.ok a) := fun _ h => nomatch h

theorem throwsOnly_pure (a : α) : ThrowsOnly E (pure a) := throwsOnly_ok a

/-- The second step is asked only for what the first can return. -/
theorem ThrowsOnly.bind_of {x : Except MlsError α} {f : α → Except MlsError β}
    (hx : ThrowsOnly E x) (hf : ∀ a, x = .ok a → ThrowsOnly E (f a)) : ThrowsOnly E (x >>= f) := by
  intro e he
  cases x with
  | error e' =>
    rw [error_bind] at he
    exact hx e (by rw [Except.error.inj he])
  | ok a =>
    rw [ok_bind] at he
    exact hf a rfl e he

theorem ThrowsOnly.bind {x : Except MlsError α} {f : α → Except MlsError β}
    (hx : ThrowsOnly E x) (hf : ∀ a, ThrowsOnly E (f a)) : ThrowsOnly E (x >>= f) :=
  hx.bind_of fun a _ => hf a

theorem ThrowsOnly.mapM {f : α → Except MlsError β} {l : List α}
    (h : ∀ a ∈ l, ThrowsOnly E (f a)) : ThrowsOnly E (l.mapM f) := by
  induction l with
  | nil => exact throwsOnly_pure []
  | cons a l ih =>
    rw [List.forall_mem_cons] at h
    rw [List.mapM_cons]
    exact h.1.bind fun b => (ih h.2).bind fun bs => throwsOnly_pure (b :: bs)

theorem ThrowsOnly.foldlM {f : β → α → Except MlsError β} {l : List α}
    (h : ∀ a ∈ l, ∀ b, ThrowsOnly E (f b a)) (b : β) : ThrowsOnly E (l.foldlM f b) := by
  induction l generalizing b with
  | nil => exact throwsOnly_pure b
  | cons a l ih =>
    rw [List.forall_mem_cons] at h
    rw [List.foldlM_cons]
    exact (h.1 b).bind fun b' => ih h.2 b'

theorem ThrowsOnly.firstError {check : α → Except MlsError (Option MlsError)} {l : List α}
    (h : ∀ a ∈ l, ThrowsOnly E (check a)) : ThrowsOnly E (firstError check l) := by
  induction l with
  | nil => exact throwsOnly_pure none
  | cons a l ih =>
    rw [List.forall_mem_cons] at h
    rw [WebcryptoMls.firstError]
    refine h.1.bind fun err => ?_
    cases err with
    | some e => exact throwsOnly_pure (some e)
    | none => exact ih h.2

end

/-! ## Encoders -/

/-- The encoder throws nothing but a `CodecError`. -/
def Encodes {α : Type} (enc : Encoder α) : Prop := ∀ a, ThrowsOnly IsCodecError (enc a)

section
variable {α β : Type}

theorem encodes_uint (w : ℕ) : Encodes (encodeUint w) := by
  intro n e he
  simp only [encodeUint, assertUintRange] at he
  split_ifs at he
  · cases he
    rfl
  · cases he

theorem encodes_uint64 : Encodes encodeUint64 := fun _ => throwsOnly_pure _

theorem encodeLength_throws (len : ℕ) : ThrowsOnly IsCodecError (encodeLength len) := by
  intro e he
  simp only [encodeLength] at he
  split_ifs at he <;> cases he
  rfl

theorem encodes_varLenData : Encodes encodeVarLenData := fun data =>
  (encodeLength_throws data.length).bind fun _ => throwsOnly_pure _

theorem Encodes.comp {enc : Encoder α} (h : Encodes enc) (f : β → α) :
    Encodes (contramapEncoder enc f) :=
  fun b => h (f b)

theorem Encodes.list {enc : Encoder α} (h : Encodes enc) : Encodes (encodeVarLenType enc) := by
  intro data
  have hparts : ThrowsOnly IsCodecError (items enc data) :=
    (ThrowsOnly.mapM fun a _ => h a).bind fun _ => throwsOnly_pure _
  exact hparts.bind fun body => (encodeLength_throws body.length).bind fun _ => throwsOnly_pure _

theorem Encodes.optional {enc : Encoder α} (h : Encodes enc) : Encodes (encodeOptional enc) := by
  intro o
  cases o with
  | none => exact throwsOnly_pure _
  | some a => exact (h a).bind fun _ => throwsOnly_pure _

/-- Fields back to back. -/
theorem encodes_fields {es : List (Encoder α)} (h : ∀ enc ∈ es, Encodes enc) :
    Encodes (contramapEncoders es) :=
  fun a => (ThrowsOnly.mapM fun enc he => h enc he a).bind fun _ => throwsOnly_pure _

end

theorem encodes_credential : Encodes encodeCredential := by
  intro credential
  have htag : ∀ t : CredentialTypeName, ∀ α : Type, Encodes
      (contramapEncoder encodeCredentialType fun _ : α => t) :=
    fun t α => ((encodes_uint 2).comp _).comp _
  cases credential with
  | basic identity =>
    refine encodes_fields ?_ identity
    simp [htag, encodes_varLenData]
  | x509 certificates =>
    refine encodes_fields ?_ certificates
    simp [htag, encodes_varLenData.list]
  | custom codePoint data =>
    refine encodes_fields ?_ data
    simp [htag, encodes_varLenData]

theorem encodes_capabilities : Encodes encodeCapabilities := by
  refine encodes_fields ?_
  simp only [List.forall_mem_cons]
  exact ⟨((encodes_uint 2).comp _).list.comp _, ((encodes_uint 2).comp _).list.comp _,
    (encodes_uint 2).list.comp _, (encodes_uint 2).list.comp _,
    ((encodes_uint 2).comp _).list.comp _, by simp⟩

theorem encodes_extension : Encodes encodeExtension := by
  refine encodes_fields ?_
  simp only [List.forall_mem_cons]
  exact ⟨((encodes_uint 2).comp _).comp _, encodes_varLenData.comp _, by simp⟩

theorem encodes_leafNodeData : Encodes encodeLeafNodeData := by
  refine encodes_fields ?_
  simp only [List.forall_mem_cons]
  exact ⟨encodes_varLenData.comp _, encodes_varLenData.comp _, encodes_credential.comp _,
    encodes_capabilities.comp _, by simp⟩

theorem encodes_lifetime : Encodes encodeLifetime := by
  refine encodes_fields ?_
  simp only [List.forall_mem_cons]
  exact ⟨encodes_uint64.comp _, encodes_uint64.comp _, by simp⟩

theorem encodes_leafNodeInfo : Encodes encodeLeafNodeInfo := by
  intro info
  have hsource : Encodes encodeLeafNodeSource := (encodes_uint 1).comp _
  cases info with
  | key_package lifetime =>
    refine encodes_fields ?_ lifetime
    simp [hsource.comp, encodes_lifetime]
  | update => exact hsource .update
  | commit parentHash =>
    refine encodes_fields ?_ parentHash
    simp [hsource.comp, encodes_varLenData]

theorem encodes_leafNodeExtensions : Encodes encodeLeafNodeExtensions := encodes_extension.list.comp _

theorem encodes_leafNode : Encodes encodeLeafNode := by
  refine encodes_fields ?_
  simp only [List.forall_mem_cons]
  exact ⟨encodes_leafNodeData, encodes_leafNodeInfo.comp _, encodes_leafNodeExtensions,
    encodes_varLenData.comp _, by simp⟩

theorem encodes_parentNode : Encodes encodeParentNode := by
  have huint : Encodes fun n : ℕ => encodeUint32 n := fun n => encodes_uint 4 n
  refine encodes_fields ?_
  simp only [List.forall_mem_cons]
  exact ⟨encodes_varLenData.comp _, encodes_varLenData.comp _, huint.list.comp _, by simp⟩

theorem encodes_leafNodeTBS (info : LeafNodeGroupInfo) : Encodes (encodeLeafNodeTBS info) := by
  have hinfo : Encodes encodeLeafNodeGroupInfo := by
    intro i
    cases i with
    | key_package => exact throwsOnly_pure _
    | member groupId leafIndex =>
      exact (encodes_varLenData _).bind fun _ => (encodes_uint 4 _).bind fun _ => throwsOnly_pure _
  refine encodes_fields ?_
  simp only [List.forall_mem_cons]
  exact ⟨encodes_leafNodeData, encodes_leafNodeInfo.comp _, encodes_leafNodeExtensions,
    hinfo.comp _, by simp⟩

theorem encodeLabelled_throws (label : String) (content : Bytes) :
    ThrowsOnly IsCodecError (encodeLabelled label content) :=
  (encodes_varLenData _).bind fun _ => (encodes_varLenData _).bind fun _ => throwsOnly_pure _

theorem verifyWithLabel_throws (publicKey : Bytes) (label : String) (content signature : Bytes)
    (s : Signature) : ThrowsOnly IsCodecError (verifyWithLabel publicKey label content signature s) :=
  (encodeLabelled_throws label content).bind fun _ => throwsOnly_pure _

end WebcryptoMls
