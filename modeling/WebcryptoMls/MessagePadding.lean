import WebcryptoMls.MessageProtection

/-!
# Padded private messages

Behind the content of a private message stand zeros, and nothing says how many.
A receiver finds the content all the same, since its decoder reads no further than
the encoding goes, and takes nothing but zeros behind it.
-/
namespace WebcryptoMls

open PrefixCode

/-- A content as it stands before the padding. -/
def encodeUnpadded : Encoder PrivateMessageContent := contramapEncoders [
  contramapEncoder encodeUntypedContent PrivateMessageContent.info,
  contramapEncoder encodeFramedContentAuthData PrivateMessageContent.auth]

/-- The authentication data is of the content's type. -/
structure PrivateMessageContent.WellFormed (msg : PrivateMessageContent) : Prop where
  info : msg.info.WellFormed
  auth : msg.auth.content.contentType = msg.info.contentType

theorem encodePrivateMessageContent_eq_ok {config : PaddingConfig} {msg : PrivateMessageContent}
    {b : Bytes} :
    encodePrivateMessageContent config msg = .ok b ↔
      ∃ x, encodeUnpadded msg = .ok x ∧
        b = x ++ List.replicate (byteLengthToPad x.length config) 0 := by
  rw [encodePrivateMessageContent, bind_eq_ok]
  simp [encodeUnpadded, pure, Except.pure, eq_comm]

theorem length_add_byteLengthToPad (n m : ℕ) :
    n + byteLengthToPad n (.padUntilLength m) = max n m := by
  simp only [byteLengthToPad]
  omega

/-! ## Behind the content -/

theorem recovers_untypedContent {info : FramedContentInfo} (h : info.WellFormed) :
    Recovers (decodeUntypedContent info.contentType) (encodeUntypedContent info) info := by
  cases info with
  | application applicationData => exact (recovers_varLenData applicationData).map
  | proposal p => exact (recovers_proposal h).map
  | commit c => exact (recovers_commit h).map

/-- What stands behind a string that recovers a value decides whether the value is taken. -/
theorem decoderWithPadding_of_recovers {α : Type} {dec : Decoder α} {s : Except MlsError Bytes}
    {a : α} (h : Recovers dec s a) {x : Bytes} (hx : s = .ok x) (padding : Bytes) :
    decoderWithPadding dec (x ++ padding) 0 =
      if padding.all (· == 0) then .ok (some (a, (x ++ padding).length)) else .ok none := by
  have hd := h [] x padding hx
  simp only [List.nil_append, List.length_nil] at hd
  simp only [decoderWithPadding, hd, Nat.zero_add, List.drop_left]

theorem decodePrivateMessageContent_append {msg : PrivateMessageContent} (h : msg.WellFormed)
    {x : Bytes} (hx : encodeUnpadded msg = .ok x) (padding : Bytes) :
    decodePrivateMessageContent msg.info.contentType (x ++ padding) 0 =
      if padding.all (· == 0) then .ok (some (msg, (x ++ padding).length)) else .ok none := by
  have hauth := recovers_framedContentAuthData msg.auth
  rw [h.auth] at hauth
  have hmsg : Recovers (decodeUntypedContent msg.info.contentType >>= fun info =>
      decodeFramedContentAuthData msg.info.contentType >>= fun auth =>
        pure { info := info, auth := auth }) (encodeUnpadded msg) msg :=
    .field (recovers_untypedContent h.info) <| .field hauth recovers_nil
  exact decoderWithPadding_of_recovers hmsg hx padding

/-! ## The padding -/

/-- A padded content is read back whole; a byte behind it that is not zero has it
refused; and below a floor all contents come out at the floor. -/
theorem private_message_padding :
    (∀ config msg b, PrivateMessageContent.WellFormed msg →
      encodePrivateMessageContent config msg = .ok b →
        decodePrivateMessageContent msg.info.contentType b 0 = .ok (some (msg, b.length))) ∧
    (∀ config msg x b padding, PrivateMessageContent.WellFormed msg →
      encodeUnpadded msg = .ok x → encodePrivateMessageContent config msg = .ok b →
        (x ++ padding).length = b.length → (∃ y ∈ padding, y ≠ 0) →
          decodePrivateMessageContent msg.info.contentType (x ++ padding) 0 = .ok none) ∧
    (∀ padUntilLength msg msg' x x' b b',
      encodeUnpadded msg = .ok x → encodeUnpadded msg' = .ok x' →
        x.length ≤ padUntilLength → x'.length ≤ padUntilLength →
          encodePrivateMessageContent (.padUntilLength padUntilLength) msg = .ok b →
            encodePrivateMessageContent (.padUntilLength padUntilLength) msg' = .ok b' →
              b.length = b'.length) ∧
    (∀ config msg x b, encodeUnpadded msg = .ok x → encodePrivateMessageContent config msg = .ok b →
      x <+: b) := by
  refine ⟨?_, ?_, ?_, ?_⟩
  · intro config msg b hmsg hb
    obtain ⟨x, hx, rfl⟩ := encodePrivateMessageContent_eq_ok.mp hb
    rw [decodePrivateMessageContent_append hmsg hx, if_pos (by simp)]
  · intro config msg x b padding hmsg hx _ _ ⟨y, hy, hne⟩
    have hall : ¬padding.all (· == 0) = true := by
      simp only [List.all_eq_true, beq_iff_eq, not_forall]
      exact ⟨y, hy, hne⟩
    rw [decodePrivateMessageContent_append hmsg hx, if_neg hall]
  · intro padUntilLength msg msg' x x' b b' hx hx' hle hle' hb hb'
    have hlen : ∀ {msg x b}, encodeUnpadded msg = .ok x → x.length ≤ padUntilLength →
        encodePrivateMessageContent (.padUntilLength padUntilLength) msg = .ok b →
          b.length = padUntilLength := by
      intro msg x b hx hle hb
      obtain ⟨z, hz, rfl⟩ := encodePrivateMessageContent_eq_ok.mp hb
      obtain rfl := Except.ok.inj (hx.symm.trans hz)
      rw [List.length_append, List.length_replicate, length_add_byteLengthToPad,
        Nat.max_eq_right hle]
    rw [hlen hx hle hb, hlen hx' hle' hb']
  · intro config msg x b hx hb
    obtain ⟨z, hz, rfl⟩ := encodePrivateMessageContent_eq_ok.mp hb
    obtain rfl := Except.ok.inj (hx.symm.trans hz)
    exact List.prefix_append _ _

/-- Three bytes to say, and a signature of two. -/
def shortContent : PrivateMessageContent :=
  { info := .application [1, 2, 3]
    auth := { signature := [8, 9], content := .application } }

def longerContent : PrivateMessageContent :=
  { shortContent with info := .application [1, 2, 3, 4, 5] }

theorem private_message_padding_short :
    decodePrivateMessageContent .application [3, 1, 2, 3, 2, 8, 9, 0, 0, 0] 0 =
        .ok (some (shortContent, 10)) ∧
      decodePrivateMessageContent .application [3, 1, 2, 3, 2, 8, 9, 0, 1, 0] 0 = .ok none ∧
      [3, 1, 2, 3, 2, 8, 9, 0, 0, 0].length = [5, 1, 2, 3, 4, 5, 2, 8, 9, 0].length ∧
      [3, 1, 2, 3, 2, 8, 9] <+: ([3, 1, 2, 3, 2, 8, 9, 0, 0, 0] : Bytes) :=
  ⟨private_message_padding.1 (.padUntilLength 10) shortContent _ ⟨trivial, rfl⟩ (by decide +kernel),
    private_message_padding.2.1 (.padUntilLength 10) shortContent [3, 1, 2, 3, 2, 8, 9]
      [3, 1, 2, 3, 2, 8, 9, 0, 0, 0] [0, 1, 0] ⟨trivial, rfl⟩ (by decide +kernel)
      (by decide +kernel) rfl ⟨1, by decide, by decide⟩,
    private_message_padding.2.2.1 10 shortContent longerContent [3, 1, 2, 3, 2, 8, 9]
      [5, 1, 2, 3, 4, 5, 2, 8, 9] [3, 1, 2, 3, 2, 8, 9, 0, 0, 0] [5, 1, 2, 3, 4, 5, 2, 8, 9, 0]
      (by decide +kernel) (by decide +kernel) (by decide) (by decide) (by decide +kernel)
      (by decide +kernel),
    private_message_padding.2.2.2 (.padUntilLength 10) shortContent _ _ (by decide +kernel)
      (by decide +kernel)⟩

end WebcryptoMls
