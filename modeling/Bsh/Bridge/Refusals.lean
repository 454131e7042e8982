import Bsh.Bridge.Dispatch

/-!
# Checks and exceptions

What the handlers check is refused with a message; what they do not check turns into an exception:
a `LINK_DELIVER` counter that is no integer, an envelope whose plaintext is `null`, times that do
not fit the transcript and a client key that is no curve point.
-/

namespace Bsh.Bridge

open Bsh.Library Bsh.BrightLink Utf Json

variable {P : Primitives} {R : Type}

/-! ## Checks that refuse with a message -/

/-- A check that does not throw. -/
def Checked.Typed {α : Type} (c : Checked α) : Prop := ∀ e, c ≠ .error (.exception e)

section Typed

variable {α β : Type}

theorem typed_ok (a : α) : Checked.Typed (.ok a : Checked α) := by
  intro e h
  cases h

theorem typed_message (text : JsString) : Checked.Typed (.error (.message text) : Checked α) := by
  intro e h
  cases h

theorem typed_bind {x : Checked α} {f : α → Checked β} (hx : x.Typed)
    (hf : ∀ a, x = .ok a → (f a).Typed) : Checked.Typed (x >>= f) := by
  intro e h
  rcases bind_eq_error.mp h with h | ⟨a, ha, h⟩
  · exact hx e h
  · exact hf a ha e h

theorem typed_requireThat (message : String) (condition : Bool) :
    (requireThat message condition).Typed := by
  unfold requireThat
  split
  · exact typed_ok ()
  · exact typed_message _

theorem typed_requireString (message : String) (p : Property) :
    (requireString message p).Typed := by
  unfold requireString
  split
  · exact typed_ok _
  · exact typed_message _

theorem typed_requireBase64 (message : String) (s : JsString) :
    (requireBase64 message s).Typed := by
  unfold requireBase64
  split
  · exact typed_ok _
  · exact typed_message _

theorem typed_requireNumber (p : Property) : (requireNumber p).Typed := by
  unfold requireNumber
  split
  · exact typed_ok _
  · exact typed_message _

theorem typed_checkedProperty {v : Json} (h : v ≠ .null) (name : String) :
    (checkedProperty name v).Typed := by
  obtain ⟨p, hp⟩ := property_isOk h (js name)
  unfold checkedProperty
  rw [hp]
  exact typed_ok p

theorem typed_requireBytes (name message : String) (members : Members) :
    (requireBytes name message (.obj members)).Typed := by
  apply typed_bind (typed_checkedProperty (by simp) name)
  intro p _
  apply typed_bind (typed_requireString _ _)
  intro s _
  exact typed_requireBase64 _ _

end Typed

theorem typed_registerFields (members : Members) : (registerFields (.obj members)).Typed := by
  have hmember := fun name ↦ typed_checkedProperty (v := .obj members) (by simp) name
  refine typed_bind (hmember _) fun version _ ↦ ?_
  refine typed_bind (typed_requireThat _ _) fun _ _ ↦ ?_
  refine typed_bind (hmember _) fun nonce _ ↦ ?_
  refine typed_bind (typed_requireString _ _) fun nonceStr _ ↦ ?_
  refine typed_bind (typed_requireBase64 _ _) fun nonceBytes _ ↦ ?_
  refine typed_bind (typed_requireThat _ _) fun _ _ ↦ ?_
  refine typed_bind (hmember _) fun envelope _ ↦ ?_
  refine typed_bind (typed_requireString _ _) fun envelopeStr _ ↦ ?_
  refine typed_bind (typed_requireBase64 _ _) fun envelopeBytes _ ↦ ?_
  exact typed_ok _

theorem typed_envelopePlaintext {double : ℚ → Number} {bytes : Bytes}
    (h : parse double (utf8Decode bytes) ≠ some .null) :
    (envelopePlaintext double bytes).Typed := by
  unfold envelopePlaintext
  cases hparse : parse double (utf8Decode bytes) with
  | none => exact typed_bind (typed_message _) fun v hv ↦ by cases hv
  | some plaintext =>
    have hnull : plaintext ≠ .null := by
      intro hnull
      rw [hparse, hnull] at h
      exact h rfl
    have hmember := typed_checkedProperty hnull
    refine typed_bind (typed_ok plaintext) fun v hv ↦ ?_
    cases hv
    refine typed_bind (hmember _) fun version _ ↦ ?_
    refine typed_bind (typed_requireThat _ _) fun _ _ ↦ ?_
    refine typed_bind (hmember _) fun pub _ ↦ ?_
    refine typed_bind (typed_requireString _ _) fun pubStr _ ↦ ?_
    refine typed_bind (typed_requireBase64 _ _) fun pubBytes _ ↦ ?_
    refine typed_bind (typed_requireThat _ _) fun _ _ ↦ ?_
    refine typed_bind (hmember _) fun share _ ↦ ?_
    refine typed_bind (typed_requireString _ _) fun shareStr _ ↦ ?_
    refine typed_bind (typed_requireBase64 _ _) fun shareBytes _ ↦ ?_
    refine typed_bind (typed_requireThat _ _) fun _ _ ↦ ?_
    refine typed_bind (hmember _) fun issued _ ↦ ?_
    refine typed_bind (typed_requireNumber _) fun issuedAtBd _ ↦ ?_
    refine typed_bind (hmember _) fun ttl _ ↦ ?_
    refine typed_bind (typed_requireNumber _) fun ttlSeconds _ ↦ ?_
    refine typed_bind (typed_requireThat _ _) fun _ _ ↦ ?_
    refine typed_bind (hmember _) fun agent _ ↦ ?_
    exact typed_ok _

/-! ## Registrations -/

/-- The envelope of a request does not hold the plaintext `null`. -/
def PlaintextNotNull (config : BridgeConfig P R) (req : Json) : Prop :=
  ∀ nonce envelope plaintext, registerFields req = .ok (nonce, envelope) →
    decryptEnvelope P config.secp256k1Key.priv envelope = .ok plaintext →
      parse config.double (utf8Decode plaintext) ≠ some .null

theorem typed_checkRegistration_iff (config : BridgeConfig P R) (nowUnix : ℤ)
    (members : Members) :
    (checkRegistration config nowUnix (.obj members)).Typed ↔
      PlaintextNotNull config (.obj members) := by
  constructor
  · intro htyped nonce envelope plaintext hfields hdecrypt hnull
    apply htyped .typeError
    unfold checkRegistration
    rw [hfields]
    refine bind_eq_error.mpr (.inr ⟨_, rfl, ?_⟩)
    dsimp only
    rw [hdecrypt]
    refine bind_eq_error.mpr (.inr ⟨plaintext, rfl, ?_⟩)
    unfold envelopePlaintext
    rw [hnull]
    rfl
  · intro hnull
    refine typed_bind (typed_registerFields members) fun fields hfields ↦ ?_
    obtain ⟨nonce, envelope⟩ := fields
    dsimp only
    cases hdecrypt : decryptEnvelope P _ envelope with
    | error text => exact typed_bind (typed_message _) fun p hp ↦ by cases hp
    | ok bytes =>
      refine typed_bind (typed_ok bytes) fun b hb ↦ ?_
      cases hb
      refine typed_bind (typed_envelopePlaintext (hnull nonce envelope bytes hfields hdecrypt)) ?_
      intro plaintext _
      refine typed_bind (typed_requireThat _ _) fun _ _ ↦ ?_
      exact typed_ok _

variable {message : String} {p : Property}

theorem requireThat_eq_ok {condition : Bool} {u : Unit} :
    requireThat message condition = .ok u ↔ condition = true := by
  cases condition <;> simp [requireThat]

theorem checkRegistration_lengths {config : BridgeConfig P R} {nowUnix : ℤ} {req : Json}
    {nonce : Bytes} {plaintext : EnvelopePlaintext}
    (h : checkRegistration config nowUnix req = .ok (nonce, plaintext)) :
    nonce.length = 16 ∧ plaintext.clientPub.length = 65 ∧ plaintext.clientShare.length = 32 ∧
      plaintext.ttlSeconds.den = 1 := by
  obtain ⟨⟨nonce', envelope⟩, hfields, h⟩ := bind_eq_ok.mp h
  obtain ⟨bytes, hplaintext⟩ : ∃ bytes, envelopePlaintext config.double bytes = .ok plaintext ∧
      nonce' = nonce := by
    dsimp only at h
    cases hdecrypt : decryptEnvelope P _ envelope with
    | error text =>
      rw [hdecrypt] at h
      cases h
    | ok bytes =>
      rw [hdecrypt] at h
      obtain ⟨_, -, h⟩ := bind_eq_ok.mp h
      obtain ⟨plaintext', hplaintext, h⟩ := bind_eq_ok.mp h
      obtain ⟨_, -, h⟩ := bind_eq_ok.mp h
      cases h
      exact ⟨_, hplaintext, rfl⟩
  obtain ⟨hplaintext, rfl⟩ := hplaintext
  have hnonce : nonce'.length = 16 := by
    obtain ⟨_, -, hfields⟩ := bind_eq_ok.mp hfields
    obtain ⟨_, -, hfields⟩ := bind_eq_ok.mp hfields
    obtain ⟨_, -, hfields⟩ := bind_eq_ok.mp hfields
    obtain ⟨_, -, hfields⟩ := bind_eq_ok.mp hfields
    obtain ⟨nonceBytes, -, hfields⟩ := bind_eq_ok.mp hfields
    obtain ⟨_, hlength, hfields⟩ := bind_eq_ok.mp hfields
    obtain ⟨_, -, hfields⟩ := bind_eq_ok.mp hfields
    obtain ⟨_, -, hfields⟩ := bind_eq_ok.mp hfields
    obtain ⟨_, -, hfields⟩ := bind_eq_ok.mp hfields
    cases hfields
    exact of_decide_eq_true (requireThat_eq_ok.mp hlength)
  unfold envelopePlaintext at hplaintext
  cases hparse : parse config.double (utf8Decode bytes) with
  | none =>
    rw [hparse] at hplaintext
    cases hplaintext
  | some value =>
  rw [hparse] at hplaintext
  obtain ⟨_, -, h⟩ := bind_eq_ok.mp hplaintext
  obtain ⟨_, -, h⟩ := bind_eq_ok.mp h
  obtain ⟨_, -, h⟩ := bind_eq_ok.mp h
  obtain ⟨_, -, h⟩ := bind_eq_ok.mp h
  obtain ⟨_, -, h⟩ := bind_eq_ok.mp h
  obtain ⟨clientPub, -, h⟩ := bind_eq_ok.mp h
  obtain ⟨_, hpub, h⟩ := bind_eq_ok.mp h
  obtain ⟨_, -, h⟩ := bind_eq_ok.mp h
  obtain ⟨_, -, h⟩ := bind_eq_ok.mp h
  obtain ⟨clientShare, -, h⟩ := bind_eq_ok.mp h
  obtain ⟨_, hshare, h⟩ := bind_eq_ok.mp h
  obtain ⟨_, -, h⟩ := bind_eq_ok.mp h
  obtain ⟨issuedAtBd, -, h⟩ := bind_eq_ok.mp h
  obtain ⟨_, -, h⟩ := bind_eq_ok.mp h
  obtain ⟨ttlSeconds, -, h⟩ := bind_eq_ok.mp h
  obtain ⟨_, httl, h⟩ := bind_eq_ok.mp h
  obtain ⟨agent, -, h⟩ := bind_eq_ok.mp h
  cases h
  exact ⟨hnonce, (of_decide_eq_true (requireThat_eq_ok.mp hpub)).1,
    of_decide_eq_true (requireThat_eq_ok.mp hshare),
    of_decide_eq_true (requireThat_eq_ok.mp httl)⟩

/-- The times of a registration fit the fields of the transcript. -/
def TimesEncodable (double : ℚ → Number) (issuedAtBd : ℚ) (nowUnix : ℤ) : Prop :=
  (∃ issued, double (issuedAtBd * 86400) = .finite issued ∧ 0 ≤ mathRound issued ∧
    mathRound issued < 2 ^ 64) ∧ 0 ≤ nowUnix ∧ nowUnix < 2 ^ 64

theorem checkLength_eq_ok {length : ℕ} {field : Bytes} {u : Unit} :
    checkLength message length field = .ok u ↔ field.length = length := by
  unfold checkLength
  split
  · simp_all
  · simp_all

theorem writeUnsigned_isOk (width : ℕ) (value : ℤ) :
    (∃ field, writeUnsigned width value = .ok field) ↔ 0 ≤ value ∧ value < 256 ^ width := by
  unfold writeUnsigned
  split
  · simp_all
  · simp_all

theorem checkFinite_eq_ok {n : Number} {q : ℚ} :
    checkFinite message n = .ok q ↔ n = .finite q := by
  cases n <;> simp [checkFinite]

theorem checkInteger_eq_ok {inRange : ℤ → Bool} {n : Number} {k : ℤ} :
    checkInteger message inRange n = .ok k ↔ integerValue n = some k ∧ inRange k = true := by
  unfold checkInteger
  cases integerValue n with
  | none => simp
  | some m =>
    dsimp only
    split
    · simp only [Except.ok.injEq, Option.some.injEq]
      exact ⟨fun h ↦ ⟨h, h ▸ ‹_›⟩, fun h ↦ h.1⟩
    · simp only [reduceCtorEq, Option.some.injEq, false_iff, not_and]
      rintro rfl
      assumption

theorem integerValue_int (n : ℤ) : integerValue (.finite n) = some n := by
  simp [integerValue]

/-- The granted TTL of a whole number of seconds fits 32 bits. -/
theorem grantedTtl_range {ttlSeconds : ℚ} (h : ttlSeconds.den = 1) :
    ∃ n : ℤ, grantedTtl ttlSeconds = n ∧ 0 ≤ n ∧ n ≤ 0xffff_ffff := by
  have hint : ttlSeconds = ttlSeconds.num := (Rat.den_eq_one_iff _).mp h |>.symm
  refine ⟨min (max ttlSeconds.num 0) 28800, ?_, by omega, by omega⟩
  unfold grantedTtl linkMaxTtlSeconds
  rw [hint]
  norm_num

theorem buildTranscript_isOk {double : ℚ → Number} {clientNonce clientPub clientShare sessionId
    bridgeShare : Bytes} {issuedAtBd ttlSeconds : ℚ} {nowUnix : ℤ}
    (hnonce : clientNonce.length = 16) (hpub : clientPub.length = 65)
    (hshare : clientShare.length = 32) (hid : sessionId.length = 16)
    (hbridge : bridgeShare.length = 32) (httl : ttlSeconds.den = 1) :
    (∃ transcript, buildTranscript double clientNonce clientPub clientShare sessionId bridgeShare
      (.finite issuedAtBd) (.finite nowUnix) (.finite (grantedTtl ttlSeconds)) = .ok transcript) ↔
      TimesEncodable double issuedAtBd nowUnix := by
  obtain ⟨n, hn, hn0, hn32⟩ := grantedTtl_range httl
  unfold buildTranscript TimesEncodable
  simp only [hn, bind_eq_ok, checkLength_eq_ok, checkFinite_eq_ok, checkInteger_eq_ok,
    integerValue_int, Number.finite.injEq, Option.some.injEq]
  constructor
  · rintro ⟨_, _, -, _, -, _, -, _, -, _, -, _, rfl, _, ⟨rfl, -⟩, _, -, issued, hissued, _, hfield,
      _, hnow, -⟩
    have hissued' := (writeUnsigned_isOk 8 (mathRound issued)).mp ⟨_, hfield⟩
    have hnow' := (writeUnsigned_isOk 8 nowUnix).mp ⟨_, hnow⟩
    exact ⟨⟨issued, hissued, hissued'⟩, hnow'⟩
  · rintro ⟨⟨issued, hissued, hissued0, hissued64⟩, hnow0, hnow64⟩
    obtain ⟨issuedField, hfield⟩ := (writeUnsigned_isOk 8 (mathRound issued)).mpr
      ⟨hissued0, hissued64.trans_eq (by norm_num)⟩
    obtain ⟨nowField, hnow⟩ := (writeUnsigned_isOk 8 nowUnix).mpr
      ⟨hnow0, hnow64.trans_eq (by norm_num)⟩
    obtain ⟨ttlField, httlField⟩ := (writeUnsigned_isOk 4 n).mpr ⟨hn0, by omega⟩
    exact ⟨_, (), hnonce, (), hpub, (), hshare, (), hid, (), hbridge, _, rfl, _,
      ⟨rfl, decide_eq_true hnow0⟩, _, ⟨rfl, by simp [hn0, hn32]⟩, issued, hissued, _, hfield, _,
      hnow, _, httlField, rfl⟩

theorem agreeSession_isOk (hP : P.Correct) (config : BridgeConfig P R) (nowUnix : ℤ)
    {clientNonce bridgeShare sessionId : Bytes} {plaintext : EnvelopePlaintext}
    (hnonce : clientNonce.length = 16) (hpub : plaintext.clientPub.length = 65)
    (hshare : plaintext.clientShare.length = 32) (hid : sessionId.length = 16)
    (hbridge : bridgeShare.length = 32) (httl : plaintext.ttlSeconds.den = 1) :
    (∃ keys, agreeSession config nowUnix clientNonce plaintext bridgeShare sessionId = .ok keys) ↔
      TimesEncodable config.double plaintext.issuedAtBd nowUnix := by
  rw [← buildTranscript_isOk hnonce hpub hshare hid hbridge httl]
  have hinputs : buildSessionKeyHkdfInputs plaintext.clientShare bridgeShare clientNonce sessionId =
      .ok ⟨plaintext.clientShare ++ bridgeShare, clientNonce ++ sessionId, linkSessionKeyHkdfInfo,
        linkSessionKeyLength⟩ := by
    simp only [buildSessionKeyHkdfInputs, bind_eq_ok, checkLength_eq_ok]
    exact ⟨(), hshare, (), hbridge, (), hnonce, (), hid, rfl⟩
  obtain ⟨key, hkey, hlength⟩ := hP.hkdf_ok (plaintext.clientShare ++ bridgeShare)
    (clientNonce ++ sessionId) linkSessionKeyHkdfInfo
  unfold agreeSession
  rw [hinputs]
  constructor
  · rintro ⟨keys, h⟩
    obtain ⟨inputs, hok, h⟩ := bind_eq_ok.mp h
    cases hok
    simp only [linkSessionKeyLength, hkey] at h
    obtain ⟨_, -, h⟩ := bind_eq_ok.mp h
    obtain ⟨_, -, h⟩ := bind_eq_ok.mp h
    obtain ⟨transcript, htranscript, -⟩ := bind_eq_ok.mp h
    exact ⟨transcript, htranscript⟩
  · rintro ⟨transcript, htranscript⟩
    refine ⟨(key, config.identity.sign transcript), bind_eq_ok.mpr ⟨_, rfl, ?_⟩⟩
    simp only [linkSessionKeyLength, hkey]
    refine bind_eq_ok.mpr ⟨key, rfl, ?_⟩
    refine bind_eq_ok.mpr ⟨(), checkLength_eq_ok.mpr hlength, ?_⟩
    exact bind_eq_ok.mpr ⟨transcript, htranscript, rfl⟩

/-- The random bytes come in the length asked for, and a valid key is found among them. -/
structure BridgeConfig.RngOk (config : BridgeConfig P R) : Prop where
  length : ∀ rng n, (config.rng rng n).1.length = n
  key : ∀ rng, ∃ priv, (drawPrivateKey config config.keyAttempts rng).1 = some priv

theorem drawPrivateKey_valid (config : BridgeConfig P R) {priv : Bytes} {attempts : ℕ} {rng : R}
    (h : (drawPrivateKey config attempts rng).1 = some priv) : P.secpValid priv = true := by
  induction attempts generalizing rng with
  | zero => cases h
  | succ attempts ih =>
    rw [drawPrivateKey] at h
    dsimp only at h
    split at h
    · next hvalid =>
      cases h
      exact hvalid
    · exact ih h

/-- The envelope for the client is sealed unless its key is no point. -/
theorem encryptBasicEnvelope_isOk (hP : P.Correct) (hpoints : P.PointsAgree)
    (config : BridgeConfig P R) (hrng : config.RngOk) (plaintext recipientPub : Bytes) (rng : R) :
    (∃ envelope,
      (encryptBasicEnvelopeToClient config plaintext recipientPub rng).1 = .ok envelope) ↔
      (P.secpSharedX config.secp256k1Key.priv recipientPub).isSome = true := by
  obtain ⟨priv, hpriv⟩ := hrng.key rng
  have hvalid := drawPrivateKey_valid config hpriv
  rw [hpoints _ priv recipientPub config.secp256k1Key.valid hvalid]
  obtain ⟨compressed, hcompressed, -⟩ := hP.compressed_ok priv hvalid
  unfold encryptBasicEnvelopeToClient
  cases hdraw : drawPrivateKey config config.keyAttempts rng with
  | mk drawn rng' =>
    rw [hdraw] at hpriv
    cases hpriv
    simp only [hcompressed]
    cases hshared : P.secpSharedX priv recipientPub with
    | none => simp
    | some x32 =>
      obtain ⟨key, hkey, hlength⟩ := hP.hkdf_ok x32 [] eciesHkdfInfo
      obtain ⟨ct, tag, hseal, -⟩ := hP.gcm_ok key (config.rng rng' linkGcmIvLength).1
        ([eciesVersionByte, eciesCipherSuiteByte, eciesTypeBasic] ++ compressed) plaintext hlength
        (hrng.length _ _)
      simp only [hkey, hseal]
      simp

/-- What a registration needs besides its checks. -/
def RegistrationEncodable (config : BridgeConfig P R) (nowUnix : ℤ) (req : Json) : Prop :=
  PlaintextNotNull config req ∧ ∀ nonce plaintext,
    checkRegistration config nowUnix req = .ok (nonce, plaintext) →
      TimesEncodable config.double plaintext.issuedAtBd nowUnix ∧
        (P.secpSharedX config.secp256k1Key.priv plaintext.clientPub).isSome = true

/-! ## Deliveries -/

/-- The counter of a delivery with strings in its other fields converts to a `BigInt`. -/
def CounterReadable (members : Members) : Prop :=
  (∀ name ∈ ["type", "context", "iv", "ciphertext", "authTag"],
    ∃ s, member (js name) members = some (.str s)) →
      (∀ n, member (js "counter") members = some (.num n) → (integerValue n).isSome = true) ∧
        ∀ s, member (js "counter") members = some (.str s) → (stringToBigInt s).isSome = true

/-- The property that a member, or its absence, is. -/
def propertyOf : Option Json → Property
  | some v => .value v
  | none => .undefined

theorem deliverProperty_obj (name : String) (members : Members) :
    deliverProperty name (.obj members) = .ok (propertyOf (member (js name) members)) := by
  unfold deliverProperty
  cases hm : member (js name) members with
  | none => simp [property, hm, propertyOf]
  | some v => simp [property, hm, propertyOf]

theorem propertyOf_eq_value {v? : Option Json} {v : Json} :
    propertyOf v? = .value v ↔ v? = some v := by
  cases v? <;> simp [propertyOf]

theorem requireText_eq_ok {s : JsString} :
    requireText message p = .ok s ↔ p = .value (.str s) := by
  unfold requireText
  split
  · simp
  · next h =>
    simp only [reduceCtorEq, false_iff]
    exact h s

theorem requireText_ne_exception {e : JsError} :
    requireText message p ≠ .error (.exception e) := by
  unfold requireText malformed
  split <;> simp

theorem requireCounter_eq_ok {v : Json} :
    requireCounter p = .ok v ↔ p = .value v ∧ ((∃ n, v = .num n) ∨ ∃ s, v = .str s) := by
  unfold requireCounter
  split
  · simp only [Except.ok.injEq, Property.value.injEq]
    exact ⟨fun h ↦ ⟨h, .inl ⟨_, h.symm⟩⟩, fun h ↦ h.1⟩
  · simp only [Except.ok.injEq, Property.value.injEq]
    exact ⟨fun h ↦ ⟨h, .inr ⟨_, h.symm⟩⟩, fun h ↦ h.1⟩
  · next hnum hstr =>
    simp only [reduceCtorEq, false_iff, not_and, not_or]
    rintro rfl
    exact ⟨fun ⟨n, hn⟩ ↦ hnum n (congrArg _ hn), fun ⟨s, hs⟩ ↦ hstr s (congrArg _ hs)⟩

theorem requireCounter_ne_exception {e : JsError} :
    requireCounter p ≠ .error (.exception e) := by
  unfold requireCounter malformed
  split <;> simp

theorem bigIntOf_num_throws (n : Number) :
    (∃ e, bigIntOf (.num n) = .error (.exception e)) ↔ ¬ (integerValue n).isSome = true := by
  cases hn : integerValue n with
  | none => simp [bigIntOf, hn]
  | some k => simp [bigIntOf, hn]

theorem bigIntOf_str_throws (s : JsString) :
    (∃ e, bigIntOf (.str s) = .error (.exception e)) ↔ ¬ (stringToBigInt s).isSome = true := by
  cases hs : stringToBigInt s with
  | none => simp [bigIntOf, hs]
  | some k => simp [bigIntOf, hs]

/-- Only the counter of a delivery makes its parsing throw. -/
theorem deliverFields_throws_iff (members : Members) :
    (∃ e, deliverFields (.obj members) = .error (.exception e)) ↔ ¬ CounterReadable members := by
  have hrange (k : ℤ) (fields : DeliverFields) (e : JsError) :
      (if k < 0 ∨ 2 ^ 64 ≤ k then .error (malformed "Counter out of u64 range")
        else pure fields : Delivered DeliverFields) ≠ .error (.exception e) := by
    split <;> simp [malformed, pure, Except.pure]
  unfold deliverFields CounterReadable
  simp only [deliverProperty_obj, bind_eq_error, requireText_eq_ok, requireCounter_eq_ok,
    propertyOf_eq_value, requireText_ne_exception, requireCounter_ne_exception, reduceCtorEq,
    false_or, Except.ok.injEq, exists_eq_left']
  constructor
  · rintro ⟨e, raw, ⟨hraw, hshape⟩, _, htype, _, hcontext, _, hiv, _, hct, _, htag, h⟩ hreadable
    obtain ⟨hnum, hstr⟩ := hreadable (by simp [htype, hcontext, hiv, hct, htag])
    have hthrows : bigIntOf raw = .error (.exception e) := by
      rcases h with h | ⟨k, -, h⟩
      · exact h
      · exact absurd h (hrange k _ e)
    rcases hshape with ⟨n, rfl⟩ | ⟨s, rfl⟩
    · exact (bigIntOf_num_throws n).mp ⟨e, hthrows⟩ (hnum n hraw)
    · exact (bigIntOf_str_throws s).mp ⟨e, hthrows⟩ (hstr s hraw)
  · intro hunreadable
    obtain ⟨htexts, hcounter⟩ := Classical.not_imp.mp hunreadable
    obtain ⟨type, htype⟩ := htexts "type" (by simp)
    obtain ⟨context, hcontext⟩ := htexts "context" (by simp)
    obtain ⟨iv, hiv⟩ := htexts "iv" (by simp)
    obtain ⟨ct, hct⟩ := htexts "ciphertext" (by simp)
    obtain ⟨tag, htag⟩ := htexts "authTag" (by simp)
    obtain ⟨raw, hraw, hshape, e, hthrows⟩ : ∃ raw, member (js "counter") members = some raw ∧
        ((∃ n, raw = .num n) ∨ ∃ s, raw = .str s) ∧
          ∃ e, bigIntOf raw = .error (.exception e) := by
      rcases not_and_or.mp hcounter with hnum | hstr
      · obtain ⟨n, hn⟩ := not_forall.mp hnum
        obtain ⟨hn, hvalue⟩ := Classical.not_imp.mp hn
        exact ⟨.num n, hn, .inl ⟨n, rfl⟩, (bigIntOf_num_throws n).mpr hvalue⟩
      · obtain ⟨s, hs⟩ := not_forall.mp hstr
        obtain ⟨hs, hvalue⟩ := Classical.not_imp.mp hs
        exact ⟨.str s, hs, .inr ⟨s, rfl⟩, (bigIntOf_str_throws s).mpr hvalue⟩
    exact ⟨e, raw, ⟨hraw, hshape⟩, type, htype, context, hcontext, iv, hiv, ct, hct, tag, htag,
      .inl hthrows⟩

theorem deliverFields_counter {req : Json} {fields : DeliverFields}
    (h : deliverFields req = .ok fields) : 0 ≤ fields.counter ∧ fields.counter < 2 ^ 64 := by
  obtain ⟨_, -, h⟩ := bind_eq_ok.mp h
  obtain ⟨_, -, h⟩ := bind_eq_ok.mp h
  obtain ⟨_, -, h⟩ := bind_eq_ok.mp h
  obtain ⟨_, -, h⟩ := bind_eq_ok.mp h
  obtain ⟨_, -, h⟩ := bind_eq_ok.mp h
  obtain ⟨_, -, h⟩ := bind_eq_ok.mp h
  obtain ⟨_, -, h⟩ := bind_eq_ok.mp h
  obtain ⟨_, -, h⟩ := bind_eq_ok.mp h
  obtain ⟨_, -, h⟩ := bind_eq_ok.mp h
  obtain ⟨_, -, h⟩ := bind_eq_ok.mp h
  obtain ⟨_, -, h⟩ := bind_eq_ok.mp h
  obtain ⟨_, -, h⟩ := bind_eq_ok.mp h
  obtain ⟨counter, -, h⟩ := bind_eq_ok.mp h
  split at h
  · cases h
  · cases h
    dsimp only
    omega

theorem checkReplay_ne_exception (lastInboundCounter counter : ℤ) (e : JsError) :
    checkReplay lastInboundCounter counter ≠ .error (.exception e) := by
  unfold checkReplay
  split
  · simp
  · split <;> simp

theorem openDelivery_ne_exception (P : Primitives) (kSession : Bytes) {fields : DeliverFields}
    (h : 0 ≤ fields.counter ∧ fields.counter < 2 ^ 64) (e : JsError) :
    openDelivery P kSession fields ≠ .error (.exception e) := by
  have haad : ∃ aad, rebuiltAad fields = .ok aad := by
    unfold rebuiltAad buildDeliverAad
    rw [if_neg (by omega)]
    exact ⟨_, rfl⟩
  obtain ⟨aad, haad⟩ := haad
  unfold openDelivery
  split
  · split
    · simp [malformed]
    · split
      · simp [malformed]
      · rw [haad]
        dsimp only [bind, Except.bind]
        split <;> simp
  · simp [malformed]

theorem acceptDelivery_throws_iff (P : Primitives) (session : LinkSession) (members : Members) :
    (∃ e, acceptDelivery P session (.obj members) = .error (.exception e)) ↔
      ¬ CounterReadable members := by
  rw [← deliverFields_throws_iff]
  constructor
  · rintro ⟨e, h⟩
    rcases bind_eq_error.mp h with h | ⟨fields, hfields, h⟩
    · exact ⟨e, h⟩
    rcases bind_eq_error.mp h with h | ⟨_, -, h⟩
    · exact absurd h (checkReplay_ne_exception _ _ e)
    rcases bind_eq_error.mp h with h | ⟨_, -, h⟩
    · exact absurd h (openDelivery_ne_exception P _ (deliverFields_counter hfields) e)
    · cases h
  · rintro ⟨e, h⟩
    exact ⟨e, bind_eq_error.mpr (.inl h)⟩

end Bsh.Bridge
