import ObjectGraph.Proofs.Key
import ObjectGraph.Proofs.Stateful
import ObjectGraph.Proofs.Text.Utf16
import ObjectGraph.Value

namespace ObjectGraph.Value

variable {raw payload : Bytes} {v : Value}

theorem tag_of_ofTag? {tag : UInt8} {type : DataType} (h : DataType.ofTag? tag = some type) :
    tag = type.tag := by
  unfold DataType.ofTag? at h
  split at h <;> cases h <;> rfl

theorem ofTag?_tag (type : DataType) : DataType.ofTag? type.tag = some type := by
  cases type <;> rfl

theorem type_of_ofPayload {type : DataType} (h : ofPayload type payload = .ok v) : v.type = type := by
  cases type with
  | string =>
    obtain ⟨s, -, rfl⟩ := Stateful.map_eq_ok.mp h
    rfl
  | id =>
    rw [ofPayload] at h
    split at h
    · cases h
      rfl
    · contradiction
  | association => contradiction
  | integer | decimal | datetime | boolean | enum =>
    cases h
    rfl

theorem payload_of_decode (h : decode raw = .ok (some v)) :
    ∃ payload, raw = v.type.tag :: payload ∧ ofPayload v.type payload = .ok v ∧
      ∀ width, v.type.payloadLength? = some width → payload.length = width := by
  cases raw with
  | nil => cases h
  | cons tag payload =>
    rw [decode] at h
    split at h
    · contradiction
    next type htype =>
      have hread : ofPayload type payload = .ok v ∧
          ∀ width, type.payloadLength? = some width → payload.length = width := by
        split at h
        next width hwidth =>
          split at h
          next hlength =>
            obtain ⟨x, hx, hv⟩ := Stateful.map_eq_ok.mp h
            cases hv
            refine ⟨hx, fun width' hwidth' => ?_⟩
            rw [hwidth] at hwidth'
            cases hwidth'
            exact hlength
          · contradiction
        next hwidth =>
          obtain ⟨x, hx, hv⟩ := Stateful.map_eq_ok.mp h
          cases hv
          refine ⟨hx, fun width' hwidth' => ?_⟩
          rw [hwidth] at hwidth'
          contradiction
      obtain rfl := type_of_ofPayload hread.1
      exact ⟨payload, by rw [tag_of_ofTag? htype], hread⟩

theorem eq_nil_of_decode (h : decode raw = .ok none) : raw = [] := by
  cases raw with
  | nil => rfl
  | cons tag payload =>
    rw [decode] at h
    split at h
    · contradiction
    · split at h
      · split at h
        · obtain ⟨x, -, hx⟩ := Stateful.map_eq_ok.mp h
          contradiction
        · contradiction
      · obtain ⟨x, -, hx⟩ := Stateful.map_eq_ok.mp h
        contradiction

theorem signed_littleEndian (n : Int64) : signed (Bytes.littleEndian 8 n.toUInt64.toNat) = n := by
  rw [signed, Bytes.ofLittleEndian_littleEndian n.toUInt64.toNat_lt, UInt64.ofNat_toNat]
  rfl

theorem littleEndian_signed (hlength : payload.length = 8) :
    Bytes.littleEndian 8 (signed payload).toUInt64.toNat = payload := by
  have hlt := Bytes.ofLittleEndian_lt payload
  have hread := Bytes.littleEndian_ofLittleEndian payload
  rw [hlength] at hlt hread
  rw [signed, UInt64.toUInt64_toInt64, UInt64.toNat_ofNat_of_lt' hlt, hread]

theorem encode_of_decode (h : decode raw = .ok (some v)) (hstring : v.type ≠ .string)
    (hboolean : v.type ≠ .boolean) : raw = v.encode := by
  obtain ⟨payload, rfl, hread, hwidth⟩ := payload_of_decode h
  have hpayload : v.payload = payload := by
    cases v with
    | string | boolean => contradiction
    | integer n | datetime n =>
      cases hread
      exact littleEndian_signed (hwidth 8 rfl)
    | decimal x =>
      cases hread
      have hlt := Bytes.ofLittleEndian_lt payload
      have hback := Bytes.littleEndian_ofLittleEndian payload
      rw [hwidth 8 rfl] at hlt hback
      rw [Value.payload, UInt64.toNat_ofNat_of_lt' hlt, hback]
    | id i =>
      simp only [Value.type, ofPayload] at hread
      split at hread
      next j hj =>
        cases hread
        exact Id.bytes_of_ofBytes? hj
      · contradiction
    | enum n =>
      cases hread
      have hlt := Bytes.ofLittleEndian_lt payload
      have hback := Bytes.littleEndian_ofLittleEndian payload
      rw [hwidth 4 rfl] at hlt hback
      rw [Value.payload, UInt32.toNat_ofNat_of_lt' hlt, hback]
  rw [encode, hpayload]

theorem decode_of_payload {type : DataType} (hread : ofPayload type payload = .ok v)
    (hwidth : ∀ width, type.payloadLength? = some width → payload.length = width) :
    decode (type.tag :: payload) = .ok (some v) := by
  simp only [decode, ofTag?_tag]
  cases htype : type.payloadLength? with
  | none => rw [hread]; rfl
  | some width => simp only [if_pos (hwidth width htype), hread]; rfl

theorem decode_encode (v : Value) : decode v.encode = .ok (some v) := by
  apply decode_of_payload
  · cases v with
    | string s =>
      rw [type, ofPayload, payload, Utf16.decode_encode]
      rfl
    | integer n => exact congrArg (fun n => Except.ok (integer n)) (signed_littleEndian n)
    | datetime n => exact congrArg (fun n => Except.ok (datetime n)) (signed_littleEndian n)
    | decimal x =>
      rw [type, ofPayload, payload, Bytes.ofLittleEndian_littleEndian x.bits.toNat_lt, UInt64.ofNat_toNat]
    | boolean b => cases b <;> rfl
    | id i =>
      rw [type, ofPayload, payload, Id.ofBytes?_bytes]
    | enum n =>
      rw [type, ofPayload, payload, Bytes.ofLittleEndian_littleEndian n.toNat_lt, UInt32.ofNat_toNat]
  · intro width hwidth
    cases v with
    | string s => contradiction
    | integer | datetime | decimal | enum =>
      cases hwidth
      exact Bytes.length_littleEndian _ _
    | boolean b =>
      cases hwidth
      rfl
    | id i =>
      cases hwidth
      exact i.length_bytes

theorem exists_of_decode_boolean {b : Bool} (h : decode raw = .ok (some (.boolean b))) :
    ∃ k, raw = [DataType.boolean.tag, k] ∧ b = decide (k ≠ 0) := by
  obtain ⟨payload, rfl, hread, hwidth⟩ := payload_of_decode h
  obtain ⟨k, rfl⟩ := List.length_eq_one_iff.mp (hwidth 1 rfl)
  cases hread
  exact ⟨k, rfl, by simp⟩

inductive Rejected : Bytes → Corruption → Prop where
  | tag {tag : UInt8} {payload : Bytes} : (∀ type : DataType, tag ≠ type.tag) →
      Rejected (tag :: payload) (.valueTag tag)
  | width {type : DataType} {width : Nat} {payload : Bytes} : type.payloadLength? = some width →
      payload.length ≠ width → Rejected (type.tag :: payload) (.payloadLength type payload.length width)
  | text {payload : Bytes} {c : Corruption} : Utf16.Refused payload c →
      Rejected (DataType.string.tag :: payload) c
  | association {payload : Bytes} : Rejected (DataType.association.tag :: payload) .associationValue

theorem ofPayload_of_width {type : DataType} {width : Nat} (hwidth : type.payloadLength? = some width)
    (hlength : payload.length = width) : ∃ v, ofPayload type payload = .ok v := by
  cases type with
  | integer | decimal | datetime | boolean | enum => exact ⟨_, rfl⟩
  | id =>
    cases hwidth
    exact ⟨id ⟨payload, hlength⟩, by rw [ofPayload, Id.ofBytes?, dif_pos hlength]⟩
  | string | association => contradiction

theorem decode_eq_ok_iff : decode raw = .ok (some v) ↔
    raw = v.encode ∨ v = .boolean true ∧ ∃ k : UInt8, k ≠ 0 ∧ k ≠ 1 ∧ raw = [DataType.boolean.tag, k] := by
  constructor
  · intro h
    by_cases hstring : v.type = .string
    · left
      obtain ⟨payload, rfl, hread, -⟩ := payload_of_decode h
      rw [hstring] at hread
      obtain ⟨s, hs, rfl⟩ := Stateful.map_eq_ok.mp hread
      rw [encode, Value.payload, Utf16.decode_eq_ok_iff.mp hs]
    · by_cases hboolean : v.type = .boolean
      · cases v with
        | boolean b =>
          obtain ⟨k, rfl, rfl⟩ := exists_of_decode_boolean h
          by_cases hzero : k = 0
          · subst hzero
            exact .inl rfl
          · by_cases hone : k = 1
            · subst hone
              exact .inl rfl
            · exact .inr ⟨by rw [decide_eq_true hzero], k, hzero, hone, rfl⟩
        | _ => contradiction
      · exact .inl (encode_of_decode h hstring hboolean)
  · rintro (rfl | ⟨rfl, k, hzero, -, rfl⟩)
    · exact decode_encode v
    · have hread : ofPayload .boolean [k] = .ok (boolean true) := by simp [ofPayload, hzero]
      apply decode_of_payload hread
      rintro _ ⟨⟩
      rfl

theorem rejected_of_ofPayload {type : DataType} {c : Corruption} (hwidth : type.payloadLength? = none)
    (h : ofPayload type payload = .error c) : Rejected (type.tag :: payload) c := by
  cases type with
  | string =>
    apply Rejected.text
    apply Utf16.decode_eq_error_iff.mp
    rw [ofPayload] at h
    cases hdecode : Utf16.decode payload with
    | error e =>
      rw [hdecode] at h
      cases h
      rfl
    | ok s =>
      rw [hdecode] at h
      contradiction
  | association =>
    cases h
    exact .association
  | integer | decimal | datetime | boolean | id | enum => contradiction

theorem decode_eq_error_iff {c : Corruption} : decode raw = .error c ↔ Rejected raw c := by
  constructor
  · intro h
    cases raw with
    | nil => contradiction
    | cons tag payload =>
      rw [decode] at h
      split at h
      next htag =>
        cases h
        refine .tag fun type => ?_
        rintro rfl
        rw [ofTag?_tag] at htag
        contradiction
      next type htype =>
        obtain rfl := tag_of_ofTag? htype
        split at h
        next width hwidth =>
          split at h
          next hlength =>
            obtain ⟨v, hv⟩ := ofPayload_of_width hwidth hlength
            rw [hv] at h
            contradiction
          next hlength =>
            cases h
            exact .width hwidth hlength
        next hwidth =>
          apply rejected_of_ofPayload hwidth
          cases hread : ofPayload type payload with
          | error e =>
            rw [hread] at h
            cases h
            rfl
          | ok v =>
            rw [hread] at h
            contradiction
  · intro h
    cases h with
    | @tag tag payload htag =>
      have hnone : DataType.ofTag? tag = none := by
        cases htype : DataType.ofTag? tag with
        | none => rfl
        | some type => exact absurd (tag_of_ofTag? htype) (htag type)
      simp only [decode, hnone]
    | width hwidth hlength => simp only [decode, ofTag?_tag, hwidth, if_neg hlength]
    | @text payload c hrefused =>
      have hdecode := Utf16.decode_eq_error_iff.mpr hrefused
      change (Except.map some ((Utf16.decode payload).map string)) = .error c
      rw [hdecode]
      rfl
    | association => rfl

/-- Every byte string is unset, the stored form of a value, the lenient form of true or rejected for a
reason that its bytes show. -/
theorem decode_exact (raw : Bytes) :
    (∀ v : Value, decode v.encode = .ok (some v)) ∧
    (decode raw = .ok none ↔ raw = []) ∧
    (∀ v : Value, decode raw = .ok (some v) ↔ raw = v.encode ∨
      v = .boolean true ∧ ∃ k : UInt8, k ≠ 0 ∧ k ≠ 1 ∧ raw = [DataType.boolean.tag, k]) ∧
    (∀ c, decode raw = .error c ↔ Rejected raw c) ∧
    (∀ s, Utf16.decode raw = .ok s ↔ raw = Utf16.encode s) ∧
    ∀ c, Utf16.decode raw = .error c ↔ Utf16.Refused raw c := by
  refine ⟨decode_encode, ⟨eq_nil_of_decode, ?_⟩, fun _ => decode_eq_ok_iff, fun _ => decode_eq_error_iff,
    fun _ => Utf16.decode_eq_ok_iff, fun _ => Utf16.decode_eq_error_iff⟩
  rintro rfl
  rfl

end ObjectGraph.Value
