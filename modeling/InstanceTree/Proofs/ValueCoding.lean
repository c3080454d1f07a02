import InstanceTree.Proofs.Decimal.Numeral
import InstanceTree.Value.Coding

namespace InstanceTree

namespace Json

variable {j : Json}

theorem eq_of_int?_eq_some {n : Int} {a : Number} (h : j.int? = some n) (ha : a.int? = some n) :
    j = .num a := by
  cases j with
  | num b => rw [Number.eq_of_int? h ha]
  | _ => cases h

theorem str?_eq_some_iff {s : String} : j.str? = some s ↔ j = .str s := by
  cases j <;> simp [str?]

theorem bool?_eq_some_iff {b : Bool} : j.bool? = some b ↔ j = .bool b := by
  cases j <;> simp [bool?]

end Json

namespace Value

theorem unsigned?_toNat (v : UInt64) : unsigned? v.toNat = some v := by
  have hlt := v.toNat_lt
  rw [unsigned?, if_pos ⟨Int.natCast_nonneg _, by exact_mod_cast hlt⟩]
  simp

theorem unsigned?_eq_some_iff {n : Int} {v : UInt64} :
    unsigned? n = some v ↔ (v.toNat : Int) = n := by
  constructor
  · intro h
    unfold unsigned? at h
    split at h
    next hrange =>
      cases h
      have hlt : n.toNat < UInt64.size := by omega
      rw [UInt64.toNat_ofNat_of_lt' hlt]
      omega
    · cases h
  · rintro rfl
    exact unsigned?_toNat v

variable [ByteCodec]

theorem ofJson?_empty_eq_some {j : Json} {v : Value} (h : ofJson? .empty j = some v) :
    j = .arr [.null] ∧ v = .empty := by
  unfold ofJson? at h
  split at h <;> simp_all

theorem type_of_ofJson? {type : ValueType} {j : Json} {v : Value} (h : ofJson? type j = some v) :
    v.type = type := by
  cases type with
  | empty =>
    rw [(ofJson?_empty_eq_some h).2]
    rfl
  | bool | string | enumeration | identityref =>
    obtain ⟨x, -, hx⟩ := Option.bind_eq_some_iff.1 h
    cases hx
    rfl
  | int | uint | decimal64 places | binary =>
    obtain ⟨x, -, hx⟩ := Option.bind_eq_some_iff.1 h
    obtain ⟨y, -, hy⟩ := Option.bind_eq_some_iff.1 hx
    cases hy
    rfl

theorem ofJson?_decimal64_eq_some_iff {places : UInt8} {j : Json} {v : Value} :
    ofJson? (.decimal64 places) j = some v ↔
      ∃ s scaled, j = .str s ∧ v = .decimal64 scaled places ∧
        Decimal64.Numeral places.toNat s.toList scaled.toInt := by
  constructor
  · intro h
    obtain ⟨s, hs, h⟩ := Option.bind_eq_some_iff.1 h
    obtain ⟨scaled, hscaled, h⟩ := Option.bind_eq_some_iff.1 h
    cases h
    exact ⟨s, scaled, Json.str?_eq_some_iff.1 hs, rfl, Decimal64.parse?_eq_some_iff.1 hscaled⟩
  · rintro ⟨s, scaled, rfl, rfl, hnumeral⟩
    have hread := Decimal64.parse?_eq_some_iff.2 hnumeral
    simp only [ofJson?, Json.str?, Option.bind_eq_bind, Option.bind_some, hread]
    rfl

/-- The text that a decimal is written as is the only one in the canonical form of its number. -/
theorem canonical_iff {scaled : Int64} {places : UInt8} {s : String} :
    Decimal64.Canonical places.toNat s.toList scaled.toInt ↔
      s = (Value.decimal64 scaled places).canonical := by
  rw [Decimal64.canonical_iff, canonical, ← String.toList_inj, String.toList_ofList]

/-- Every value but a decimal is written as the document that it is read from. -/
theorem toJson_of_ofJson? {type : ValueType} {j : Json} {v : Value} (h : ofJson? type j = some v)
    (hdecimal : ∀ places, type ≠ .decimal64 places) : v.toJson = j := by
  cases type with
  | int =>
    obtain ⟨n, hn, h⟩ := Option.bind_eq_some_iff.1 h
    obtain ⟨v, hv, h⟩ := Option.bind_eq_some_iff.1 h
    cases h
    rw [← Decimal64.inRange?_eq_some_iff.1 hv] at hn
    exact (Json.eq_of_int?_eq_some hn (Number.int?_signed v)).symm
  | uint =>
    obtain ⟨n, hn, h⟩ := Option.bind_eq_some_iff.1 h
    obtain ⟨v, hv, h⟩ := Option.bind_eq_some_iff.1 h
    cases h
    rw [← unsigned?_eq_some_iff.1 hv] at hn
    exact (Json.eq_of_int?_eq_some hn rfl).symm
  | decimal64 places => exact absurd rfl (hdecimal places)
  | bool =>
    obtain ⟨b, hb, h⟩ := Option.bind_eq_some_iff.1 h
    cases h
    exact (Json.bool?_eq_some_iff.1 hb).symm
  | string | enumeration | identityref =>
    obtain ⟨s, hs, h⟩ := Option.bind_eq_some_iff.1 h
    cases h
    exact (Json.str?_eq_some_iff.1 hs).symm
  | binary =>
    obtain ⟨s, hs, h⟩ := Option.bind_eq_some_iff.1 h
    obtain ⟨bytes, hbytes, h⟩ := Option.bind_eq_some_iff.1 h
    cases h
    change Json.str (String.ofList (ByteCodec.encode bytes)) = j
    rw [ByteCodec.encode_of_decode? hbytes, String.ofList_toList, Json.str?_eq_some_iff.1 hs]
  | empty =>
    obtain ⟨rfl, rfl⟩ := ofJson?_empty_eq_some h
    rfl

theorem ofJson?_int {j : Json} {n : Int} (h : j.int? = some n) :
    ofJson? .int j = (signed? n).map .int := by
  cases hread : signed? n <;>
    simp only [ofJson?, h, Option.bind_eq_bind, Option.bind_some, hread] <;> rfl

theorem ofJson?_uint {j : Json} {n : Int} (h : j.int? = some n) :
    ofJson? .uint j = (unsigned? n).map .uint := by
  cases hread : unsigned? n <;>
    simp only [ofJson?, h, Option.bind_eq_bind, Option.bind_some, hread] <;> rfl

theorem ofJson?_binary (text : List Char) :
    ofJson? .binary (.str (String.ofList text)) = (ByteCodec.decode? text).map .binary := by
  cases h : ByteCodec.decode? text <;>
    simp only [ofJson?, Json.str?, Option.bind_eq_bind, Option.bind_some, String.toList_ofList,
      h] <;>
    rfl

theorem ofJson?_toJson (v : Value) : ofJson? v.type v.toJson = some v := by
  cases v with
  | int v =>
    have hread : signed? v.toInt = some v := Decimal64.inRange?_toInt v
    exact (ofJson?_int (j := .num (.signed v)) (Number.int?_signed v)).trans (congrArg _ hread)
  | uint v => exact (ofJson?_uint rfl).trans (congrArg _ (unsigned?_toNat v))
  | decimal64 scaled places =>
    have hcanonical : Decimal64.Canonical places.toNat
        (Value.decimal64 scaled places).canonical.toList scaled.toInt := canonical_iff.2 rfl
    exact ofJson?_decimal64_eq_some_iff.2 ⟨_, scaled, rfl, rfl, hcanonical.denotes⟩
  | binary bytes => exact (ofJson?_binary _).trans (congrArg _ (ByteCodec.decode?_encode bytes))
  | bool b => rfl
  | string text => rfl
  | enumeration name => rfl
  | identityref name => rfl
  | empty => rfl

end Value

end InstanceTree
