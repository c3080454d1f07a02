import InstanceTree.Proofs.ValueCoding

namespace InstanceTree.Value

open Decimal64 (Numeral Canonical)

/-- A text is read as a decimal exactly if it is a numeral with no more digits after its point than
the type allows, whose number in units of the last of these fits into a signed word of 64 bits; and
it is read as that number. -/
theorem reads_decimal64_exactly (places : UInt8) (s : String) :
    ((∃ v, ofJson? (.decimal64 places) (.str s) = some v) ↔
      ∃ n, Numeral places.toNat s.toList n ∧ -2 ^ 63 ≤ n ∧ n ≤ 2 ^ 63 - 1) ∧
    ∀ n v, Numeral places.toNat s.toList n → ofJson? (.decimal64 places) (.str s) = some v →
      ∃ scaled, v = .decimal64 scaled places ∧ scaled.toInt = n := by
  constructor
  · constructor
    · rintro ⟨v, hv⟩
      obtain ⟨t, scaled, hs, -, hnumeral⟩ := ofJson?_decimal64_eq_some_iff.1 hv
      cases hs
      exact ⟨scaled.toInt, hnumeral, Int64.le_toInt scaled, Int64.toInt_le scaled⟩
    · rintro ⟨n, hnumeral, hlow, hhigh⟩
      have hn : (Int64.ofInt n).toInt = n :=
        Int64.toInt_ofInt_of_le hlow (Int.lt_of_le_sub_one hhigh)
      rw [← hn] at hnumeral
      exact ⟨_, ofJson?_decimal64_eq_some_iff.2 ⟨s, _, rfl, rfl, hnumeral⟩⟩
  · intro n v hn hv
    obtain ⟨t, scaled, hs, rfl, hnumeral⟩ := ofJson?_decimal64_eq_some_iff.1 hv
    cases hs
    exact ⟨scaled, rfl, hnumeral.unique hn⟩

theorem reads_decimal64_exactly_of_thousandths :
    ∃ v, ofJson? (.decimal64 3) (.str "-0.005") = some v ∧
      ∃ scaled, v = .decimal64 scaled 3 ∧ scaled.toInt = -5 := by
  have hzero : Decimal.Spells ['0'] 0 := Decimal.Spells.zeros 1
  have hfive : Decimal.Spells ['0', '0', '5'] 5 :=
    (Decimal.Spells.zeros 2).snoc (show 5 < 10 by decide)
  have hnumeral : Numeral 3 "-0.005".toList (-5) :=
    .negative (.point hzero (by decide) hfive (by decide) (by decide))
  obtain ⟨hread, hexact⟩ := reads_decimal64_exactly 3 "-0.005"
  obtain ⟨v, hv⟩ := hread.2 ⟨-5, hnumeral, by decide, by decide⟩
  exact ⟨v, hv, hexact (-5) v hnumeral hv⟩

/-- Reading undoes writing; and what is read as a value of a type is of that type and written as
it was read, but for a decimal, which is written in the canonical form of its number. Byte strings
are written by `Base64.codec`. -/
theorem documents_inverse :
    (∀ v : Value, ofJson? v.type v.toJson = some v) ∧
    ∀ type j v, ofJson? type j = some v → v.type = type ∧
      ((∀ places, type ≠ .decimal64 places) → v.toJson = j) ∧
      ∀ places, type = .decimal64 places → ∃ s t n, j = .str s ∧ v.toJson = .str t ∧
        Numeral places.toNat s.toList n ∧
          ∀ u : String, Canonical places.toNat u.toList n ↔ u = t := by
  constructor
  · exact ofJson?_toJson
  · intro type j v h
    apply And.intro (type_of_ofJson? h)
    apply And.intro (toJson_of_ofJson? h)
    rintro places rfl
    obtain ⟨s, scaled, rfl, rfl, hnumeral⟩ := ofJson?_decimal64_eq_some_iff.1 h
    exact ⟨s, _, scaled.toInt, rfl, rfl, hnumeral, fun _ => canonical_iff⟩

theorem documents_inverse_of_hundredths :
    ofJson? (.decimal64 2) (.str "-007.5") = some (.decimal64 (-750) 2) ∧
      ∃ t n, toJson (.decimal64 (-750) 2) = .str t ∧ Numeral 2 "-007.5".toList n ∧
        ∀ u : String, Canonical 2 u.toList n ↔ u = t := by
  have hread : ofJson? (.decimal64 2) (.str "-007.5") = some (.decimal64 (-750) 2) := by
    decide +kernel
  obtain ⟨s, t, n, hs, ht, hnumeral, hform⟩ :=
    (documents_inverse.2 (.decimal64 2) (.str "-007.5") _ hread).2.2 2 rfl
  cases hs
  exact ⟨hread, t, n, ht, hnumeral, hform⟩

end InstanceTree.Value
