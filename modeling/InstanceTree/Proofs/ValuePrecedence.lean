import InstanceTree.Proofs.ValueOrder
import Mathlib.Data.List.Forall2
import Mathlib.Tactic.SplitIfs

namespace InstanceTree.Value

/-! ### Texts by their bytes -/

def utf8 (s : String) : List UInt8 :=
  s.toList.flatMap String.utf8EncodeChar

theorem toByteArray_utf8 (s : String) : (utf8 s).toByteArray = s.toByteArray :=
  String.utf8Encode_toList

theorem val_lt (c : Char) : c.val.toNat < 0x110000 := by
  have hvalid : c.val.toNat < 0xd800 ∨ 0xdfff < c.val.toNat ∧ c.val.toNat < 0x110000 := c.valid
  omega

theorem byte_cons_lt_iff {n m : Nat} (hn : n < 256) (hm : m < 256) {as bs : List UInt8} :
    UInt8.ofNat n :: as < UInt8.ofNat m :: bs ↔ n < m ∨ n = m ∧ as < bs := by
  rw [List.cons_lt_cons_iff, UInt8.lt_iff_toNat_lt, ← UInt8.toNat_inj,
    UInt8.toNat_ofNat_of_lt' hn, UInt8.toNat_ofNat_of_lt' hm]

/-- The bytes of a greater character are greater, whatever follows: a longer encoding starts with
a greater byte, and encodings of one length are digits of the character from the highest down. -/
theorem utf8EncodeChar_append_lt {c d : Char} (h : c < d) (as bs : List UInt8) :
    String.utf8EncodeChar c ++ as < String.utf8EncodeChar d ++ bs := by
  have hlt : c.val.toNat < d.val.toNat := h
  have hmax := val_lt d
  unfold String.utf8EncodeChar
  generalize c.val.toNat = v at hlt
  generalize d.val.toNat = w at hlt hmax
  dsimp only
  split_ifs <;>
    simp (disch := omega) only [List.cons_append, List.nil_append, byte_cons_lt_iff] <;>
    by_cases hhigh : v / 4096 < w / 4096 <;> omega

theorem flatMap_utf8EncodeChar_lt {cs ds : List Char} (h : cs < ds) :
    cs.flatMap String.utf8EncodeChar < ds.flatMap String.utf8EncodeChar := by
  induction h with
  | @nil d ds =>
    obtain ⟨b, bs, hd⟩ := List.exists_cons_of_ne_nil (String.utf8EncodeChar_ne_nil (c := d))
    rw [List.flatMap_nil, List.flatMap_cons, hd, List.cons_append]
    exact List.nil_lt_cons b _
  | rel hcd =>
    rw [List.flatMap_cons, List.flatMap_cons]
    exact utf8EncodeChar_append_lt hcd _ _
  | cons h ih =>
    rw [List.flatMap_cons, List.flatMap_cons]
    exact List.append_left_lt ih

theorem utf8_lt_iff {s t : String} : utf8 s < utf8 t ↔ s < t := by
  constructor
  · intro h
    rcases Std.lt_trichotomy s t with hst | rfl | hts
    · exact hst
    · exact absurd h (List.lt_irrefl _)
    · exact absurd h (List.lt_asymm (flatMap_utf8EncodeChar_lt hts))
  · exact fun h => flatMap_utf8EncodeChar_lt h

/-! ### Precedence -/

/-- The order of the values of one type: numbers by size, `false` before `true`, texts by their
bytes, and byte strings by their length first. -/
inductive Before : Value → Value → Prop where
  | int {a b : Int64} (h : a < b) : Before (.int a) (.int b)
  | uint {a b : UInt64} (h : a < b) : Before (.uint a) (.uint b)
  | decimal64 {a b : Int64} {places : UInt8} (h : a < b) :
      Before (.decimal64 a places) (.decimal64 b places)
  | bool : Before (.bool false) (.bool true)
  | string {s t : String} (h : utf8 s < utf8 t) : Before (.string s) (.string t)
  | enumeration {s t : String} (h : utf8 s < utf8 t) : Before (.enumeration s) (.enumeration t)
  | identityref {s t : String} (h : utf8 s < utf8 t) : Before (.identityref s) (.identityref t)
  | shorter {as bs : List UInt8} (h : as.length < bs.length) : Before (.binary as) (.binary bs)
  | binary {as bs : List UInt8} (hlen : as.length = bs.length) (h : as < bs) :
      Before (.binary as) (.binary bs)

theorem compareLex_iff {α : Type} {cmp : α → α → Ordering} {r : α → α → Prop} {as bs : List α}
    (h : List.Forall₂ (fun a b => (cmp a b = .lt ↔ r a b) ∧ (cmp a b = .eq ↔ a = b)) as bs) :
    (List.compareLex cmp as bs = .lt ↔ List.Lex r as bs) ∧
      (List.compareLex cmp as bs = .eq ↔ as = bs) := by
  induction h with
  | nil => simp [List.compareLex]
  | @cons a b as bs hab h ih =>
    obtain ⟨hlt, heq⟩ := hab
    rw [List.compareLex_cons_cons, Ordering.then_eq_lt, Ordering.then_eq_eq, hlt, heq, ih.1, ih.2,
      List.cons_lex_cons_iff, List.cons.injEq]
    exact ⟨Iff.rfl, Iff.rfl⟩

theorem compareBytes_eq_lt_iff {as bs : List UInt8} :
    compareBytes as bs = .lt ↔ as.length < bs.length ∨ as.length = bs.length ∧ as < bs := by
  have hbytes (hlen : as.length = bs.length) : Ord.compare as bs = .lt ↔ as < bs := by
    apply And.left
    apply compareLex_iff
    exact List.forall₂_iff_get.2 ⟨hlen, fun _ _ _ => ⟨Std.compare_eq_lt, Std.compare_eq_iff_eq⟩⟩
  rw [compareBytes, Ordering.then_eq_lt, Std.compare_eq_lt, Std.compare_eq_iff_eq,
    and_congr_right hbytes]

theorem compare_text_eq_lt_iff {s t : String} : Ord.compare s t = .lt ↔ utf8 s < utf8 t := by
  rw [utf8_lt_iff]
  exact compareOfLessAndEq_eq_lt

theorem compare_eq_lt_iff {a b : Value} (h : a.type = b.type) :
    a.compare b = .ok .lt ↔ Before a b := by
  cases a <;> cases b <;> cases h
  case int.int a b =>
    change Except.ok (Ord.compare a b) = Except.ok .lt ↔ _
    rw [Except.ok.injEq, Std.compare_eq_lt]
    exact ⟨.int, fun | .int h => h⟩
  case uint.uint a b =>
    change Except.ok (Ord.compare a b) = Except.ok .lt ↔ _
    rw [Except.ok.injEq, Std.compare_eq_lt]
    exact ⟨.uint, fun | .uint h => h⟩
  case decimal64.decimal64 a places b =>
    have hcompare : compare (.decimal64 a places) (.decimal64 b places) =
        .ok (Ord.compare a b) := if_pos rfl
    rw [hcompare, Except.ok.injEq, Std.compare_eq_lt]
    exact ⟨.decimal64, fun | .decimal64 h => h⟩
  case bool.bool a b =>
    constructor
    · intro h
      cases a <;> cases b
      case false.true => exact .bool
      all_goals exact absurd h (by decide)
    · rintro ⟨⟩
      rfl
  case string.string s t =>
    change Except.ok (Ord.compare s t) = Except.ok .lt ↔ _
    rw [Except.ok.injEq, compare_text_eq_lt_iff]
    exact ⟨.string, fun | .string h => h⟩
  case enumeration.enumeration s t =>
    change Except.ok (Ord.compare s t) = Except.ok .lt ↔ _
    rw [Except.ok.injEq, compare_text_eq_lt_iff]
    exact ⟨.enumeration, fun | .enumeration h => h⟩
  case identityref.identityref s t =>
    change Except.ok (Ord.compare s t) = Except.ok .lt ↔ _
    rw [Except.ok.injEq, compare_text_eq_lt_iff]
    exact ⟨.identityref, fun | .identityref h => h⟩
  case binary.binary as bs =>
    change Except.ok (compareBytes as bs) = Except.ok .lt ↔ _
    rw [Except.ok.injEq, compareBytes_eq_lt_iff]
    constructor
    · rintro (h | ⟨hlen, h⟩)
      · exact .shorter h
      · exact .binary hlen h
    · intro h
      cases h with
      | shorter h => exact .inl h
      | binary hlen h => exact .inr ⟨hlen, h⟩
  case empty.empty =>
    constructor
    · intro h
      cases h
    · intro h
      cases h

theorem orderRows_iff {xs ys : List Value} (h : xs.map type = ys.map type) :
    (orderRows xs ys = .lt ↔ List.Lex Before xs ys) ∧ (orderRows xs ys = .eq ↔ xs = ys) := by
  have htypes : List.Forall₂ (fun a b => a.type = b.type) xs ys := by
    rw [← List.forall₂_eq_eq_eq, List.forall₂_map_left_iff, List.forall₂_map_right_iff] at h
    exact h
  apply compareLex_iff
  apply htypes.imp
  intro a b htype
  constructor
  · rw [← compare_eq_lt_iff htype, compare_eq htype, Except.ok.injEq]
  · constructor
    · exact eq_of_order_eq htype
    · rintro rfl
      exact Std.ReflCmp.compare_self

end InstanceTree.Value
