import InstanceTree.Proofs.Yields
import InstanceTree.Value.Order
import Std.Data.TreeMap

namespace InstanceTree.Value

/-- The number that a value is compared by first; of bytes, how many there are. -/
def number : Value → Int
  | .int v => v.toInt
  | .uint v => v.toNat
  | .decimal64 scaled _ => scaled.toInt
  | .bool b => b.toNat
  | .binary bytes => bytes.length
  | _ => 0

def text : Value → String
  | .string s => s
  | .enumeration s => s
  | .identityref s => s
  | _ => ""

def bytes : Value → List UInt8
  | .binary bs => bs
  | _ => []

/-- An order of all values, which agrees with the order of the values of each type. -/
def order : Value → Value → Ordering :=
  compareLex (compareOn number) (compareLex (compareOn text) (compareOn bytes))

def orderRows : List Value → List Value → Ordering :=
  List.compareLex order

instance : Std.TransCmp order :=
  inferInstanceAs (Std.TransCmp (compareLex _ _))

instance : Std.TransCmp orderRows :=
  inferInstanceAs (Std.TransCmp (List.compareLex _))

theorem order_of_number {a b : Value} (ht : a.text = b.text) (hb : a.bytes = b.bytes) :
    a.order b = Ord.compare a.number b.number := by
  simp [order, compareLex, compareOn, ht, hb]

theorem order_of_text {a b : Value} (hn : a.number = b.number) (hb : a.bytes = b.bytes) :
    a.order b = Ord.compare a.text b.text := by
  simp [order, compareLex, compareOn, hn, hb]

theorem compare_toInt (a b : Int64) : Ord.compare a.toInt b.toInt = Ord.compare a b := by
  simp only [Ord.compare, compareOfLessAndEq, Int64.lt_iff_toInt_lt, ← Int64.toInt_inj]

theorem compare_toNat (a b : UInt64) :
    Ord.compare (a.toNat : Int) (b.toNat : Int) = Ord.compare a b := by
  simp only [Ord.compare, compareOfLessAndEq, UInt64.lt_iff_toNat_lt, ← UInt64.toNat_inj,
    Int.ofNat_lt, Int.ofNat_inj]

theorem compare_length (as bs : List UInt8) :
    Ord.compare (as.length : Int) (bs.length : Int) = Ord.compare as.length bs.length := by
  simp only [Ord.compare, compareOfLessAndEq, Int.ofNat_lt, Int.ofNat_inj]

theorem compare_eq {a b : Value} (h : a.type = b.type) : a.compare b = .ok (a.order b) := by
  cases a <;> cases b <;> cases h
  case int.int a b =>
    have hnum : order (.int a) (.int b) = Ord.compare a.toInt b.toInt := order_of_number rfl rfl
    rw [hnum, compare_toInt]
    rfl
  case uint.uint a b =>
    have hnum : order (.uint a) (.uint b) = Ord.compare (a.toNat : Int) b.toNat :=
      order_of_number rfl rfl
    rw [hnum, compare_toNat]
    rfl
  case decimal64.decimal64 a p b =>
    have hnum : order (.decimal64 a p) (.decimal64 b p) = Ord.compare a.toInt b.toInt :=
      order_of_number rfl rfl
    have hcompare : compare (.decimal64 a p) (.decimal64 b p) = .ok (Ord.compare a b) :=
      if_pos rfl
    rw [hnum, compare_toInt, hcompare]
  case bool.bool a b => cases a <;> cases b <;> decide
  case string.string a b =>
    have htext : order (.string a) (.string b) = Ord.compare a b := order_of_text rfl rfl
    rw [htext]
    rfl
  case enumeration.enumeration a b =>
    have htext : order (.enumeration a) (.enumeration b) = Ord.compare a b := order_of_text rfl rfl
    rw [htext]
    rfl
  case identityref.identityref a b =>
    have htext : order (.identityref a) (.identityref b) = Ord.compare a b := order_of_text rfl rfl
    rw [htext]
    rfl
  case binary.binary as bs =>
    have hlex : order (.binary as) (.binary bs) =
        (Ord.compare (as.length : Int) (bs.length : Int)).then
          ((Ord.compare "" "").then (Ord.compare as bs)) := rfl
    have hempty : Ord.compare "" "" = .eq := Std.ReflOrd.compare_self
    rw [hlex, compare_length, hempty]
    rfl
  case empty.empty => rfl

theorem eq_of_order_eq {v w : Value} (htype : v.type = w.type) (horder : v.order w = .eq) :
    v = w := by
  simp only [order, compareLex, compareOn, Ordering.then_eq_eq, Std.compare_eq_iff_eq] at horder
  obtain ⟨hnumber, htext, hbytes⟩ := horder
  cases v <;> cases w <;> cases htype
  case int.int a b => rw [Int64.toInt_inj.1 hnumber]
  case uint.uint a b => rw [UInt64.toNat_inj.1 (Int.ofNat.inj hnumber)]
  case decimal64.decimal64 a _ b => rw [Int64.toInt_inj.1 hnumber]
  case bool.bool a b => cases a <;> cases b <;> simp_all [number]
  case string.string a b => exact congrArg _ htext
  case enumeration.enumeration a b => exact congrArg _ htext
  case identityref.identityref a b => exact congrArg _ htext
  case binary.binary a b => exact congrArg _ hbytes
  case empty.empty => rfl

end InstanceTree.Value
