namespace InstanceTree

/-- A number of a document: a whole one of 64 bits, apart by its sign, or the bits of a double
precision one. -/
inductive Number where
  | natural (value : UInt64)
  | negative (value : Int64) (below : value < 0)
  | float (bits : UInt64)
deriving DecidableEq, Repr

namespace Number

def signed (value : Int64) : Number :=
  if below : value < 0 then .negative value below else .natural value.toUInt64

def int? : Number → Option Int
  | .natural n => some n.toNat
  | .negative n _ => some n.toInt
  | .float _ => none

theorem int?_signed (value : Int64) : (signed value).int? = some value.toInt := by
  unfold signed
  split
  next below => rfl
  next below =>
    have hle : 0 ≤ value := Int64.not_lt.1 below
    have hnat : 0 ≤ value.toInt := Int64.le_iff_toInt_le.1 hle
    rw [int?, Int64.toNat_toUInt64_of_le hle, Int64.toNatClampNeg, Int.toNat_of_nonneg hnat]

/-- Only one number of a document stands for a whole number. -/
theorem eq_of_int? {a b : Number} {n : Int} (ha : a.int? = some n) (hb : b.int? = some n) :
    a = b := by
  have hsign : ∀ {v : Int64}, v < 0 → v.toInt < 0 := Int64.lt_iff_toInt_lt.1
  cases a with
  | natural x =>
    cases b with
    | natural y =>
      have h : (x.toNat : Int) = y.toNat := Option.some.inj (ha.trans hb.symm)
      rw [UInt64.toNat_inj.1 (Int.ofNat.inj h)]
    | negative y hy =>
      have h : (x.toNat : Int) = y.toInt := Option.some.inj (ha.trans hb.symm)
      have hlt := hsign hy
      omega
    | float bits => cases hb
  | negative x hx =>
    cases b with
    | natural y =>
      have h : x.toInt = y.toNat := Option.some.inj (ha.trans hb.symm)
      have hlt := hsign hx
      omega
    | negative y hy =>
      have h : x.toInt = y.toInt := Option.some.inj (ha.trans hb.symm)
      cases Int64.toInt_inj.1 h
      rfl
    | float bits => cases hb
  | float bits => cases ha

end Number

/-- A document. The members of an object keep their order and have distinct names. -/
inductive Json where
  | null
  | bool (value : Bool)
  | num (value : Number)
  | str (text : String)
  | arr (items : List Json)
  | obj (members : List (String × Json))
deriving Repr

namespace Json

mutual

def same : Json → Json → Bool
  | .null, .null => true
  | .bool a, .bool b => a = b
  | .num a, .num b => a = b
  | .str a, .str b => a = b
  | .arr as, .arr bs => sameItems as bs
  | .obj as, .obj bs => sameMembers as bs
  | _, _ => false

def sameItems : List Json → List Json → Bool
  | [], [] => true
  | a :: as, b :: bs => same a b && sameItems as bs
  | _, _ => false

def sameMembers : List (String × Json) → List (String × Json) → Bool
  | [], [] => true
  | (m, a) :: as, (n, b) :: bs => m = n && same a b && sameMembers as bs
  | _, _ => false

end

mutual

theorem same_iff : (a b : Json) → (same a b = true ↔ a = b)
  | .null, b => by cases b <;> simp [same]
  | .bool _, b => by cases b <;> simp [same]
  | .num _, b => by cases b <;> simp [same]
  | .str _, b => by cases b <;> simp [same]
  | .arr as, b => by cases b <;> simp [same, sameItems_iff as]
  | .obj as, b => by cases b <;> simp [same, sameMembers_iff as]

theorem sameItems_iff : (as bs : List Json) → (sameItems as bs = true ↔ as = bs)
  | [], bs => by cases bs <;> simp [sameItems]
  | a :: as, bs => by cases bs <;> simp [sameItems, same_iff a, sameItems_iff as]

theorem sameMembers_iff : (as bs : List (String × Json)) → (sameMembers as bs = true ↔ as = bs)
  | [], bs => by cases bs <;> simp [sameMembers]
  | (m, a) :: as, bs => by
    cases bs <;> simp [sameMembers, same_iff a, sameMembers_iff as, Prod.ext_iff]

end

instance : DecidableEq Json :=
  fun a b => decidable_of_iff _ (same_iff a b)

abbrev Members := List (String × Json)

namespace Members

def get? : Members → String → Option Json
  | [], _ => none
  | (n, v) :: rest, name => if n = name then some v else get? rest name

/-- Gives a name a value: in the place of the member of that name, or at the end. -/
def set : Members → String → Json → Members
  | [], name, v => [(name, v)]
  | (n, w) :: rest, name, v =>
    if n = name then (n, v) :: rest else (n, w) :: set rest name v

theorem get?_set_same (ms : Members) (name : String) (v : Json) :
    (ms.set name v).get? name = some v := by
  induction ms with
  | nil => simp [set, get?]
  | cons m rest ih =>
    obtain ⟨n, w⟩ := m
    by_cases h : n = name <;> simp [set, get?, h, ih]

theorem get?_set_other (ms : Members) {name other : String} (v : Json) (h : name ≠ other) :
    (ms.set name v).get? other = ms.get? other := by
  induction ms with
  | nil => simp [set, get?, h]
  | cons m rest ih =>
    obtain ⟨n, w⟩ := m
    by_cases hn : n = name
    · simp [set, get?, hn, h]
    · simp [set, get?, hn, ih]

end Members

def bool? : Json → Option Bool
  | .bool b => some b
  | _ => none

def str? : Json → Option String
  | .str s => some s
  | _ => none

def int? : Json → Option Int
  | .num n => n.int?
  | _ => none

end Json

end InstanceTree
