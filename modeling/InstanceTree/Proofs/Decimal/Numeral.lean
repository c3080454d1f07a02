import InstanceTree.Proofs.Decimal.Spelling
import InstanceTree.Value.Decimal64
import Mathlib.Data.List.TakeWhile

namespace InstanceTree.Decimal64

open Decimal (Spells Trimmed)

/-- The number that a text without a sign denotes, in units of `10 ^ -places`: digits, and a
point with one to `places` more of them if there is a fraction. -/
inductive Magnitude (places : Nat) : List Char → Nat → Prop where
  | whole {cs : List Char} {n : Nat} (hn : Spells cs n) (hne : cs ≠ []) :
      Magnitude places cs (n * 10 ^ places)
  | point {cs ds : List Char} {n m : Nat} (hn : Spells cs n) (hne : cs ≠ []) (hm : Spells ds m)
      (hfraction : ds ≠ []) (hplaces : ds.length ≤ places) :
      Magnitude places (cs ++ '.' :: ds) (n * 10 ^ places + m * 10 ^ (places - ds.length))

/-- The number that a text denotes, in units of `10 ^ -places`. -/
inductive Numeral (places : Nat) : List Char → Int → Prop where
  | positive {cs : List Char} {n : Nat} (h : Magnitude places cs n) : Numeral places cs n
  | negative {cs : List Char} {n : Nat} (h : Magnitude places cs n) :
      Numeral places ('-' :: cs) (-n)

/-- The text of a number that is written in one way only: all `places` digits after the point,
no zero in front that could be left out, and no sign but that of a negative number. -/
structure Canonical (places : Nat) (text : List Char) (n : Int) : Prop where
  denotes : Numeral places text n
  point : '.' ∈ text ↔ places ≠ 0
  fraction : ∀ cs ds, text = cs ++ '.' :: ds → ds.length = places
  trimmed : ∀ c cs, text = '0' :: c :: cs ∨ text = '-' :: '0' :: c :: cs → c = '.'
  sign : ∀ cs, text = '-' :: cs → n < 0

variable {cs ds whole fraction : List Char} {n m places : Nat}

theorem ne_point_of_isDigit {c : Char} (h : c.isDigit = true) : c ≠ '.' := by
  rintro rfl
  revert h
  decide

theorem point_not_mem (h : Spells cs n) : '.' ∉ cs :=
  fun hmem => ne_point_of_isDigit (h.isDigit _ hmem) rfl

theorem minus_not_mem (h : Spells cs n) : '-' ∉ cs :=
  fun hmem => absurd (h.isDigit _ hmem) (by decide)

/-! ### Reading -/

theorem split?_whole (h : '.' ∉ cs) : split? cs = some (cs, []) := by
  have hpoint : ∀ c ∈ cs, decide (c ≠ '.') = true := by
    intro c hc
    exact decide_eq_true (by rintro rfl; exact h hc)
  rw [split?, List.dropWhile_eq_nil_iff.2 hpoint]

theorem split?_point (h : '.' ∉ cs) (hne : ds ≠ []) :
    split? (cs ++ '.' :: ds) = some (cs, ds) := by
  have hpoint : ∀ c ∈ cs, decide (c ≠ '.') = true := by
    intro c hc
    exact decide_eq_true (by rintro rfl; exact h hc)
  obtain ⟨d, ds, rfl⟩ := List.exists_cons_of_ne_nil hne
  rw [split?, List.dropWhile_append_of_pos hpoint, List.takeWhile_append_of_pos hpoint]
  simp

theorem of_split?_eq_some (h : split? cs = some (whole, fraction)) :
    (cs = whole ∧ fraction = []) ∨ (cs = whole ++ '.' :: fraction ∧ fraction ≠ []) := by
  have happend := List.takeWhile_append_dropWhile (p := fun c => decide (c ≠ '.')) (l := cs)
  unfold split? at h
  split at h
  · cases h
    exact .inl ⟨rfl, rfl⟩
  · cases h
  · next c ds hlone hdrop =>
    cases h
    have hhead := List.head?_dropWhile_not (fun c => decide (c ≠ '.')) cs
    rw [hdrop] at hhead happend
    have hc : c = '.' := by simpa using hhead
    subst hc
    exact .inr ⟨happend.symm, hlone⟩

theorem magnitude?_of_split? (h : split? cs = some (whole, fraction)) (hn : Spells whole n)
    (hne : whole ≠ []) (hm : Spells fraction m) (hplaces : fraction.length ≤ places) :
    magnitude? places cs = some (n * 10 ^ places + m * 10 ^ (places - fraction.length)) := by
  have hall : (whole ++ fraction).all Char.isDigit = true := by
    apply List.all_eq_true.2
    intro c hc
    exact (List.mem_append.1 hc).elim (hn.isDigit c) (hm.isDigit c)
  have hvalue := ((hn.append hm).append (Spells.zeros (places - fraction.length))).ofDigits_eq
  have hpow : 10 ^ places = 10 ^ fraction.length * 10 ^ (places - fraction.length) := by
    rw [← Nat.pow_add, Nat.add_sub_cancel' hplaces]
  simp only [magnitude?, h, Option.bind_eq_bind, Option.bind_some]
  rw [if_neg (by simp [hne, hplaces]), if_pos hall, hvalue, List.length_replicate, hpow]
  congr 1
  ring

theorem of_magnitude?_eq_some (h : magnitude? places cs = some n) : Magnitude places cs n := by
  obtain ⟨⟨whole, fraction⟩, hsplit, hscaled⟩ := Option.bind_eq_some_iff.1 h
  dsimp only at hscaled
  split at hscaled
  · cases hscaled
  next hshape =>
    obtain ⟨hne, hplaces⟩ := not_or.1 hshape
    replace hne : whole ≠ [] := by simpa using hne
    replace hplaces : fraction.length ≤ places := Nat.le_of_not_lt hplaces
    split at hscaled
    next hall =>
      have hdigits := List.all_eq_true.1 hall
      have hwhole := Decimal.spells_ofDigits fun c hc => hdigits c (List.mem_append_left _ hc)
      have hfraction := Decimal.spells_ofDigits fun c hc => hdigits c (List.mem_append_right _ hc)
      have hvalue := magnitude?_of_split? hsplit hwhole hne hfraction hplaces
      cases Option.some.inj (h.symm.trans hvalue)
      rcases of_split?_eq_some hsplit with ⟨rfl, rfl⟩ | ⟨rfl, hnil⟩
      · rw [show Decimal.ofDigits [] = 0 from rfl, Nat.zero_mul]
        exact .whole hwhole hne
      · exact .point hwhole hne hfraction hnil hplaces
    · cases hscaled

theorem magnitude?_eq_some_iff : magnitude? places cs = some n ↔ Magnitude places cs n := by
  constructor
  · exact of_magnitude?_eq_some
  · intro h
    cases h with
    | whole hn hne =>
      have hsplit := split?_whole (point_not_mem hn)
      have hread := magnitude?_of_split? hsplit hn hne .nil (Nat.zero_le places)
      rwa [Nat.zero_mul] at hread
    | point hn hne hm hfraction hplaces =>
      exact magnitude?_of_split? (split?_point (point_not_mem hn) hfraction) hn hne hm hplaces

theorem Magnitude.unique (h : Magnitude places cs n) (hm : Magnitude places cs m) : n = m :=
  Option.some.inj ((magnitude?_eq_some_iff.2 h).symm.trans (magnitude?_eq_some_iff.2 hm))

theorem inRange?_toInt (v : Int64) : inRange? v.toInt = some v := by
  rw [inRange?, if_pos ⟨Int64.minValue_le_toInt v, Int64.toInt_le v⟩, Int64.ofInt_toInt]

theorem inRange?_eq_some_iff {n : Int} {v : Int64} : inRange? n = some v ↔ v.toInt = n := by
  constructor
  · intro h
    unfold inRange? at h
    split at h
    next hrange =>
      cases h
      exact Int64.toInt_ofInt_of_le hrange.1 (Int.lt_add_one_of_le hrange.2)
    · cases h
  · rintro rfl
    exact inRange?_toInt v

/-- Nothing that fits into 64 bits is lost in 128. -/
theorem wide?_bind_inRange? (n : Int) : (wide? n).bind inRange? = inRange? n := by
  unfold wide?
  split
  · rfl
  · next hwide =>
    symm
    rw [Option.bind_none, inRange?, if_neg]
    rintro ⟨hmin, hmax⟩
    have hmin : -2 ^ 63 ≤ n := hmin
    have hmax : n ≤ 2 ^ 63 - 1 := hmax
    exact hwide ⟨by omega, by omega⟩

theorem Magnitude.ne_minus (h : Magnitude places cs n) (ds : List Char) : cs ≠ '-' :: ds := by
  cases h with
  | whole hn hne =>
    rintro rfl
    exact minus_not_mem hn List.mem_cons_self
  | point hn hne hm hfraction hplaces =>
    intro heq
    obtain ⟨c, cs, rfl⟩ := List.exists_cons_of_ne_nil hne
    cases (List.cons.inj heq).1
    exact minus_not_mem hn List.mem_cons_self

theorem parse?_negative (places : Nat) (cs : List Char) :
    parse? places ('-' :: cs) = (magnitude? places cs).bind fun n => inRange? (-n) :=
  Option.bind_congr fun n _ => wide?_bind_inRange? (-n)

theorem parse?_positive (places : Nat) (h : ∀ ds, cs ≠ '-' :: ds) :
    parse? places cs = (magnitude? places cs).bind fun n => inRange? n := by
  unfold parse?
  split
  · next ds => exact absurd rfl (h ds)
  · exact Option.bind_congr fun n _ => wide?_bind_inRange? n

/-- A text is read exactly if it is a number that fits, and as that number. -/
theorem parse?_eq_some_iff {v : Int64} :
    parse? places cs = some v ↔ Numeral places cs v.toInt := by
  constructor
  · intro h
    by_cases hsign : ∃ ds, cs = '-' :: ds
    · obtain ⟨ds, rfl⟩ := hsign
      rw [parse?_negative] at h
      obtain ⟨n, hn, hv⟩ := Option.bind_eq_some_iff.1 h
      rw [inRange?_eq_some_iff.1 hv]
      exact .negative (magnitude?_eq_some_iff.1 hn)
    · rw [parse?_positive places (not_exists.1 hsign)] at h
      obtain ⟨n, hn, hv⟩ := Option.bind_eq_some_iff.1 h
      rw [inRange?_eq_some_iff.1 hv]
      exact .positive (magnitude?_eq_some_iff.1 hn)
  · intro h
    generalize hz : v.toInt = z at h
    cases h with
    | positive h =>
      rw [parse?_positive places h.ne_minus, magnitude?_eq_some_iff.2 h]
      exact inRange?_eq_some_iff.2 hz
    | negative h =>
      rw [parse?_negative, magnitude?_eq_some_iff.2 h]
      exact inRange?_eq_some_iff.2 hz

example : parse? 2 "5.".toList = none := by decide

theorem Numeral.unique {n m : Int} (h : Numeral places cs n) (hm : Numeral places cs m) :
    n = m := by
  cases h with
  | positive h =>
    cases hm with
    | positive hm => rw [h.unique hm]
    | negative hm => exact absurd rfl (h.ne_minus _)
  | negative h =>
    cases hm with
    | positive hm => exact absurd rfl (hm.ne_minus _)
    | negative hm => rw [h.unique hm]

/-! ### Writing -/

/-- The digits before and after the point with none in front that could be left out. -/
structure Parts (places : Nat) (whole fraction : List Char) (n : Nat) : Prop where
  spells : Spells (whole ++ fraction) n
  nonempty : whole ≠ []
  trimmed : Trimmed whole
  length : fraction.length = places

def join (places : Nat) (whole fraction : List Char) : List Char :=
  whole ++ if places = 0 then [] else '.' :: fraction

theorem Parts.unique {whole' fraction' : List Char} (h : Parts places whole fraction n)
    (h' : Parts places whole' fraction' n) : whole = whole' ∧ fraction = fraction' := by
  obtain ⟨a, b, ha, hb, hn⟩ := h.spells.split
  obtain ⟨a', b', ha', hb', hn'⟩ := h'.spells.split
  have hlt := hb.lt_pow
  have hlt' := hb'.lt_pow
  rw [h.length] at hn hlt
  rw [h'.length] at hn' hlt'
  have hwhole : a = a' := by
    have hdiv := congrArg (· / 10 ^ places) (hn.symm.trans hn')
    simpa [Nat.add_div_of_dvd_right, Nat.div_eq_of_lt hlt, Nat.div_eq_of_lt hlt'] using hdiv
  subst hwhole
  have hfraction : b = b' := by omega
  subst hfraction
  exact ⟨h.trimmed.unique h'.trimmed ha ha' h.nonempty h'.nonempty,
    hb.unique hb' (h.length.trans h'.length.symm)⟩

theorem Parts.magnitude (h : Parts places whole fraction n) :
    Magnitude places (join places whole fraction) n := by
  obtain ⟨a, b, ha, hb, rfl⟩ := h.spells.split
  rw [h.length]
  by_cases hzero : places = 0
  · have hnil : fraction = [] := List.length_eq_zero_iff.1 (h.length.trans hzero)
    subst hnil
    rw [join, if_pos hzero, List.append_nil, ← hb.ofDigits_eq]
    exact .whole ha h.nonempty
  · have hne : fraction ≠ [] := by
      rintro rfl
      exact hzero h.length.symm
    have hpoint := Magnitude.point ha h.nonempty hb hne h.length.le
    rw [h.length, Nat.sub_self, Nat.pow_zero, Nat.mul_one] at hpoint
    rwa [join, if_neg hzero]

theorem Magnitude.parts (h : Magnitude places cs n) (hpoint : '.' ∈ cs ↔ places ≠ 0)
    (hlength : ∀ as bs, cs = as ++ '.' :: bs → bs.length = places)
    (htrim : ∀ c ds, cs = '0' :: c :: ds → c = '.') :
    ∃ whole fraction, Parts places whole fraction n ∧ cs = join places whole fraction := by
  cases h with
  | @whole _ n hn hne =>
    have hzero : places = 0 := by
      by_contra hne
      exact point_not_mem hn (hpoint.2 hne)
    subst hzero
    have htrimmed : Trimmed cs := by
      rintro c ds rfl
      exact ne_point_of_isDigit (hn.isDigit c (by simp)) (htrim c ds rfl)
    rw [Nat.pow_zero, Nat.mul_one]
    exact ⟨cs, [], ⟨by rwa [List.append_nil], hne, htrimmed, rfl⟩, by simp [join]⟩
  | @point whole fraction n m hn hne hm hfraction hplaces =>
    have hzero : places ≠ 0 := hpoint.1 (by simp)
    have hlen : fraction.length = places := hlength _ _ rfl
    have htrimmed : Trimmed whole := by
      rintro c ds rfl
      exact ne_point_of_isDigit (hn.isDigit c (by simp)) (htrim c _ rfl)
    have hspells := hn.append hm
    rw [hlen, Nat.sub_self, Nat.pow_zero, Nat.mul_one]
    rw [hlen] at hspells
    exact ⟨whole, fraction, ⟨hspells, hne, htrimmed, hlen⟩, by rw [join, if_neg hzero]⟩

theorem parts_padded {ds : List Char} (hds : ds = Decimal.padded (places + 1) (Decimal.digits n)) :
    Parts places (ds.take (ds.length - places)) (ds.drop (ds.length - places)) n := by
  have hlen : places + 1 ≤ ds.length := hds ▸ Decimal.le_length_padded ..
  have hwhole : (ds.take (ds.length - places)).length = ds.length - places := by
    rw [List.length_take]
    omega
  constructor
  case spells =>
    rw [List.take_append_drop, hds]
    exact Spells.padded (places + 1) n
  case nonempty =>
    apply List.ne_nil_of_length_pos
    omega
  case trimmed =>
    by_cases hpad : places + 1 ≤ (Decimal.digits n).length
    · have hnone : ds = Decimal.digits n := by
        rw [hds, Decimal.padded, Nat.sub_eq_zero_of_le hpad]
        rfl
      have htrim := Decimal.trimmed_digits n
      rw [← hnone, ← List.take_append_drop (ds.length - places) ds] at htrim
      exact htrim.of_append
    · -- With zeros in front there is one digit before the point.
      have hone : (ds.take (ds.length - places)).length = 1 := by
        rw [hwhole, hds, Decimal.padded, List.length_append, List.length_replicate]
        omega
      obtain ⟨c, hc⟩ := List.length_eq_one_iff.1 hone
      rw [hc]
      exact Decimal.trimmed_singleton c
  case length =>
    rw [List.length_drop]
    omega

def signed (n : Int) (cs : List Char) : List Char :=
  (if n < 0 then ['-'] else []) ++ cs

theorem format_eq (n : Int) (places : Nat) :
    ∃ whole fraction, Parts places whole fraction n.natAbs ∧
      format n places = signed n (join places whole fraction) :=
  ⟨_, _, parts_padded rfl, by rw [format, signed, join, List.append_assoc]⟩

theorem Parts.point_not_mem (h : Parts places whole fraction n) :
    '.' ∉ whole ∧ '.' ∉ fraction := by
  constructor
  · exact fun hmem => Decimal64.point_not_mem h.spells (List.mem_append_left _ hmem)
  · exact fun hmem => Decimal64.point_not_mem h.spells (List.mem_append_right _ hmem)

theorem Parts.numeral {n : Int} (h : Parts places whole fraction n.natAbs) :
    Numeral places (signed n (join places whole fraction)) n := by
  by_cases hneg : n < 0
  · have hn : n = -(n.natAbs : Int) := by omega
    rw [signed, if_pos hneg]
    conv => rhs; rw [hn]
    exact .negative h.magnitude
  · have hn : n = (n.natAbs : Int) := by omega
    rw [signed, if_neg hneg]
    conv => rhs; rw [hn]
    exact .positive h.magnitude

theorem Parts.join_trimmed (h : Parts places whole fraction n) {c : Char}
    (hjoin : join places whole fraction = '0' :: c :: cs) : c = '.' := by
  obtain ⟨d, ds, rfl⟩ := List.exists_cons_of_ne_nil h.nonempty
  rw [join, List.cons_append] at hjoin
  obtain ⟨rfl, hrest⟩ := List.cons.inj hjoin
  cases ds with
  | cons e es => exact absurd rfl (h.trimmed e es)
  | nil =>
    rw [List.nil_append] at hrest
    split at hrest
    · cases hrest
    · exact (List.cons.inj hrest).1.symm

theorem Parts.point_mem_iff (h : Parts places whole fraction n) {z : Int} :
    '.' ∈ signed z (join places whole fraction) ↔ places ≠ 0 := by
  have hwhole := h.point_not_mem.1
  by_cases hneg : z < 0 <;> by_cases hzero : places = 0 <;>
    simp [signed, join, hneg, hzero, hwhole]

theorem Parts.fraction_length (h : Parts places whole fraction n) {z : Int}
    (hsplit : signed z (join places whole fraction) = cs ++ '.' :: ds) : ds.length = places := by
  obtain ⟨hwhole, hfraction⟩ := h.point_not_mem
  have hzero : places ≠ 0 := h.point_mem_iff.1 (by rw [hsplit]; simp)
  have hsign : '.' ∉ (if z < 0 then ['-'] else []) ++ whole := by
    by_cases hneg : z < 0 <;> simp [hneg, hwhole]
  rw [signed, join, if_neg hzero, ← List.append_assoc] at hsplit
  obtain ⟨-, -, rfl⟩ := (List.append_cons_inj_of_notMem hsign hfraction).1 hsplit
  exact h.length

theorem Parts.canonical {n : Int} (h : Parts places whole fraction n.natAbs) :
    Canonical places (signed n (join places whole fraction)) n := by
  have hminus := h.magnitude.ne_minus
  constructor
  case denotes => exact h.numeral
  case point => exact h.point_mem_iff
  case fraction => exact fun _ _ => h.fraction_length
  case trimmed =>
    intro c cs hcs
    by_cases hneg : n < 0
    · rw [signed, if_pos hneg, List.singleton_append] at hcs
      rcases hcs with hcs | hcs
      · exact absurd (List.cons.inj hcs).1 (by decide)
      · exact h.join_trimmed (List.cons.inj hcs).2
    · rw [signed, if_neg hneg, List.nil_append] at hcs
      rcases hcs with hcs | hcs
      · exact h.join_trimmed hcs
      · exact absurd hcs (hminus _)
  case sign =>
    intro cs hcs
    by_contra hneg
    rw [signed, if_neg hneg, List.nil_append] at hcs
    exact hminus _ hcs

theorem Canonical.parts {n : Int} (h : Canonical places cs n) :
    ∃ whole fraction, Parts places whole fraction n.natAbs ∧
      cs = signed n (join places whole fraction) := by
  have hsign := h.sign
  have hdenotes := h.denotes
  generalize hz : n = z at hdenotes
  cases hdenotes with
  | @positive _ m hm =>
    obtain ⟨whole, fraction, hparts, rfl⟩ :=
      hm.parts h.point h.fraction fun c ds hcs => h.trimmed c ds (.inl hcs)
    subst hz
    have hpositive : ¬(m : Int) < 0 := by omega
    exact ⟨whole, fraction, hparts, by rw [signed, if_neg hpositive, List.nil_append]⟩
  | @negative cs m hm =>
    have hneg := hsign cs rfl
    have hpoint : '.' ∈ cs ↔ places ≠ 0 := by
      rw [← h.point]
      simp
    obtain ⟨whole, fraction, hparts, rfl⟩ := hm.parts hpoint
      (fun as bs hcs => h.fraction ('-' :: as) bs (by rw [hcs, List.cons_append]))
      fun c ds hcs => h.trimmed c ds (.inr (by rw [hcs]))
    subst hz
    rw [Int.natAbs_neg, Int.natAbs_natCast]
    exact ⟨whole, fraction, hparts, by rw [signed, if_pos hneg, List.singleton_append]⟩

theorem Canonical.unique {n : Int} (h : Canonical places cs n) (h' : Canonical places ds n) :
    cs = ds := by
  obtain ⟨whole, fraction, hparts, rfl⟩ := h.parts
  obtain ⟨whole', fraction', hparts', rfl⟩ := h'.parts
  obtain ⟨rfl, rfl⟩ := hparts.unique hparts'
  rfl

theorem canonical_format (n : Int) (places : Nat) : Canonical places (format n places) n := by
  obtain ⟨whole, fraction, hparts, hformat⟩ := format_eq n places
  rw [hformat]
  exact hparts.canonical

theorem canonical_iff {n : Int} : Canonical places cs n ↔ cs = format n places := by
  constructor
  · exact fun h => h.unique (canonical_format n places)
  · rintro rfl
    exact canonical_format n places

example : format (-5) 3 = "-0.005".toList := by decide

end InstanceTree.Decimal64
