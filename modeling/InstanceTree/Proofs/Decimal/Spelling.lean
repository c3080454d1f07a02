import InstanceTree.Decimal.Digits
import Mathlib.Data.Nat.Digits.Lemmas

namespace InstanceTree.Decimal

/-- The digits of a text spell a number: ten times what all but the last one spell, and that. -/
inductive Spells : List Char → Nat → Prop where
  | nil : Spells [] 0
  | snoc {cs : List Char} {n d : Nat} (h : Spells cs n) (hd : d < 10) :
      Spells (cs ++ [Nat.digitChar d]) (10 * n + d)

variable {cs ds : List Char} {n m : Nat}

theorem digitChar_toNat_sub {c : Char} (h : c.isDigit = true) :
    Nat.digitChar (c.toNat - 48) = c ∧ c.toNat - 48 < 10 := by
  obtain ⟨hlow, hhigh⟩ : 48 ≤ c.toNat ∧ c.toNat ≤ 57 := by
    simpa [Char.isDigit, UInt32.le_iff_toNat_le] using h
  have hlt : c.toNat - 48 < 10 := by omega
  have hnat : (Nat.digitChar (c.toNat - 48)).toNat = c.toNat := by
    rw [Nat.toNat_digitChar_of_lt_ten hlt]
    omega
  exact ⟨Char.toNat_inj.1 hnat, hlt⟩

theorem Spells.isDigit (h : Spells cs n) : ∀ c ∈ cs, c.isDigit = true := by
  induction h with
  | nil => exact fun c hc => absurd hc List.not_mem_nil
  | snoc h hd ih =>
    intro c hc
    rcases List.mem_append.1 hc with hc | hc
    · exact ih c hc
    · rw [List.mem_singleton.1 hc, Nat.isDigit_digitChar, decide_eq_true hd]

theorem Spells.ofDigits_eq (h : Spells cs n) : ofDigits cs = n := by
  induction h with
  | nil => rfl
  | snoc h hd ih =>
    rw [ofDigits, Nat.ofDigitChars_append, ← ofDigits, ih,
      Nat.ofDigitChars_cons_digitChar_of_lt_ten hd, Nat.ofDigitChars_nil]

theorem spells_ofDigits (h : ∀ c ∈ cs, c.isDigit = true) : Spells cs (ofDigits cs) := by
  induction cs using List.reverseRecOn with
  | nil => exact .nil
  | append_singleton cs c ih =>
    obtain ⟨hc, hlt⟩ := digitChar_toNat_sub (h c (by simp))
    have hcs := ih fun c hc => h c (List.mem_append_left _ hc)
    have hsnoc := hcs.snoc hlt
    rw [hc] at hsnoc
    rwa [← hsnoc.ofDigits_eq] at hsnoc

theorem spells_iff : Spells cs n ↔ (∀ c ∈ cs, c.isDigit = true) ∧ ofDigits cs = n := by
  constructor
  · exact fun h => ⟨h.isDigit, h.ofDigits_eq⟩
  · rintro ⟨h, rfl⟩
    exact spells_ofDigits h

theorem Spells.append (h : Spells cs n) (hm : Spells ds m) :
    Spells (cs ++ ds) (n * 10 ^ ds.length + m) := by
  induction hm with
  | nil => simpa using h
  | @snoc ds m d hm hd ih =>
    have hvalue : 10 * (n * 10 ^ ds.length + m) + d =
        n * 10 ^ (ds ++ [Nat.digitChar d]).length + (10 * m + d) := by
      rw [List.length_append, List.length_singleton, Nat.pow_succ]
      ring
    rw [← List.append_assoc, ← hvalue]
    exact ih.snoc hd

theorem Spells.split (h : Spells (cs ++ ds) n) :
    ∃ a b, Spells cs a ∧ Spells ds b ∧ n = a * 10 ^ ds.length + b := by
  have hcs := spells_ofDigits fun c hc => h.isDigit c (List.mem_append_left ds hc)
  have hds := spells_ofDigits fun c hc => h.isDigit c (List.mem_append_right cs hc)
  have hvalue := (hcs.append hds).ofDigits_eq
  rw [h.ofDigits_eq] at hvalue
  exact ⟨_, _, hcs, hds, hvalue⟩

theorem Spells.zeros (count : Nat) : Spells (List.replicate count '0') 0 := by
  induction count with
  | zero => exact .nil
  | succ count ih =>
    rw [List.replicate_succ']
    exact ih.snoc (by decide : 0 < 10)

theorem Spells.lt_pow (h : Spells cs n) : n < 10 ^ cs.length := by
  induction h with
  | nil => decide
  | snoc h hd ih =>
    rw [List.length_append, List.length_singleton, Nat.pow_succ]
    omega

theorem Spells.unique (h : Spells cs n) (hm : Spells ds n) (hlen : cs.length = ds.length) :
    cs = ds := by
  induction h generalizing ds with
  | nil => exact (List.length_eq_zero_iff.1 hlen.symm).symm
  | @snoc cs n d h hd ih =>
    generalize hk : 10 * n + d = k at hm
    cases hm with
    | nil => simp at hlen
    | @snoc ds m e hm he =>
      have hn : m = n := by omega
      have hlast : e = d := by omega
      subst hn hlast
      rw [List.length_append, List.length_append, Nat.add_right_cancel_iff] at hlen
      rw [ih hm hlen]

theorem Spells.digits (n : Nat) : Spells (digits n) n :=
  spells_iff.2 ⟨fun _ hc => Nat.isDigit_of_mem_toDigits (by decide) (by decide) hc,
    Nat.ofDigitChars_toDigits (by decide) (by decide)⟩

theorem Spells.padded (width n : Nat) : Spells (padded width (Decimal.digits n)) n := by
  have h := (Spells.zeros (width - (Decimal.digits n).length)).append (Spells.digits n)
  rwa [Nat.zero_mul, Nat.zero_add] at h

theorem le_length_padded (width : Nat) (cs : List Char) :
    width ≤ (Decimal.padded width cs).length := by
  rw [Decimal.padded, List.length_append, List.length_replicate]
  omega

def Trimmed (cs : List Char) : Prop :=
  ∀ c ds, cs ≠ '0' :: c :: ds

theorem trimmed_singleton (c : Char) : Trimmed [c] := by
  intro d ds h
  simp at h

theorem Trimmed.of_append (h : Trimmed (cs ++ ds)) : Trimmed cs := by
  rintro c es rfl
  exact h c (es ++ ds) rfl

theorem Trimmed.pow_le {c : Char} (htrim : Trimmed (c :: ds)) (hds : ds ≠ [])
    (h : Spells (c :: ds) n) : 10 ^ ds.length ≤ n := by
  have hsplit : Spells ([c] ++ ds) n := h
  obtain ⟨a, b, ha, -, rfl⟩ := hsplit.split
  have hne : a ≠ 0 := by
    rintro rfl
    obtain ⟨d, es, rfl⟩ := List.exists_cons_of_ne_nil hds
    have hc := ha.unique (Spells.zeros 1) rfl
    exact htrim d es (by rw [List.head_eq_of_cons_eq hc])
  have hpos : 1 ≤ a := Nat.one_le_iff_ne_zero.2 hne
  calc 10 ^ ds.length = 1 * 10 ^ ds.length := (Nat.one_mul _).symm
    _ ≤ a * 10 ^ ds.length := Nat.mul_le_mul_right _ hpos
    _ ≤ a * 10 ^ ds.length + b := Nat.le_add_right _ _

theorem Trimmed.length_le (htrim : Trimmed cs) (h : Spells cs n) (hm : Spells ds n)
    (hne : ds ≠ []) : cs.length ≤ ds.length := by
  have hpos := List.length_pos_iff.2 hne
  cases cs with
  | nil => exact Nat.zero_le _
  | cons c cs =>
    by_cases hcs : cs = []
    · subst hcs
      exact hpos
    · have hlt : 10 ^ cs.length < 10 ^ ds.length :=
        Nat.lt_of_le_of_lt (htrim.pow_le hcs h) hm.lt_pow
      exact (Nat.pow_lt_pow_iff_right (by decide)).1 hlt

theorem Trimmed.unique (htrim : Trimmed cs) (htrim' : Trimmed ds) (h : Spells cs n)
    (hm : Spells ds n) (hcs : cs ≠ []) (hds : ds ≠ []) : cs = ds :=
  h.unique hm (Nat.le_antisymm (htrim.length_le h hm hds) (htrim'.length_le hm h hcs))

theorem trimmed_digits (n : Nat) : Trimmed (digits n) := by
  intro c ds hdigits
  have h : Spells (['0'] ++ c :: ds) n := by
    rw [List.singleton_append, ← hdigits]
    exact Spells.digits n
  obtain ⟨a, b, ha, hb, rfl⟩ := h.split
  have hzero : a = 0 := ha.ofDigits_eq.symm
  subst hzero
  have hlen : (digits (0 * 10 ^ (c :: ds).length + b)).length ≤ (c :: ds).length := by
    apply (Nat.length_toDigits_le_iff (by decide) (by simp)).2
    rw [Nat.zero_mul, Nat.zero_add]
    exact hb.lt_pow
  rw [hdigits] at hlen
  simp at hlen

end InstanceTree.Decimal
