namespace InstanceTree

/-- A way to write byte strings as texts: a text is read only as the bytes that it is written for. -/
class ByteCodec where
  encode : List UInt8 → List Char
  decode? : List Char → Option (List UInt8)
  decode?_encode : ∀ bytes, decode? (encode bytes) = some bytes
  encode_of_decode? : ∀ {cs bytes}, decode? cs = some bytes → encode bytes = cs

namespace Base64

def alphabet : List Char :=
  "ABCDEFGHIJKLMNOPQRSTUVWXYZabcdefghijklmnopqrstuvwxyz0123456789+/".toList

def digit (n : Nat) : Char :=
  alphabet.getD n '='

def digit? (c : Char) : Option Nat :=
  alphabet.idxOf? c

def byte (n : Nat) : UInt8 :=
  UInt8.ofNat n

/-- Writes three bytes as four digits; one or two bytes at the end are filled up with `=`. -/
def encode : List UInt8 → List Char
  | [] => []
  | [a] =>
    let n := a.toNat * 16
    [digit (n / 64), digit (n % 64), '=', '=']
  | [a, b] =>
    let n := (a.toNat * 256 + b.toNat) * 4
    [digit (n / 4096), digit (n / 64 % 64), digit (n % 64), '=']
  | a :: b :: c :: rest =>
    let n := (a.toNat * 256 + b.toNat) * 256 + c.toNat
    digit (n / 262144) :: digit (n / 4096 % 64) :: digit (n / 64 % 64) :: digit (n % 64) ::
      encode rest

/-- Reads the last group of four: it may be filled up, and the bits that no byte takes have
to be zero. -/
def decodeLast (a b c d : Char) : Option (List UInt8) := do
  let p ← digit? a
  let q ← digit? b
  let n := p * 64 + q
  if c = '=' then
    if d = '=' ∧ n % 16 = 0 then some [byte (n / 16)] else none
  else
    let n := n * 64 + (← digit? c)
    if d = '=' then
      if n % 4 = 0 then some [byte (n / 1024), byte (n / 4)] else none
    else
      let n := n * 64 + (← digit? d)
      some [byte (n / 65536), byte (n / 256), byte n]

def decode? : List Char → Option (List UInt8)
  | [] => some []
  | [a, b, c, d] => decodeLast a b c d
  | a :: b :: c :: d :: rest => do
    let n := (((← digit? a) * 64 + (← digit? b)) * 64 + (← digit? c)) * 64 + (← digit? d)
    return byte (n / 65536) :: byte (n / 256) :: byte n :: (← decode? rest)
  | _ => none

theorem digit?_digit {n : Nat} (h : n < 64) : digit? (digit n) = some n := by
  revert n
  decide +kernel

theorem digit_ne_pad {n : Nat} (h : n < 64) : digit n ≠ '=' := by
  revert n
  decide +kernel

theorem byte_eq {n m : Nat} {a : UInt8} (h : n = m * 256 + a.toNat) : byte n = a := by
  apply UInt8.toNat_inj.1
  rw [byte, UInt8.toNat_ofNat', h]
  have hlt := a.toNat_lt
  omega

theorem joined (n : Nat) :
    ((n / 262144 * 64 + n / 4096 % 64) * 64 + n / 64 % 64) * 64 + n % 64 = n := by
  omega

theorem decode?_encode (bytes : List UInt8) : decode? (encode bytes) = some bytes := by
  induction bytes using encode.induct with
  | case1 => rfl
  | case2 a =>
    have ha := a.toNat_lt
    obtain ⟨n, hn⟩ : ∃ n, n = a.toNat * 16 := ⟨_, rfl⟩
    have hjoined : n / 64 * 64 + n % 64 = n := by omega
    have hbyte : byte (n / 16) = a := byte_eq (m := 0) (by omega)
    simp only [encode, ← hn, decode?, decodeLast, Option.bind_eq_bind, Option.bind_some,
      digit?_digit (show n / 64 < 64 by omega), digit?_digit (show n % 64 < 64 by omega), hjoined]
    rw [if_pos trivial, if_pos ⟨trivial, by omega⟩, hbyte]
  | case3 a b =>
    have ha := a.toNat_lt
    have hb := b.toNat_lt
    obtain ⟨n, hn⟩ : ∃ n, n = (a.toNat * 256 + b.toNat) * 4 := ⟨_, rfl⟩
    have hjoined : (n / 4096 * 64 + n / 64 % 64) * 64 + n % 64 = n := by omega
    have hfirst : byte (n / 1024) = a := byte_eq (m := 0) (by omega)
    have hsecond : byte (n / 4) = b := byte_eq (m := a.toNat) (by omega)
    simp only [encode, ← hn, decode?, decodeLast, Option.bind_eq_bind, Option.bind_some,
      digit?_digit (show n / 4096 < 64 by omega), digit?_digit (show n / 64 % 64 < 64 by omega),
      digit?_digit (show n % 64 < 64 by omega), hjoined]
    rw [if_neg (digit_ne_pad (by omega)), if_pos trivial, if_pos (by omega), hfirst, hsecond]
  | case4 a b c rest ih =>
    have ha := a.toNat_lt
    have hb := b.toNat_lt
    have hc := c.toNat_lt
    obtain ⟨n, hn⟩ : ∃ n, n = (a.toNat * 256 + b.toNat) * 256 + c.toNat := ⟨_, rfl⟩
    have hjoined := joined n
    have hfirst : byte (n / 65536) = a := byte_eq (m := 0) (by omega)
    have hsecond : byte (n / 256) = b := byte_eq (m := a.toNat) (by omega)
    have hthird : byte n = c := byte_eq (m := a.toNat * 256 + b.toNat) hn
    have hp := digit?_digit (show n / 262144 < 64 by omega)
    have hq := digit?_digit (show n / 4096 % 64 < 64 by omega)
    have hr := digit?_digit (show n / 64 % 64 < 64 by omega)
    have hs := digit?_digit (show n % 64 < 64 by omega)
    simp only [encode, ← hn]
    cases hrest : encode rest with
    | nil =>
      rw [hrest] at ih
      have hnil : rest = [] := (Option.some.inj ih).symm
      simp only [decode?, decodeLast, Option.bind_eq_bind, Option.bind_some, hp, hq, hr, hs,
        hjoined]
      rw [if_neg (digit_ne_pad (by omega)), if_neg (digit_ne_pad (by omega)), hfirst, hsecond,
        hthird, hnil]
    | cons d ds =>
      rw [hrest] at ih
      simp only [decode?, Option.bind_eq_bind, Option.bind_some, hp, hq, hr, hs, hjoined, ih,
        hfirst, hsecond, hthird]
      rfl

theorem digit_of_digit? {c : Char} {n : Nat} (h : digit? c = some n) : n < 64 ∧ digit n = c := by
  obtain ⟨hlt, hc, -⟩ := List.idxOf?_eq_some_iff.1 h
  have hget : alphabet.getD n '=' = c := by
    rw [List.getD_eq_getElem?_getD, List.getElem?_eq_getElem hlt, Option.getD_some, hc]
  exact ⟨hlt, hget⟩

theorem toNat_byte (n : Nat) : (byte n).toNat = n % 256 :=
  UInt8.toNat_ofNat'

theorem encode_one {p q : Nat} (hp : p < 64) (hq : q < 64) (hbits : (p * 64 + q) % 16 = 0) :
    encode [byte ((p * 64 + q) / 16)] = [digit p, digit q, '=', '='] := by
  obtain ⟨n, hn⟩ : ∃ n, n = p * 64 + q := ⟨_, rfl⟩
  rw [← hn] at hbits
  have hjoined : n / 16 % 256 * 16 = n := by omega
  have hfirst : n / 64 = p := by omega
  have hsecond : n % 64 = q := by omega
  simp only [← hn, encode, toNat_byte, hjoined, hfirst, hsecond]

theorem encode_two {p q r : Nat} (hp : p < 64) (hq : q < 64) (hr : r < 64)
    (hbits : ((p * 64 + q) * 64 + r) % 4 = 0) :
    encode [byte (((p * 64 + q) * 64 + r) / 1024), byte (((p * 64 + q) * 64 + r) / 4)] =
      [digit p, digit q, digit r, '='] := by
  obtain ⟨n, hn⟩ : ∃ n, n = (p * 64 + q) * 64 + r := ⟨_, rfl⟩
  rw [← hn] at hbits
  have hjoined : (n / 1024 % 256 * 256 + n / 4 % 256) * 4 = n := by omega
  have hfirst : n / 4096 = p := by omega
  have hsecond : n / 64 % 64 = q := by omega
  have hthird : n % 64 = r := by omega
  simp only [← hn, encode, toNat_byte, hjoined, hfirst, hsecond, hthird]

theorem encode_three {p q r s : Nat} (hp : p < 64) (hq : q < 64) (hr : r < 64) (hs : s < 64)
    (bytes : List UInt8) :
    encode (byte ((((p * 64 + q) * 64 + r) * 64 + s) / 65536) ::
      byte ((((p * 64 + q) * 64 + r) * 64 + s) / 256) ::
      byte (((p * 64 + q) * 64 + r) * 64 + s) :: bytes) =
        digit p :: digit q :: digit r :: digit s :: encode bytes := by
  obtain ⟨n, hn⟩ : ∃ n, n = ((p * 64 + q) * 64 + r) * 64 + s := ⟨_, rfl⟩
  have hjoined : (n / 65536 % 256 * 256 + n / 256 % 256) * 256 + n % 256 = n := by omega
  have hfirst : n / 262144 = p := by omega
  have hsecond : n / 4096 % 64 = q := by omega
  have hthird : n / 64 % 64 = r := by omega
  have hfourth : n % 64 = s := by omega
  simp only [← hn, encode, toNat_byte, hjoined, hfirst, hsecond, hthird, hfourth]

theorem encode_of_decodeLast {a b c d : Char} {bytes : List UInt8}
    (h : decodeLast a b c d = some bytes) : encode bytes = [a, b, c, d] := by
  obtain ⟨p, hp, h⟩ := Option.bind_eq_some_iff.1 h
  obtain ⟨q, hq, h⟩ := Option.bind_eq_some_iff.1 h
  obtain ⟨hplt, ha⟩ := digit_of_digit? hp
  obtain ⟨hqlt, hb⟩ := digit_of_digit? hq
  dsimp only at h
  split at h
  next hpad =>
    split at h
    next hlast =>
      cases h
      rw [encode_one hplt hqlt hlast.2, ha, hb, hpad, hlast.1]
    · cases h
  next hpad =>
    obtain ⟨r, hr, h⟩ := Option.bind_eq_some_iff.1 h
    obtain ⟨hrlt, hc⟩ := digit_of_digit? hr
    split at h
    next hlast =>
      split at h
      next hbits =>
        cases h
        rw [encode_two hplt hqlt hrlt hbits, ha, hb, hc, hlast]
      · cases h
    next hlast =>
      obtain ⟨s, hs, h⟩ := Option.bind_eq_some_iff.1 h
      obtain ⟨hslt, hd⟩ := digit_of_digit? hs
      cases h
      rw [encode_three hplt hqlt hrlt hslt [], ha, hb, hc, hd, encode]

theorem encode_of_decode? {cs : List Char} {bytes : List UInt8} (h : decode? cs = some bytes) :
    encode bytes = cs := by
  induction cs using decode?.induct generalizing bytes with
  | case1 =>
    cases h
    rfl
  | case2 a b c d => exact encode_of_decodeLast h
  | case3 a b c d rest hrest ih =>
    rw [decode?.eq_3 _ _ _ _ _ hrest] at h
    obtain ⟨p, hp, h⟩ := Option.bind_eq_some_iff.1 h
    obtain ⟨q, hq, h⟩ := Option.bind_eq_some_iff.1 h
    obtain ⟨r, hr, h⟩ := Option.bind_eq_some_iff.1 h
    obtain ⟨s, hs, h⟩ := Option.bind_eq_some_iff.1 h
    obtain ⟨tail, htail, h⟩ := Option.bind_eq_some_iff.1 h
    obtain ⟨hplt, ha⟩ := digit_of_digit? hp
    obtain ⟨hqlt, hb⟩ := digit_of_digit? hq
    obtain ⟨hrlt, hc⟩ := digit_of_digit? hr
    obtain ⟨hslt, hd⟩ := digit_of_digit? hs
    cases h
    rw [encode_three hplt hqlt hrlt hslt, ih htail, ha, hb, hc, hd]
  | case4 cs hnil hfour hmore =>
    rw [decode?.eq_4 _ hnil hfour hmore] at h
    cases h

/-- The codec of the documents: the standard alphabet, filled up to whole groups. -/
instance codec : ByteCodec where
  encode := encode
  decode? := decode?
  decode?_encode := decode?_encode
  encode_of_decode? := encode_of_decode?

end Base64

end InstanceTree
