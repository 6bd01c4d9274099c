import LightClient.Digest.Text
import LightClient.Proofs.Guards

/-!
# Hexadecimal text is read as what it spells

A text spells a byte string when its characters, made lower-case, are the digits that are written
for it, behind at most one marker. Such a character is one octet of text, which is read as the value
of the digit, and is never the `x` of a marker; and an octet of text that is read as a digit is such
a character, for no other starts with it. So text is read pair by pair as the octets that it spells,
and is read only if it spells some. Where it does not, its octets do not pair up, or the first of
them that is no digit is to blame.
-/

namespace LightClient

namespace Hex

/-- A text spells a byte string: two digits for each octet, of either case, behind at most one
marker. -/
def Spells (text : String) (bs : Bytes) : Prop :=
  ∃ chars, (text.toList = chars ∨ text.toList = '0' :: 'x' :: chars) ∧
    chars.map Char.toLower = digits bs

/-! ## Digits -/

theorem toNat_lt_of_toLower_eq_digit {c : Char} {value : Nat} (hvalue : value < 16)
    (hlower : c.toLower = digit value) : c.toNat < 128 := by
  have hdigits : ∀ v < 16, (digit v).toNat < 128 := by decide
  unfold Char.toLower at hlower
  split at hlower
  next hupper =>
    have hle : c.toNat ≤ 'Z'.toNat := hupper.2
    exact Nat.lt_of_le_of_lt hle (by decide)
  next => exact hlower ▸ hdigits value hvalue

/-- A digit of either case is one octet of text, which is read as the digit's value. -/
theorem exists_utf8_of_toLower_eq_digit {c : Char} {value : Nat} (hvalue : value < 16)
    (hlower : c.toLower = digit value) :
    ∃ octet, String.utf8EncodeChar c = [octet] ∧ digitValue? octet = some value := by
  -- Lower case takes no other character into the first 128, so finitely many remain to be checked.
  have hread : ∀ n < 128, ∀ v < 16, (Char.ofNat n).toLower = digit v →
      (String.utf8EncodeChar (Char.ofNat n)).map digitValue? = [some v] := by decide +kernel
  have hc := hread c.toNat (toNat_lt_of_toLower_eq_digit hvalue hlower) value hvalue
  rw [Char.ofNat_toNat] at hc
  obtain ⟨octet, hutf8, hoctet⟩ := List.map_eq_singleton_iff.mp (hc hlower)
  exact ⟨octet, hutf8, hoctet⟩

/-- Outside the first 128 characters, the first octet of a character is at least 192. -/
theorem exists_utf8EncodeChar_eq_cons {c : Char} (hwide : 128 ≤ c.toNat) :
    ∃ first rest, String.utf8EncodeChar c = first :: rest ∧ 192 ≤ first.toNat := by
  have hvalue : c.val.toNat = c.toNat := rfl
  unfold String.utf8EncodeChar
  simp only [hvalue]
  split
  · omega
  · split
    · exact ⟨_, _, rfl, by rw [UInt8.toNat_ofNat']; omega⟩
    · split
      · exact ⟨_, _, rfl, by rw [UInt8.toNat_ofNat']; omega⟩
      · exact ⟨_, _, rfl, by rw [UInt8.toNat_ofNat']; omega⟩

/-- An octet that stands for a digit, of either case. -/
def IsDigit (octet : UInt8) : Prop :=
  '0'.toNat ≤ octet.toNat ∧ octet.toNat ≤ '9'.toNat ∨
    'a'.toNat ≤ octet.toNat ∧ octet.toNat ≤ 'f'.toNat ∨
    'A'.toNat ≤ octet.toNat ∧ octet.toNat ≤ 'F'.toNat

instance : DecidablePred IsDigit := fun _ => inferInstanceAs (Decidable (_ ∨ _))

theorem digitValue?_eq_none_iff {octet : UInt8} : digitValue? octet = none ↔ ¬IsDigit octet := by
  unfold digitValue? IsDigit
  dsimp only
  split
  next hdecimal => simp only [reduceCtorEq, hdecimal, and_self, true_or, not_true]
  next hdecimal =>
    split
    next hlower => simp only [reduceCtorEq, hlower, and_self, true_or, or_true, not_true]
    next hlower =>
      split
      next hupper => simp only [reduceCtorEq, hupper, and_self, or_true, not_true]
      next hupper => simp only [hdecimal, hlower, hupper, or_self, not_false_eq_true]

theorem toNat_lt_of_isDigit {octet : UInt8} (hdigit : IsDigit octet) : octet.toNat < 128 := by
  have hlargest : '9'.toNat < 128 ∧ 'f'.toNat < 128 ∧ 'F'.toNat < 128 := by decide
  unfold IsDigit at hdigit
  omega

/-- An octet of text that is read as a digit is a whole character, the digit in either case. -/
theorem toLower_eq_digit_of_utf8 {c : Char} {octet : UInt8} {rest : Bytes} {value : Nat}
    (hutf8 : String.utf8EncodeChar c = octet :: rest) (hread : digitValue? octet = some value) :
    rest = [] ∧ value < 16 ∧ c.toLower = digit value := by
  -- Only the first 128 characters start with an octet below 192, so finitely many remain.
  have hspelled : ∀ n < 128, String.utf8EncodeChar (Char.ofNat n) = [UInt8.ofNat n] ∧
      ∀ v ∈ digitValue? (UInt8.ofNat n), v < 16 ∧ (Char.ofNat n).toLower = digit v := by
    decide +kernel
  have hdigit : IsDigit octet := by
    apply Decidable.byContradiction
    intro hnot
    rw [digitValue?_eq_none_iff.mpr hnot] at hread
    cases hread
  have hnarrow : c.toNat < 128 := by
    apply Nat.lt_of_not_le
    intro hwide
    obtain ⟨first, others, hcons, hfirst⟩ := exists_utf8EncodeChar_eq_cons hwide
    rw [hcons] at hutf8
    obtain ⟨rfl, -⟩ := List.cons.inj hutf8
    have hoctet := toNat_lt_of_isDigit hdigit
    omega
  obtain ⟨hsingle, hlower⟩ := hspelled c.toNat hnarrow
  rw [Char.ofNat_toNat] at hsingle hlower
  rw [hsingle] at hutf8
  obtain ⟨rfl, rfl⟩ := List.cons.inj hutf8
  exact ⟨rfl, hlower value hread⟩

/-- Text that starts with an octet that is a digit starts with a character that is this digit. -/
theorem exists_eq_cons_of_utf8 {chars : List Char} {octet : UInt8} {octets : Bytes} {value : Nat}
    (hutf8 : utf8 chars = octet :: octets) (hread : digitValue? octet = some value) :
    ∃ c rest, chars = c :: rest ∧ c.toLower = digit value ∧ value < 16 ∧ utf8 rest = octets := by
  cases chars with
  | nil => cases hutf8
  | cons c rest =>
    have hcons : utf8 (c :: rest) = String.utf8EncodeChar c ++ utf8 rest := List.flatMap_cons ..
    rw [hcons] at hutf8
    cases hc : String.utf8EncodeChar c with
    | nil => exact absurd hc String.utf8EncodeChar_ne_nil
    | cons first others =>
      rw [hc] at hutf8
      obtain ⟨rfl, hrest⟩ := List.cons.inj hutf8
      obtain ⟨rfl, hvalue, hlower⟩ := toLower_eq_digit_of_utf8 hc hread
      exact ⟨c, rest, rfl, hlower, hvalue, hrest⟩

theorem digit_ne_x {value : Nat} (hvalue : value < 16) : digit value ≠ 'x' := by
  have hdigits : ∀ v < 16, digit v ≠ 'x' := by decide
  exact hdigits value hvalue

theorem toLower_digit {value : Nat} (hvalue : value < 16) :
    (digit value).toLower = digit value := by
  have hdigits : ∀ v < 16, (digit v).toLower = digit v := by decide
  exact hdigits value hvalue

theorem map_toLower_digits (bs : Bytes) : (digits bs).map Char.toLower = digits bs := by
  induction bs with
  | nil => rfl
  | cons b bs ih =>
    have hlt := b.toNat_lt
    have hcons : digits (b :: bs) = octetDigits b ++ digits bs := List.flatMap_cons ..
    rw [hcons, List.map_append, ih, octetDigits, List.map_cons, List.map_cons, List.map_nil,
      toLower_digit (by omega), toLower_digit (by omega)]

/-! ## Pairs of digits -/

/-- The digits of an octet come first among those of a byte string that starts with it. As text they
are two octets, which are read as the two halves. -/
theorem exists_utf8_of_map_toLower {chars : List Char} {b : UInt8} {bs : Bytes}
    (hchars : chars.map Char.toLower = digits (b :: bs)) :
    ∃ high low rest, utf8 chars = high :: low :: utf8 rest ∧
      digitValue? high = some (b.toNat / 16) ∧ digitValue? low = some (b.toNat % 16) ∧
      rest.map Char.toLower = digits bs := by
  have hlt := b.toNat_lt
  have hcons : digits (b :: bs) = digit (b.toNat / 16) :: digit (b.toNat % 16) :: digits bs := rfl
  rw [hcons] at hchars
  obtain ⟨c, chars, rfl, hc, hchars⟩ := List.map_eq_cons_iff.mp hchars
  obtain ⟨d, rest, rfl, hd, hrest⟩ := List.map_eq_cons_iff.mp hchars
  obtain ⟨high, hhigh, hhighRead⟩ := exists_utf8_of_toLower_eq_digit (by omega) hc
  obtain ⟨low, hlow, hlowRead⟩ := exists_utf8_of_toLower_eq_digit (by omega) hd
  exact ⟨high, low, rest, by simp [utf8, hhigh, hlow], hhighRead, hlowRead, hrest⟩

theorem digitValue_eq_ok_iff {octet : UInt8} {position value : Nat} :
    digitValue octet position = .ok value ↔ digitValue? octet = some value := by
  unfold digitValue
  cases digitValue? octet <;> simp

theorem exists_digitValue_eq_ok {octet : UInt8} (hdigit : IsDigit octet) (position : Nat) :
    ∃ value, digitValue octet position = .ok value := by
  cases hread : digitValue? octet with
  | none => exact absurd hdigit (digitValue?_eq_none_iff.mp hread)
  | some value => exact ⟨value, digitValue_eq_ok_iff.mpr hread⟩

theorem digitValue_of_not_isDigit {octet : UInt8} (hoctet : ¬IsDigit octet) (position : Nat) :
    digitValue octet position = .error (.invalidCharacter octet position) := by
  rw [digitValue, digitValue?_eq_none_iff.mpr hoctet]

/-- Pairs of digits are read as the octets that they spell. -/
theorem decodePairs_utf8 {chars : List Char} {bs : Bytes} (position : Nat)
    (hchars : chars.map Char.toLower = digits bs) :
    decodePairs position (utf8 chars) = .ok bs := by
  induction bs generalizing chars position with
  | nil =>
    obtain rfl := List.map_eq_nil_iff.mp hchars
    rfl
  | cons b bs ih =>
    obtain ⟨high, low, rest, hutf8, hhigh, hlow, hrest⟩ := exists_utf8_of_map_toLower hchars
    have hoctet : UInt8.ofNat (16 * (b.toNat / 16) + b.toNat % 16) = b := by
      rw [Nat.div_add_mod, UInt8.ofNat_toNat]
    rw [hutf8]
    simp only [decodePairs, digitValue_eq_ok_iff.mpr hhigh, digitValue_eq_ok_iff.mpr hlow,
      ih (position + 2) hrest, bind, Except.bind, pure, Except.pure, hoctet]

/-- What is read from pairs starts with the octet of the first pair. -/
theorem decodePairs_eq_ok_cons {position : Nat} {octets bs : Bytes} {b : UInt8}
    (hok : decodePairs position octets = .ok (b :: bs)) :
    ∃ high low rest h l, octets = high :: low :: rest ∧ digitValue? high = some h ∧
      digitValue? low = some l ∧ b = UInt8.ofNat (16 * h + l) ∧
      decodePairs (position + 2) rest = .ok bs := by
  unfold decodePairs at hok
  split at hok
  next high low rest =>
    obtain ⟨h, hhigh, hok⟩ := Guards.bind_eq_ok_iff.mp hok
    obtain ⟨l, hlow, hok⟩ := Guards.bind_eq_ok_iff.mp hok
    obtain ⟨others, hrest, hok⟩ := Guards.bind_eq_ok_iff.mp hok
    obtain ⟨rfl, rfl⟩ := List.cons.inj (Except.ok.inj hok)
    exact ⟨high, low, rest, h, l, rfl, digitValue_eq_ok_iff.mp hhigh, digitValue_eq_ok_iff.mp hlow,
      rfl, hrest⟩
  next => cases hok
  next => cases hok

theorem eq_nil_of_decodePairs_eq_ok_nil {position : Nat} {octets : Bytes}
    (hok : decodePairs position octets = .ok []) : octets = [] := by
  unfold decodePairs at hok
  split at hok
  next =>
    obtain ⟨h, -, hok⟩ := Guards.bind_eq_ok_iff.mp hok
    obtain ⟨l, -, hok⟩ := Guards.bind_eq_ok_iff.mp hok
    obtain ⟨others, -, hok⟩ := Guards.bind_eq_ok_iff.mp hok
    cases hok
  next => cases hok
  next => rfl

theorem octetDigits_ofNat {h l : Nat} (hh : h < 16) (hl : l < 16) :
    octetDigits (UInt8.ofNat (16 * h + l)) = [digit h, digit l] := by
  have hvalue : (UInt8.ofNat (16 * h + l)).toNat = 16 * h + l := by
    rw [UInt8.toNat_ofNat', Nat.mod_eq_of_lt (by omega)]
  have hhigh : (16 * h + l) / 16 = h := by omega
  have hlow : (16 * h + l) % 16 = l := by omega
  rw [octetDigits, hvalue, hhigh, hlow]

/-- Text that is read pair by pair consists of the digits of what is read. -/
theorem map_toLower_of_decodePairs {chars : List Char} {bs : Bytes} {position : Nat}
    (hok : decodePairs position (utf8 chars) = .ok bs) : chars.map Char.toLower = digits bs := by
  induction bs generalizing chars position with
  | nil =>
    have hempty := eq_nil_of_decodePairs_eq_ok_nil hok
    cases chars with
    | nil => rfl
    | cons c rest => simp [utf8, String.utf8EncodeChar_ne_nil] at hempty
  | cons b bs ih =>
    obtain ⟨high, low, octets, h, l, hutf8, hhigh, hlow, rfl, hok⟩ := decodePairs_eq_ok_cons hok
    obtain ⟨c, chars, rfl, hc, hh, hutf8⟩ := exists_eq_cons_of_utf8 hutf8 hhigh
    obtain ⟨d, rest, rfl, hd, hl, rfl⟩ := exists_eq_cons_of_utf8 hutf8 hlow
    have hcons : digits (UInt8.ofNat (16 * h + l) :: bs) =
        octetDigits (UInt8.ofNat (16 * h + l)) ++ digits bs := List.flatMap_cons ..
    rw [hcons, octetDigits_ofNat hh hl, List.map_cons, List.map_cons, hc, hd, ih hok]
    rfl

/-! ## The first octet that is no digit -/

/-- The first of the octets from `position` on that is no digit, and its place. -/
def FirstNonDigit (position : Nat) (octets : Bytes) (octet : UInt8) (place : Nat) : Prop :=
  ∃ front back, octets = front ++ octet :: back ∧ place = position + front.length ∧
    (∀ o ∈ front, IsDigit o) ∧ ¬IsDigit octet

theorem firstNonDigit_cons_of_isDigit {position place : Nat} {first octet : UInt8} {octets : Bytes}
    (hfirst : IsDigit first) :
    FirstNonDigit position (first :: octets) octet place ↔
      FirstNonDigit (position + 1) octets octet place := by
  constructor
  · rintro ⟨front, back, hsplit, hplace, hfront, hoctet⟩
    rcases List.cons_eq_append_iff.mp hsplit with ⟨rfl, hcons⟩ | ⟨others, rfl, hrest⟩
    · obtain ⟨rfl, -⟩ := List.cons.inj hcons
      exact absurd hfirst hoctet
    · refine ⟨others, back, hrest, ?_, fun o ho => hfront o (List.mem_cons_of_mem first ho), hoctet⟩
      rw [hplace, List.length_cons]
      omega
  · rintro ⟨front, back, rfl, hplace, hfront, hoctet⟩
    refine ⟨first :: front, back, rfl, ?_, List.forall_mem_cons.mpr ⟨hfirst, hfront⟩, hoctet⟩
    rw [hplace, List.length_cons]
    omega

theorem firstNonDigit_cons_of_not_isDigit {position place : Nat} {first octet : UInt8}
    {octets : Bytes} (hfirst : ¬IsDigit first) :
    FirstNonDigit position (first :: octets) octet place ↔ octet = first ∧ place = position := by
  constructor
  · rintro ⟨front, back, hsplit, hplace, hfront, hoctet⟩
    rcases List.cons_eq_append_iff.mp hsplit with ⟨rfl, hcons⟩ | ⟨others, rfl, -⟩
    · exact ⟨(List.cons.inj hcons).1, hplace⟩
    · exact absurd (hfront first List.mem_cons_self) hfirst
  · rintro ⟨rfl, rfl⟩
    exact ⟨[], octets, rfl, rfl, List.forall_mem_nil _, hfirst⟩

/-- Pairs of octets are refused for the first that is no digit. -/
theorem decodePairs_eq_error_iff {octets : Bytes} {position : Nat} {fault : Fault}
    (heven : octets.length % 2 = 0) :
    decodePairs position octets = .error fault ↔
      ∃ octet place, FirstNonDigit position octets octet place ∧
        fault = .invalidCharacter octet place := by
  fun_induction decodePairs position octets with
  | case1 position high low rest ih =>
    have hrest : rest.length % 2 = 0 := by
      rw [List.length_cons, List.length_cons] at heven
      omega
    by_cases hhigh : IsDigit high
    · obtain ⟨h, hhighRead⟩ := exists_digitValue_eq_ok hhigh position
      by_cases hlow : IsDigit low
      · obtain ⟨l, hlowRead⟩ := exists_digitValue_eq_ok hlow (position + 1)
        simp only [hhighRead, hlowRead, Guards.ok_bind, Guards.bind_pure_eq_error_iff, ih hrest,
          firstNonDigit_cons_of_isDigit hhigh, firstNonDigit_cons_of_isDigit hlow]
      · have hlowRead := digitValue_of_not_isDigit hlow (position + 1)
        simp only [hhighRead, hlowRead, Guards.ok_bind, Guards.error_bind, Except.error.injEq,
          firstNonDigit_cons_of_isDigit hhigh, firstNonDigit_cons_of_not_isDigit hlow, and_assoc,
          exists_and_left, exists_eq_left]
        exact eq_comm
    · have hhighRead := digitValue_of_not_isDigit hhigh position
      simp only [hhighRead, Guards.error_bind, Except.error.injEq,
        firstNonDigit_cons_of_not_isDigit hhigh, and_assoc, exists_and_left, exists_eq_left]
      exact eq_comm
  | case2 position octet => simp at heven
  | case3 => simp [FirstNonDigit]

/-! ## Texts -/

theorem length_utf8 {chars : List Char} {bs : Bytes}
    (hchars : chars.map Char.toLower = digits bs) : (utf8 chars).length = 2 * bs.length := by
  induction bs generalizing chars with
  | nil =>
    obtain rfl := List.map_eq_nil_iff.mp hchars
    rfl
  | cons b bs ih =>
    obtain ⟨high, low, rest, hutf8, _, _, hrest⟩ := exists_utf8_of_map_toLower hchars
    rw [hutf8, List.length_cons, List.length_cons, ih hrest, List.length_cons]
    omega

/-- Digits do not start with a marker. -/
theorem map_toLower_ne_digits_of_marker (rest : List Char) (bs : Bytes) :
    ('0' :: 'x' :: rest).map Char.toLower ≠ digits bs := by
  intro hchars
  cases bs with
  | nil => cases hchars
  | cons b bs =>
    have hlow : 'x'.toLower = digit (b.toNat % 16) :=
      (List.cons.inj (List.cons.inj hchars).2).1
    exact digit_ne_x (by omega) hlow.symm

/-- A marker is dropped and nothing else. -/
theorem dropMarker_eq {text : String} {chars : List Char} {bs : Bytes}
    (htext : text.toList = chars ∨ text.toList = '0' :: 'x' :: chars)
    (hchars : chars.map Char.toLower = digits bs) : dropMarker text = chars := by
  unfold dropMarker
  rcases htext with htext | htext
  · rw [htext]
    split
    next rest => exact absurd hchars (map_toLower_ne_digits_of_marker rest bs)
    next => rfl
  · rw [htext]
    rfl

theorem eq_or_eq_dropMarker (text : String) :
    text.toList = dropMarker text ∨ text.toList = '0' :: 'x' :: dropMarker text := by
  unfold dropMarker
  split
  next rest hmarker => exact .inr hmarker
  next => exact .inl rfl

theorem decode_of_spells {text : String} {bs : Bytes} (hspells : Spells text bs) :
    decode text = .ok bs := by
  obtain ⟨chars, htext, hchars⟩ := hspells
  have heven : ¬(utf8 chars).length % 2 = 1 := by
    rw [length_utf8 hchars]
    omega
  rw [decode, dropMarker_eq htext hchars, decodeOctets, if_neg heven, decodePairs_utf8 0 hchars]

/-- A text is read exactly as what it spells. -/
theorem decode_eq_ok_iff {text : String} {bs : Bytes} : decode text = .ok bs ↔ Spells text bs := by
  constructor
  · intro hok
    have hpairs : decodePairs 0 (utf8 (dropMarker text)) = .ok bs := by
      rw [decode, decodeOctets] at hok
      split at hok
      next => cases hok
      next => exact hok
    exact ⟨dropMarker text, eq_or_eq_dropMarker text, map_toLower_of_decodePairs hpairs⟩
  · exact decode_of_spells

/-- A text is refused for an odd number of octets, and otherwise for the first that is no digit. -/
theorem decode_eq_error_iff {text : String} {fault : Fault} :
    decode text = .error fault ↔
      (utf8 (dropMarker text)).length % 2 = 1 ∧ fault = .oddLength ∨
      (utf8 (dropMarker text)).length % 2 = 0 ∧ ∃ octet place,
        FirstNonDigit 0 (utf8 (dropMarker text)) octet place ∧
          fault = .invalidCharacter octet place := by
  rw [decode, decodeOctets]
  rcases Nat.mod_two_eq_zero_or_one (utf8 (dropMarker text)).length with heven | hodd
  · rw [if_neg (by omega), decodePairs_eq_error_iff heven]
    simp [heven]
  · rw [if_pos hodd, Except.error.injEq]
    simp [hodd, eq_comm]

/-- What is written for a byte string spells it. -/
theorem spells_encode (bs : Bytes) : Spells (encode bs) bs :=
  ⟨digits bs, .inl String.toList_ofList, map_toLower_digits bs⟩

end Hex

/-- A byte string is read from every text that spells it, and from no other. -/
theorem Bytes.ofHex_eq_ok_iff {text : String} {bs : Bytes} :
    Bytes.ofHex text = .ok bs ↔ Hex.Spells text bs := by
  rw [Bytes.ofHex, Guards.mapError_eq_ok_iff, Hex.decode_eq_ok_iff]

theorem Bytes.ofHex_eq_error_iff {text : String} {e : Error} :
    Bytes.ofHex text = .error e ↔ ∃ fault, Hex.decode text = .error fault ∧ e = .hex fault := by
  rw [Bytes.ofHex, Guards.mapError_eq_error_iff]

end LightClient
