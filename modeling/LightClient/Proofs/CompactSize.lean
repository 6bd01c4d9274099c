import LightClient.CompactSize
import LightClient.Proofs.Bytes

/-!
# Compact sizes are canonical

A value below 2^64 can be laid out in up to four forms: as its own octet if it is small, and behind
each marker whose width holds it. Only the shortest form is read, and it is the one that is written.
What is refused either ends before a form does, or starts with a form that is longer than needed.
-/

namespace LightClient.CompactSize

/-- Octets below 253 are no markers. -/
theorem wideForm?_eq_none_iff {marker : UInt8} : wideForm? marker = none ↔ marker.toNat < 0xfd := by
  have hlt := marker.toNat_lt
  unfold wideForm?
  simp only [← UInt8.toNat_inj, UInt8.reduceToNat]
  split
  · simp_all
  · split
    · simp_all
    · split
      · simp_all
      · simp only [true_iff]
        omega

/-- There are three wide forms, each of which starts where the one before ends. -/
theorem wideForm?_cases {marker : UInt8} {width least : Nat}
    (hform : wideForm? marker = some (width, least)) :
    (marker = 0xfd ∧ width = 2 ∧ least = 0xfd) ∨
      (marker = 0xfe ∧ width = 4 ∧ least = 0x10000) ∨
      (marker = 0xff ∧ width = 8 ∧ least = 0x100000000) := by
  grind [wideForm?]

/-- A small value is its own octet. -/
theorem encode_of_lt {value : Nat} (hsmall : value < 0xfd) :
    encode value = [UInt8.ofNat value] := by
  rw [encode, if_pos hsmall]

/-- A value that needs a wide form and fits it is written as the form's marker and the value in the
form's width. -/
theorem encode_of_wideForm? {marker : UInt8} {width least value : Nat}
    (hform : wideForm? marker = some (width, least)) (hleast : least ≤ value)
    (hfits : value < 256 ^ width) : encode value = marker :: Bytes.ofNat .little width value := by
  unfold encode
  rcases wideForm?_cases hform with ⟨rfl, rfl, rfl⟩ | ⟨rfl, rfl, rfl⟩ | ⟨rfl, rfl, rfl⟩
  · rw [if_neg (by omega), if_pos (by omega)]
  · rw [if_neg (by omega), if_neg (by omega), if_pos (by omega)]
  · rw [if_neg (by omega), if_neg (by omega), if_neg (by omega)]

/-- Every value that is not small needs some wide form and fits it. -/
theorem exists_wideForm? {value : Nat} (hlarge : 0xfd ≤ value) (hvalue : value < 2 ^ 64) :
    ∃ marker width least, wideForm? marker = some (width, least) ∧ least ≤ value ∧
      value < 256 ^ width := by
  by_cases h16 : value < 0x10000
  · exact ⟨0xfd, 2, 0xfd, rfl, hlarge, by omega⟩
  · by_cases h32 : value < 0x100000000
    · exact ⟨0xfe, 4, 0x10000, rfl, by omega, by omega⟩
    · exact ⟨0xff, 8, 0x100000000, rfl, by omega, by omega⟩

theorem size_pos (value : Nat) : 0 < size value := by
  unfold size
  grind

/-- Only zero starts with the octet zero. -/
theorem exists_encode_eq_cons {value : Nat} (hpos : 0 < value) :
    ∃ first rest, encode value = first :: rest ∧ first ≠ 0x00 := by
  by_cases hsmall : value < 0xfd
  · refine ⟨UInt8.ofNat value, [], encode_of_lt hsmall, fun hzero => ?_⟩
    have htoNat := congrArg UInt8.toNat hzero
    rw [UInt8.toNat_ofNat', UInt8.toNat_zero] at htoNat
    omega
  · unfold encode
    rw [if_neg hsmall]
    split
    · exact ⟨0xfd, _, rfl, by decide⟩
    · split
      · exact ⟨0xfe, _, rfl, by decide⟩
      · exact ⟨0xff, _, rfl, by decide⟩

/-- Every wide form keeps within eight octets. -/
theorem pow_width_le {marker : UInt8} {width least : Nat}
    (hform : wideForm? marker = some (width, least)) : 256 ^ width ≤ 2 ^ 64 := by
  rcases wideForm?_cases hform with ⟨_, rfl, _⟩ | ⟨_, rfl, _⟩ | ⟨_, rfl, _⟩ <;> decide

/-! ## Forms -/

/-- The octets are one of the forms of a value, the shortest or a longer one. -/
inductive Form : Nat → Bytes → Prop where
  /-- An octet that is no marker. -/
  | octet (b : UInt8) (hsmall : b.toNat < 253) : Form b.toNat [b]
  /-- A marker and two octets. -/
  | two (w : UInt16) : Form w.toNat (0xfd :: Bytes.ofNat .little 2 w.toNat)
  /-- A marker and four octets. -/
  | four (w : UInt32) : Form w.toNat (0xfe :: Bytes.ofNat .little 4 w.toNat)
  /-- A marker and eight octets. -/
  | eight (w : UInt64) : Form w.toNat (0xff :: Bytes.ofNat .little 8 w.toNat)

/-- The octets are the front of a form that goes on behind them. -/
def EndsInForm (bs : Bytes) : Prop :=
  bs ≠ [] ∧ ∃ value form, Form value form ∧ bs <+: form ∧ bs.length < form.length

/-- A marker and a value that fits its width are a form. -/
theorem form_of_wideForm? {marker : UInt8} {width least value : Nat}
    (hform : wideForm? marker = some (width, least)) (hfits : value < 256 ^ width) :
    Form value (marker :: Bytes.ofNat .little width value) := by
  rcases wideForm?_cases hform with ⟨rfl, rfl, rfl⟩ | ⟨rfl, rfl, rfl⟩ | ⟨rfl, rfl, rfl⟩
  · have htoNat : (UInt16.ofNat value).toNat = value := by
      rw [UInt16.toNat_ofNat']
      omega
    exact htoNat ▸ Form.two (UInt16.ofNat value)
  · have htoNat : (UInt32.ofNat value).toNat = value := by
      rw [UInt32.toNat_ofNat']
      omega
    exact htoNat ▸ Form.four (UInt32.ofNat value)
  · have htoNat : (UInt64.ofNat value).toNat = value := by
      rw [UInt64.toNat_ofNat']
      omega
    exact htoNat ▸ Form.eight (UInt64.ofNat value)

/-- So are a marker and as many octets as it announces. -/
theorem form_of_payload {marker : UInt8} {width least : Nat} {payload : Bytes}
    (hform : wideForm? marker = some (width, least)) (hlength : payload.length = width) :
    Form (Bytes.toNat .little payload) (marker :: payload) := by
  have hfits := Bytes.toNat_lt .little payload
  have hpayload := Bytes.ofNat_toNat .little payload
  rw [hlength] at hfits hpayload
  have h := form_of_wideForm? hform hfits
  rwa [hpayload] at h

/-- A form is an octet that is no marker, or a marker and a value that fits its width. -/
theorem Form.octet_or_wide {value : Nat} {form : Bytes} (h : Form value form) :
    (∃ b, wideForm? b = none ∧ value = b.toNat ∧ form = [b]) ∨
      ∃ marker width least, wideForm? marker = some (width, least) ∧ value < 256 ^ width ∧
        form = marker :: Bytes.ofNat .little width value := by
  cases h with
  | octet b hsmall => exact .inl ⟨b, wideForm?_eq_none_iff.mpr hsmall, rfl, rfl⟩
  | two w => exact .inr ⟨0xfd, 2, _, rfl, w.toNat_lt, rfl⟩
  | four w => exact .inr ⟨0xfe, 4, _, rfl, w.toNat_lt, rfl⟩
  | eight w => exact .inr ⟨0xff, 8, _, rfl, w.toNat_lt, rfl⟩

theorem Form.lt {value : Nat} {form : Bytes} (h : Form value form) : value < 2 ^ 64 := by
  obtain ⟨b, _, rfl, _⟩ | ⟨marker, width, least, hform, hfits, _⟩ := h.octet_or_wide
  · have hlt := b.toNat_lt
    omega
  · exact Nat.lt_of_lt_of_le hfits (pow_width_le hform)

/-- What is written is a form. -/
theorem form_encode {value : Nat} (hvalue : value < 2 ^ 64) : Form value (encode value) := by
  by_cases hsmall : value < 0xfd
  · have htoNat : (UInt8.ofNat value).toNat = value := by
      rw [UInt8.toNat_ofNat', Nat.mod_eq_of_lt (by omega)]
    have hform := Form.octet (UInt8.ofNat value) (by omega)
    rwa [htoNat, ← encode_of_lt hsmall] at hform
  · obtain ⟨marker, width, least, hform, hleast, hfits⟩ := exists_wideForm? (by omega) hvalue
    rw [encode_of_wideForm? hform hleast hfits]
    exact form_of_wideForm? hform hfits

/-- A wide form is longer than needed exactly when its value is below the least that needs it. -/
theorem size_lt_iff_of_wideForm? {marker : UInt8} {width least value : Nat}
    (hform : wideForm? marker = some (width, least)) (hfits : value < 256 ^ width) :
    size value < width + 1 ↔ value < least := by
  unfold size
  rcases wideForm?_cases hform with ⟨_, rfl, rfl⟩ | ⟨_, rfl, rfl⟩ | ⟨_, rfl, rfl⟩
  · grind
  · grind
  · grind

/-- No form is shorter than the one that is written, and no other is as short. -/
theorem Form.eq_encode {value : Nat} {form : Bytes} (h : Form value form)
    (hshort : ¬size value < form.length) : form = encode value := by
  obtain ⟨b, hform, rfl, rfl⟩ | ⟨marker, width, least, hform, hfits, rfl⟩ := h.octet_or_wide
  · rw [encode_of_lt (wideForm?_eq_none_iff.mp hform), UInt8.ofNat_toNat]
  · rw [List.length_cons, Bytes.length_ofNat, size_lt_iff_of_wideForm? hform hfits] at hshort
    exact (encode_of_wideForm? hform (by omega) hfits).symm

/-- There is nothing, or a form is cut off, or a form comes first. -/
theorem front_cases (bs : Bytes) :
    bs = [] ∨ EndsInForm bs ∨ ∃ value form, Form value form ∧ form <+: bs := by
  cases bs with
  | nil => exact .inl rfl
  | cons marker rest =>
    cases hform : wideForm? marker with
    | none =>
      have hoctet := Form.octet marker (wideForm?_eq_none_iff.mp hform)
      exact .inr (.inr ⟨_, _, hoctet, rest, rfl⟩)
    | some wide =>
      obtain ⟨width, least⟩ := wide
      by_cases hshort : rest.length < width
      · have hlength : (rest ++ List.replicate (width - rest.length) 0).length = width := by
          rw [List.length_append, List.length_replicate]
          omega
        refine .inr (.inl ⟨List.cons_ne_nil _ _, _, _, form_of_payload hform hlength, ?_, ?_⟩)
        · exact List.cons_prefix_cons.mpr ⟨rfl, List.prefix_append _ _⟩
        · rw [List.length_cons, List.length_cons, hlength]
          omega
      · have hlength : (rest.take width).length = width := by
          rw [List.length_take]
          omega
        exact .inr (.inr ⟨_, _, form_of_payload hform hlength,
          List.cons_prefix_cons.mpr ⟨rfl, List.take_prefix _ _⟩⟩)

/-! ## Reading -/

theorem decode_of_eq_nil {s : Suffix} (hbytes : s.bytes = []) :
    decode s = .error (.outOfBounds s.offset) := by
  rw [decode, hbytes]

/-- A form that is cut off is refused because octets behind its marker are missing. -/
theorem decode_of_endsInForm {s : Suffix} (hcut : EndsInForm s.bytes) :
    decode s = .error (.outOfBounds (s.offset + 1)) := by
  obtain ⟨hne, value, form, h, hfront, hshort⟩ := hcut
  obtain ⟨first, rest, hbytes⟩ := List.exists_cons_of_ne_nil hne
  rw [hbytes] at hfront hshort
  obtain ⟨b, _, _, rfl⟩ | ⟨marker, width, least, hform, _, rfl⟩ := h.octet_or_wide
  · simp at hshort
  · obtain ⟨rfl, _⟩ := List.cons_prefix_cons.mp hfront
    rw [List.length_cons, List.length_cons, Bytes.length_ofNat] at hshort
    have hmissing : rest.length < width := by omega
    unfold decode
    simp only [hbytes, hform, if_pos hmissing]

/-- A form that comes first is read if none is shorter. -/
theorem decode_of_form {s : Suffix} {value : Nat} {form : Bytes} (h : Form value form)
    (hfront : form <+: s.bytes) :
    decode s =
      if size value < form.length then .error (.nonCanonicalSize s.offset)
      else .ok (value, form.length) := by
  obtain ⟨rest, hbytes⟩ := hfront
  unfold decode
  obtain ⟨b, hform, rfl, rfl⟩ | ⟨marker, width, least, hform, hfits, rfl⟩ := h.octet_or_wide
  · have hsize : size b.toNat = 1 := if_pos (wideForm?_eq_none_iff.mp hform)
    simp [← hbytes, hform, hsize]
  · have htake : (Bytes.ofNat .little width value ++ rest).take width =
        Bytes.ofNat .little width value := List.take_left' (Bytes.length_ofNat _ _ _)
    have htoNat : Bytes.toNat .little (Bytes.ofNat .little width value) = value := by
      rw [Bytes.toNat_ofNat, Nat.mod_eq_of_lt hfits]
    have hpresent := Nat.not_lt.mpr (Nat.le_add_right width rest.length)
    have hcanonical := size_lt_iff_of_wideForm? hform hfits
    simp [← hbytes, hform, htake, htoNat, hpresent, hcanonical]

/-- What is read is the shortest form of a value. -/
theorem isPrefix_of_decode_eq_ok {s : Suffix} {value taken : Nat}
    (hok : decode s = .ok (value, taken)) :
    value < 2 ^ 64 ∧ taken = size value ∧ encode value <+: s.bytes := by
  obtain hnil | hcut | ⟨value', form, h, hfront⟩ := front_cases s.bytes
  · rw [decode_of_eq_nil hnil] at hok
    cases hok
  · rw [decode_of_endsInForm hcut] at hok
    cases hok
  · rw [decode_of_form h hfront] at hok
    split at hok
    next => cases hok
    next hshort =>
      obtain ⟨rfl, rfl⟩ := Prod.mk.inj (Except.ok.inj hok)
      have hencode := h.eq_encode hshort
      exact ⟨h.lt, by rw [hencode, length_encode], hencode ▸ hfront⟩

/-- The shortest form of a value is read. -/
theorem decode_of_isPrefix {s : Suffix} {value : Nat} (hvalue : value < 2 ^ 64)
    (hfront : encode value <+: s.bytes) : decode s = .ok (value, size value) := by
  rw [decode_of_form (form_encode hvalue) hfront, length_encode, if_neg (Nat.lt_irrefl _)]

/-- Reading gives a value exactly when the value's shortest form comes first. -/
theorem decode_eq_ok_iff {s : Suffix} {value taken : Nat} :
    decode s = .ok (value, taken) ↔
      value < 2 ^ 64 ∧ taken = size value ∧ encode value <+: s.bytes := by
  constructor
  · exact isPrefix_of_decode_eq_ok
  · rintro ⟨hvalue, rfl, hfront⟩
    exact decode_of_isPrefix hvalue hfront

/-- Reading fails where there is nothing, where a form is cut off, and for a form that is longer
than needed. -/
theorem decode_eq_error_iff {s : Suffix} {e : Error} :
    decode s = .error e ↔
      (s.bytes = [] ∧ e = .outOfBounds s.offset) ∨
      (EndsInForm s.bytes ∧ e = .outOfBounds (s.offset + 1)) ∨
      ((∃ value form, Form value form ∧ form <+: s.bytes ∧ size value < form.length) ∧
        e = .nonCanonicalSize s.offset) := by
  constructor
  · intro herror
    obtain hnil | hcut | ⟨value, form, h, hfront⟩ := front_cases s.bytes
    · rw [decode_of_eq_nil hnil] at herror
      exact .inl ⟨hnil, (Except.error.inj herror).symm⟩
    · rw [decode_of_endsInForm hcut] at herror
      exact .inr (.inl ⟨hcut, (Except.error.inj herror).symm⟩)
    · rw [decode_of_form h hfront] at herror
      split at herror
      next hlong =>
        exact .inr (.inr ⟨⟨value, form, h, hfront, hlong⟩, (Except.error.inj herror).symm⟩)
      next => cases herror
  · rintro (⟨hnil, rfl⟩ | ⟨hcut, rfl⟩ | ⟨⟨value, form, h, hfront, hlong⟩, rfl⟩)
    · exact decode_of_eq_nil hnil
    · exact decode_of_endsInForm hcut
    · rw [decode_of_form h hfront, if_pos hlong]

/-- A form that was cut off is refused because octets are missing: its first one, or some of those
that the marker announces. -/
theorem decode_of_cut_encode {s : Suffix} {value count : Nat} (hvalue : value < 2 ^ 64)
    (hcut : count < size value) (hbytes : s.bytes = (encode value).take count) :
    ∃ offset, decode s = .error (.outOfBounds offset) ∧ offset ≤ s.offset + count := by
  by_cases hzero : count = 0
  · rw [hzero, List.take_zero] at hbytes
    exact ⟨s.offset, decode_of_eq_nil hbytes, by omega⟩
  · have hlength : s.bytes.length = count := by
      rw [hbytes, List.length_take, length_encode]
      omega
    have hends : EndsInForm s.bytes := by
      refine ⟨fun hnil => hzero (by simp [← hlength, hnil]), value, _, form_encode hvalue, ?_, ?_⟩
      · exact hbytes ▸ List.take_prefix _ _
      · rw [hlength, length_encode]
        exact hcut
    exact ⟨s.offset + 1, decode_of_endsInForm hends, by omega⟩

/-- A size is read at an offset exactly when the form that is written for it stands there, which has
the announced length. What is not read is refused for missing octets if the byte string ends before
the offset or inside of a form, and for its form if a form stands there that is longer than
needed. -/
theorem decodeAt_canonical (data : Bytes) (offset : Nat) :
    (∀ value taken, decodeAt data offset = .ok (value, taken) ↔
      value < 2 ^ 64 ∧ offset + taken ≤ data.length ∧
        (data.drop offset).take taken = encode value) ∧
    (∀ value, (encode value).length = size value) ∧
    ∀ e, decodeAt data offset = .error e ↔
      (data.length ≤ offset ∧ e = .outOfBounds offset) ∨
      (EndsInForm (data.drop offset) ∧ e = .outOfBounds (offset + 1)) ∨
      ((∃ value form, Form value form ∧ form <+: data.drop offset ∧ size value < form.length) ∧
        e = .nonCanonicalSize offset) := by
  refine ⟨fun value taken => ?_, length_encode, fun e => ?_⟩
  · rw [decodeAt, decode_eq_ok_iff]
    show _ ∧ _ ∧ encode value <+: data.drop offset ↔ _
    constructor
    · rintro ⟨hvalue, rfl, hfront⟩
      have hlength := hfront.length_le
      rw [length_encode, List.length_drop] at hlength
      have hpos := size_pos value
      refine ⟨hvalue, by omega, ?_⟩
      rw [← length_encode]
      exact (List.prefix_iff_eq_take.mp hfront).symm
    · rintro ⟨hvalue, hfits, htake⟩
      have hlength := congrArg List.length htake
      rw [List.length_take, List.length_drop, length_encode] at hlength
      exact ⟨hvalue, by omega, htake ▸ List.take_prefix _ _⟩
  · rw [decodeAt, decode_eq_error_iff]
    show data.drop offset = [] ∧ _ ∨ _ ↔ _
    rw [List.drop_eq_nil_iff]
    rfl

/-- The value 252 needs no marker. -/
example : decodeAt [0xaa, 0xfd, 0xfc, 0x00] 1 = .error (.nonCanonicalSize 1) := rfl

end LightClient.CompactSize
