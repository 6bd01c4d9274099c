import LightClient.Proofs.Hex

/-!
# Digests and their texts

A digest is read from every text that spells its octets, and from no other: in order on the wire,
last octet first in the form that people read. The two readers take the same texts and refuse the
same texts for the same reason, and what they make of a text is each other's reversal. What is
written for a digest spells it, so it is read back.
-/

namespace LightClient.Hash256

open Guards

/-- A digest is read from its octets, and from nothing else. -/
theorem ofBytes_eq_ok_iff {bs : Bytes} {hash : Hash256} :
    ofBytes bs = .ok hash ↔ bs = hash.bytes := by
  unfold ofBytes FixedBytes.ofBytes FixedBytes.ofBytes?
  split
  next a hsome =>
    split at hsome
    next hlength =>
      obtain rfl := Option.some.inj hsome
      rw [Except.ok.injEq, FixedBytes.ext_iff]
    next => cases hsome
  next hnone =>
    split at hnone
    next => cases hnone
    next hlength =>
      simp only [reduceCtorEq, false_iff]
      rintro rfl
      exact hlength hash.length_bytes

/-- Octets are refused as a digest for their number. -/
theorem ofBytes_eq_error_iff {bs : Bytes} {e : Error} :
    ofBytes bs = .error e ↔ bs.length ≠ 32 ∧ e = .invalidLength 32 bs.length := by
  unfold ofBytes FixedBytes.ofBytes FixedBytes.ofBytes?
  by_cases hlength : bs.length = 32
  · simp [hlength]
  · simp [hlength, eq_comm]

/-! ## Reading -/

/-- What a text that is no digest is refused for: behind the marker, octets that do not pair up,
else the first that is no digit, else a number of spelled octets that is not that of a digest. -/
inductive Misspelled (text : String) : Error → Prop where
  | oddLength (hodd : (Hex.utf8 (Hex.dropMarker text)).length % 2 = 1) :
      Misspelled text (.hex .oddLength)
  | notDigit {octet : UInt8} {place : Nat}
      (heven : (Hex.utf8 (Hex.dropMarker text)).length % 2 = 0)
      (hfirst : Hex.FirstNonDigit 0 (Hex.utf8 (Hex.dropMarker text)) octet place) :
      Misspelled text (.hex (.invalidCharacter octet place))
  | wrongLength {bs : Bytes} (hspells : Hex.Spells text bs) (hlength : bs.length ≠ 32) :
      Misspelled text (.invalidLength 32 bs.length)

theorem ofHexWire_eq_ok_iff {text : String} {hash : Hash256} :
    ofHexWire text = .ok hash ↔ Hex.Spells text hash.bytes := by
  simp only [ofHexWire, bind_eq_ok_iff, Bytes.ofHex_eq_ok_iff, ofBytes_eq_ok_iff, exists_eq_right]

theorem ofHexWire_eq_error_iff {text : String} {e : Error} :
    ofHexWire text = .error e ↔ Misspelled text e := by
  simp only [ofHexWire, bind_eq_error_iff, Bytes.ofHex_eq_error_iff, Bytes.ofHex_eq_ok_iff,
    ofBytes_eq_error_iff]
  constructor
  · rintro (⟨fault, hfault, rfl⟩ | ⟨bs, hspells, hlength, rfl⟩)
    · rcases Hex.decode_eq_error_iff.mp hfault with ⟨hodd, rfl⟩ | ⟨heven, octet, place, hfirst, rfl⟩
      · exact .oddLength hodd
      · exact .notDigit heven hfirst
    · exact .wrongLength hspells hlength
  · rintro (hodd | ⟨heven, hfirst⟩ | ⟨hspells, hlength⟩)
    · exact .inl ⟨_, Hex.decode_eq_error_iff.mpr (.inl ⟨hodd, rfl⟩), rfl⟩
    · exact .inl ⟨_, Hex.decode_eq_error_iff.mpr (.inr ⟨heven, _, _, hfirst, rfl⟩), rfl⟩
    · exact .inr ⟨_, hspells, hlength, rfl⟩

/-- Only one marker is dropped: the `x` of a second one is no digit. -/
example : ofHexWire "0x0x00" = .error (.hex (.invalidCharacter 0x78 1)) := rfl

/-- The two orders are each other's reversal. -/
theorem ofHex_eq_map (text : String) : ofHex text = (ofHexWire text).map FixedBytes.reverse := by
  rw [ofHex]
  cases ofHexWire text <;> rfl

theorem ofHex_eq_ok_iff {text : String} {hash : Hash256} :
    ofHex text = .ok hash ↔ Hex.Spells text hash.reverse.bytes := by
  simp only [ofHex, bind_eq_ok_iff, pure_eq_ok_iff, ofHexWire_eq_ok_iff]
  constructor
  · rintro ⟨wire, hspells, rfl⟩
    rwa [FixedBytes.reverse_reverse]
  · intro hspells
    exact ⟨hash.reverse, hspells, hash.reverse_reverse⟩

theorem ofHex_eq_error_iff {text : String} {e : Error} :
    ofHex text = .error e ↔ Misspelled text e := by
  rw [ofHex, bind_pure_eq_error_iff, ofHexWire_eq_error_iff]

/-! ## Reading what was written -/

theorem ofHexWire_hex (hash : Hash256) : ofHexWire hash.hex = .ok hash :=
  ofHexWire_eq_ok_iff.mpr (Hex.spells_encode hash.bytes)

theorem ofHex_display (hash : Hash256) : ofHex hash.display = .ok hash :=
  ofHex_eq_ok_iff.mpr (Hex.spells_encode hash.reverse.bytes)

/-- In display order a digest is read exactly from the texts that spell it reversed, in wire order
from those that spell it as it is. All other texts are refused, for the same reason in both orders.
A text that is read in one order is read in the other, as the reversal. A digest is read back from
its own text in either order. -/
theorem ofHex_exact :
    (∀ (text : String) (hash : Hash256),
      (ofHex text = .ok hash ↔ Hex.Spells text hash.reverse.bytes) ∧
        (ofHexWire text = .ok hash ↔ Hex.Spells text hash.bytes)) ∧
    (∀ (text : String) (e : Error),
      (ofHex text = .error e ↔ Misspelled text e) ∧
        (ofHexWire text = .error e ↔ Misspelled text e)) ∧
    (∀ text : String, ofHex text = (ofHexWire text).map FixedBytes.reverse) ∧
    ∀ hash : Hash256, ofHex hash.display = .ok hash ∧ ofHexWire hash.hex = .ok hash := by
  refine ⟨?_, ?_, ofHex_eq_map, ?_⟩
  · intro text hash
    exact ⟨ofHex_eq_ok_iff, ofHexWire_eq_ok_iff⟩
  · intro text e
    exact ⟨ofHex_eq_error_iff, ofHexWire_eq_error_iff⟩
  · intro hash
    exact ⟨ofHex_display hash, ofHexWire_hex hash⟩

end LightClient.Hash256
