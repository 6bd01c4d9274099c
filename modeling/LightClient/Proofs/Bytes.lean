import Mathlib.Algebra.Group.Nat.Defs
import LightClient.Bytes

/-!
# Integers and pieces of byte strings

Laying an integer out in octets and reading the octets back are inverse to each other, in either
order, as long as the integer has no more octets than there is room for. A byte string that was put
together from pieces of one length falls apart into the same pieces.
-/

namespace LightClient.Bytes

/-! ## Integers -/

theorem toNatLittle_ofNatLittle (width n : Nat) :
    toNatLittle (ofNatLittle width n) = n % 256 ^ width := by
  induction width generalizing n with
  | zero => simp [ofNatLittle, toNatLittle, Nat.mod_one]
  | succ width ih =>
    rw [ofNatLittle, toNatLittle, ih, Nat.pow_succ, Nat.mul_comm (256 ^ width) 256, Nat.mod_mul]
    simp

theorem ofNatLittle_toNatLittle (bs : Bytes) : ofNatLittle bs.length (toNatLittle bs) = bs := by
  induction bs with
  | nil => rfl
  | cons b bs ih =>
    have hlt := b.toNat_lt
    have hdiv : (b.toNat + 256 * toNatLittle bs) / 256 = toNatLittle bs := by omega
    have hhead : UInt8.ofNat (b.toNat + 256 * toNatLittle bs) = b := by
      apply UInt8.toNat_inj.mp
      rw [UInt8.toNat_ofNat']
      omega
    rw [List.length_cons, toNatLittle, ofNatLittle, hdiv, hhead, ih]

theorem toNatLittle_lt (bs : Bytes) : toNatLittle bs < 256 ^ bs.length := by
  induction bs with
  | nil => simp [toNatLittle]
  | cons b bs ih =>
    have hlt := b.toNat_lt
    rw [toNatLittle, List.length_cons, Nat.pow_succ]
    omega

/-- An integer that was laid out is read back without the octets that had no room. -/
theorem toNat_ofNat (order : ByteOrder) (width n : Nat) :
    toNat order (ofNat order width n) = n % 256 ^ width := by
  cases order <;> simp [toNat, ofNat, toNatLittle_ofNatLittle]

/-- Octets are laid out again as they were read. -/
theorem ofNat_toNat (order : ByteOrder) (bs : Bytes) :
    ofNat order bs.length (toNat order bs) = bs := by
  cases order with
  | little => exact ofNatLittle_toNatLittle bs
  | big =>
    have hreverse := ofNatLittle_toNatLittle bs.reverse
    rw [List.length_reverse] at hreverse
    simp only [toNat, ofNat]
    rw [hreverse, List.reverse_reverse]

theorem toNat_lt (order : ByteOrder) (bs : Bytes) : toNat order bs < 256 ^ bs.length := by
  cases order with
  | little => exact toNatLittle_lt bs
  | big => simpa [toNat] using toNatLittle_lt bs.reverse

/-! ## Pieces -/

/-- Pieces of one length are found again at the front of what they were put together to. -/
theorem pieces_flatten {width : Nat} {ps : List Bytes} (hwidth : ∀ p ∈ ps, p.length = width) :
    pieces width ps.length ps.flatten = ps := by
  induction ps with
  | nil => rfl
  | cons p ps ih =>
    have hp : p.length = width := hwidth p (by simp)
    have hps : ∀ q ∈ ps, q.length = width := fun q hq => hwidth q (by simp [hq])
    rw [List.length_cons, List.flatten_cons, pieces, ← hp, List.take_left, List.drop_left, hp,
      ih hps]

theorem length_flatten_of_forall_length {width : Nat} {ps : List Bytes}
    (hwidth : ∀ p ∈ ps, p.length = width) : ps.flatten.length = ps.length * width := by
  induction ps with
  | nil => simp
  | cons p ps ih =>
    rw [List.flatten_cons, List.length_append, hwidth p (by simp),
      ih (fun q hq => hwidth q (by simp [hq])), List.length_cons, Nat.add_mul]
    omega

/-- A byte string that was put together from pieces of one length falls apart into them. -/
theorem chunks_flatten {width : Nat} {ps : List Bytes} (hpos : 0 < width)
    (hwidth : ∀ p ∈ ps, p.length = width) : chunks width ps.flatten = ps := by
  rw [chunks, length_flatten_of_forall_length hwidth, Nat.mul_div_cancel _ hpos,
    pieces_flatten hwidth]

/-- Put together again, pieces are what they were cut from. -/
theorem flatten_pieces (width count : Nat) (bs : Bytes) :
    (pieces width count bs).flatten = bs.take (count * width) := by
  induction count generalizing bs with
  | zero => simp [pieces]
  | succ count ih =>
    rw [pieces, List.flatten_cons, ih, Nat.succ_mul, Nat.add_comm, List.take_add]

/-- No piece is cut short while there are octets for all of them. -/
theorem length_of_mem_pieces {width count : Nat} {bs p : Bytes} (hfits : count * width ≤ bs.length)
    (hp : p ∈ pieces width count bs) : p.length = width := by
  induction count generalizing bs with
  | zero => cases hp
  | succ count ih =>
    rw [Nat.succ_mul] at hfits
    rw [pieces] at hp
    rcases List.mem_cons.mp hp with rfl | hp
    · rw [List.length_take]
      omega
    · apply ih _ hp
      rw [List.length_drop]
      omega

/-- A whole number of pieces leaves nothing out. -/
theorem flatten_chunks {width : Nat} {bs : Bytes} (hwhole : bs.length % width = 0) :
    (chunks width bs).flatten = bs := by
  have hlength : bs.length / width * width = bs.length :=
    Nat.div_mul_cancel (Nat.dvd_of_mod_eq_zero hwhole)
  rw [chunks, flatten_pieces, hlength, List.take_length]

end LightClient.Bytes
