import Mathlib.Data.Option.Basic
import LightClient.Script.Template
import LightClient.Proofs.Script.Compilation

/-!
# Multisignature scripts

A multisignature script is the number of signatures, so many keys, the number of keys and the opcode
that checks them. It is recognized from both of its ends: numbers and opcode stand at fixed places,
and a scan goes from key to key by their lengths until it reaches the last number. The scan never
looks outside the script, although the last length that it reads may lead beyond the end of the run.

It counts keys in one octet, so it recognizes a script up to a multiple of 256 keys. Taking the
octets between the ends apart, with a count that has no bound, one finds the same wherever one octet
can count the keys.
-/

namespace LightClient

namespace Opcode

theorem smallInteger?_eq_some_iff {opcode : UInt8} {n : Nat} :
    smallInteger? opcode = some n ↔ 1 ≤ n ∧ n ≤ 16 ∧ opcode = UInt8.ofNat (0x50 + n) := by
  have hleast : (0x51 : UInt8).toNat = 81 := rfl
  have hlargest : pushSixteen.toNat = 96 := rfl
  simp only [smallInteger?, Option.ite_none_right_eq_some, Option.some.injEq, UInt8.le_iff_toNat_le,
    hleast, hlargest, ← UInt8.toNat_inj, UInt8.toNat_ofNat']
  omega

end Opcode

namespace Script

open Opcode Instruction

/-! ## Keys -/

/-- A key has one of two lengths. -/
def IsKey (key : Bytes) : Prop :=
  key.length = 33 ∨ key.length = 65

/-- A direct push of a key. -/
def keyPush (key : Bytes) : Instruction :=
  .push (UInt8.ofNat key.length) key

theorem toNat_length_of_isKey {key : Bytes} (hkey : IsKey key) :
    (UInt8.ofNat key.length).toNat = key.length := by
  apply UInt8.toNat_ofNat_of_lt
  show key.length < 256
  unfold IsKey at hkey
  omega

theorem toNat_length_le_of_isKey {key : Bytes} (hkey : IsKey key) :
    (UInt8.ofNat key.length).toNat ≤ 75 := by
  rw [toNat_length_of_isKey hkey]
  unfold IsKey at hkey
  omega

theorem wellFormed_keyPush {key : Bytes} (hkey : IsKey key) : (keyPush key).WellFormed :=
  .inl ⟨toNat_length_le_of_isKey hkey, (toNat_length_of_isKey hkey).symm⟩

theorem bytes_keyPush {key : Bytes} (hkey : IsKey key) :
    (keyPush key).bytes = UInt8.ofNat key.length :: key :=
  bytes_push_of_toNat_le (toNat_length_le_of_isKey hkey) key

/-- The octets of a run of keys. -/
def keyRun (keys : List Bytes) : Bytes :=
  keys.flatMap fun key => (keyPush key).bytes

theorem keyRun_cons {key : Bytes} (hkey : IsKey key) (keys : List Bytes) :
    keyRun (key :: keys) = UInt8.ofNat key.length :: (key ++ keyRun keys) := by
  rw [keyRun, List.flatMap_cons, bytes_keyPush hkey]
  rfl

theorem isKeyLength_of_isKey {key : Bytes} (hkey : IsKey key) :
    UInt8.ofNat key.length = 33 ∨ UInt8.ofNat key.length = 65 := by
  rcases hkey with hlength | hlength <;> simp [hlength]

theorem isKey_of_isKeyLength {key : Bytes} {length : UInt8} (hlength : length = 33 ∨ length = 65)
    (hkey : key.length = length.toNat) : IsKey key := by
  rcases hlength with rfl | rfl
  · exact .inl hkey
  · exact .inr hkey

/-- An octet is the length of a key that follows it, or of one that is not all there, or no length
of a key. -/
theorem key_cases (length : UInt8) (rest : Bytes) :
    (∃ key back, IsKey key ∧ length = UInt8.ofNat key.length ∧ rest = key ++ back) ∨
      ((length = 33 ∨ length = 65) ∧ rest.length < length.toNat) ∨
      ¬(length = 33 ∨ length = 65) := by
  by_cases hlength : length = 33 ∨ length = 65
  · by_cases hshort : rest.length < length.toNat
    · exact .inr (.inl ⟨hlength, hshort⟩)
    · have hkey : (rest.take length.toNat).length = length.toNat :=
        List.length_take_of_le (Nat.le_of_not_lt hshort)
      refine .inl ⟨rest.take length.toNat, rest.drop length.toNat,
        isKey_of_isKeyLength hlength hkey, ?_, (List.take_append_drop _ _).symm⟩
      rw [hkey, UInt8.ofNat_toNat]
  · exact .inr (.inr hlength)

/-- The number of keys in a run of direct pushes of 33 or 65 octets that fills the byte string; at
most `fuel` of them are looked at. -/
def countKeys : (fuel : Nat) → Bytes → Option Nat
  | _, [] => some 0
  | 0, _ :: _ => none
  | fuel + 1, length :: rest =>
    if (length = 33 ∨ length = 65) ∧ length.toNat ≤ rest.length then
      (countKeys fuel (rest.drop length.toNat)).map (· + 1)
    else none

theorem countKeys_nil (fuel : Nat) : countKeys fuel [] = some 0 := by
  cases fuel <;> rfl

theorem countKeys_of_isKey {key : Bytes} (hkey : IsKey key) (fuel : Nat) (rest : Bytes) :
    countKeys (fuel + 1) (UInt8.ofNat key.length :: (key ++ rest)) =
      (countKeys fuel rest).map (· + 1) := by
  have hlength := toNat_length_of_isKey hkey
  have hfits : (UInt8.ofNat key.length).toNat ≤ (key ++ rest).length := by
    rw [hlength, List.length_append]
    omega
  rw [countKeys, if_pos ⟨isKeyLength_of_isKey hkey, hfits⟩, hlength, List.drop_left]

theorem countKeys_of_length_lt {length : UInt8} {rest : Bytes} (hshort : rest.length < length.toNat)
    (fuel : Nat) : countKeys (fuel + 1) (length :: rest) = none := by
  rw [countKeys, if_neg fun hkey => Nat.not_le_of_lt hshort hkey.2]

theorem countKeys_of_not_isKeyLength {length : UInt8} (hlength : ¬(length = 33 ∨ length = 65))
    (fuel : Nat) (rest : Bytes) : countKeys (fuel + 1) (length :: rest) = none := by
  rw [countKeys, if_neg fun hkey => hlength hkey.1]

/-- Octets are counted as keys exactly when they are a run of them. -/
theorem countKeys_eq_some_iff {fuel n : Nat} {bs : Bytes} (hfuel : bs.length ≤ fuel) :
    countKeys fuel bs = some n ↔
      ∃ keys : List Bytes, (∀ key ∈ keys, IsKey key) ∧ keys.length = n ∧ bs = keyRun keys := by
  constructor
  · intro hcount
    induction fuel generalizing bs n with
    | zero =>
      obtain rfl : bs = [] := List.length_eq_zero_iff.mp (Nat.le_zero.mp hfuel)
      obtain rfl := Option.some.inj hcount
      exact ⟨[], nofun, rfl, rfl⟩
    | succ fuel ih =>
      cases bs with
      | nil =>
        obtain rfl := Option.some.inj hcount
        exact ⟨[], nofun, rfl, rfl⟩
      | cons length rest =>
        obtain ⟨key, back, hkey, rfl, rfl⟩ | ⟨-, hshort⟩ | hlength := key_cases length rest
        · rw [countKeys_of_isKey hkey, Option.map_eq_some_iff] at hcount
          obtain ⟨n, hcount, rfl⟩ := hcount
          rw [List.length_cons, List.length_append] at hfuel
          obtain ⟨keys, hkeys, rfl, rfl⟩ := ih (by omega) hcount
          exact ⟨key :: keys, List.forall_mem_cons.mpr ⟨hkey, hkeys⟩, rfl,
            (keyRun_cons hkey keys).symm⟩
        · rw [countKeys_of_length_lt hshort] at hcount
          cases hcount
        · rw [countKeys_of_not_isKeyLength hlength] at hcount
          cases hcount
  · rintro ⟨keys, hkeys, rfl, rfl⟩
    induction keys generalizing fuel with
    | nil => exact countKeys_nil fuel
    | cons key keys ih =>
      obtain ⟨hkey, hkeys⟩ := List.forall_mem_cons.mp hkeys
      rw [keyRun_cons hkey, List.length_cons, List.length_append] at hfuel
      cases fuel with
      | zero => omega
      | succ fuel =>
        rw [keyRun_cons hkey, countKeys_of_isKey hkey, ih hkeys (by omega)]
        rfl

/-! ## Both ends -/

/-- Three octets or more have a first one and two last ones. -/
theorem exists_frame {bs : Bytes} (hlength : 3 ≤ bs.length) :
    ∃ first middle count last, bs = first :: (middle ++ [count, last]) := by
  obtain ⟨first, rest, rfl⟩ : ∃ first rest, bs = first :: rest :=
    List.exists_cons_of_length_pos (by omega)
  rw [List.length_cons] at hlength
  obtain ⟨last, front, hlast⟩ : ∃ last front, rest.reverse = last :: front :=
    List.exists_cons_of_length_pos (by rw [List.length_reverse]; omega)
  have hfront := congrArg List.length hlast
  rw [List.length_reverse, List.length_cons] at hfront
  obtain ⟨count, middle, rfl⟩ : ∃ count middle, front = count :: middle :=
    List.exists_cons_of_length_pos (by omega)
  refine ⟨first, middle.reverse, count, last, ?_⟩
  rw [← List.reverse_reverse rest, hlast]
  simp

theorem ends?_eq_some_iff {first count last : UInt8} {required total : Nat} :
    ends? first count last = some (required, total) ↔
      (1 ≤ required ∧ required ≤ total ∧ total ≤ 15) ∧ first = UInt8.ofNat (0x50 + required) ∧
        count = UInt8.ofNat (0x50 + total) ∧ last = opCheckMultisig := by
  simp only [ends?, Option.bind_eq_bind, Option.bind_eq_some_iff, Option.guard_eq_some',
    Option.pure_def, Option.some.injEq, Prod.mk.injEq, smallInteger?_eq_some_iff]
  constructor
  · rintro ⟨_, hlast, _, ⟨hpos, -, hfirst⟩, _, ⟨-, -, hcount⟩, _, ⟨hle, hmax⟩, rfl, rfl⟩
    exact ⟨⟨hpos, hle, hmax⟩, hfirst, hcount, hlast⟩
  · rintro ⟨⟨hpos, hle, hmax⟩, hfirst, hcount, hlast⟩
    exact ⟨(), hlast, _, ⟨hpos, by omega, hfirst⟩, _, ⟨by omega, by omega, hcount⟩, (),
      ⟨hle, hmax⟩, rfl, rfl⟩

/-- Some octets are the ends of a multisignature script and so many keys between them. -/
def HasKeysBetween (bs : Bytes) (required total keyCount : Nat) : Prop :=
  ∃ first middle count last, bs = first :: (middle ++ [count, last]) ∧
    ends? first count last = some (required, total) ∧
    countKeys middle.length middle = some keyCount

theorem hasKeysBetween_iff {bs : Bytes} {required total keyCount : Nat} :
    HasKeysBetween bs required total keyCount ↔
      (1 ≤ required ∧ required ≤ total ∧ total ≤ 15) ∧
        ∃ keys : List Bytes, (∀ key ∈ keys, IsKey key) ∧ keys.length = keyCount ∧
          bs = UInt8.ofNat (0x50 + required) ::
            (keyRun keys ++ [UInt8.ofNat (0x50 + total), opCheckMultisig]) := by
  constructor
  · rintro ⟨first, middle, count, last, rfl, hends, hcount⟩
    obtain ⟨hlimits, rfl, rfl, rfl⟩ := ends?_eq_some_iff.mp hends
    obtain ⟨keys, hkeys, hlength, rfl⟩ := (countKeys_eq_some_iff (Nat.le_refl _)).mp hcount
    exact ⟨hlimits, keys, hkeys, hlength, rfl⟩
  · rintro ⟨hlimits, keys, hkeys, hlength, rfl⟩
    exact ⟨_, _, _, _, rfl, ends?_eq_some_iff.mpr ⟨hlimits, rfl, rfl, rfl⟩,
      (countKeys_eq_some_iff (Nat.le_refl _)).mpr ⟨keys, hkeys, hlength, rfl⟩⟩

/-- The instructions of a multisignature script. -/
def multisigInstructions (required total : Nat) (keys : List Bytes) : List Instruction :=
  code (UInt8.ofNat (0x50 + required)) ::
    (keys.map keyPush ++ [code (UInt8.ofNat (0x50 + total)), code opCheckMultisig])

theorem instructions_eq_multisigInstructions_iff {s : Script} {required total : Nat}
    {keys : List Bytes} (hrequired : 1 ≤ required ∧ required ≤ 16)
    (htotal : 1 ≤ total ∧ total ≤ 16) (hkeys : ∀ key ∈ keys, IsKey key) :
    s.instructions = .ok (multisigInstructions required total keys) ↔
      s.bytes = UInt8.ofNat (0x50 + required) ::
        (keyRun keys ++ [UInt8.ofNat (0x50 + total), opCheckMultisig]) := by
  have hnumber {n : Nat} (hn : 1 ≤ n ∧ n ≤ 16) : (code (UInt8.ofNat (0x50 + n))).WellFormed := by
    show pushData4 < UInt8.ofNat (0x50 + n)
    rw [UInt8.lt_iff_toNat_lt, toNat_pushData4, UInt8.toNat_ofNat']
    omega
  have hwf : ∀ i ∈ multisigInstructions required total keys, i.WellFormed := by
    simp only [multisigInstructions, List.forall_mem_cons, List.forall_mem_append,
      List.forall_mem_map]
    refine ⟨hnumber hrequired, fun key hkey => wellFormed_keyPush (hkeys key hkey),
      hnumber htotal, ?_, nofun⟩
    decide
  have hbytes : (multisigInstructions required total keys).flatMap Instruction.bytes =
      UInt8.ofNat (0x50 + required) ::
        (keyRun keys ++ [UInt8.ofNat (0x50 + total), opCheckMultisig]) := by
    simp [multisigInstructions, keyRun, List.flatMap_map, Instruction.bytes]
  rw [instructions, instructionsOf_eq_ok_iff, hbytes]
  exact and_iff_right hwf

/-! ## From place to place -/

theorem octetAt_eq_ok {bs : Bytes} {place : Nat} {b : UInt8} (hb : bs[place]? = some b) :
    octetAt bs place = .ok b := by
  rw [octetAt, hb]

section

variable {bs : Bytes} {stop place : Nat} {found : UInt8}

theorem scanKeys_of_le (hdone : stop ≤ place) :
    scanKeys bs stop place found = .ok (some (place, found)) := by
  rw [scanKeys, if_neg (Nat.not_lt_of_le hdone)]
  rfl

theorem scanKeys_of_isKeyLength {length : UInt8} (hplace : place < stop)
    (hoctet : bs[place]? = some length) (hlength : length = 33 ∨ length = 65) :
    scanKeys bs stop place found = scanKeys bs stop (place + 1 + length.toNat) (found + 1) := by
  rw [scanKeys, if_pos hplace, octetAt_eq_ok hoctet]
  exact if_pos hlength

theorem scanKeys_of_not_isKeyLength {length : UInt8} (hplace : place < stop)
    (hoctet : bs[place]? = some length) (hlength : ¬(length = 33 ∨ length = 65)) :
    scanKeys bs stop place found = .ok none := by
  rw [scanKeys, if_pos hplace, octetAt_eq_ok hoctet]
  exact if_neg hlength

/-- The scan looks at no place outside, and it ends where it should exactly when a run of keys leads
there. -/
theorem scanKeys_spec (found : UInt8) {fuel : Nat} {rest back : Bytes}
    (hstop : stop = place + rest.length) (hdrop : bs.drop place = rest ++ back)
    (hfuel : rest.length ≤ fuel) :
    ∃ outcome, scanKeys bs stop place found = .ok outcome ∧
      ∀ last, outcome = some (stop, last) ↔
        ∃ n, countKeys fuel rest = some n ∧ last = found + UInt8.ofNat n := by
  induction fuel generalizing rest place found with
  | zero =>
    obtain rfl : rest = [] := List.length_eq_zero_iff.mp (Nat.le_zero.mp hfuel)
    obtain rfl : stop = place := hstop
    exact ⟨_, scanKeys_of_le (Nat.le_refl _), fun last => by simp [countKeys, eq_comm]⟩
  | succ fuel ih =>
    cases rest with
    | nil =>
      obtain rfl : stop = place := hstop
      exact ⟨_, scanKeys_of_le (Nat.le_refl _), fun last => by simp [countKeys, eq_comm]⟩
    | cons length rest =>
      rw [List.length_cons] at hstop hfuel
      have hplace : place < stop := by omega
      have hoctet : bs[place]? = some length := by
        have hhead := congrArg (·[0]?) hdrop
        simpa using hhead
      obtain ⟨key, next, hkey, rfl, rfl⟩ | ⟨hlength, hshort⟩ | hlength := key_cases length rest
      · rw [List.length_append] at hstop hfuel
        have hnext : bs.drop (place + 1 + key.length) = next ++ back := by
          rw [Nat.add_assoc, ← List.drop_drop, hdrop, Nat.add_comm 1]
          simp
        obtain ⟨outcome, hscan, hlast⟩ := ih (found + 1) (by omega) hnext (by omega)
        refine ⟨outcome, ?_, fun last => ?_⟩
        · rw [scanKeys_of_isKeyLength hplace hoctet (isKeyLength_of_isKey hkey),
            toNat_length_of_isKey hkey, hscan]
        · have hadd (n : Nat) : found + 1 + UInt8.ofNat n = found + UInt8.ofNat (n + 1) := by
            rw [UInt8.ofNat_add, UInt8.add_assoc, UInt8.add_comm 1]
            rfl
          rw [hlast, countKeys_of_isKey hkey]
          constructor
          · rintro ⟨n, hcount, rfl⟩
            exact ⟨n + 1, Option.map_eq_some_iff.mpr ⟨n, hcount, rfl⟩, hadd n⟩
          · rintro ⟨_, hmap, rfl⟩
            obtain ⟨n, hcount, rfl⟩ := Option.map_eq_some_iff.mp hmap
            exact ⟨n, hcount, (hadd n).symm⟩
      · refine ⟨some (place + 1 + length.toNat, found + 1), ?_, fun last => ?_⟩
        · rw [scanKeys_of_isKeyLength hplace hoctet hlength, scanKeys_of_le (by omega)]
        · rw [countKeys_of_length_lt hshort]
          have hbeyond : place + 1 + length.toNat ≠ stop := by omega
          simp [hbeyond]
      · refine ⟨none, scanKeys_of_not_isKeyLength hplace hoctet hlength, fun last => ?_⟩
        rw [countKeys_of_not_isKeyLength hlength]
        simp

end

/-- Both ends and the scan between them are inside. The scan finds the number of keys up to a
multiple of what one octet can count. -/
theorem multisigAt_frame (first count last : UInt8) (middle : Bytes) :
    ∃ outcome, multisigAt (first :: (middle ++ [count, last])) = .ok outcome ∧
      ∀ required total, outcome = some (required, total) ↔
        ends? first count last = some (required, total) ∧
          ∃ n, countKeys middle.length middle = some n ∧ UInt8.ofNat total = UInt8.ofNat n := by
  have hlength : (first :: (middle ++ [count, last])).length = middle.length + 3 := by simp
  have hlast : octetAt (first :: (middle ++ [count, last])) (middle.length + 2) = .ok last := by
    apply octetAt_eq_ok
    simp
  have hcount : octetAt (first :: (middle ++ [count, last])) (middle.length + 1) = .ok count := by
    apply octetAt_eq_ok
    simp
  have hfirst : octetAt (first :: (middle ++ [count, last])) 0 = .ok first :=
    octetAt_eq_ok rfl
  have hdrop : (first :: (middle ++ [count, last])).drop 1 = middle ++ [count, last] := rfl
  obtain ⟨scanned, hscan, hfound⟩ := scanKeys_spec 0 (Nat.add_comm _ _) hdrop (Nat.le_refl _)
  simp only [multisigAt, hlength, hlast, hcount, hfirst, hscan, Nat.reduceSubDiff, Guards.ok_bind]
  rw [if_neg (by omega)]
  cases ends? first count last with
  | none => exact ⟨none, rfl, by simp⟩
  | some numbers =>
    obtain ⟨required, total⟩ := numbers
    refine ⟨_, rfl, fun required' total' => ?_⟩
    simp only [Option.ite_none_right_eq_some, hfound, Option.some.injEq, Prod.mk.injEq,
      UInt8.zero_add]
    constructor
    · rintro ⟨hkeys, rfl, rfl⟩
      exact ⟨⟨rfl, rfl⟩, hkeys⟩
    · rintro ⟨⟨rfl, rfl⟩, hkeys⟩
      exact ⟨hkeys, rfl, rfl⟩

/-- Every run of keys that follows the first octet of a script is shorter than what one octet can
count. -/
def FewKeys (s : Script) : Prop :=
  ∀ keys : List Bytes, (∀ key ∈ keys, IsKey key) → keyRun keys <+: s.bytes.drop 1 →
    keys.length < 256

theorem length_keyRun_ge {keys : List Bytes} (hkeys : ∀ key ∈ keys, IsKey key) :
    34 * keys.length ≤ (keyRun keys).length := by
  induction keys with
  | nil => exact Nat.zero_le _
  | cons key keys ih =>
    obtain ⟨hkey, hkeys⟩ := List.forall_mem_cons.mp hkeys
    have hrest := ih hkeys
    rw [keyRun_cons hkey]
    unfold IsKey at hkey
    simp only [List.length_cons, List.length_append]
    omega

/-- Too many keys need a long script. -/
theorem fewKeys_of_length_lt {s : Script} (hlength : s.bytes.length < 34 * 256) : s.FewKeys := by
  intro keys hkeys hrun
  have hkeysLength := length_keyRun_ge hkeys
  have hrunLength := hrun.length_le
  rw [List.length_drop] at hrunLength
  omega

/-- Octets with so many keys between their ends have all these keys behind the first octet. -/
theorem FewKeys.lt_of_hasKeysBetween {s : Script} {required total keyCount : Nat}
    (hfew : s.FewKeys) (hbetween : HasKeysBetween s.bytes required total keyCount) :
    keyCount < 256 := by
  obtain ⟨-, keys, hkeys, rfl, hbytes⟩ := hasKeysBetween_iff.mp hbetween
  apply hfew keys hkeys
  rw [hbytes]
  exact List.prefix_append _ _

/-- Looking at places, one stays inside all octets. -/
theorem exists_multisigAt_eq_ok (bs : Bytes) : ∃ outcome, multisigAt bs = .ok outcome := by
  by_cases hshort : bs.length < 3
  · refine ⟨none, ?_⟩
    rw [multisigAt, if_pos hshort]
    rfl
  · obtain ⟨first, middle, count, last, rfl⟩ := exists_frame (Nat.le_of_not_lt hshort)
    obtain ⟨outcome, hok, -⟩ := multisigAt_frame first count last middle
    exact ⟨outcome, hok⟩

/-- Looking at places, one finds the number of keys up to a multiple of what one octet can count. -/
theorem multisigAt_eq_some_iff {bs : Bytes} {required total : Nat} :
    multisigAt bs = .ok (some (required, total)) ↔
      ∃ keyCount, HasKeysBetween bs required total keyCount ∧ keyCount % 256 = total := by
  have hframe (first count last : UInt8) (middle : Bytes) :
      multisigAt (first :: (middle ++ [count, last])) = .ok (some (required, total)) ↔
        ends? first count last = some (required, total) ∧
          ∃ n, countKeys middle.length middle = some n ∧ n % 256 = total := by
    obtain ⟨outcome, hok, houtcome⟩ := multisigAt_frame first count last middle
    rw [hok, Except.ok.injEq, houtcome]
    refine and_congr_right fun hends => exists_congr fun n => and_congr_right fun _ => ?_
    obtain ⟨⟨-, -, hmax⟩, -⟩ := ends?_eq_some_iff.mp hends
    rw [← UInt8.toNat_inj, UInt8.toNat_ofNat', UInt8.toNat_ofNat']
    omega
  constructor
  · intro hsome
    have hlength : 3 ≤ bs.length := by
      by_contra hshort
      rw [multisigAt, if_pos (Nat.lt_of_not_le hshort)] at hsome
      cases hsome
    obtain ⟨first, middle, count, last, rfl⟩ := exists_frame hlength
    obtain ⟨hends, n, hcount, hn⟩ := (hframe first count last middle).mp hsome
    exact ⟨n, ⟨first, middle, count, last, rfl, hends, hcount⟩, hn⟩
  · rintro ⟨n, ⟨first, middle, count, last, rfl, hends, hcount⟩, hn⟩
    exact (hframe first count last middle).mpr ⟨hends, n, hcount, hn⟩

theorem multisigAt_eq_ok (s : Script) : multisigAt s.bytes = .ok s.multisig? := by
  obtain ⟨outcome, hok⟩ := exists_multisigAt_eq_ok s.bytes
  rw [multisig?, hok]

theorem multisig?_eq_some_iff {s : Script} {required total : Nat} :
    s.multisig? = some (required, total) ↔
      ∃ keyCount, HasKeysBetween s.bytes required total keyCount ∧ keyCount % 256 = total := by
  rw [← multisigAt_eq_some_iff, multisigAt_eq_ok, Except.ok.injEq]

/-! ## In parts -/

/-- How many signatures by how many keys, found by taking the octets between the ends apart, with a
count that has no bound. -/
def multisigParts? (s : Script) : Option (Nat × Nat) :=
  match s.bytes with
  | first :: rest =>
    match rest.reverse with
    | last :: count :: keys => do
      let (required, total) ← ends? first count last
      let found ← countKeys keys.length keys.reverse
      guard (found = total)
      return (required, total)
    | _ => none
  | [] => none

theorem multisigParts?_eq_some_iff {s : Script} {required total : Nat} :
    s.multisigParts? = some (required, total) ↔ HasKeysBetween s.bytes required total total := by
  constructor
  · intro hsome
    rw [multisigParts?] at hsome
    split at hsome
    next first rest hbytes =>
      split at hsome
      next last count keys hreverse =>
        have hrest : rest = keys.reverse ++ [count, last] := by
          rw [← List.reverse_reverse rest, hreverse]
          simp
        simp only [Option.bind_eq_bind, Option.bind_eq_some_iff, Option.guard_eq_some',
          Option.pure_def, Option.some.injEq, Prod.mk.injEq] at hsome
        obtain ⟨⟨_, _⟩, hends, found, hcount, _, rfl, rfl, rfl⟩ := hsome
        rw [← List.length_reverse] at hcount
        exact ⟨first, keys.reverse, count, last, by rw [hbytes, hrest], hends, hcount⟩
      next => cases hsome
    next => cases hsome
  · rintro ⟨first, middle, count, last, hbytes, hends, hcount⟩
    have hreverse : (middle ++ [count, last]).reverse = last :: count :: middle.reverse := by simp
    simp [multisigParts?, hbytes, hreverse, hends, hcount, guard]

/-! ## Exactly the multisignature scripts -/

/-- The script is read as the number of signatures, `keyCount` direct pushes of keys, the number of
keys and the opcode that checks them. -/
def ReadsAsMultisig (s : Script) (required total keyCount : Nat) : Prop :=
  1 ≤ required ∧ required ≤ total ∧ total ≤ 15 ∧
    ∃ keys : List Bytes, (∀ key ∈ keys, IsKey key) ∧ keys.length = keyCount ∧
      s.instructions = .ok (multisigInstructions required total keys)

theorem hasKeysBetween_iff_reads {s : Script} {required total keyCount : Nat} :
    HasKeysBetween s.bytes required total keyCount ↔
      s.ReadsAsMultisig required total keyCount := by
  rw [hasKeysBetween_iff, ReadsAsMultisig, and_assoc, and_assoc]
  refine and_congr_right fun hpos => and_congr_right fun hle => and_congr_right fun hmax =>
    exists_congr fun keys => and_congr_right fun hkeys => and_congr_right fun _ => ?_
  exact (instructions_eq_multisigInstructions_iff ⟨hpos, by omega⟩ ⟨by omega, by omega⟩
    hkeys).symm

/-- A script is looked at from place to place without ever leaving it. It is recognized as one for
`required` signatures by `total` keys exactly when it is read as the number of signatures, direct
pushes of keys, the number `total` and the opcode that checks them, where one octet counts the keys.
As long as one octet can count them, these are `total` keys, and taking the script apart one
recognizes the same. -/
theorem multisig?_exact (s : Script) :
    multisigAt s.bytes = .ok s.multisig? ∧
    (∀ required total, s.multisig? = some (required, total) ↔
      ∃ keyCount, s.ReadsAsMultisig required total keyCount ∧ keyCount % 256 = total) ∧
    (s.FewKeys → ∀ required total, s.multisig? = some (required, total) ↔
      s.ReadsAsMultisig required total total) ∧
    (∀ required total, s.multisigParts? = some (required, total) ↔
      s.ReadsAsMultisig required total total) ∧
    (s.FewKeys → s.multisig? = s.multisigParts?) := by
  have hparts (required total : Nat) : s.multisigParts? = some (required, total) ↔
      s.ReadsAsMultisig required total total := by
    rw [multisigParts?_eq_some_iff, hasKeysBetween_iff_reads]
  have hfew (hfew : s.FewKeys) (required total : Nat) : s.multisig? = some (required, total) ↔
      s.ReadsAsMultisig required total total := by
    rw [multisig?_eq_some_iff, ← hasKeysBetween_iff_reads]
    constructor
    · rintro ⟨keyCount, hkeys, htotal⟩
      rw [Nat.mod_eq_of_lt (hfew.lt_of_hasKeysBetween hkeys)] at htotal
      rwa [htotal] at hkeys
    · exact fun hkeys => ⟨total, hkeys, Nat.mod_eq_of_lt (hfew.lt_of_hasKeysBetween hkeys)⟩
  refine ⟨multisigAt_eq_ok s, fun required total => ?_, hfew, hparts, fun hs => ?_⟩
  · simp only [multisig?_eq_some_iff, hasKeysBetween_iff_reads]
  · apply Option.ext
    rintro ⟨required, total⟩
    rw [hfew hs, hparts]

/-- Two signatures by three keys of 33 octets. -/
def twoOfThree : Script :=
  ⟨0x52 :: (keyRun (List.replicate 3 (List.replicate 33 0x02)) ++ [0x53, opCheckMultisig])⟩

theorem multisig?_exact_twoOfThree :
    twoOfThree.FewKeys ∧ multisigAt twoOfThree.bytes = .ok (some (2, 3)) := by
  have hkeys : ∀ key ∈ List.replicate 3 (List.replicate 33 (0x02 : UInt8)), IsKey key := by
    intro key hkey
    rw [List.eq_of_mem_replicate hkey]
    exact .inl rfl
  have hfew : twoOfThree.FewKeys := fewKeys_of_length_lt (by decide)
  obtain ⟨hinside, -, hexact, -⟩ := multisig?_exact twoOfThree
  have hsome : twoOfThree.multisig? = some (2, 3) :=
    (hexact hfew 2 3).mpr ⟨by decide, by decide, by decide, _, hkeys, rfl, rfl⟩
  exact ⟨hfew, by rw [hinside, hsome]⟩

end Script

end LightClient
