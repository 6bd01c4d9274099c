import Mathlib.Data.List.Pairwise
import Mathlib.Data.List.Perm.Basic
import LightClient.Proofs.Script.CarriedData
import LightClient.Proofs.Script.Multisig

/-!
# Kinds of output scripts

The kinds that commit to a digest are recognized by the length of a script and some of its octets.
This is the same as to read the script: it matches exactly when it is read as the instructions of
the template, with the digest as the data of its last push. First octet and length tell all kinds
apart, so it does not matter in which order they are tried.
-/

namespace LightClient

/-- A byte string of the right length is taken as it is. -/
theorem FixedBytes.ofBytes_of_length_eq {n : Nat} {bs : Bytes} (hlength : bs.length = n) :
    ofBytes n bs = .ok ⟨bs, hlength⟩ := by
  rw [ofBytes, ofBytes?, dif_pos hlength]

/-- Digests of the two kinds differ in length, so their octets tell them apart. -/
theorem CommittedHash.eq_of_bytes_eq {hash hash' : CommittedHash}
    (hbytes : hash.bytes = hash'.bytes) : hash = hash' := by
  have hlength := congrArg List.length hbytes
  cases hash <;> cases hash' <;> simp only [CommittedHash.bytes, FixedBytes.length_bytes] at hlength
  · exact congrArg hash160 (FixedBytes.ext hbytes)
  · omega
  · omega
  · exact congrArg sha256 (FixedBytes.ext hbytes)

namespace Script

open Opcode Instruction

variable {s : Script}

/-! ## Reading a template -/

/-- A script has a front and a back when its octets are these and what lies between them. -/
theorem hasFrame_iff {width : Nat} {front back : Bytes} :
    s.hasFrame (front.length + width + back.length) front back = true ↔
      ∃ middle, middle.length = width ∧ s.bytes = front ++ (middle ++ back) := by
  have hdiff : front.length + width + back.length - back.length = front.length + width := by omega
  simp only [hasFrame, Bool.and_eq_true, decide_eq_true_eq, hdiff]
  constructor
  · rintro ⟨⟨hlength, hfront⟩, hback⟩
    refine ⟨(s.bytes.drop front.length).take width, ?_, ?_⟩
    · rw [List.length_take, List.length_drop]
      omega
    · calc s.bytes
          = s.bytes.take front.length ++ s.bytes.drop front.length :=
            (List.take_append_drop _ _).symm
        _ = front ++ ((s.bytes.drop front.length).take width ++
              (s.bytes.drop front.length).drop width) := by
            rw [hfront, List.take_append_drop]
        _ = front ++ ((s.bytes.drop front.length).take width ++ back) := by
            rw [List.drop_drop, hback]
  · rintro ⟨middle, rfl, hbytes⟩
    rw [hbytes]
    refine ⟨⟨by simp [Nat.add_assoc], List.take_left⟩, ?_⟩
    rw [← List.drop_drop, List.drop_left, List.drop_left]

/-- A script has the octets of some instructions around a direct push, for any data of the right
length, exactly when it is read as these instructions. -/
theorem hasFrame_iff_instructions (front : List Instruction) (opcode : UInt8)
    (back : List Instruction) (length : Nat) (hfront : ∀ i ∈ front, i.WellFormed)
    (hback : ∀ i ∈ back, i.WellFormed) (hdirect : opcode.toNat ≤ 75)
    (hlength : length = (front.flatMap Instruction.bytes ++ [opcode]).length + opcode.toNat +
      (back.flatMap Instruction.bytes).length) :
    s.hasFrame length (front.flatMap Instruction.bytes ++ [opcode])
        (back.flatMap Instruction.bytes) = true ↔
      ∃ hash, hash.length = opcode.toNat ∧
        s.instructions = .ok (front ++ .push opcode hash :: back) := by
  rw [hlength, hasFrame_iff]
  refine exists_congr fun hash => and_congr_right fun hhash => ?_
  have hwf : ∀ i ∈ front ++ .push opcode hash :: back, i.WellFormed := by
    simp only [List.forall_mem_append, List.forall_mem_cons]
    exact ⟨hfront, .inl ⟨hdirect, hhash⟩, hback⟩
  have hbytes : (front ++ .push opcode hash :: back).flatMap Instruction.bytes =
      front.flatMap Instruction.bytes ++ [opcode] ++ (hash ++ back.flatMap Instruction.bytes) := by
    simp [bytes_push_of_toNat_le hdirect]
  rw [instructions, instructionsOf_eq_ok_iff, hbytes]
  exact (and_iff_right hwf).symm

theorem isPayToPubKeyHash_iff :
    s.isPayToPubKeyHash = true ↔
      ∃ hash, hash.length = 20 ∧ s.instructions = .ok [.code opDup, .code opHash160, .push 20 hash,
        .code opEqualVerify, .code opCheckSig] :=
  hasFrame_iff_instructions [.code opDup, .code opHash160] 20
    [.code opEqualVerify, .code opCheckSig] 25 (by decide) (by decide) (by decide) (by decide)

theorem isPayToScriptHash_iff :
    s.isPayToScriptHash = true ↔
      ∃ hash, hash.length = 20 ∧
        s.instructions = .ok [.code opHash160, .push 20 hash, .code opEqual] :=
  hasFrame_iff_instructions [.code opHash160] 20 [.code opEqual] 23 (by decide) (by decide)
    (by decide) (by decide)

theorem isPayToWitnessPubKeyHash_iff :
    s.isPayToWitnessPubKeyHash = true ↔
      ∃ hash, hash.length = 20 ∧ s.instructions = .ok [.push 0 [], .push 20 hash] :=
  hasFrame_iff_instructions [.push 0 []] 20 [] 22 (by decide) (by decide) (by decide) (by decide)

theorem isPayToWitnessScriptHash_iff :
    s.isPayToWitnessScriptHash = true ↔
      ∃ hash, hash.length = 32 ∧ s.instructions = .ok [.push 0 [], .push 32 hash] :=
  hasFrame_iff_instructions [.push 0 []] 32 [] 34 (by decide) (by decide) (by decide) (by decide)

/-! ## Telling the kinds apart -/

/-- The test for a kind that has no parameters. -/
def test (passes : Script → Bool) (kind : Template) (s : Script) : Option Template :=
  if passes s then some kind else none

/-- The test for a multisignature script. -/
def multisigTest (s : Script) : Option Template :=
  s.multisig?.map fun (required, total) => .multisig required total

/-- The tests for the kinds, in the order in which they are made. -/
def kindTests : List (Script → Option Template) := [
  test isPayToPubKeyHash .pubKeyHash,
  test isPayToScriptHash .scriptHash,
  test isPayToWitnessPubKeyHash .witnessPubKeyHash,
  test isPayToWitnessScriptHash .witnessScriptHash,
  multisigTest,
  test isNullData .nullData]

/-- The place in the list of the only test that a script with this first octet and this length can
pass. -/
def slot (s : Script) : Nat :=
  if s.bytes.head? = some opDup then 0
  else if s.bytes.head? = some opHash160 then 1
  else if s.bytes.head? = some 0 then if s.bytes.length = 22 then 2 else 3
  else if s.bytes.head? = some opReturn then 5
  else 4

theorem slot_of_isPayToPubKeyHash (hkind : s.isPayToPubKeyHash = true) : s.slot = 0 := by
  obtain ⟨hash, -, hread⟩ := isPayToPubKeyHash_iff.mp hkind
  have hbytes := (instructionsOf_eq_ok_iff.mp hread).2
  rw [slot, hbytes]
  rfl

theorem slot_of_isPayToScriptHash (hkind : s.isPayToScriptHash = true) : s.slot = 1 := by
  obtain ⟨hash, -, hread⟩ := isPayToScriptHash_iff.mp hkind
  have hbytes := (instructionsOf_eq_ok_iff.mp hread).2
  rw [slot, hbytes]
  rfl

theorem slot_of_isPayToWitnessPubKeyHash (hkind : s.isPayToWitnessPubKeyHash = true) :
    s.slot = 2 := by
  obtain ⟨hash, hlength, hread⟩ := isPayToWitnessPubKeyHash_iff.mp hkind
  have hbytes : s.bytes = 0 :: 20 :: (hash ++ []) := (instructionsOf_eq_ok_iff.mp hread).2
  have hwhole : s.bytes.length = 22 := by simp [hbytes, hlength]
  rw [slot, hwhole, hbytes]
  rfl

theorem slot_of_isPayToWitnessScriptHash (hkind : s.isPayToWitnessScriptHash = true) :
    s.slot = 3 := by
  obtain ⟨hash, hlength, hread⟩ := isPayToWitnessScriptHash_iff.mp hkind
  have hbytes : s.bytes = 0 :: 32 :: (hash ++ []) := (instructionsOf_eq_ok_iff.mp hread).2
  have hwhole : s.bytes.length = 34 := by simp [hbytes, hlength]
  rw [slot, hwhole, hbytes]
  rfl

theorem slot_of_multisig? {required total : Nat} (hkind : s.multisig? = some (required, total)) :
    s.slot = 4 := by
  obtain ⟨_, hkeys, -⟩ := multisig?_eq_some_iff.mp hkind
  obtain ⟨⟨hpos, hle, hmax⟩, keys, -, -, hbytes⟩ := hasKeysBetween_iff.mp hkeys
  have hne (b : UInt8) (hb : ¬(0x51 ≤ b.toNat ∧ b.toNat ≤ 0x5f)) :
      UInt8.ofNat (0x50 + required) ≠ b := by
    rintro rfl
    rw [UInt8.toNat_ofNat'] at hb
    omega
  simp only [slot, hbytes, List.head?_cons, Option.some.injEq]
  rw [if_neg (hne _ (by decide)), if_neg (hne _ (by decide)), if_neg (hne _ (by decide)),
    if_neg (hne _ (by decide))]

theorem slot_of_isNullData (hkind : s.isNullData = true) : s.slot = 5 := by
  obtain ⟨is, hcarries⟩ := isNullData_iff.mp hkind
  rw [slot, (carries_iff.mp hcarries).2]
  rfl

theorem eq_true_of_test {passes : Script → Bool} {kind : Template}
    (hpasses : test passes kind s ≠ none) : passes s = true := by
  cases hs : passes s with
  | false => exact absurd (if_neg (by simp [hs])) hpasses
  | true => rfl

/-- No other test is passed than the one at the script's place. -/
theorem slot_of_kindTests {i : Nat} (hi : i < kindTests.length) (hpasses : kindTests[i] s ≠ none) :
    s.slot = i := by
  match i, hi with
  | 0, _ => exact slot_of_isPayToPubKeyHash (eq_true_of_test hpasses)
  | 1, _ => exact slot_of_isPayToScriptHash (eq_true_of_test hpasses)
  | 2, _ => exact slot_of_isPayToWitnessPubKeyHash (eq_true_of_test hpasses)
  | 3, _ => exact slot_of_isPayToWitnessScriptHash (eq_true_of_test hpasses)
  | 4, _ =>
    obtain ⟨kind, hkind⟩ := Option.ne_none_iff_exists'.mp hpasses
    obtain ⟨⟨required, total⟩, hkind, -⟩ := Option.map_eq_some_iff.mp hkind
    exact slot_of_multisig? hkind
  | 5, _ => exact slot_of_isNullData (eq_true_of_test hpasses)

/-- At most one test is passed. -/
theorem kindTests_pairwise (s : Script) :
    kindTests.Pairwise fun test other => test s = none ∨ other s = none := by
  rw [List.pairwise_iff_getElem]
  intro i j hi hj hlt
  by_cases hpasses : kindTests[i] s = none
  · exact .inl hpasses
  · by_cases hother : kindTests[j] s = none
    · exact .inr hother
    · have hslot := slot_of_kindTests hi hpasses
      have hslot' := slot_of_kindTests hj hother
      omega

theorem getD_findSome?_test (passes : Script → Bool) (kind other : Template)
    (tests : List (Script → Option Template)) (s : Script) :
    ((test passes kind :: tests).findSome? (· s)).getD other =
      if passes s then kind else (tests.findSome? (· s)).getD other := by
  rw [List.findSome?_cons, test]
  cases passes s <;> rfl

theorem getD_findSome?_multisigTest (other : Template) (tests : List (Script → Option Template))
    (s : Script) :
    ((multisigTest :: tests).findSome? (· s)).getD other =
      match s.multisig? with
      | some (required, total) => .multisig required total
      | none => (tests.findSome? (· s)).getD other := by
  rw [List.findSome?_cons, multisigTest]
  cases s.multisig? <;> rfl

/-- The kind of a script is found by the first test that is passed. -/
theorem template_eq (s : Script) :
    s.template = (kindTests.findSome? (· s)).getD .nonStandard := by
  simp only [kindTests, getD_findSome?_test, getD_findSome?_multisigTest]
  rfl

/-- Where at most one function gives something, the first that does is any that does. -/
theorem findSome?_eq_some_iff_of_pairwise {α β : Type} {fs : List (α → Option β)} {a : α} {b : β}
    (hpairwise : fs.Pairwise fun f g => f a = none ∨ g a = none) :
    fs.findSome? (· a) = some b ↔ ∃ f ∈ fs, f a = some b := by
  induction fs with
  | nil => simp
  | cons f fs ih =>
    obtain ⟨hf, hfs⟩ := List.pairwise_cons.mp hpairwise
    rw [List.findSome?_cons, List.exists_mem_cons_iff]
    cases hfa : f a with
    | none => simpa using ih hfs
    | some c =>
      refine (or_iff_left_of_imp ?_).symm
      rintro ⟨g, hg, hga⟩
      rcases hf g hg with hnone | hnone
      · cases hfa.symm.trans hnone
      · cases hga.symm.trans hnone

/-- The tests can be made in any order. -/
theorem findSome?_of_perm_kindTests {tests : List (Script → Option Template)}
    (hperm : tests.Perm kindTests) (s : Script) :
    tests.findSome? (· s) = kindTests.findSome? (· s) := by
  have hpairwise : tests.Pairwise fun test other => test s = none ∨ other s = none :=
    (hperm.pairwise_iff fun h => h.symm).mpr (kindTests_pairwise s)
  apply Option.ext
  intro kind
  rw [findSome?_eq_some_iff_of_pairwise hpairwise,
    findSome?_eq_some_iff_of_pairwise (kindTests_pairwise s)]
  simp only [hperm.mem_iff]

/-! ## The digest -/

/-- The script is of a kind that commits to a digest. -/
def commits (s : Script) : Bool :=
  s.isPayToPubKeyHash || s.isPayToScriptHash || s.isPayToWitnessPubKeyHash ||
    s.isPayToWitnessScriptHash

/-- The octets are the last data that are pushed when the script is read. -/
def PushesLast (s : Script) (data : Bytes) : Prop :=
  ∃ is, s.instructions = .ok is ∧ (is.filterMap Instruction.data?).getLast? = some data

/-- The data of a direct push after which nothing is pushed are found by their place. -/
theorem exists_field_eq_ok (front : List Instruction) (opcode : UInt8) (back : List Instruction)
    (offset width : Nat)
    (hkind : ∃ hash : Bytes, hash.length = width ∧
      s.instructions = .ok (front ++ .push opcode hash :: back))
    (hback : back.filterMap Instruction.data? = []) (hdirect : opcode.toNat ≤ 75)
    (hoffset : (front.flatMap Instruction.bytes).length + 1 = offset) :
    ∃ hash : FixedBytes width,
      FixedBytes.ofBytes width (s.field offset width) = .ok hash ∧ s.PushesLast hash.bytes := by
  obtain ⟨hash, hwidth, hread⟩ := hkind
  have hbytes : s.bytes = front.flatMap Instruction.bytes ++ [opcode] ++
      (hash ++ back.flatMap Instruction.bytes) := by
    rw [(instructionsOf_eq_ok_iff.mp hread).2]
    simp [bytes_push_of_toNat_le hdirect]
  have hfront : (front.flatMap Instruction.bytes ++ [opcode]).length = offset := by
    rw [List.length_append, ← hoffset]
    rfl
  have hfield : s.field offset width = hash := by
    rw [field, hbytes, ← hfront, List.drop_left, ← hwidth, List.take_left]
  refine ⟨⟨hash, hwidth⟩, ?_, _, hread, ?_⟩
  · rw [hfield, FixedBytes.ofBytes_of_length_eq hwidth]
  · have hdata : (push opcode hash).data? = some hash := rfl
    rw [List.filterMap_append, List.filterMap_cons_some hdata, hback, List.getLast?_concat]

/-- The digest to which a script commits is what its last push pushes. -/
theorem exists_committedHash_eq_ok (hcommits : s.commits = true) :
    ∃ hash, s.committedHash = .ok hash ∧ s.PushesLast hash.bytes := by
  by_cases hpkh : s.isPayToPubKeyHash = true
  · obtain ⟨hash, hfield, hlast⟩ := exists_field_eq_ok [.code opDup, .code opHash160] 20
      [.code opEqualVerify, .code opCheckSig] 3 20 (isPayToPubKeyHash_iff.mp hpkh) rfl (by decide)
      rfl
    refine ⟨.hash160 hash, ?_, hlast⟩
    rw [committedHash, if_pos hpkh, hfield]
    rfl
  by_cases hsh : s.isPayToScriptHash = true
  · obtain ⟨hash, hfield, hlast⟩ := exists_field_eq_ok [.code opHash160] 20 [.code opEqual] 2 20
      (isPayToScriptHash_iff.mp hsh) rfl (by decide) rfl
    refine ⟨.hash160 hash, ?_, hlast⟩
    rw [committedHash, if_neg hpkh, if_pos (by simp [hsh]), hfield]
    rfl
  by_cases hwpkh : s.isPayToWitnessPubKeyHash = true
  · obtain ⟨hash, hfield, hlast⟩ := exists_field_eq_ok [.push 0 []] 20 [] 2 20
      (isPayToWitnessPubKeyHash_iff.mp hwpkh) rfl (by decide) rfl
    refine ⟨.hash160 hash, ?_, hlast⟩
    rw [committedHash, if_neg hpkh, if_pos (by simp [hwpkh]), hfield]
    rfl
  · have hwsh : s.isPayToWitnessScriptHash = true := by
      simpa [commits, hpkh, hsh, hwpkh] using hcommits
    obtain ⟨hash, hfield, hlast⟩ := exists_field_eq_ok [.push 0 []] 32 [] 2 32
      (isPayToWitnessScriptHash_iff.mp hwsh) rfl (by decide) rfl
    refine ⟨.sha256 hash, ?_, hlast⟩
    rw [committedHash, if_neg hpkh, if_neg (by simp [hsh, hwpkh]), if_pos hwsh, hfield]
    rfl

theorem committedHash_of_commits_eq_false (hcommits : s.commits = false) :
    s.committedHash = .error .notHashScript := by
  simp only [commits, Bool.or_eq_false_iff] at hcommits
  obtain ⟨⟨⟨hpkh, hsh⟩, hwpkh⟩, hwsh⟩ := hcommits
  rw [committedHash, if_neg (by simp [hpkh]), if_neg (by simp [hsh, hwpkh]),
    if_neg (by simp [hwsh])]
  rfl

theorem PushesLast.sole {data data' : Bytes} (hlast : s.PushesLast data)
    (hlast' : s.PushesLast data') : data = data' := by
  obtain ⟨is, hread, hdata⟩ := hlast
  obtain ⟨is', hread', hdata'⟩ := hlast'
  obtain rfl := Except.ok.inj (hread.symm.trans hread')
  exact Option.some.inj (hdata.symm.trans hdata')

theorem committedHash_eq_ok_iff {hash : CommittedHash} :
    s.committedHash = .ok hash ↔ s.commits = true ∧ s.PushesLast hash.bytes := by
  cases hcommits : s.commits with
  | false => simp [committedHash_of_commits_eq_false hcommits]
  | true =>
    obtain ⟨hash', hok, hlast⟩ := exists_committedHash_eq_ok hcommits
    rw [hok]
    constructor
    · intro heq
      obtain rfl := Except.ok.inj heq
      exact ⟨rfl, hlast⟩
    · rintro ⟨-, hlast'⟩
      rw [CommittedHash.eq_of_bytes_eq (hlast.sole hlast')]

theorem committedHash_eq_error_iff {e : Error} :
    s.committedHash = .error e ↔ s.commits = false ∧ e = .notHashScript := by
  cases hcommits : s.commits with
  | false => simp [committedHash_of_commits_eq_false hcommits, eq_comm]
  | true =>
    obtain ⟨hash, hok, -⟩ := exists_committedHash_eq_ok hcommits
    simp [hok]

/-- The kinds that commit to a digest are recognized exactly when the script is read as the
instructions of the template. At most one of the tests for all kinds is passed, so they can be made
in any order. The digest of a script of these kinds, and of no others, is what its last push
pushes. -/
theorem templates_exact (s : Script) :
    (s.isPayToPubKeyHash = true ↔
      ∃ hash, hash.length = 20 ∧ s.instructions = .ok [.code opDup, .code opHash160, .push 20 hash,
        .code opEqualVerify, .code opCheckSig]) ∧
    (s.isPayToScriptHash = true ↔
      ∃ hash, hash.length = 20 ∧
        s.instructions = .ok [.code opHash160, .push 20 hash, .code opEqual]) ∧
    (s.isPayToWitnessPubKeyHash = true ↔
      ∃ hash, hash.length = 20 ∧ s.instructions = .ok [.push 0 [], .push 20 hash]) ∧
    (s.isPayToWitnessScriptHash = true ↔
      ∃ hash, hash.length = 32 ∧ s.instructions = .ok [.push 0 [], .push 32 hash]) ∧
    (kindTests.Pairwise fun test other => test s = none ∨ other s = none) ∧
    (∀ tests : List (Script → Option Template), tests.Perm kindTests →
      s.template = (tests.findSome? (· s)).getD .nonStandard) ∧
    (∀ hash, s.committedHash = .ok hash ↔ s.commits = true ∧ s.PushesLast hash.bytes) ∧
    ∀ e, s.committedHash = .error e ↔ s.commits = false ∧ e = .notHashScript :=
  ⟨isPayToPubKeyHash_iff, isPayToScriptHash_iff, isPayToWitnessPubKeyHash_iff,
    isPayToWitnessScriptHash_iff, kindTests_pairwise s,
    fun _ hperm => by rw [findSome?_of_perm_kindTests hperm, template_eq],
    fun _ => committedHash_eq_ok_iff, fun _ => committedHash_eq_error_iff⟩

/-- A key hash template with another last opcode is of no kind. -/
example : template ⟨[opDup, opHash160, 20] ++ (List.replicate 20 0x11 ++ [opEqualVerify, 0xad])⟩ =
    .nonStandard := by decide

end Script

end LightClient
