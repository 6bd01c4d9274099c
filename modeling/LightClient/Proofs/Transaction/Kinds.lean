import LightClient.Transaction.Input
import LightClient.Proofs.Script.Templates

/-!
# Where inputs carry the right to spend

That the script of an input pushes a witness program is recognized by its length and its first
octet. This is the same as to read the script: it is one direct push, and its data are a script of a
kind that commits to a witness. Other spellings of the push do not count. The data of the last push
are what is revealed by any script that is read as pushes and nothing else.
-/

namespace LightClient

namespace Script

open Guards Instruction

variable {s : Script}

/-! ## Scripts of pushes -/

theorem isPushOnly_iff :
    s.isPushOnly = true ↔ ∃ is, s.instructions = .ok is ∧ ∀ i ∈ is, i.isPush = true := by
  rw [isPushOnly, List.all_eq_true]
  refine Iff.trans ?_ exists_mapM_eq_ok_iff.symm
  refine forall₂_congr fun step _ => ?_
  cases step.result <;> simp

/-- The last step of reading gives the last instruction. -/
theorem getLast?_steps {is : List Instruction} (hread : s.instructions = .ok is) :
    s.steps.getLast?.map Step.result = is.getLast?.map .ok := by
  have hsteps : s.steps.map Step.result = is.map .ok := mapM_eq_ok_iff.mp hread
  rw [← List.getLast?_map, hsteps, List.getLast?_map]

/-- A script reveals the data of its last push exactly when it is read as pushes, of which there is
at least one. -/
theorem redeemScript?_eq_some_iff {revealed : Script} :
    s.redeemScript? = some revealed ↔
      ∃ front opcode, s.instructions = .ok (front ++ [.push opcode revealed.bytes]) ∧
        ∀ i ∈ front, i.isPush = true := by
  constructor
  · intro hsome
    unfold redeemScript? at hsome
    split at hsome
    next hpushes =>
      obtain ⟨is, hread, hall⟩ := isPushOnly_iff.mp hpushes
      have hlast := getLast?_steps hread
      split at hsome
      next start opcode data stop hstep =>
        obtain rfl := Option.some.inj hsome
        rw [hstep, eq_comm] at hlast
        obtain ⟨i, hi, hok⟩ := Option.map_eq_some_iff.mp hlast
        obtain rfl := Except.ok.inj hok
        obtain ⟨front, rfl⟩ := List.getLast?_eq_some_iff.mp hi
        exact ⟨front, opcode, hread, (List.forall_mem_append.mp hall).1⟩
      next => cases hsome
    next => cases hsome
  · rintro ⟨front, opcode, hread, hfront⟩
    have hall : ∀ i ∈ front ++ [.push opcode revealed.bytes], i.isPush = true :=
      List.forall_mem_append.mpr ⟨hfront, List.forall_mem_singleton.mpr rfl⟩
    have hlast := getLast?_steps hread
    rw [List.getLast?_concat] at hlast
    obtain ⟨⟨start, result, stop⟩, hstep, rfl⟩ := Option.map_eq_some_iff.mp hlast
    rw [redeemScript?, if_pos (isPushOnly_iff.mpr ⟨_, hread, hall⟩), hstep]

/-! ## Nested programs -/

/-- The script is one direct push, whose opcode is the length of its data, and the data are a script
that commits to a witness. -/
def Nests (s program : Script) : Prop :=
  ∃ opcode : UInt8, s.instructions = .ok [.push opcode program.bytes] ∧ opcode.toNat ≤ 75 ∧
    opcode.toNat = program.bytes.length ∧
    (program.template = .witnessPubKeyHash ∨ program.template = .witnessScriptHash)

/-- A direct push consists of its opcode and its data, so it can be told without reading. -/
theorem nests_iff {program : Script} :
    s.Nests program ↔
      ∃ opcode : UInt8, s.bytes = opcode :: program.bytes ∧ opcode.toNat ≤ 75 ∧
        opcode.toNat = program.bytes.length ∧
        (program.template = .witnessPubKeyHash ∨ program.template = .witnessScriptHash) := by
  refine exists_congr fun opcode => and_congr_left ?_
  rintro ⟨hdirect, hlength, -⟩
  have hwf : (push opcode program.bytes).WellFormed := .inl ⟨hdirect, hlength.symm⟩
  rw [instructions, instructionsOf_eq_ok_iff, List.forall_mem_singleton, List.flatMap_singleton,
    bytes_push_of_toNat_le hdirect]
  exact and_iff_right hwf

/-- What a nested program pushes is what it reveals. -/
theorem Nests.redeemScript? {program : Script} (hnests : s.Nests program) :
    s.redeemScript? = some program := by
  obtain ⟨opcode, hread, -⟩ := hnests
  exact redeemScript?_eq_some_iff.mpr ⟨[], opcode, hread, nofun⟩

theorem length_of_hasFrame {length : Nat} {front back : Bytes}
    (hframe : s.hasFrame length front back = true) : s.bytes.length = length := by
  simp only [hasFrame, Bool.and_eq_true, decide_eq_true_eq] at hframe
  exact hframe.1.1

theorem length_of_template_eq_witnessPubKeyHash (hkind : s.template = .witnessPubKeyHash) :
    s.bytes.length = 22 := by
  have hpasses : s.isPayToWitnessPubKeyHash = true := by
    grind [template]
  exact length_of_hasFrame hpasses

theorem length_of_template_eq_witnessScriptHash (hkind : s.template = .witnessScriptHash) :
    s.bytes.length = 34 := by
  have hpasses : s.isPayToWitnessScriptHash = true := by
    grind [template]
  exact length_of_hasFrame hpasses

end Script

namespace Input

open Script

theorem kindOf_eq_witness_iff {script : Script} : kindOf script = .witness ↔ script.bytes = [] := by
  unfold kindOf
  split
  next hnil => simp [hnil]
  next first rest hbytes =>
    rw [hbytes]
    grind

/-- The two lengths of a program are those for which its script is looked at. -/
theorem kindOf_eq_compatibility_iff {script : Script} :
    kindOf script = .compatibility ↔ ∃ program, script.Nests program := by
  simp only [nests_iff]
  unfold kindOf
  split
  next hnil => simp [hnil]
  next first rest hbytes =>
    constructor
    · intro hkind
      refine ⟨⟨rest⟩, first, hbytes, ?_⟩
      split at hkind
      next hkeys =>
        obtain ⟨hlength, rfl, hprogram⟩ := hkeys
        exact ⟨by decide, hlength.symm, .inl hprogram⟩
      next =>
        split at hkind
        next hscripts =>
          obtain ⟨hlength, rfl, hprogram⟩ := hscripts
          exact ⟨by decide, hlength.symm, .inr hprogram⟩
        next => cases hkind
    · rintro ⟨⟨program⟩, opcode, hsplit, -, hopcode, hprogram⟩
      obtain ⟨rfl, rfl⟩ := List.cons.inj (hbytes.symm.trans hsplit)
      obtain hkeys | hscripts := hprogram
      · have hlength := length_of_template_eq_witnessPubKeyHash hkeys
        exact if_pos ⟨hlength, UInt8.toNat_inj.mp (hopcode.trans hlength), hkeys⟩
      · have hlength := length_of_template_eq_witnessScriptHash hscripts
        rw [if_neg (fun hkeys => by simp [hkeys.1] at hlength),
          if_pos ⟨hlength, UInt8.toNat_inj.mp (hopcode.trans hlength), hscripts⟩]

/-- An input has the right to spend in its witness alone exactly when its script is empty, and in
its witness with the program in its script exactly when the script is read as one direct push of the
program, which is then what the script reveals. Any script reveals something exactly when it is read
as one or more pushes, and then it is the data of the last one. -/
theorem kind_exact :
    (∀ i : Input, (i.kind = .witness ↔ i.scriptSig.bytes = []) ∧
      (i.kind = .compatibility ↔ ∃ program, i.scriptSig.Nests program) ∧
      ∀ program, i.scriptSig.Nests program → i.scriptSig.redeemScript? = some program) ∧
    ∀ s revealed : Script, s.redeemScript? = some revealed ↔
      ∃ front opcode, s.instructions = .ok (front ++ [.push opcode revealed.bytes]) ∧
        ∀ i ∈ front, i.isPush = true :=
  ⟨fun _ => ⟨kindOf_eq_witness_iff, kindOf_eq_compatibility_iff, fun _ => Nests.redeemScript?⟩,
    fun _ _ => redeemScript?_eq_some_iff⟩

/-- A program that commits to a key hash. -/
def keyHashProgram : Script :=
  ⟨0 :: 20 :: List.replicate 20 0xab⟩

/-- An input whose script pushes this program. -/
def nesting : Input :=
  ⟨.null, ⟨22 :: keyHashProgram.bytes⟩, 0, .empty⟩

theorem kind_exact_nesting :
    nesting.scriptSig.Nests keyHashProgram ∧ nesting.kind = .compatibility ∧
      nesting.scriptSig.redeemScript? = some keyHashProgram := by
  have hnests : nesting.scriptSig.Nests keyHashProgram :=
    nests_iff.mpr ⟨22, rfl, by decide, rfl, .inl (by decide)⟩
  obtain ⟨-, hkind, hreveals⟩ := kind_exact.1 nesting
  exact ⟨hnests, hkind.mpr ⟨_, hnests⟩, hreveals _ hnests⟩

/-- The same program is not nested by a push that counts its octets, though it is revealed. -/
example : kindOf ⟨Opcode.pushData1 :: 22 :: keyHashProgram.bytes⟩ = .legacy ∧
    redeemScript? ⟨Opcode.pushData1 :: 22 :: keyHashProgram.bytes⟩ = some keyHashProgram :=
  ⟨by decide, rfl⟩

end Input

end LightClient
