import LightClient.Block.Basic
import LightClient.Proofs.Transaction.Grammar

/-!
# How decoders are put together

All decoders of wire formats are made of the same few steps: octets of a known number are taken, a
compact size is taken, or the input is refused for what it says. Only the decoder of transactions
also looks at octets that it does not take. What each of these steps does, and what a sequence of
two does when its parts do, holds of every decoder.
-/

namespace LightClient

/-- A refusal of what was read, which names no place. -/
inductive Error.Refusal : Error → Prop
  | unknownWitnessFlag (flag : UInt8) : Refusal (.unknownWitnessFlag flag)
  | zeroInputsWithOutputs : Refusal .zeroInputsWithOutputs

namespace Decoder

variable {α : Type}

/-- The decoder is put together from the steps that decoders are made of. Octets are looked at
before they are taken only if `peeking` says so. -/
inductive Composed (peeking : Bool) : {α : Type} → Decoder α → Prop
  | pure {α : Type} (a : α) : Composed peeking (Pure.pure a)
  | refuse {α : Type} {e : Error} (he : e.Refusal) : Composed peeking (throw e : Decoder α)
  | bind {α β : Type} {d : Decoder α} {f : α → Decoder β} (hd : Composed peeking d)
      (hf : ∀ a, Composed peeking (f a)) : Composed peeking (d >>= f)
  | fixed (n : Nat) : Composed peeking (fixed n)
  | compactSize : Composed peeking compactSize
  | lookahead (hpeeking : peeking = true) (n : Nat) : Composed peeking (lookahead n)

namespace Composed

variable {peeking : Bool}

theorem take (n : Nat) : Composed peeking (Decoder.take n) :=
  (fixed n).bind fun bs => pure bs.bytes

theorem natural (order : ByteOrder) (width : Nat) :
    Composed peeking (Decoder.natural order width) :=
  (take width).bind fun bs => pure (Bytes.toNat order bs)

theorem uint32 : Composed peeking Decoder.uint32 :=
  (natural .little 4).bind fun n => pure (UInt32.ofNat n)

theorem uint64 : Composed peeking Decoder.uint64 :=
  (natural .little 8).bind fun n => pure (UInt64.ofNat n)

theorem varBytes : Composed peeking Decoder.varBytes :=
  compactSize.bind take

theorem many {d : Decoder α} (hd : d.Composed peeking) (count : Nat) :
    Composed peeking (Decoder.many d count) := by
  induction count with
  | zero => exact pure []
  | succ count ih => exact hd.bind fun a => ih.bind fun as => pure (a :: as)

theorem list {d : Decoder α} (hd : d.Composed peeking) : Composed peeking (Decoder.list d) :=
  compactSize.bind hd.many

end Composed

end Decoder

open Decoder (Composed)

variable {peeking : Bool}

theorem Script.decode_composed : Composed peeking (Wire.decode (α := Script)) :=
  Composed.varBytes.bind fun bs => .pure (Script.mk bs)

theorem Witness.decode_composed : Composed peeking (Wire.decode (α := Witness)) :=
  Composed.varBytes.list.bind fun items => .pure (Witness.mk items)

theorem Outpoint.decode_composed : Composed peeking (Wire.decode (α := Outpoint)) :=
  (Composed.fixed 32).bind fun txid =>
    Composed.uint32.bind fun index => .pure (Outpoint.mk txid index)

theorem Input.decode_composed : Composed peeking (Wire.decode (α := Input)) :=
  Outpoint.decode_composed.bind fun prevout =>
    Script.decode_composed.bind fun scriptSig =>
      Composed.uint32.bind fun sequence => .pure (Input.mk prevout scriptSig sequence .empty)

theorem Output.decode_composed : Composed peeking (Wire.decode (α := Output)) :=
  Composed.uint64.bind fun value =>
    Script.decode_composed.bind fun scriptPubKey => .pure (Output.mk value scriptPubKey)

theorem Header.decode_composed : Composed peeking (Wire.decode (α := Header)) :=
  (Composed.fixed 80).bind fun raw => .pure (ofRaw raw)

namespace Transaction

/-- The marker is looked at before it is taken. -/
theorem decodeMarker_composed : Composed true decodeMarker := by
  apply (Composed.lookahead rfl 2).bind
  intro ahead
  split
  next flag =>
    by_cases hzero : flag = 0x00
    · rw [if_pos hzero]
      exact .pure false
    · rw [if_neg hzero]
      by_cases hone : flag = 0x01
      · rw [if_neg (not_not_intro hone)]
        exact (Composed.take 2).bind fun _ => .pure true
      · rw [if_pos hone]
        exact (Composed.refuse (.unknownWitnessFlag flag)).bind fun _ =>
          (Composed.take 2).bind fun _ => .pure true
  next => exact .pure false

theorem decodeBody_composed (version : UInt32) (segwit : Bool) :
    Composed peeking (decodeBody version segwit) := by
  apply Input.decode_composed.list.bind
  intro inputs
  apply Output.decode_composed.list.bind
  intro outputs
  by_cases hfunded : inputs = [] → outputs = []
  · rw [dif_pos hfunded]
    exact (Witness.decode_composed.many _).bind fun witnesses =>
      Composed.uint32.bind fun locktime =>
        .pure (withWitnesses ⟨version, inputs, outputs, locktime, hfunded⟩ witnesses)
  · rw [dif_neg hfunded]
    exact .refuse .zeroInputsWithOutputs

theorem decode_composed : Composed true (Wire.decode (α := Transaction)) := by
  show Composed true decode
  rw [decode_eq]
  exact Composed.uint32.bind fun version =>
    decodeMarker_composed.bind fun segwit => decodeBody_composed version segwit

end Transaction

theorem Block.decode_composed : Composed true (Wire.decode (α := Block)) :=
  Header.decode_composed.bind fun header =>
    Transaction.decode_composed.list.bind fun transactions =>
      .pure (Block.mk header transactions)

end LightClient
