import Mathlib.Data.String.Basic

/-!
# Requests, tokens and exceptions

The value types every MiniPrefix component shares (`request.h`, `paged_kv.h`):
token and request identifiers, generation requests and events, and the
exceptions the code throws. A member function that mutates its object and may
throw is a function returning `Except Exn α × σ`: the state comes back on both
paths, because whatever was mutated before the `throw` stays mutated.
-/

namespace TinyInfer.MiniPrefix

/-- `std::int32_t` token identifiers; negative ones exist and are rejected. -/
abbrev TokenId := Int

/-- `std::string` request identifiers, ordered as the keys of `std::map`. -/
abbrev RequestId := String

/-- The thrown values the code distinguishes: the classes of `std::exception`
it throws itself, and any value outside that hierarchy. -/
inductive Exn where
  | kvCapacityError (what : String)
  | invalidArgument (what : String)
  | logicError (what : String)
  | runtimeError (what : String)
  | outOfRange (what : String)
  | foreign
  deriving DecidableEq, Repr

namespace Exn

/-- Caught by `catch (const std::exception&)`. -/
def isStd : Exn → Bool
  | .foreign => false
  | _ => true

/-- Caught by `catch (const KvCapacityError&)`. -/
def isCapacity : Exn → Bool
  | .kvCapacityError _ => true
  | _ => false

/-- `std::exception::what`. -/
def what : Exn → String
  | .kvCapacityError w | .invalidArgument w | .logicError w | .runtimeError w | .outOfRange w => w
  | .foreign => ""

@[simp] theorem isCapacity_iff {e : Exn} : e.isCapacity = true ↔ ∃ w, e = .kvCapacityError w := by
  cases e <;> simp [isCapacity]

end Exn

/-- Did a call throw? -/
def throws {α σ : Type*} (r : Except Exn α × σ) : Prop := ∃ e, r.1 = .error e

inductive KvAdmission where
  | ready
  | wait
  | impossible
  deriving DecidableEq, Repr

inductive FinishReason where
  | eos
  | length
  | cancelled
  | error
  deriving DecidableEq, Repr

structure GenerationOptions where
  maxNewTokens : Nat := 32
  eosTokenId : Option TokenId := none
  deriving DecidableEq, Repr

structure Request where
  id : RequestId
  promptTokenIds : List TokenId
  generation : GenerationOptions := {}
  deriving DecidableEq, Repr

structure GenerationEvent where
  requestId : RequestId
  tokenId : Option TokenId
  finishReason : Option FinishReason
  errorMessage : String
  deriving DecidableEq, Repr

end TinyInfer.MiniPrefix
