import MeteredLedger.Progress
import MeteredLedger.Wire.Script

/-!
# Transactions and progress in binary form

The content of a transaction is everything but its name, after the number of its kind. A
transaction is named by the SHA-256 digest of its content; one that cannot be written has no content
but the empty one.
-/

namespace MeteredLedger

namespace Wire

open Script (FunctionCall)

instance : Wire Payment where
  encode p := encode p.asset ++ encode p.amount
  read := .mk <$> read <*> read
  Fits _ := True

instance (p : Payment) : Decidable (Fits p) := .isTrue trivial

instance : Wire FunctionCall where
  encode c := encode c.function ++ encode c.args
  read := .mk <$> read <*> read
  Fits c := Fits c.function ∧ Fits c.args

instance (c : FunctionCall) : Decidable (Fits c) := inferInstanceAs (Decidable (_ ∧ _))

/-- The fields of an invocation after its name. -/
def encodeInvocationFields (tx : Invocation) : List UInt8 :=
  encode tx.sender ++ encode tx.dapp ++ encode tx.call ++ encode tx.payments ++ encode tx.fee
    ++ encode tx.timestamp

/-- The fields of a continuation after its name. -/
def encodeContinuationFields (tx : Continuation) : List UInt8 :=
  encode tx.invocation ++ encode tx.step ++ encode tx.fee ++ encode tx.timestamp

instance : Wire Invocation where
  encode tx := encode tx.id ++ encodeInvocationFields tx
  read := .mk <$> read <*> read <*> read <*> read <*> read <*> read <*> read
  Fits tx := Fits tx.call ∧ Fits tx.payments

instance (tx : Invocation) : Decidable (Fits tx) := inferInstanceAs (Decidable (_ ∧ _))

instance : Wire Continuation where
  encode tx := encode tx.id ++ encodeContinuationFields tx
  read := .mk <$> read <*> read <*> read <*> read <*> read
  Fits _ := True

instance : Wire Progress where
  encode
    | .suspended step rest unused => 0 :: (encode step ++ encode rest ++ encode unused)
    | .finished => [1]
  read := do
    match ← byte with
    | 0 => .suspended <$> read <*> read <*> read
    | 1 => pure .finished
    | _ => failure
  Fits
    | .suspended _ rest _ => Fits rest
    | .finished => True

instance : (p : Progress) → Decidable (Fits p)
  | .suspended _ rest _ => inferInstanceAs (Decidable (Fits rest))
  | .finished => .isTrue trivial

end Wire

/-! ## Names of transactions -/

namespace Invocation

/-- The bytes that name an invocation. Where a length is too large to be written there are none. -/
def content (tx : Invocation) : List UInt8 :=
  if Wire.Fits tx then TransactionKind.invocation.number :: Wire.encodeInvocationFields tx else []

/-- The invocation under the name that its content gives it. -/
def sealed (tx : Invocation) : Invocation := { tx with id := Sha256.hash tx.content }

end Invocation

namespace Continuation

/-- The bytes that name a continuation. -/
def content (tx : Continuation) : List UInt8 :=
  TransactionKind.continuation.number :: Wire.encodeContinuationFields tx

/-- The continuation under the name that its content gives it. -/
def sealed (tx : Continuation) : Continuation := { tx with id := Sha256.hash tx.content }

end Continuation

end MeteredLedger
