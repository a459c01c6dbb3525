import MeteredLedger.Delta.Basic
import MeteredLedger.Script.Error
import MeteredLedger.Violation

/-!
# Rejections

A rejected transaction is left out of the block and changes nothing. A violation is the one
rejection that stops the whole block.
-/

namespace MeteredLedger

open Script (EvaluationError Version)

/-- Why a transaction is rejected. -/
inductive Rejection where
  | alreadyApplied
  | noDApp
  | noComplexityBudget (version : Version)
  | evaluation (error : EvaluationError)
  | nonPositivePayment (amount : Amount)
  | tooManyPayments (count max : Nat)
  | insufficientFee (required provided : UInt64)
  | insufficientBalance (balance : Amount) (fee : UInt64)
  | deniedBySender (message : String)
  | unknownInvocation
  | notAnInvocation
  | notInProgress
  | overflow (overflow : Overflow)
  | violation (violation : Violation)
  deriving DecidableEq

namespace Rejection

/-- The wording of a rejection. -/
def message : Rejection → String
  | alreadyApplied => "transaction is already in the blockchain"
  | noDApp => "account has no DApp script"
  | noComplexityBudget version => "no complexity budget configured for " ++ version.text
  | evaluation error => error.message
  | nonPositivePayment amount => s!"payment amount must be positive, got {amount.toInt}"
  | tooManyPayments count max => s!"{count} payments attached, at most {max} allowed"
  | insufficientFee required provided =>
    s!"fee {provided.toNat} is insufficient, required {required.toNat}"
  | insufficientBalance balance fee =>
    s!"sender balance {balance.toInt} cannot cover fee {fee.toNat}"
  | deniedBySender message => "transaction is not allowed by account script: " ++ message
  | unknownInvocation => "referenced invocation is unknown"
  | notAnInvocation => "referenced transaction is not an invocation"
  | notInProgress => "invocation has no continuation in progress"
  | overflow o => o.message
  | violation v => v.message

/-- A violation shows a broken block, every other rejection a bad transaction. -/
def isFatal : Rejection → Bool
  | violation _ => true
  | _ => false

end Rejection

end MeteredLedger
