import MeteredLedger.Bytes32

/-!
# Accounts and assets

An account and an issued asset are each named by 32 bytes. Besides issued assets there is the one
native token, in which fees are paid.
-/

namespace MeteredLedger

/-- The address of an account. -/
abbrev Address := Bytes32

/-- The name of an issued asset. -/
abbrev AssetId := Bytes32

/-- What a balance is counted in. -/
inductive Asset where
  | native
  | issued (id : AssetId)
  deriving DecidableEq

namespace Asset

/-- The name of an issued asset; the native token has none. -/
def id? : Asset → Option AssetId
  | native => none
  | issued id => some id

/-- The asset as it is shown in messages. -/
def text : Asset → String
  | native => "Native"
  | issued id => "Issued(" ++ id.text ++ ")"

end Asset

end MeteredLedger
