import MeteredLedger.Amount

/-!
# Changes of the volume of an asset

Reissues add up to a reissue and burns to a burn. Where both have happened, what is left is one
signed net change.
-/

namespace MeteredLedger

/-- A change of the volume of an asset in circulation. -/
inductive VolumeChange where
  /-- Reissues only; `reissuable` says whether each of them allowed another. -/
  | reissue (amount : Amount) (reissuable : Bool)
  /-- Burns only. -/
  | burn (amount : Amount)
  /-- Reissues and burns. -/
  | net (change : Amount) (reissuable : Bool)
  deriving DecidableEq

namespace VolumeChange

/-- What the change adds to the volume. -/
def netChange : VolumeChange → Int
  | reissue amount _ => amount.toInt
  | burn amount => -amount.toInt
  | net change _ => change.toInt

/-- Whether the asset stays reissuable, if the change holds a reissue. -/
def reissuable? : VolumeChange → Option Bool
  | reissue _ r | net _ r => some r
  | burn _ => none

/-- One change after another, unless the amount is out of range. -/
def merge : VolumeChange → VolumeChange → Option VolumeChange
  | reissue a r, reissue b s => (Amount.add? a b).map (reissue · (r && s))
  | burn a, burn b => (Amount.add? a b).map burn
  | u, v =>
    (Amount.ofInt? (u.netChange + v.netChange)).map
      (net · (u.reissuable?.getD true && v.reissuable?.getD true))

end VolumeChange

end MeteredLedger
