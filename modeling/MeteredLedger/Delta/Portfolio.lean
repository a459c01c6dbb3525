import MeteredLedger.Amount
import MeteredLedger.Asset
import MeteredLedger.Demand
import MeteredLedger.SortedMap.Basic

/-!
# Portfolios

A portfolio holds one amount per asset: the balances of an account, or the changes to them. An
issued asset without an entry counts as zero.
-/

namespace MeteredLedger

/-- Amounts of the native token and of issued assets. -/
structure Portfolio where
  native : Amount := 0
  assets : SortedMap AssetId Amount := ∅
  deriving DecidableEq

namespace Portfolio

/-- The portfolio that holds one asset. -/
def single (asset : Asset) (amount : Amount) : Portfolio :=
  match asset with
  | .native => { native := amount }
  | .issued id => { assets := (∅ : SortedMap AssetId Amount).insert id amount }

/-- The amount held of an asset. -/
def get (p : Portfolio) : Asset → Amount
  | .native => p.native
  | .issued id => p.assets.getD id 0

/-- The portfolio with another amount of one asset. -/
def set (p : Portfolio) (asset : Asset) (amount : Amount) : Portfolio :=
  match asset with
  | .native => { p with native := amount }
  | .issued id => { p with assets := p.assets.insert id amount }

/-- The amounts held: the native token first, then the issued assets in key order. -/
def entries (p : Portfolio) : List (Asset × Amount) :=
  (.native, p.native) :: p.assets.toList.map fun e => (.issued e.1, e.2)

/-- The exact sum of two amounts, or else the asset they are amounts of. -/
def addExact (asset : Asset) (a b : Amount) : Except Asset Amount :=
  demandSome (Amount.add? a b) asset

/-- The sum of two portfolios. If sums are out of range, the first such asset is the error. -/
def merge (p q : Portfolio) : Except Asset Portfolio := do
  let native ← addExact .native p.native q.native
  let assets ← SortedMap.tryMerge (fun id => addExact (.issued id)) p.assets q.assets
  pure { native, assets }

/-- The sum of two portfolios in which every amount stops at the bounds. -/
def addClamped (p q : Portfolio) : Portfolio where
  native := p.native.addClamped q.native
  assets := SortedMap.mergeWith Amount.addClamped p.assets q.assets

end Portfolio

end MeteredLedger
