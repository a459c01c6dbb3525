import MeteredLedger.Wire.Basic

/-!
# Scripts in binary form

Alternatives are numbered in the order of their constructors. Values and expressions nest, so their
readers recurse; every nested part takes at least one byte, so a reader that may go as deep as there
are bytes left never stops short.
-/

namespace MeteredLedger.Wire

open Script

/-! ## Assets, data values and actions -/

instance : Wire Asset where
  encode
    | .native => [0]
    | .issued id => 1 :: encode id
  read := do
    match ← byte with
    | 0 => pure .native
    | 1 => .issued <$> read
    | _ => failure
  Fits _ := True

instance : Wire DataValue where
  encode
    | .int n => 0 :: encode n
    | .bool b => 1 :: encode b
    | .bytes bs => 2 :: encode bs
    | .str s => 3 :: encode s
  read := do
    match ← byte with
    | 0 => .int <$> read
    | 1 => .bool <$> read
    | 2 => .bytes <$> read
    | 3 => .str <$> read
    | _ => failure
  Fits
    | .bytes bs => Fits bs
    | .str s => Fits s
    | _ => True

instance : (d : DataValue) → Decidable (Fits d)
  | .int _ | .bool _ => .isTrue trivial
  | .bytes bs => inferInstanceAs (Decidable (Fits bs))
  | .str s => inferInstanceAs (Decidable (Fits s))

instance : Wire Action where
  encode
    | .data key value => 0 :: (encode key ++ encode value)
    | .transfer recipient asset amount => 1 :: (encode recipient ++ encode asset ++ encode amount)
    | .reissue asset amount reissuable => 2 :: (encode asset ++ encode amount ++ encode reissuable)
    | .burn asset amount => 3 :: (encode asset ++ encode amount)
  read := do
    match ← byte with
    | 0 => .data <$> read <*> read
    | 1 => .transfer <$> read <*> read <*> read
    | 2 => .reissue <$> read <*> read <*> read
    | 3 => .burn <$> read <*> read
    | _ => failure
  Fits
    | .data key value => Fits key ∧ Fits value
    | _ => True

instance : (a : Action) → Decidable (Fits a)
  | .data key value => inferInstanceAs (Decidable (Fits key ∧ Fits value))
  | .transfer .. | .reissue .. | .burn .. => .isTrue trivial

instance : Wire Builtin where
  encode f := [UInt8.ofNat (Builtin.all.idxOf f)]
  read := checked (fun b => Builtin.all[b.toNat]?) byte
  Fits _ := True

/-! ## Values -/

mutual

/-- The bytes of a value. -/
def encodeValue : Value → List UInt8
  | .unit => [0]
  | .int n => 1 :: encode n
  | .bool b => 2 :: encode b
  | .bytes bs => 3 :: encode bs
  | .str s => 4 :: encode s
  | .list items => 5 :: (littleEndian 4 items.length ++ encodeItems items)
  | .action a => 6 :: encode a

/-- The bytes of the items of a list, one after the other. -/
def encodeItems : List Value → List UInt8
  | [] => []
  | item :: items => encodeValue item ++ encodeItems items

end

/-- Takes a value nested at most `depth` levels deep. -/
def readValue : Nat → Reader Value
  | 0 => failure
  | depth + 1 => do
    match ← byte with
    | 0 => pure .unit
    | 1 => .int <$> read
    | 2 => .bool <$> read
    | 3 => .bytes <$> read
    | 4 => .str <$> read
    | 5 => do
      let n ← number 4
      .list <$> times n (readValue depth)
    | 6 => .action <$> read
    | _ => failure

mutual

/-- Every length in a value can be written in four bytes. -/
def FitsValue : Value → Prop
  | .bytes bs => Fits bs
  | .str s => Fits s
  | .list items => items.length < UInt32.size ∧ FitsItems items
  | .action a => Fits a
  | _ => True

/-- Every length in these values can be written in four bytes. -/
def FitsItems : List Value → Prop
  | [] => True
  | item :: items => FitsValue item ∧ FitsItems items

end

mutual

/-- Whether a value can be written is decided by its parts. -/
def decideFitsValue : (v : Value) → Decidable (FitsValue v)
  | .unit | .int _ | .bool _ => .isTrue trivial
  | .bytes bs => inferInstanceAs (Decidable (Fits bs))
  | .str s => inferInstanceAs (Decidable (Fits s))
  | .list items =>
    have := decideFitsItems items
    inferInstanceAs (Decidable (items.length < UInt32.size ∧ FitsItems items))
  | .action a => inferInstanceAs (Decidable (Fits a))

def decideFitsItems : (items : List Value) → Decidable (FitsItems items)
  | [] => .isTrue trivial
  | item :: items =>
    have := decideFitsValue item
    have := decideFitsItems items
    inferInstanceAs (Decidable (FitsValue item ∧ FitsItems items))

end

instance : Wire Value where
  encode := encodeValue
  read := fun bytes => readValue bytes.length bytes
  Fits := FitsValue

instance : (v : Value) → Decidable (Fits v) := decideFitsValue

/-! ## Expressions -/

mutual

/-- The bytes of an expression. -/
def encodeExpr : Expr → List UInt8
  | .const v => 0 :: encodeValue v
  | .ref name => 1 :: encode name
  | .letIn name value body => 2 :: (encode name ++ encodeExpr value ++ encodeExpr body)
  | .ite cond yes no => 3 :: (encodeExpr cond ++ encodeExpr yes ++ encodeExpr no)
  | .call function args =>
    4 :: (encode function ++ littleEndian 4 args.length ++ encodeArgs args)
  | .throw message => 5 :: encode message

/-- The bytes of arguments, one after the other. -/
def encodeArgs : List Expr → List UInt8
  | [] => []
  | arg :: args => encodeExpr arg ++ encodeArgs args

end

/-- Takes an expression nested at most `depth` levels deep. -/
def readExpr : Nat → Reader Expr
  | 0 => failure
  | depth + 1 => do
    match ← byte with
    | 0 => .const <$> readValue depth
    | 1 => .ref <$> read
    | 2 => .letIn <$> read <*> readExpr depth <*> readExpr depth
    | 3 => .ite <$> readExpr depth <*> readExpr depth <*> readExpr depth
    | 4 => do
      let function ← read
      let n ← number 4
      .call function <$> times n (readExpr depth)
    | 5 => .throw <$> read
    | _ => failure

mutual

/-- Every length in an expression can be written in four bytes. -/
def FitsExpr : Expr → Prop
  | .const v => FitsValue v
  | .ref name => Fits name
  | .letIn name value body => Fits name ∧ FitsExpr value ∧ FitsExpr body
  | .ite cond yes no => FitsExpr cond ∧ FitsExpr yes ∧ FitsExpr no
  | .call _ args => args.length < UInt32.size ∧ FitsArgs args
  | .throw message => Fits message

/-- Every length in these arguments can be written in four bytes. -/
def FitsArgs : List Expr → Prop
  | [] => True
  | arg :: args => FitsExpr arg ∧ FitsArgs args

end

mutual

/-- Whether an expression can be written is decided by its parts. -/
def decideFitsExpr : (e : Expr) → Decidable (FitsExpr e)
  | .const v => decideFitsValue v
  | .ref name => inferInstanceAs (Decidable (Fits name))
  | .letIn name value body =>
    have := decideFitsExpr value
    have := decideFitsExpr body
    inferInstanceAs (Decidable (Fits name ∧ FitsExpr value ∧ FitsExpr body))
  | .ite cond yes no =>
    have := decideFitsExpr cond
    have := decideFitsExpr yes
    have := decideFitsExpr no
    inferInstanceAs (Decidable (FitsExpr cond ∧ FitsExpr yes ∧ FitsExpr no))
  | .call _ args =>
    have := decideFitsArgs args
    inferInstanceAs (Decidable (args.length < UInt32.size ∧ FitsArgs args))
  | .throw message => inferInstanceAs (Decidable (Fits message))

def decideFitsArgs : (args : List Expr) → Decidable (FitsArgs args)
  | [] => .isTrue trivial
  | arg :: args =>
    have := decideFitsExpr arg
    have := decideFitsArgs args
    inferInstanceAs (Decidable (FitsExpr arg ∧ FitsArgs args))

end

instance : Wire Expr where
  encode := encodeExpr
  read := fun bytes => readExpr bytes.length bytes
  Fits := FitsExpr

instance : (e : Expr) → Decidable (Fits e) := decideFitsExpr

end MeteredLedger.Wire
