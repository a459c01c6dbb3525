import Mathlib.Algebra.Group.Nat.Defs
import MeteredLedger.Wire.Transaction

/-! # Reading back what has been written

    Bytes that have been written for a value are read back to it, and the reader
    stops where they end, whatever follows. Only lengths that do not fit into
    four bytes can get lost.

    * `Reader.Takes`: a reader takes exactly these bytes.
    * `Wire.Faithful`: the types whose values are read back.
    * `takes_value`, `takes_expr`: nested values and expressions, by recursion on
      them; the depth up to which their readers go is never what stops them.
    * `decode?_encode`: a value is read back from its bytes alone.
    * `encode_injective`: so values with the same bytes are the same. -/

namespace MeteredLedger

/-! ## Section 1: Readers -/

namespace Reader

variable {α β γ : Type}

/-- The reader takes exactly these bytes, whatever follows them, and makes `a` of
    them. -/
def Takes (reader : Reader α) (bytes : List UInt8) (a : α) : Prop :=
  ∀ rest, reader (bytes ++ rest) = some (a, rest)

variable {reader : Reader α} {bytes bytes' : List UInt8} {a : α} {b : β}

theorem takes_pure (a : α) : Takes (pure a) [] a := fun _ => rfl

theorem takes_bind {next : α → Reader β} (h : reader.Takes bytes a)
    (hnext : (next a).Takes bytes' b) : Takes (reader >>= next) (bytes ++ bytes') b := by
  intro rest
  show (reader (bytes ++ bytes' ++ rest)).bind (fun p => next p.1 p.2) = _
  rw [List.append_assoc, h]
  exact hnext rest

theorem takes_map {f : α → β} (h : reader.Takes bytes a) : Takes (f <$> reader) bytes (f a) := by
  intro rest
  show (reader (bytes ++ rest)).bind (fun p => some (f p.1, p.2)) = _
  rw [h]
  rfl

theorem takes_seq {f : α → β} {reader' : Reader (α → β)} (h : reader'.Takes bytes f)
    (h' : reader.Takes bytes' a) : Takes (reader' <*> reader) (bytes ++ bytes') (f a) :=
  takes_bind h (takes_map h')

end Reader

namespace Wire

open Reader

variable {α β : Type}

theorem takes_byte (b : UInt8) : byte.Takes [b] b := fun _ => rfl

/-- What comes after the number of an alternative. -/
theorem takes_tag {next : UInt8 → Reader α} {tag : UInt8} {bytes : List UInt8} {a : α}
    (h : (next tag).Takes bytes a) : Takes (byte >>= next) (tag :: bytes) a :=
  takes_bind (takes_byte tag) h

theorem takes_checked {ok? : α → Option β} {reader : Reader α} {bytes : List UInt8} {a : α} {b : β}
    (h : reader.Takes bytes a) (hok : ok? a = some b) : Takes (checked ok? reader) bytes b := by
  intro rest
  show (reader (bytes ++ rest)).bind (fun p => (ok? p.1).bind fun b => some (b, p.2)) = _
  rw [h]
  show (ok? a).bind _ = _
  rw [hok]
  rfl

theorem takes_times_cons {reader : Reader α} {bytes bytes' : List UInt8} {a : α} {as : List α}
    (h : reader.Takes bytes a) (hrest : Takes (times as.length reader) bytes' as) :
    Takes (times (a :: as).length reader) (bytes ++ bytes') (a :: as) := by
  show Takes (reader >>= fun a => (a :: ·) <$> times as.length reader) _ _
  exact takes_bind h (takes_map hrest)

theorem takes_times {reader : Reader α} {encode : α → List UInt8} {as : List α}
    (h : ∀ a ∈ as, reader.Takes (encode a) a) :
    Takes (times as.length reader) (as.flatMap encode) as := by
  induction as with
  | nil => exact takes_pure []
  | cons a as ih =>
    have hfirst := h a List.mem_cons_self
    have hrest := ih fun a' ha' => h a' (List.mem_cons_of_mem a ha')
    exact takes_times_cons hfirst hrest

/-- A number is read back from as many bytes as it needs. -/
theorem takes_number {size n : Nat} (h : n < 256 ^ size) :
    (number size).Takes (littleEndian size n) n := by
  induction size generalizing n with
  | zero =>
    obtain rfl : n = 0 := by omega
    exact takes_pure 0
  | succ size ih =>
    have hhigh : n / 256 < 256 ^ size := by
      rw [Nat.pow_succ] at h
      omega
    have hlow : (UInt8.ofNat n).toNat + 256 * (n / 256) = n := by
      rw [UInt8.toNat_ofNat']
      omega
    have hrest := takes_map (f := fun high => (UInt8.ofNat n).toNat + 256 * high) (ih hhigh)
    rw [hlow] at hrest
    show Takes (byte >>= fun low => (low.toNat + 256 * ·) <$> number size)
      (UInt8.ofNat n :: littleEndian size (n / 256)) n
    exact takes_tag hrest

/-! ## Section 2: Faithful types -/

/-- A type whose values are read back from their bytes. -/
class Faithful (α : Type) [Wire α] : Prop where
  takes : ∀ a : α, Fits a → (read : Reader α).Takes (encode a) a

theorem takes_read [Wire α] [Faithful α] {a : α} (h : Fits a) :
    (read : Reader α).Takes (encode a) a :=
  Faithful.takes a h

instance : Faithful UInt8 where
  takes b _ := takes_byte b

instance : Faithful UInt32 where
  takes n _ := by
    have hlt : n.toNat < 256 ^ 4 := n.toNat_lt
    have hread := takes_map (f := UInt32.ofNat) (takes_number hlt)
    rw [UInt32.ofNat_toNat] at hread
    exact hread

instance : Faithful UInt64 where
  takes n _ := by
    have hlt : n.toNat < 256 ^ 8 := n.toNat_lt
    have hread := takes_map (f := UInt64.ofNat) (takes_number hlt)
    rw [UInt64.ofNat_toNat] at hread
    exact hread

instance : Faithful Int64 where
  takes n _ := by
    have hread := takes_map (f := UInt64.toInt64) (takes_read (a := n.toUInt64) trivial)
    rw [Int64.toInt64_toUInt64] at hread
    exact hread

instance : Faithful Bool where
  takes b _ := by
    cases b with
    | false => exact takes_checked (takes_byte 0) rfl
    | true => exact takes_checked (takes_byte 1) rfl

instance : Faithful Bytes32 where
  takes a _ := by
    have hbytes : Takes (times a.bytes.length byte) (a.bytes.flatMap fun b => [b]) a.bytes :=
      takes_times fun b _ => takes_byte b
    rw [List.flatMap_singleton', a.length_bytes] at hbytes
    exact takes_checked hbytes (Bytes32.ofBytes?_bytes a)

instance [Wire α] [Faithful α] : Faithful (List α) where
  takes as h := by
    obtain ⟨hlength, hitems⟩ := h
    have hread := takes_times fun a ha => takes_read (hitems a ha)
    exact takes_bind (takes_number hlength) hread

theorem ofUtf8?_utf8Bytes (s : String) : ofUtf8? (Script.utf8Bytes s) = some s := by
  have hbytes : (Script.utf8Bytes s).toByteArray = s.toByteArray := by
    apply ByteArray.ext
    rw [List.data_toByteArray]
    rfl
  unfold ofUtf8? String.fromUTF8?
  rw [hbytes, dif_pos s.isValidUTF8]
  rfl

instance : Faithful String where
  takes s h := by
    have hread := takes_read (a := Script.utf8Bytes s) ⟨h, fun _ _ => trivial⟩
    exact takes_checked hread (ofUtf8?_utf8Bytes s)

/-! ## Section 3: Scripts -/

open Script

instance : Faithful Asset where
  takes asset _ := by
    cases asset with
    | native => exact takes_tag (takes_pure _)
    | issued id => exact takes_tag (takes_map (takes_read trivial))

instance : Faithful DataValue where
  takes value h := by
    cases value with
    | int n => exact takes_tag (takes_map (takes_read trivial))
    | bool b => exact takes_tag (takes_map (takes_read trivial))
    | bytes bs => exact takes_tag (takes_map (takes_read h))
    | str s => exact takes_tag (takes_map (takes_read h))

instance : Faithful Action where
  takes action h := by
    cases action with
    | data key value => exact takes_tag (takes_seq (takes_map (takes_read h.1)) (takes_read h.2))
    | transfer recipient asset amount =>
      exact takes_tag (takes_seq (takes_seq (takes_map (takes_read trivial)) (takes_read trivial))
        (takes_read trivial))
    | reissue asset amount reissuable =>
      exact takes_tag (takes_seq (takes_seq (takes_map (takes_read trivial)) (takes_read trivial))
        (takes_read trivial))
    | burn asset amount =>
      exact takes_tag (takes_seq (takes_map (takes_read trivial)) (takes_read trivial))

instance : Faithful Builtin where
  takes f _ := takes_checked (takes_byte _) (by cases f <;> rfl)

theorem length_encodeValue_pos (v : Value) : 0 < (encodeValue v).length := by
  cases v <;> simp [encodeValue]

theorem length_encodeExpr_pos (e : Expr) : 0 < (encodeExpr e).length := by
  cases e <;> simp [encodeExpr]

mutual

/-- A value is read back by a reader that may go as deep as it has bytes. -/
theorem takes_value : ∀ (v : Value) (depth : Nat), FitsValue v → (encodeValue v).length ≤ depth →
    (readValue depth).Takes (encodeValue v) v
  | v, 0, _, hdepth => absurd (length_encodeValue_pos v) (by omega)
  | .unit, _ + 1, _, _ => takes_tag (takes_pure _)
  | .int _, _ + 1, _, _ => takes_tag (takes_map (takes_read trivial))
  | .bool _, _ + 1, _, _ => takes_tag (takes_map (takes_read trivial))
  | .bytes _, _ + 1, h, _ => takes_tag (takes_map (takes_read h))
  | .str _, _ + 1, h, _ => takes_tag (takes_map (takes_read h))
  | .list items, depth + 1, h, hdepth => by
    have hitems : (encodeItems items).length ≤ depth := by
      simp only [encodeValue, List.length_cons, List.length_append] at hdepth
      omega
    have hread := takes_items items depth h.2 hitems
    exact takes_tag (takes_bind (takes_number h.1) (takes_map hread))
  | .action _, _ + 1, h, _ => takes_tag (takes_map (takes_read h))

theorem takes_items : ∀ (items : List Value) (depth : Nat), FitsItems items →
    (encodeItems items).length ≤ depth →
    Takes (times items.length (readValue depth)) (encodeItems items) items
  | [], _, _, _ => takes_pure []
  | item :: items, depth, h, hdepth => by
    simp only [encodeItems, List.length_append] at hdepth
    have hfirst := takes_value item depth h.1 (by omega)
    have hrest := takes_items items depth h.2 (by omega)
    exact takes_times_cons hfirst hrest

end

/-- A reader that may go as deep as there are bytes left takes what a reader does
    that may go deep enough. -/
theorem takes_of_depth {reader : Nat → Reader α} {bytes : List UInt8} {a : α}
    (h : ∀ depth, bytes.length ≤ depth → (reader depth).Takes bytes a) :
    Takes (fun input => reader input.length input) bytes a := by
  intro rest
  have hlength : bytes.length ≤ (bytes ++ rest).length := by
    rw [List.length_append]
    omega
  exact h _ hlength rest

instance : Faithful Value where
  takes v h := takes_of_depth fun depth hdepth => takes_value v depth h hdepth

mutual

/-- An expression is read back by a reader that may go as deep as it has bytes. -/
theorem takes_expr : ∀ (e : Expr) (depth : Nat), FitsExpr e → (encodeExpr e).length ≤ depth →
    (readExpr depth).Takes (encodeExpr e) e
  | e, 0, _, hdepth => absurd (length_encodeExpr_pos e) (by omega)
  | .const v, depth + 1, h, hdepth => by
    simp only [encodeExpr, List.length_cons] at hdepth
    exact takes_tag (takes_map (takes_value v depth h (by omega)))
  | .ref _, _ + 1, h, _ => takes_tag (takes_map (takes_read h))
  | .letIn name value body, depth + 1, h, hdepth => by
    simp only [encodeExpr, List.length_cons, List.length_append] at hdepth
    have hvalue := takes_expr value depth h.2.1 (by omega)
    have hbody := takes_expr body depth h.2.2 (by omega)
    exact takes_tag (takes_seq (takes_seq (takes_map (takes_read h.1)) hvalue) hbody)
  | .ite cond yes no, depth + 1, h, hdepth => by
    simp only [encodeExpr, List.length_cons, List.length_append] at hdepth
    have hcond := takes_expr cond depth h.1 (by omega)
    have hyes := takes_expr yes depth h.2.1 (by omega)
    have hno := takes_expr no depth h.2.2 (by omega)
    exact takes_tag (takes_seq (takes_seq (takes_map hcond) hyes) hno)
  | .call function args, depth + 1, h, hdepth => by
    simp only [encodeExpr, List.length_cons, List.length_append] at hdepth
    have hargs := takes_args args depth h.2 (by omega)
    have hcall : Takes (read >>= fun f => number 4 >>= fun n =>
        Expr.call f <$> times n (readExpr depth))
        (encode function ++ (littleEndian 4 args.length ++ encodeArgs args))
        (.call function args) :=
      takes_bind (takes_read trivial) (takes_bind (takes_number h.1) (takes_map hargs))
    rw [← List.append_assoc] at hcall
    exact takes_tag hcall
  | .throw _, _ + 1, h, _ => takes_tag (takes_map (takes_read h))

theorem takes_args : ∀ (args : List Expr) (depth : Nat), FitsArgs args →
    (encodeArgs args).length ≤ depth →
    Takes (times args.length (readExpr depth)) (encodeArgs args) args
  | [], _, _, _ => takes_pure []
  | arg :: args, depth, h, hdepth => by
    simp only [encodeArgs, List.length_append] at hdepth
    have hfirst := takes_expr arg depth h.1 (by omega)
    have hrest := takes_args args depth h.2 (by omega)
    exact takes_times_cons hfirst hrest

end

instance : Faithful Expr where
  takes e h := takes_of_depth fun depth hdepth => takes_expr e depth h hdepth

/-! ## Section 4: Transactions and progress -/

instance : Faithful Payment where
  takes _ _ := takes_seq (takes_map (takes_read trivial)) (takes_read trivial)

instance : Faithful FunctionCall where
  takes _ h := takes_seq (takes_map (takes_read h.1)) (takes_read h.2)

instance : Faithful Invocation where
  takes tx h := by
    have hid := takes_map (f := Invocation.mk) (takes_read (a := tx.id) trivial)
    have hparties := takes_seq (takes_seq hid (takes_read (a := tx.sender) trivial))
      (takes_read (a := tx.dapp) trivial)
    have hcall := takes_seq (takes_seq hparties (takes_read h.1)) (takes_read h.2)
    have hread := takes_seq (takes_seq hcall (takes_read (a := tx.fee) trivial))
      (takes_read (a := tx.timestamp) trivial)
    simp only [List.append_assoc] at hread
    show (read : Reader Invocation).Takes (encode tx.id ++ (encode tx.sender ++ encode tx.dapp
      ++ encode tx.call ++ encode tx.payments ++ encode tx.fee ++ encode tx.timestamp)) tx
    simp only [List.append_assoc]
    exact hread

instance : Faithful Continuation where
  takes tx _ := by
    have hid := takes_map (f := Continuation.mk) (takes_read (a := tx.id) trivial)
    have hplace := takes_seq (takes_seq hid (takes_read (a := tx.invocation) trivial))
      (takes_read (a := tx.step) trivial)
    have hread := takes_seq (takes_seq hplace (takes_read (a := tx.fee) trivial))
      (takes_read (a := tx.timestamp) trivial)
    simp only [List.append_assoc] at hread
    show (read : Reader Continuation).Takes (encode tx.id ++ (encode tx.invocation
      ++ encode tx.step ++ encode tx.fee ++ encode tx.timestamp)) tx
    simp only [List.append_assoc]
    exact hread

instance : Faithful Progress where
  takes mark h := by
    cases mark with
    | suspended step rest unused =>
      exact takes_tag (takes_seq (takes_seq (takes_map (takes_read trivial)) (takes_read h))
        (takes_read trivial))
    | finished => exact takes_tag (takes_pure _)

/-- **A value is read back from its bytes alone.** -/
theorem decode?_encode [Wire α] [Faithful α] {a : α} (h : Fits a) :
    decode? (encode a) = some a := by
  have hread := takes_read h []
  rw [List.append_nil] at hread
  unfold decode?
  rw [StateT.run, hread]

/-- Values with the same bytes are the same. -/
theorem encode_injective [Wire α] [Faithful α] {a b : α} (ha : Fits a) (hb : Fits b)
    (h : encode a = encode b) : a = b := by
  have hback := decode?_encode ha
  rw [h, decode?_encode hb] at hback
  exact (Option.some.inj hback).symm

end Wire

end MeteredLedger
