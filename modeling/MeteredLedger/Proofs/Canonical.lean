import MeteredLedger.Proofs.ReadBack
import MeteredLedger.Proofs.Writing

/-! # One form for each value

    A reader accepts nothing but what is written for a value: the bytes that it
    takes are the bytes of the value that it makes of them, length by length, tag
    by tag and truth value by truth value. Together with `ReadBack` this makes
    the binary form a bijection between the values that fit it and the byte
    strings that are accepted.

    * `Reader.TakesOnly`: what a reader takes is what its value is written as.
    * `Wire.Canonical`: the types whose readers are such.
    * `takesOnly_readValue`, `takesOnly_readExpr`: nested values and expressions,
      by induction on the depth up to which their readers go.
    * `Wire.OneForm`: one form for each value, and one value for each form.
    * `wire_has_one_form`: scripts, transactions and progress have that. -/

namespace MeteredLedger

/-! ## Section 1: Readers -/

namespace Reader

variable {α β γ : Type}

/-- Whatever the reader takes is what its value is written as, and the value has
    no length that does not fit. -/
def TakesOnly (reader : Reader α) (fits : α → Prop) (encode : α → List UInt8) : Prop :=
  ∀ ⦃input a rest⦄, reader input = some (a, rest) → fits a ∧ input = encode a ++ rest

variable {reader : Reader α} {input rest : List UInt8}

theorem bind_eq_some_iff {next : α → Reader β} {b : β} :
    (reader >>= next) input = some (b, rest) ↔
      ∃ a mid, reader input = some (a, mid) ∧ next a mid = some (b, rest) := by
  show (reader input).bind (fun p => next p.1 p.2) = _ ↔ _
  rw [Option.bind_eq_some_iff, Prod.exists]

theorem map_eq_some_iff {f : α → β} {b : β} :
    (f <$> reader) input = some (b, rest) ↔ ∃ a, reader input = some (a, rest) ∧ f a = b := by
  show (reader input).bind (fun p => some (f p.1, p.2)) = _ ↔ _
  rw [Option.bind_eq_some_iff, Prod.exists]
  constructor
  · rintro ⟨a, mid, ha, h⟩
    obtain ⟨rfl, rfl⟩ := Prod.mk.inj (Option.some.inj h)
    exact ⟨a, ha, rfl⟩
  · rintro ⟨a, ha, rfl⟩
    exact ⟨a, rest, ha, rfl⟩

theorem seq_eq_some_iff {first : Reader (α → β)} {b : β} :
    (first <*> reader) input = some (b, rest) ↔
      ∃ f mid, first input = some (f, mid) ∧ ∃ a, reader mid = some (a, rest) ∧ f a = b := by
  show (first >>= fun f => f <$> reader) input = _ ↔ _
  simp only [bind_eq_some_iff, map_eq_some_iff]

theorem pure_eq_some {a b : α} (h : (pure a : Reader α) input = some (b, rest)) :
    a = b ∧ input = rest :=
  Prod.mk.inj (Option.some.inj h)

end Reader

namespace Wire

open Reader

variable {α β : Type} {input rest : List UInt8}

theorem byte_eq_some {b : UInt8} (h : byte input = some (b, rest)) : input = b :: rest := by
  cases input with
  | nil => exact nomatch h
  | cons b' rest' =>
    obtain ⟨rfl, rfl⟩ := Prod.mk.inj (Option.some.inj h)
    rfl

/-- A choice starts with the number of the alternative taken. -/
theorem tag_eq_some {next : UInt8 → Reader α} {a : α}
    (h : (byte >>= next) input = some (a, rest)) :
    ∃ tag mid, input = tag :: mid ∧ next tag mid = some (a, rest) := by
  obtain ⟨tag, mid, htag, h⟩ := bind_eq_some_iff.1 h
  exact ⟨tag, mid, byte_eq_some htag, h⟩

theorem checked_eq_some {ok? : α → Option β} {reader : Reader α} {b : β}
    (h : checked ok? reader input = some (b, rest)) :
    ∃ a, reader input = some (a, rest) ∧ ok? a = some b := by
  obtain ⟨a, mid, ha, h⟩ := bind_eq_some_iff.1 h
  obtain ⟨b', hb', h⟩ := Option.bind_eq_some_iff.1 h
  obtain ⟨rfl, rfl⟩ := Prod.mk.inj (Option.some.inj h)
  exact ⟨a, ha, hb'⟩

/-- As many values as asked for, each of them as it is written. -/
theorem times_eq_some {reader : Reader α} {fits : α → Prop} {encode : α → List UInt8}
    (hreader : reader.TakesOnly fits encode) {n : Nat} {as : List α}
    (h : times n reader input = some (as, rest)) :
    as.length = n ∧ (∀ a ∈ as, fits a) ∧ input = as.flatMap encode ++ rest := by
  induction n generalizing input as with
  | zero =>
    obtain ⟨rfl, rfl⟩ := pure_eq_some h
    exact ⟨rfl, fun a ha => absurd ha List.not_mem_nil, rfl⟩
  | succ n ih =>
    obtain ⟨a, mid, ha, h⟩ := bind_eq_some_iff.1 h
    obtain ⟨as', mid', has, h⟩ := bind_eq_some_iff.1 h
    obtain ⟨rfl, rfl⟩ := pure_eq_some h
    obtain ⟨hfits, rfl⟩ := hreader ha
    obtain ⟨hlength, hall, rfl⟩ := ih has
    refine ⟨congrArg (· + 1) hlength, List.forall_mem_cons.2 ⟨hfits, hall⟩, ?_⟩
    rw [List.flatMap_cons, List.append_assoc]

/-- A number that is read is the one that these bytes are written for. -/
theorem takesOnly_number (size : Nat) :
    (number size).TakesOnly (· < 256 ^ size) (littleEndian size) := by
  induction size with
  | zero =>
    intro input n rest h
    obtain ⟨rfl, rfl⟩ := pure_eq_some h
    exact ⟨Nat.one_pos, rfl⟩
  | succ size ih =>
    intro input n rest h
    obtain ⟨low, mid, hlow, hnext⟩ := tag_eq_some h
    obtain ⟨high, mid', hhigh, hlast⟩ := bind_eq_some_iff.1 hnext
    obtain ⟨rfl, rfl⟩ := pure_eq_some hlast
    obtain ⟨hlt, rfl⟩ := ih hhigh
    have hbyte := low.toNat_lt
    have hdiv : (low.toNat + 256 * high) / 256 = high := by omega
    have hmod : UInt8.ofNat (low.toNat + 256 * high) = low := by
      apply UInt8.toNat_inj.1
      rw [UInt8.toNat_ofNat']
      omega
    refine ⟨?_, ?_⟩
    · rw [Nat.pow_succ]
      omega
    · rw [hlow, littleEndian, hdiv, hmod, List.cons_append]

/-! ## Section 2: Canonical types -/

/-- A type whose reader accepts nothing but what its values are written as. -/
class Canonical (α : Type) [Wire α] : Prop where
  takesOnly : (read : Reader α).TakesOnly Fits encode

theorem read_eq_some [Wire α] [Canonical α] {a : α}
    (h : (read : Reader α) input = some (a, rest)) : Fits a ∧ input = encode a ++ rest :=
  Canonical.takesOnly h

theorem map_read_eq_some [Wire α] [Canonical α] {f : α → β} {b : β}
    (h : (f <$> read) input = some (b, rest)) :
    ∃ a, Fits a ∧ input = encode a ++ rest ∧ f a = b := by
  obtain ⟨a, ha, hb⟩ := map_eq_some_iff.1 h
  obtain ⟨hfits, hinput⟩ := read_eq_some ha
  exact ⟨a, hfits, hinput, hb⟩

theorem seq_read_eq_some [Wire α] [Canonical α] {first : Reader (α → β)} {b : β}
    (h : (first <*> read) input = some (b, rest)) :
    ∃ f a, first input = some (f, encode a ++ rest) ∧ Fits a ∧ f a = b := by
  obtain ⟨f, mid, hf, a, ha, hb⟩ := seq_eq_some_iff.1 h
  obtain ⟨hfits, rfl⟩ := read_eq_some ha
  exact ⟨f, a, hf, hfits, hb⟩

instance : Canonical UInt8 where
  takesOnly _ _ _ h := ⟨trivial, byte_eq_some h⟩

instance : Canonical UInt32 where
  takesOnly input n rest h := by
    obtain ⟨m, hm, rfl⟩ := map_eq_some_iff.1 h
    obtain ⟨hlt, rfl⟩ := takesOnly_number 4 hm
    refine ⟨trivial, ?_⟩
    show _ = littleEndian 4 (UInt32.ofNat m).toNat ++ rest
    rw [UInt32.toNat_ofNat_of_lt' hlt]

instance : Canonical UInt64 where
  takesOnly input n rest h := by
    obtain ⟨m, hm, rfl⟩ := map_eq_some_iff.1 h
    obtain ⟨hlt, rfl⟩ := takesOnly_number 8 hm
    refine ⟨trivial, ?_⟩
    show _ = littleEndian 8 (UInt64.ofNat m).toNat ++ rest
    rw [UInt64.toNat_ofNat_of_lt' hlt]

instance : Canonical Int64 where
  takesOnly input n rest h := by
    obtain ⟨m, -, rfl, rfl⟩ := map_read_eq_some h
    refine ⟨trivial, ?_⟩
    show _ = encode m.toInt64.toUInt64 ++ rest
    rw [UInt64.toUInt64_toInt64]

/-- Only 0 and 1 are truth values. -/
instance : Canonical Bool where
  takesOnly input b rest h := by
    obtain ⟨tag, htag, hok⟩ := checked_eq_some h
    obtain rfl := byte_eq_some htag
    refine ⟨trivial, ?_⟩
    split at hok
    · obtain rfl := Option.some.inj hok
      rename_i h0
      rw [h0]
      rfl
    · split at hok
      · obtain rfl := Option.some.inj hok
        rename_i h1
        rw [h1]
        rfl
      · exact nomatch hok

instance : Canonical Bytes32 where
  takesOnly input a rest h := by
    obtain ⟨bytes, hbytes, hok⟩ := checked_eq_some h
    obtain ⟨-, -, rfl⟩ := times_eq_some (Canonical.takesOnly (α := UInt8)) hbytes
    obtain rfl := Bytes32.ofBytes?_eq_some_iff.1 hok
    refine ⟨trivial, ?_⟩
    show a.bytes.flatMap (fun b => [b]) ++ rest = a.bytes ++ rest
    rw [List.flatMap_singleton']

instance [Wire α] [Canonical α] : Canonical (List α) where
  takesOnly input as rest h := by
    obtain ⟨n, mid, hn, hitems⟩ := bind_eq_some_iff.1 h
    obtain ⟨hlt, rfl⟩ := takesOnly_number 4 hn
    obtain ⟨rfl, hall, rfl⟩ := times_eq_some Canonical.takesOnly hitems
    refine ⟨⟨hlt, hall⟩, ?_⟩
    show _ = littleEndian 4 as.length ++ as.flatMap encode ++ rest
    rw [List.append_assoc]

/-- A string is accepted only in the bytes that encode it. -/
theorem utf8Bytes_of_ofUtf8? {bytes : List UInt8} {s : String} (h : ofUtf8? bytes = some s) :
    Script.utf8Bytes s = bytes := by
  unfold ofUtf8? String.fromUTF8? at h
  split at h
  · obtain rfl := Option.some.inj h
    show bytes.toByteArray.data.toList = bytes
    rw [List.data_toByteArray]
  · exact nomatch h

instance : Canonical String where
  takesOnly input s rest h := by
    obtain ⟨bytes, hbytes, hok⟩ := checked_eq_some h
    obtain ⟨⟨hlength, -⟩, rfl⟩ := read_eq_some hbytes
    obtain rfl := utf8Bytes_of_ofUtf8? hok
    exact ⟨hlength, rfl⟩

/-! ## Section 3: Scripts -/

open Script

instance : Canonical Asset where
  takesOnly input asset rest h := by
    obtain ⟨tag, mid, rfl, hchoice⟩ := tag_eq_some h
    split at hchoice
    · obtain ⟨rfl, rfl⟩ := pure_eq_some hchoice
      exact ⟨trivial, rfl⟩
    · obtain ⟨id, -, rfl, rfl⟩ := map_read_eq_some hchoice
      exact ⟨trivial, rfl⟩
    · exact nomatch hchoice

instance : Canonical DataValue where
  takesOnly input value rest h := by
    obtain ⟨tag, mid, rfl, hchoice⟩ := tag_eq_some h
    split at hchoice
    · obtain ⟨n, -, rfl, rfl⟩ := map_read_eq_some hchoice
      exact ⟨trivial, rfl⟩
    · obtain ⟨b, -, rfl, rfl⟩ := map_read_eq_some hchoice
      exact ⟨trivial, rfl⟩
    · obtain ⟨bs, hbs, rfl, rfl⟩ := map_read_eq_some hchoice
      exact ⟨hbs, rfl⟩
    · obtain ⟨s, hs, rfl, rfl⟩ := map_read_eq_some hchoice
      exact ⟨hs, rfl⟩
    · exact nomatch hchoice

instance : Canonical Action where
  takesOnly input action rest h := by
    obtain ⟨tag, mid, rfl, hchoice⟩ := tag_eq_some h
    split at hchoice
    · obtain ⟨f, value, h₁, hvalue, rfl⟩ := seq_read_eq_some hchoice
      obtain ⟨key, hkey, rfl, rfl⟩ := map_read_eq_some h₁
      exact ⟨⟨hkey, hvalue⟩, by simp [encode]⟩
    · obtain ⟨f, amount, h₁, -, rfl⟩ := seq_read_eq_some hchoice
      obtain ⟨f, asset, h₂, -, rfl⟩ := seq_read_eq_some h₁
      obtain ⟨recipient, -, rfl, rfl⟩ := map_read_eq_some h₂
      exact ⟨trivial, by simp [encode]⟩
    · obtain ⟨f, reissuable, h₁, -, rfl⟩ := seq_read_eq_some hchoice
      obtain ⟨f, amount, h₂, -, rfl⟩ := seq_read_eq_some h₁
      obtain ⟨asset, -, rfl, rfl⟩ := map_read_eq_some h₂
      exact ⟨trivial, by simp [encode]⟩
    · obtain ⟨f, amount, h₁, -, rfl⟩ := seq_read_eq_some hchoice
      obtain ⟨asset, -, rfl, rfl⟩ := map_read_eq_some h₁
      exact ⟨trivial, by simp [encode]⟩
    · exact nomatch hchoice

/-- A function is found at the place that its number says, and nowhere else. -/
instance : Canonical Builtin where
  takesOnly input f rest h := by
    obtain ⟨tag, htag, hok⟩ := checked_eq_some h
    obtain rfl := byte_eq_some htag
    obtain ⟨hlt, hget⟩ := List.getElem?_eq_some_iff.1 hok
    have hnodup : Builtin.all.Nodup := by decide
    have hplace := hnodup.idxOf_getElem tag.toNat hlt
    rw [hget] at hplace
    refine ⟨trivial, ?_⟩
    show _ = UInt8.ofNat (Builtin.all.idxOf f) :: rest
    rw [hplace, UInt8.ofNat_toNat]

theorem flatMap_encodeValue (items : List Value) :
    items.flatMap encodeValue = encodeItems items := by
  induction items with
  | nil => rfl
  | cons item items ih => rw [List.flatMap_cons, ih, encodeItems]

theorem flatMap_encodeExpr (args : List Expr) : args.flatMap encodeExpr = encodeArgs args := by
  induction args with
  | nil => rfl
  | cons arg args ih => rw [List.flatMap_cons, ih, encodeArgs]

/-- A reader of values takes only what a value is written as, however deep it may
    go. -/
theorem takesOnly_readValue (depth : Nat) : (readValue depth).TakesOnly FitsValue encodeValue := by
  induction depth with
  | zero => exact fun _ _ _ h => nomatch h
  | succ depth ih =>
    intro input v rest h
    obtain ⟨tag, mid, rfl, hchoice⟩ := tag_eq_some h
    split at hchoice
    · obtain ⟨rfl, rfl⟩ := pure_eq_some hchoice
      exact ⟨trivial, rfl⟩
    · obtain ⟨n, -, rfl, rfl⟩ := map_read_eq_some hchoice
      exact ⟨trivial, rfl⟩
    · obtain ⟨b, -, rfl, rfl⟩ := map_read_eq_some hchoice
      exact ⟨trivial, rfl⟩
    · obtain ⟨bs, hbs, rfl, rfl⟩ := map_read_eq_some hchoice
      exact ⟨hbs, rfl⟩
    · obtain ⟨s, hs, rfl, rfl⟩ := map_read_eq_some hchoice
      exact ⟨hs, rfl⟩
    · -- a list: its length, and then as many items one level further down
      obtain ⟨n, mid', hn, hlist⟩ := bind_eq_some_iff.1 hchoice
      obtain ⟨hlt, rfl⟩ := takesOnly_number 4 hn
      obtain ⟨items, hitems, rfl⟩ := map_eq_some_iff.1 hlist
      obtain ⟨rfl, hall, rfl⟩ := times_eq_some ih hitems
      refine ⟨⟨hlt, fitsItems_iff.2 hall⟩, ?_⟩
      rw [flatMap_encodeValue, encodeValue, List.cons_append, List.append_assoc]
    · obtain ⟨action, haction, rfl, rfl⟩ := map_read_eq_some hchoice
      exact ⟨haction, rfl⟩
    · exact nomatch hchoice

instance : Canonical Value where
  takesOnly input _ _ h := takesOnly_readValue input.length h

/-- A reader of expressions takes only what an expression is written as, however
    deep it may go. -/
theorem takesOnly_readExpr (depth : Nat) : (readExpr depth).TakesOnly FitsExpr encodeExpr := by
  induction depth with
  | zero => exact fun _ _ _ h => nomatch h
  | succ depth ih =>
    intro input e rest h
    obtain ⟨tag, mid, rfl, hchoice⟩ := tag_eq_some h
    split at hchoice
    · obtain ⟨v, hv, rfl⟩ := map_eq_some_iff.1 hchoice
      obtain ⟨hfits, rfl⟩ := takesOnly_readValue depth hv
      exact ⟨hfits, rfl⟩
    · obtain ⟨name, hname, rfl, rfl⟩ := map_read_eq_some hchoice
      exact ⟨hname, rfl⟩
    · obtain ⟨f, mid₁, h₁, body, hbody, rfl⟩ := seq_eq_some_iff.1 hchoice
      obtain ⟨f, mid₂, h₂, value, hvalue, rfl⟩ := seq_eq_some_iff.1 h₁
      obtain ⟨name, hname, rfl, rfl⟩ := map_read_eq_some h₂
      obtain ⟨hfitsValue, rfl⟩ := ih hvalue
      obtain ⟨hfitsBody, rfl⟩ := ih hbody
      exact ⟨⟨hname, hfitsValue, hfitsBody⟩, by simp [encodeExpr]⟩
    · obtain ⟨f, mid₁, h₁, no, hno, rfl⟩ := seq_eq_some_iff.1 hchoice
      obtain ⟨f, mid₂, h₂, yes, hyes, rfl⟩ := seq_eq_some_iff.1 h₁
      obtain ⟨cond, hcond, rfl⟩ := map_eq_some_iff.1 h₂
      obtain ⟨hfitsCond, rfl⟩ := ih hcond
      obtain ⟨hfitsYes, rfl⟩ := ih hyes
      obtain ⟨hfitsNo, rfl⟩ := ih hno
      exact ⟨⟨hfitsCond, hfitsYes, hfitsNo⟩, by simp [encodeExpr]⟩
    · -- a call: the function, the number of arguments, and the arguments one level further down
      obtain ⟨function, mid₁, hfunction, hcall⟩ := bind_eq_some_iff.1 hchoice
      obtain ⟨-, rfl⟩ := read_eq_some hfunction
      obtain ⟨n, mid₂, hn, hlist⟩ := bind_eq_some_iff.1 hcall
      obtain ⟨hlt, rfl⟩ := takesOnly_number 4 hn
      obtain ⟨args, hargs, rfl⟩ := map_eq_some_iff.1 hlist
      obtain ⟨rfl, hall, rfl⟩ := times_eq_some ih hargs
      refine ⟨⟨hlt, fitsArgs_iff.2 hall⟩, ?_⟩
      rw [flatMap_encodeExpr, encodeExpr, List.cons_append, List.append_assoc, List.append_assoc]
    · obtain ⟨message, hmessage, rfl, rfl⟩ := map_read_eq_some hchoice
      exact ⟨hmessage, rfl⟩
    · exact nomatch hchoice

instance : Canonical Expr where
  takesOnly input _ _ h := takesOnly_readExpr input.length h

/-! ## Section 4: Transactions and progress -/

instance : Canonical Payment where
  takesOnly input payment rest h := by
    obtain ⟨f, amount, h₁, -, rfl⟩ := seq_read_eq_some h
    obtain ⟨asset, -, rfl, rfl⟩ := map_read_eq_some h₁
    exact ⟨trivial, by simp [encode]⟩

instance : Canonical FunctionCall where
  takesOnly input call rest h := by
    obtain ⟨f, args, h₁, hargs, rfl⟩ := seq_read_eq_some h
    obtain ⟨function, hfunction, rfl, rfl⟩ := map_read_eq_some h₁
    refine ⟨⟨hfunction, hargs⟩, ?_⟩
    show _ = encode function ++ encode args ++ rest
    rw [List.append_assoc]

instance : Canonical Invocation where
  takesOnly input tx rest h := by
    obtain ⟨f, timestamp, h₁, -, rfl⟩ := seq_read_eq_some h
    obtain ⟨f, fee, h₂, -, rfl⟩ := seq_read_eq_some h₁
    obtain ⟨f, payments, h₃, hpayments, rfl⟩ := seq_read_eq_some h₂
    obtain ⟨f, call, h₄, hcall, rfl⟩ := seq_read_eq_some h₃
    obtain ⟨f, dapp, h₅, -, rfl⟩ := seq_read_eq_some h₄
    obtain ⟨f, sender, h₆, -, rfl⟩ := seq_read_eq_some h₅
    obtain ⟨id, -, rfl, rfl⟩ := map_read_eq_some h₆
    refine ⟨⟨hcall, hpayments⟩, ?_⟩
    show _ = encode id ++ (encode sender ++ encode dapp ++ encode call ++ encode payments
      ++ encode fee ++ encode timestamp) ++ rest
    simp only [List.append_assoc]

instance : Canonical Continuation where
  takesOnly input tx rest h := by
    obtain ⟨f, timestamp, h₁, -, rfl⟩ := seq_read_eq_some h
    obtain ⟨f, fee, h₂, -, rfl⟩ := seq_read_eq_some h₁
    obtain ⟨f, step, h₃, -, rfl⟩ := seq_read_eq_some h₂
    obtain ⟨f, invocation, h₄, -, rfl⟩ := seq_read_eq_some h₃
    obtain ⟨id, -, rfl, rfl⟩ := map_read_eq_some h₄
    refine ⟨trivial, ?_⟩
    show _ = encode id ++ (encode invocation ++ encode step ++ encode fee ++ encode timestamp)
      ++ rest
    simp only [List.append_assoc]

instance : Canonical Progress where
  takesOnly input mark rest h := by
    obtain ⟨tag, mid, rfl, hchoice⟩ := tag_eq_some h
    split at hchoice
    · obtain ⟨f, unused, h₁, -, rfl⟩ := seq_read_eq_some hchoice
      obtain ⟨f, e, h₂, he, rfl⟩ := seq_read_eq_some h₁
      obtain ⟨step, -, rfl, rfl⟩ := map_read_eq_some h₂
      refine ⟨he, ?_⟩
      show _ = 0 :: (encode step ++ encode e ++ encode unused) ++ rest
      simp only [List.append_assoc, List.cons_append]
    · obtain ⟨rfl, rfl⟩ := pure_eq_some hchoice
      exact ⟨trivial, rfl⟩
    · exact nomatch hchoice

/-! ## Section 5: One form -/

/-- Every value that fits has one form, which says itself where it ends, and
    nothing else is accepted. -/
structure OneForm (α : Type) [Wire α] : Prop where
  /-- Reading stops where the bytes of the value end, whatever follows them. -/
  delimited : ∀ (a : α) (rest : List UInt8), Fits a →
    (read : Reader α).run (encode a ++ rest) = some (a, rest)
  /-- A value is read back from its bytes. -/
  readBack : ∀ a : α, Fits a → decode? (encode a) = some a
  /-- The bytes that are accepted are those of the value read from them. -/
  writtenBack : ∀ (bytes : List UInt8) (a : α), decode? bytes = some a → Fits a ∧ encode a = bytes
  /-- Bytes that are not those of a value are refused. -/
  refused : ∀ bytes : List UInt8, (∀ a : α, Fits a → encode a ≠ bytes) →
    (decode? bytes : Option α) = none

/-- Bytes that are accepted as a whole are those of the value read from them. -/
theorem fits_and_encode_of_decode? [Wire α] [Canonical α] {bytes : List UInt8} {a : α}
    (h : decode? bytes = some a) : Fits a ∧ encode a = bytes := by
  unfold decode? at h
  split at h
  · rename_i a' hread
    obtain rfl := Option.some.inj h
    obtain ⟨hfits, hbytes⟩ := read_eq_some hread
    rw [List.append_nil] at hbytes
    exact ⟨hfits, hbytes.symm⟩
  · exact nomatch h

/-- Reading accepts exactly what writing makes. -/
theorem decode?_eq_some_iff [Wire α] [Faithful α] [Canonical α] {bytes : List UInt8} {a : α} :
    decode? bytes = some a ↔ Fits a ∧ encode a = bytes :=
  ⟨fits_and_encode_of_decode?, fun ⟨hfits, hbytes⟩ => hbytes ▸ decode?_encode hfits⟩

theorem oneForm [Wire α] [Faithful α] [Canonical α] : OneForm α where
  delimited a rest hfits := takes_read hfits rest
  readBack _ hfits := decode?_encode hfits
  writtenBack _ _ h := fits_and_encode_of_decode? h
  refused bytes h := by
    rw [Option.eq_none_iff_forall_ne_some]
    intro a ha
    obtain ⟨hfits, hbytes⟩ := fits_and_encode_of_decode? ha
    exact h a hfits hbytes

/-- **Each value has one form**: expressions, values and all they are made of,
    calls and payments, both kinds of transactions, and progress. -/
theorem wire_has_one_form :
    OneForm Expr ∧ OneForm Value ∧ OneForm DataValue ∧ OneForm Action ∧ OneForm Builtin ∧
      OneForm Asset ∧ OneForm Payment ∧ OneForm FunctionCall ∧ OneForm Progress ∧
      OneForm Invocation ∧ OneForm Continuation :=
  ⟨oneForm, oneForm, oneForm, oneForm, oneForm, oneForm, oneForm, oneForm, oneForm, oneForm,
    oneForm⟩

end Wire

end MeteredLedger
