import MeteredLedger.Proofs.ReadBack

/-! # Names of transactions

    A transaction is named by the digest of its content: the number of its kind,
    and everything in it but the name. The content can be read back, so it tells
    every transaction from every other one: no field can take over bytes of the
    next, however long it is and however deep its values are nested, and the
    kinds do not mix. Whether names tell transactions apart is then up to the
    digest alone, and only to its values at the two contents compared.

    * `Transaction.SameFields`: two transactions of one kind that differ in their
      names at most.
    * `sameFields_of_content`: the content has everything else.
    * `names_tell_apart`: what contents and names say of two transactions. -/

namespace MeteredLedger

/-! ## Section 1: Contents -/

/-- An invocation that can be written has a content. -/
theorem Invocation.content_of_fits {tx : Invocation} (h : Wire.Fits tx) :
    tx.content = TransactionKind.invocation.number :: Wire.encodeInvocationFields tx := if_pos h

/-- The content of an invocation is its binary form without the name, so it has
    all its fields. -/
theorem Invocation.eq_of_content {tx tx' : Invocation} (htx : Wire.Fits tx) (htx' : Wire.Fits tx')
    (h : tx.content = tx'.content) : { tx with id := tx'.id } = tx' := by
  rw [content_of_fits htx, content_of_fits htx'] at h
  have hfields : Wire.encodeInvocationFields tx = Wire.encodeInvocationFields tx' :=
    (List.cons.inj h).2
  have hbytes : Wire.encode { tx with id := tx'.id } = Wire.encode tx' := by
    show Wire.encode tx'.id ++ Wire.encodeInvocationFields tx = _
    rw [hfields]
    rfl
  exact Wire.encode_injective htx htx' hbytes

/-- The content of a continuation has all its fields. -/
theorem Continuation.eq_of_content {tx tx' : Continuation} (h : tx.content = tx'.content) :
    { tx with id := tx'.id } = tx' := by
  have hfields : Wire.encodeContinuationFields tx = Wire.encodeContinuationFields tx' :=
    (List.cons.inj h).2
  have hbytes : Wire.encode { tx with id := tx'.id } = Wire.encode tx' := by
    show Wire.encode tx'.id ++ Wire.encodeContinuationFields tx = _
    rw [hfields]
    rfl
  exact Wire.encode_injective trivial trivial hbytes

/-! ## Section 2: Names -/

namespace Transaction

/-- The bytes that name a transaction. -/
def content : Transaction → List UInt8
  | invocation tx => tx.content
  | continuation tx => tx.content

/-- The transaction under the name that its content gives it. -/
def sealed : Transaction → Transaction
  | invocation tx => .invocation tx.sealed
  | continuation tx => .continuation tx.sealed

/-- Every length in a transaction can be written in four bytes. -/
def Fits : Transaction → Prop
  | invocation tx => Wire.Fits tx
  | continuation tx => Wire.Fits tx

/-- Two transactions are of the same kind, and all their fields are equal, up to
    their names. -/
def SameFields : Transaction → Transaction → Prop
  | invocation tx, invocation tx' => { tx with id := tx'.id } = tx'
  | continuation tx, continuation tx' => { tx with id := tx'.id } = tx'
  | _, _ => False

variable {tx tx' : Transaction}

theorem id_sealed (tx : Transaction) : tx.sealed.id = Sha256.hash tx.content := by
  cases tx <;> rfl

/-- The name that a transaction has been given is no part of its content. -/
theorem content_of_sameFields (h : tx.SameFields tx') : tx.content = tx'.content := by
  match tx, tx' with
  | .invocation tx, .invocation tx' =>
    have hsame : { tx with id := tx'.id } = tx' := h
    have hcontent := congrArg Invocation.content hsame
    exact hcontent
  | .continuation tx, .continuation tx' =>
    have hsame : { tx with id := tx'.id } = tx' := h
    have hcontent := congrArg Continuation.content hsame
    exact hcontent

/-- **The content tells transactions apart**: those with the same content are of
    the same kind, and have the same fields. -/
theorem sameFields_of_content (htx : tx.Fits) (htx' : tx'.Fits) (h : tx.content = tx'.content) :
    tx.SameFields tx' := by
  match tx, tx' with
  | .invocation tx, .invocation tx' => exact Invocation.eq_of_content htx htx' h
  | .continuation tx, .continuation tx' => exact Continuation.eq_of_content h
  | .invocation tx, .continuation tx' =>
    -- the contents differ in their first byte
    have hbytes := (Invocation.content_of_fits htx).symm.trans h
    exact absurd (List.cons.inj hbytes).1 (by decide)
  | .continuation tx, .invocation tx' =>
    have hbytes := h.trans (Invocation.content_of_fits htx')
    exact absurd (List.cons.inj hbytes).1 (by decide)

end Transaction

/-- **Names tell transactions apart.** Two transactions have the same content
    exactly if they are of the same kind with equal fields. Unless their contents
    are a collision of the digest, they are given the same name exactly then. -/
theorem names_tell_apart {tx tx' : Transaction} (htx : tx.Fits) (htx' : tx'.Fits) :
    (tx.content = tx'.content ↔ tx.SameFields tx') ∧
      ((Sha256.hash tx.content = Sha256.hash tx'.content → tx.content = tx'.content) →
        (tx.sealed.id = tx'.sealed.id ↔ tx.SameFields tx')) := by
  have hcontent : tx.content = tx'.content ↔ tx.SameFields tx' :=
    ⟨Transaction.sameFields_of_content htx htx', Transaction.content_of_sameFields⟩
  refine ⟨hcontent, fun hdigest => ?_⟩
  rw [Transaction.id_sealed, Transaction.id_sealed, ← hcontent]
  exact ⟨hdigest, congrArg Sha256.hash⟩

/-- Two calls in which the same letters are spread over the name of the function
    and its argument in different ways. -/
theorem names_tell_apart_of_calls :
    let tx := Transaction.invocation
      ⟨.zero, .fill 1, .fill 2, ⟨"ab", [.str "c"]⟩, [⟨.native, 5⟩], 900000, 7⟩
    let tx' := Transaction.invocation
      ⟨.zero, .fill 1, .fill 2, ⟨"a", [.str "bc"]⟩, [⟨.native, 5⟩], 900000, 7⟩
    tx.Fits ∧ tx'.Fits ∧
      (Sha256.hash tx.content = Sha256.hash tx'.content → tx.content = tx'.content) ∧
      tx.content ≠ tx'.content ∧ tx.sealed.id ≠ tx'.sealed.id := by
  intro tx tx'
  have hcall : ∀ function arg : String, (Script.utf8Bytes function).length < UInt32.size →
      (Script.utf8Bytes arg).length < UInt32.size →
      Wire.Fits (⟨function, [.str arg]⟩ : Script.FunctionCall) := by
    intro function arg hfunction harg
    have hone : 1 < UInt32.size := by decide
    exact ⟨hfunction, hone, List.forall_mem_singleton.2 harg⟩
  have htx : tx.Fits := ⟨hcall "ab" "c" (by decide) (by decide), by decide, fun _ _ => trivial⟩
  have htx' : tx'.Fits := ⟨hcall "a" "bc" (by decide) (by decide), by decide, fun _ _ => trivial⟩
  have hdigest : Sha256.hash tx.content = Sha256.hash tx'.content → tx.content = tx'.content := by
    have hne : Sha256.hash tx.content ≠ Sha256.hash tx'.content := by decide +kernel
    exact fun hsame => absurd hsame hne
  have hfields : ¬tx.SameFields tx' := by
    intro hsame
    have hcall := congrArg (fun tx : Invocation => tx.call.function) hsame
    exact absurd hcall (by decide)
  obtain ⟨hcontent, hnames⟩ := names_tell_apart htx htx'
  exact ⟨htx, htx', hdigest, fun h => hfields (hcontent.1 h),
    fun h => hfields ((hnames hdigest).1 h)⟩

end MeteredLedger
